import InstructionSet.Bits.Layout
import InstructionSet.Diagnostic
import InstructionSet.Identifier

/-!
# What can be wrong with a description

Every way in which a format, a field, an instruction or a selector can break the
rules, each with what is needed to say so. `Problem.diagnostic` gives the code
and the sentence; nothing else words them.
-/

namespace InstructionSet.Validation

/-- A broken rule, and who breaks it. -/
inductive Problem where
  /-- The name of the format is taken. -/
  | duplicateFormat (format : String)
  /-- The format is empty, or not a whole number of bytes. -/
  | unalignedFormat (format : String) (bits : UInt32)
  /-- The name of the field is taken in its format. -/
  | duplicateField (format field : String)
  /-- The field is not 1 to 64 bits wide. -/
  | fieldWidth (format field : String) (size : UInt32)
  /-- The field reaches past the end of its format. -/
  | fieldRange (format field : String) (layout : Layout) (bits : UInt32)
  /-- The field is too narrow for the constant it holds. -/
  | constantRange (format field : String) (size : UInt32) (value : Int64)
  /-- The number of the instruction is taken. -/
  | duplicateInstructionId (id : InstructionId) (previous instruction : String)
  /-- The instruction demands nothing, so that it cannot be recognised. -/
  | emptySelectors (instruction : String)
  /-- The format of the instruction is not declared. -/
  | unknownFormat (instruction format : String)
  /-- The instruction looks at a field that its format does not have. -/
  | unknownSelectorField (instruction field format : String)
  /-- The field is too narrow for the value that the instruction demands. -/
  | selectorRange (instruction field : String) (value : Int64) (size : UInt32)
  /-- The instruction looks at the field twice. -/
  | repeatedSelectorField (instruction field : String)
deriving DecidableEq

namespace Problem

/-- A field that is looked at twice is bearable, and nothing else is. -/
def severity : Problem → Severity
  | repeatedSelectorField .. => .warning
  | _ => .error

def code : Problem → String
  | duplicateFormat .. => "validation.duplicate-format"
  | unalignedFormat .. => "validation.unaligned-format"
  | duplicateField .. => "validation.duplicate-field"
  | fieldWidth .. => "validation.field-width"
  | fieldRange .. => "validation.field-range"
  | constantRange .. => "validation.constant-range"
  | duplicateInstructionId .. => "validation.duplicate-instruction-id"
  | emptySelectors .. => "validation.empty-selectors"
  | unknownFormat .. => "validation.unknown-format"
  | unknownSelectorField .. => "validation.unknown-selector-field"
  | selectorRange .. => "validation.selector-range"
  | repeatedSelectorField .. => "validation.repeated-selector-field"

def message : Problem → String
  | duplicateFormat format => s!"format '{format}' defined multiple times"
  | unalignedFormat format bits => s!"format '{format}' width ({bits} bits) is not byte-aligned"
  | duplicateField format field =>
    s!"field '{field}' declared multiple times in format '{format}'"
  | fieldWidth format field size =>
    s!"field '{format}::{field}' has width {size} outside 1..=64"
  | fieldRange format field layout bits =>
    s!"field '{format}::{field}' covers bits {layout.firstBit}..{layout.endBit} " ++
      s!"beyond the {bits}-bit format"
  | constantRange format field size value =>
    s!"constant {value} does not fit field '{format}::{field}' ({size} bits)"
  | duplicateInstructionId id previous instruction =>
    s!"instruction id {id.text} shared by '{previous}' and '{instruction}'"
  | emptySelectors instruction => s!"instruction '{instruction}' doesn't have a decode list"
  | unknownFormat instruction format =>
    s!"instruction '{instruction}' references undefined format '{format}'"
  | unknownSelectorField instruction field format =>
    s!"instruction '{instruction}' selects on '{field}' " ++
      s!"which format '{format}' does not declare"
  | selectorRange instruction field value size =>
    s!"instruction '{instruction}' selects {field}={value} which does not fit {size} bits"
  | repeatedSelectorField instruction field =>
    s!"instruction '{instruction}' tests field '{field}' more than once"

/-- The format, field or instruction that breaks the rule. -/
def subject : Problem → String
  | duplicateFormat format => format
  | unalignedFormat format _ => format
  | duplicateField _ field => field
  | fieldWidth _ field _ => field
  | fieldRange _ field _ _ => field
  | constantRange _ field _ _ => field
  | duplicateInstructionId _ _ instruction => instruction
  | emptySelectors instruction => instruction
  | unknownFormat instruction _ => instruction
  | unknownSelectorField instruction _ _ => instruction
  | selectorRange instruction _ _ _ => instruction
  | repeatedSelectorField instruction _ => instruction

def diagnostic (p : Problem) : Diagnostic where
  phase := .validation
  severity := p.severity
  code := p.code
  message := p.message
  subject := some p.subject

end Problem

end InstructionSet.Validation
