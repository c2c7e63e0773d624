import InstructionSet.Bits.Window
import InstructionSet.Diagnostic
import InstructionSet.Fault
import InstructionSet.Identifier

/-!
# Errors

An `Error` says why a description was refused or a question about a decoder has
no answer; `Error.message` is its text. A `Failure` is an error or a fault.
-/

namespace InstructionSet

/-- Why a description is refused, or a question about a decoder goes unanswered. -/
inductive Error where
  /-- The stage `phase` of a build found fault with the description. -/
  | diagnostics (phase : Phase) (found : List Diagnostic)
  | unknownFormat (name : String)
  | unknownInstruction (id : InstructionId)
  | unknownInstructionName (name : String)
  | unknownField (name : String)
  /-- A word could not be put together. -/
  | encoding (reason : String)
deriving DecidableEq

namespace Error

/-- A failed access to bits, as the reason why a word could not be put together. -/
def ofAccess (e : AccessError) : Error := .encoding s!"bit access failed: {e.message}"

/-- The findings that an error carries. -/
def found : Error → List Diagnostic
  | diagnostics _ found => found
  | _ => []

/-- The text of an error. Findings are listed one to a line, each line ended. -/
def message : Error → String
  | diagnostics phase found =>
    s!"{phase.text} produced {found.length} issue(s):\n"
      ++ String.join (found.map fun d => s!"  - {d.text}\n")
  | unknownFormat name => s!"invalid format name '{name}'"
  | unknownInstruction id => s!"invalid instruction id {id.text}"
  | unknownInstructionName name => s!"invalid instruction name '{name}'"
  | unknownField name => s!"invalid field name '{name}'"
  | encoding reason => s!"encoding error: {reason}"

end Error

/-- Why a build comes to nothing. -/
inductive Failure where
  | refused (error : Error)
  | fault (fault : Fault)
deriving DecidableEq

end InstructionSet
