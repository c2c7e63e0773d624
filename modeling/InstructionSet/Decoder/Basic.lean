import InstructionSet.Decoder.Finding
import InstructionSet.Decoder.Options
import InstructionSet.Forest.Insert
import InstructionSet.Instruction
import InstructionSet.Validation.Register

/-!
# Building a decoder

A description becomes a decoder in three stages, each of which reports all that
it finds before it refuses: the formats and instructions are checked, the fields
of one name are brought together, and the selector chains are entered into a
forest in the order in which the instructions are declared.
-/

namespace InstructionSet

/-- An instruction as a decoder knows it. -/
structure Decoder.Entry where
  /-- Its place among the instructions. -/
  place : Nat
  /-- The instruction, with the size of its format. -/
  instruction : Instruction
  /-- The format, its fields numbered. -/
  format : Format
deriving DecidableEq

/-- A description that was found sound, made ready for decoding. -/
structure Decoder where
  options : Decoder.Options
  formats : List Format
  table : FieldTable
  /-- The instructions in the order of their declaration. -/
  entries : List Decoder.Entry
  forest : Forest Decoder.Entry
  /-- What was found and is bearable. -/
  warnings : List Diagnostic

namespace Decoder

/-! ## Instructions and their chains -/

def Entry.name (e : Entry) : String := e.instruction.name

/-- The test that a selector of the instruction stands for. -/
def Entry.test (e : Entry) (s : Selector) : Except Error Test :=
  match (e.format.field? s.field).bind (·.id) with
  | none => .error (.unknownField s.field)
  | some field => .ok { field, value := s.value }

/-- The tests that the selectors of the instruction stand for. -/
def Entry.chain (e : Entry) : Except Error (List Test) := e.instruction.selectors.toList.mapM e.test

/-- Puts the instruction in place `place` together with its format. -/
def Entry.ofInstruction (formats : List Format) (place : Nat) (i : Instruction) :
    Except Error Entry :=
  match formats.find? (·.name = i.format) with
  | none => .error (.unknownFormat i.format)
  | some format => .ok { place, format, instruction := { i with size := format.sizeBytes } }

/-- Puts the instructions from `place` on together with their formats. -/
def entriesFrom (formats : List Format) (place : Nat) :
    List Instruction → Except Error (List Entry)
  | [] => .ok []
  | i :: rest =>
    match Entry.ofInstruction formats place i with
    | .error e => .error e
    | .ok entry => (entriesFrom formats (place + 1) rest).map (entry :: ·)

/-! ## Bringing the chains together -/

/-- What entering the chain of `e` brings to light. -/
def findings (policy : DuplicatePolicy) (e : Entry) :
    Except (Forest.Refusal Entry) (Forest.Placement Entry) → List Finding
  | .error .emptyChain => [.emptyChain e.name]
  | .error (.occupied existing) => [.conflict existing.name e.name]
  | .ok placement =>
    let replaced := placement.replaced.toList.map fun other => .replaced other.name e.name
    let front := placement.shadowedBy.toList.map fun other =>
      match policy with
      | .reject => .conflict other.name e.name
      | .lastWins => .unreachable e.name other.name
    let behind := placement.shadows.toList.map fun other =>
      match policy with
      | .reject => .conflict other.name e.name
      | .lastWins => .hides e.name other.name
    replaced ++ front ++ behind

/-- Enters chains one after the other, and gathers what comes to light. -/
def enter (policy : DuplicatePolicy) (f : Forest Entry) :
    List (Entry × List Test) → Forest Entry × List Finding
  | [] => (f, [])
  | (e, chain) :: rest =>
    let (result, f) := f.insert e chain (policy = .lastWins)
    let (last, later) := enter policy f rest
    (last, findings policy e result ++ later)

/-- A forest with more levels than the options allow without comment. -/
def depthFindings (options : Decoder.Options) (f : Forest Entry) : List Finding :=
  if options.depthWarning < f.maxDepth then [.deep f.maxDepth options.depthWarning] else []

/-! ## The three stages -/

/-- Checks a description by itself. Answers the warnings. -/
def validate (formats : List Format) (instructions : List Instruction) :
    Except Failure (List Diagnostic) :=
  match ({} : Validation.Register).check formats instructions with
  | .error fault => .error (.fault fault)
  | .ok (problems, _) => (Validation.verdict problems).mapError Failure.refused

/-- Brings the fields together. Answers the table and the numbered formats. -/
def unify (formats : List Format) : Except Failure (FieldTable × List Format) :=
  match FieldTable.unify formats with
  | .error fault => .error (.fault fault)
  | .ok unified =>
    match unified.verdict with
    | .error e => .error (.refused e)
    | .ok table => .ok (table, unified.formats)

/-- Puts each instruction together with its format and its tests. -/
def resolve (formats : List Format) (instructions : List Instruction) :
    Except Error (List (Entry × List Test)) :=
  match entriesFrom formats 0 instructions with
  | .error e => .error e
  | .ok entries => entries.mapM fun e => e.chain.map (e, ·)

/-- Brings the chains together, and makes a decoder of it all unless there was an error. The
`warnings` were found earlier. -/
def assemble (options : Decoder.Options) (table : FieldTable) (formats : List Format)
    (chains : List (Entry × List Test)) (warnings : List Diagnostic) : Except Error Decoder :=
  let (forest, found) := enter options.duplicates {} chains
  let reports := found.map Finding.diagnostic
  let errors := reports.filter Diagnostic.isError
  if errors.isEmpty then
    .ok {
      options, table, formats, forest
      entries := chains.map Prod.fst
      warnings := warnings ++ reports ++ (depthFindings options forest).map Finding.diagnostic }
  else .error (.diagnostics .treeBuild errors)

/-- Makes a decoder of a description. -/
def build (formats : List Format) (instructions : List Instruction) (options : Decoder.Options) :
    Except Failure Decoder := do
  let warnings ← validate formats instructions
  let (table, formats) ← unify formats
  let chains ← (resolve formats instructions).mapError Failure.refused
  (assemble options table formats chains warnings).mapError Failure.refused

end Decoder

end InstructionSet
