import InstructionSet.Error
import InstructionSet.Format
import InstructionSet.Instruction
import InstructionSet.Validation.Problem

/-!
# Checking a description

Formats are checked first, in order, and then the instructions; every broken rule
is reported, and one does not hide another, except that

* a field of impossible width is not checked for its range and its constant,
* the selectors of an instruction are not checked if its format is unknown.

Names and numbers that were seen are kept in a `Register`, which may serve for
several descriptions in a row. It remembers of a format only its *place* in the
list that declared it last, so an instruction is checked against whatever format
is in that place of the present list.
-/

namespace InstructionSet.Validation

/-! ## Formats -/

/-- What is wrong with a field, given the names of those before it. -/
def fieldProblems (format : Format) (before : List String) (f : Field) : List Problem :=
  let duplicate := if f.name ∈ before then [.duplicateField format.name f.name] else []
  if !f.layout.readable then
    duplicate ++ [.fieldWidth format.name f.name f.layout.size]
  else
    let range :=
      if f.endBit ≤ format.bits.toNat then []
      else [.fieldRange format.name f.name f.layout format.bits]
    let constant :=
      match f.constant with
      | none => []
      | some value =>
        if f.fits value then [] else [.constantRange format.name f.name f.layout.size value]
    duplicate ++ range ++ constant

/-- What is wrong with the fields of a format, given the names of those before them. -/
def fieldListProblems (format : Format) : List String → List Field → List Problem
  | _, [] => []
  | before, f :: rest =>
    fieldProblems format before f ++ fieldListProblems format (f.name :: before) rest

/-- Whether the format is a positive whole number of bytes wide. -/
def aligned (format : Format) : Bool := format.bits ≠ 0 ∧ format.bits % 8 = 0

/-- What is wrong with a format; `known` if its name is taken. -/
def formatProblems (known : Bool) (format : Format) : List Problem :=
  (if known then [.duplicateFormat format.name] else [])
    ++ (if aligned format then [] else [.unalignedFormat format.name format.bits])
    ++ fieldListProblems format [] format.fields

/-! ## Instructions -/

/-- What is wrong with the selectors of an instruction, given the fields that were looked at before
them. A field that the format does not have was not looked at. -/
def selectorProblems (instruction : String) (format : Format) :
    List String → List Selector → List Problem
  | _, [] => []
  | before, s :: rest =>
    match format.field? s.field with
    | none =>
      .unknownSelectorField instruction s.field format.name
        :: selectorProblems instruction format before rest
    | some f =>
      (if f.fits s.value then []
        else [.selectorRange instruction s.field s.value f.layout.size])
      ++ (if s.field ∈ before then [.repeatedSelectorField instruction s.field] else [])
      ++ selectorProblems instruction format (s.field :: before) rest

/-- What is wrong with an instruction apart from its format and selectors; `previous` is the name
that has its number already. -/
def headProblems (previous : Option String) (i : Instruction) : List Problem :=
  (match previous with
    | none => []
    | some name => [.duplicateInstructionId i.id name i.name])
  ++ (if i.selectors.isEmpty then [.emptySelectors i.name] else [])

/-! ## The register -/

/-- What has been declared so far, latest first. -/
structure Register where
  /-- The names of formats, each with its place in the list that declared it. -/
  formats : List (String × Nat) := []
  /-- The numbers of instructions, each with the name of the instruction that took it. -/
  instructions : List (InstructionId × String) := []

namespace Register

/-- Checks the formats from `place` on, and enters them. -/
def checkFormats (r : Register) (place : Nat) : List Format → List Problem × Register
  | [] => ([], r)
  | f :: rest =>
    let known := (r.formats.lookup f.name).isSome
    let entered := { r with formats := (f.name, place) :: r.formats }
    let (later, last) := entered.checkFormats (place + 1) rest
    (formatProblems known f ++ later, last)

/-- Checks one instruction against the format in the place that its format's name has. -/
def instructionProblems (r : Register) (formats : List Format) (i : Instruction) :
    Except Fault (List Problem) :=
  let head := headProblems (r.instructions.lookup i.id) i
  match r.formats.lookup i.format with
  | none => .ok (head ++ [.unknownFormat i.name i.format])
  | some place =>
    match formats[place]? with
    | none => .error (.formatOutOfRange place)
    | some format => .ok (head ++ selectorProblems i.name format [] i.selectors.toList)

/-- Checks the instructions one after the other, and enters them. -/
def checkInstructions (r : Register) (formats : List Format) :
    List Instruction → Except Fault (List Problem × Register)
  | [] => .ok ([], r)
  | i :: rest =>
    match r.instructionProblems formats i with
    | .error fault => .error fault
    | .ok problems =>
      let entered := { r with instructions := (i.id, i.name) :: r.instructions }
      match entered.checkInstructions formats rest with
      | .error fault => .error fault
      | .ok (later, last) => .ok (problems ++ later, last)

/-- Checks a description, and enters it whether or not it is sound. -/
def check (r : Register) (formats : List Format) (instructions : List Instruction) :
    Except Fault (List Problem × Register) :=
  let (early, entered) := r.checkFormats 0 formats
  match entered.checkInstructions formats instructions with
  | .error fault => .error fault
  | .ok (late, last) => .ok (early ++ late, last)

end Register

/-- Warnings alone are passed on. One error refuses the description, and then everything that was
found is reported. -/
def verdict (problems : List Problem) : Except Error (List Diagnostic) :=
  let found := problems.map Problem.diagnostic
  if found.any Diagnostic.isError then .error (.diagnostics .validation found) else .ok found

end InstructionSet.Validation
