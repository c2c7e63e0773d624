import InstructionSet.Field

/-!
# Formats

A format is the layout of a whole instruction, shared by the instructions that
are encoded alike. Its fields may leave bits uncovered, and nothing here keeps
them from overlapping.
-/

namespace InstructionSet

/-- A named layout of an instruction's bits. -/
structure Format where
  name : String
  /-- The width of an instruction of this format. -/
  bits : UInt32
  fields : List Field := []
deriving DecidableEq

namespace Format

/-- The format with one more field after its present ones. -/
def push (f : Format) (field : Field) : Format := { f with fields := f.fields ++ [field] }

/-- The first field called `name`. -/
def field? (f : Format) (name : String) : Option Field := f.fields.find? (·.name = name)

theorem name_of_field? {f : Format} {name : String} {g : Field} (h : f.field? name = some g) :
    g.name = name := by
  simpa using List.find?_some h

theorem mem_of_field? {f : Format} {name : String} {g : Field} (h : f.field? name = some g) :
    g ∈ f.fields := List.mem_of_find?_eq_some h

def contains (f : Format) (name : String) : Bool := (f.field? name).isSome

/-- The number of whole bytes in an instruction of this format. -/
def sizeBytes (f : Format) : UInt32 := f.bits / 8

end Format

end InstructionSet
