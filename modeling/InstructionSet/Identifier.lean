/-!
# Identifiers

Fields and instructions are numbered from 1, in 32 bits. The number of a field is
also the slot of its value in a decoded instruction: slot 0 is left for the
number of the instruction itself.
-/

namespace InstructionSet

/-- The number shared by all fields of one name. -/
structure FieldId where
  val : UInt32
  val_ne_zero : val ≠ 0
deriving DecidableEq

/-- The number of an instruction. -/
structure InstructionId where
  val : UInt32
  val_ne_zero : val ≠ 0
deriving DecidableEq

namespace FieldId

/-- The identifier numbered `raw`; zero numbers none. -/
def ofNumber? (raw : UInt32) : Option FieldId :=
  if h : raw ≠ 0 then some ⟨raw, h⟩ else none

/-- The identifier of the field at `index` in a table. The index counts modulo `2 ^ 32`, and the
last of these indices has no identifier. -/
def ofIndex? (index : Nat) : Option FieldId := ofNumber? (UInt32.ofNat index + 1)

/-- The place of the field in its table. -/
def index (id : FieldId) : Nat := id.val.toNat - 1

/-- The slot of the field's value in a decoded instruction. -/
def slot (id : FieldId) : Nat := id.val.toNat

def text (id : FieldId) : String := toString id.val

theorem slot_eq_index_add_one (id : FieldId) : id.slot = id.index + 1 := by
  have h : id.val.toNat ≠ 0 := fun h => id.val_ne_zero (UInt32.toNat_inj.mp h)
  simp only [slot, index]
  omega

end FieldId

namespace InstructionId

/-- The identifier numbered `raw`; zero numbers none. -/
def ofNumber? (raw : UInt32) : Option InstructionId :=
  if h : raw ≠ 0 then some ⟨raw, h⟩ else none

def text (id : InstructionId) : String := toString id.val

end InstructionId

end InstructionSet
