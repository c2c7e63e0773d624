import InstructionSet.Identifier

/-!
# Decoded values

The values of a decoded instruction, each in the slot of its field. Slot 0 holds
the number of the instruction, and a field that the instruction does not have is
zero.
-/

namespace InstructionSet

/-- The values of a decoded instruction by slot. -/
structure SlotValues where
  slots : List Int64 := []
deriving DecidableEq

namespace SlotValues

def zeros (slots : Nat) : SlotValues := ⟨List.replicate slots 0⟩

def length (v : SlotValues) : Nat := v.slots.length

/-- The values in `slots` slots: those further on are dropped, and slots that are missing are zero. -/
def resize (v : SlotValues) (slots : Nat) : SlotValues :=
  ⟨v.slots.take slots ++ List.replicate (slots - v.length) 0⟩

/-- The values made ready for another instruction: all slots are given up before there are `slots`
of them again. -/
def reset (v : SlotValues) (slots : Nat) : SlotValues := (v.resize 0).resize slots

/-- The number of the decoded instruction. -/
def instructionId? (v : SlotValues) : Option InstructionId :=
  match v.slots with
  | [] => none
  | first :: _ =>
    if 0 ≤ first.toInt ∧ first.toInt < UInt32.size then
      InstructionId.ofNumber? (UInt32.ofNat first.toInt.toNat)
    else none

/-- The value of a field, and zero if there is no slot for it. -/
def get (v : SlotValues) (id : FieldId) : Int64 := (v.slots[id.slot]?).getD 0

/-- The values with one slot changed; nothing changes if there is no such slot. -/
def set (v : SlotValues) (slot : Nat) (value : Int64) : SlotValues :=
  ⟨v.slots.set slot value⟩

/-- Nothing is left of what the slots held. -/
@[simp] theorem reset_eq (v : SlotValues) (slots : Nat) : v.reset slots = zeros slots := by
  simp [reset, resize, length, zeros]

@[simp] theorem length_zeros (slots : Nat) : (zeros slots).length = slots := by
  simp [zeros, length]

@[simp] theorem length_set (v : SlotValues) (slot : Nat) (value : Int64) :
    (v.set slot value).length = v.length := by
  simp [set, length]

end SlotValues

end InstructionSet
