import InstructionSet.Bits.Buffer

/-!
# Byte order

Instructions are read most significant byte first. A stream fetched in words of
the other order is put right with `ByteOrder.toBigEndian`, which turns the bytes
of every word around; what is left over at the end counts as a word of its own.
-/

namespace InstructionSet

/-- The order in which the bytes of a word are stored. -/
inductive ByteOrder where
  /-- Least significant byte first. -/
  | little
  /-- Most significant byte first. -/
  | big
deriving DecidableEq

namespace ByteOrder

/-- Turns each run of `width` bytes around, and a shorter last run as well. -/
def reverseWords (width : Nat) (bytes : Buffer) : Buffer :=
  if width = 0 ∨ bytes = [] then bytes
  else (bytes.take width).reverse ++ reverseWords width (bytes.drop width)
termination_by bytes.length
decreasing_by
  rename_i h
  have := List.length_pos_iff.mpr (not_or.mp h).2
  simp only [List.length_drop]
  omega

/-- The stream with the most significant byte of every word of `width` bytes first. -/
def toBigEndian (order : ByteOrder) (bytes : Buffer) (width : Nat) : Buffer :=
  match order with
  | big => bytes
  | little => if width ≤ 1 then bytes else reverseWords width bytes

@[simp] theorem toBigEndian_big (bytes : Buffer) (width : Nat) :
    big.toBigEndian bytes width = bytes := rfl

end ByteOrder

end InstructionSet
