import InstructionSet.Proofs.Bits.Reading
import Mathlib.Algebra.Ring.Int.Defs
import Mathlib.Algebra.Ring.Nat
import Mathlib.Data.List.Induction

/-!
# The digits of a field

`Buffer.digitsAt` picks the bytes that hold a field out of the buffer, joins them
and cuts off what does not belong to the field. The digits that are left are the
bits of the field, the first one being the most significant: they make up
`Buffer.number`, which reads bit by bit and is what the bits *mean*.
-/

namespace InstructionSet

@[simp] theorem twoPow_eq (n : Nat) : twoPow n = 2 ^ n := by
  rw [twoPow, Nat.shiftLeft_eq, Nat.one_mul]

namespace Buffer

/-- The number whose binary digits are the `size` bits from `first` on, most significant first. -/
def number (b : Buffer) (first : Nat) : Nat → Nat
  | 0 => 0
  | size + 1 => 2 * b.number first size + (b.bit (first + size)).toNat

/-- The value that is laid out as `l` in the buffer. -/
def value (b : Buffer) (l : Layout) : Int64 := l.ofDigits (b.number l.firstBit.toNat l.size.toNat)

/-- The buffers have the same first `n` bits. -/
def AgreeUpTo (b b' : Buffer) (n : Nat) : Prop := ∀ i, i < n → b.bit i = b'.bit i

instance (b b' : Buffer) (n : Nat) : Decidable (b.AgreeUpTo b' n) :=
  inferInstanceAs (Decidable (∀ i, i < n → b.bit i = b'.bit i))

theorem AgreeUpTo.symm {b b' : Buffer} {n : Nat} (h : b.AgreeUpTo b' n) : b'.AgreeUpTo b n :=
  fun i hi => (h i hi).symm

theorem AgreeUpTo.mono {b b' : Buffer} {m n : Nat} (h : b.AgreeUpTo b' n) (hle : m ≤ n) :
    b.AgreeUpTo b' m := fun i hi => h i (Nat.lt_of_lt_of_le hi hle)

theorem AgreeUpTo.number_eq {b b' : Buffer} {n first size : Nat} (h : b.AgreeUpTo b' n)
    (hle : first + size ≤ n) : b.number first size = b'.number first size := by
  induction size with
  | zero => rfl
  | succ size ih =>
    rw [number, number, ih (Nat.le_of_succ_le hle), h (first + size) hle]

/-- A value is made up of bits before its end. -/
theorem AgreeUpTo.value_eq {b b' : Buffer} {l : Layout} (h : b.AgreeUpTo b' l.endBit) :
    b.value l = b'.value l := by
  rw [value, value, h.number_eq (Nat.le_refl _)]

theorem testBit_number (b : Buffer) (first size j : Nat) :
    (b.number first size).testBit j = (decide (j < size) && b.bit (first + (size - 1 - j))) := by
  induction size generalizing j with
  | zero => simp [number]
  | succ size ih =>
    rw [number]
    cases j with
    | zero =>
      -- the last bit of the field is the least significant one
      rw [Nat.testBit_zero, Nat.sub_zero, Nat.add_sub_cancel, Nat.mul_add_mod]
      cases b.bit (first + size) <;> simp
    | succ j =>
      have hdiv : (2 * b.number first size + (b.bit (first + size)).toNat) / 2
          = b.number first size := by
        have hle : (b.bit (first + size)).toNat < 2 := Bool.toNat_lt _
        omega
      have hplace : size + 1 - 1 - (j + 1) = size - 1 - j := by omega
      rw [Nat.testBit_succ, hdiv, ih, hplace]
      simp only [Nat.add_lt_add_iff_right]

theorem bigEndian_concat (bytes : List UInt8) (byte : UInt8) :
    bigEndian (bytes ++ [byte]) = 2 ^ 8 * bigEndian bytes + byte.toNat := by
  rw [bigEndian, List.foldl_append, Nat.mul_comm]
  rfl

/-- Digit `j` of a number in base 256 is found `j / 8` bytes before the last. -/
theorem testBit_bigEndian (bytes : List UInt8) (j : Nat) :
    (bigEndian bytes).testBit j
      = (decide (j / 8 < bytes.length)
          && ((bytes[bytes.length - 1 - j / 8]?).getD 0).toNat.testBit (j % 8)) := by
  induction bytes using List.reverseRecOn generalizing j with
  | nil => simp [bigEndian]
  | append_singleton bytes byte ih =>
    have hbyte : byte.toNat < 2 ^ 8 := byte.toNat_lt
    rw [bigEndian_concat, Nat.testBit_two_pow_mul_add _ hbyte, List.length_append,
      List.length_singleton]
    by_cases hj : j < 8
    -- the digit is one of the last byte's, or is found in the bytes before it
    · have hdiv : j / 8 = 0 := Nat.div_eq_of_lt hj
      rw [if_pos hj, hdiv, Nat.mod_eq_of_lt hj]
      simp
    · have hdiv : j / 8 = (j - 8) / 8 + 1 := by omega
      have hmod : j % 8 = (j - 8) % 8 := by omega
      have hplace : bytes.length + 1 - 1 - ((j - 8) / 8 + 1) = bytes.length - 1 - (j - 8) / 8 := by
        omega
      rw [if_neg hj, ih, hdiv, hmod, hplace]
      simp only [Nat.add_lt_add_iff_right]
      by_cases hlt : (j - 8) / 8 < bytes.length
      · rw [List.getElem?_append_left (by omega)]
      · simp [hlt]

/-- So many bytes make up a number of eight times as many digits. -/
theorem bigEndian_lt (bytes : List UInt8) : bigEndian bytes < 2 ^ (8 * bytes.length) := by
  refine Nat.lt_pow_two_of_testBit _ fun j hj => ?_
  rw [testBit_bigEndian, decide_eq_false (by omega), Bool.false_and]

theorem length_covering {b : Buffer} {first stop : Nat} (h : stop ≤ b.bits) (h0 : first < stop) :
    (b.covering first stop).length = (stop - 1) / 8 + 1 - first / 8 := by
  rw [covering, List.length_take, List.length_drop]
  rw [bits] at h
  omega

theorem getElem?_covering (b : Buffer) {first stop k : Nat}
    (h : k < (stop - 1) / 8 + 1 - first / 8) :
    (b.covering first stop)[k]? = b[first / 8 + k]? := by
  rw [covering, List.getElem?_take, if_pos h, List.getElem?_drop]

/-- **The digits that are read are the bits of the field.** -/
theorem digitsAt_eq_number {b : Buffer} {first size : Nat} (h : first + size ≤ b.bits) :
    b.digitsAt first size = b.number first size := by
  apply Nat.eq_of_testBit_eq
  intro j
  rw [digitsAt, twoPow_eq, Nat.testBit_mod_two_pow, Nat.testBit_shiftRight, testBit_bigEndian,
    testBit_number]
  by_cases hj : j < size
  · have hlen : (b.covering first (first + size)).length = (first + size - 1) / 8 + 1 - first / 8 :=
      length_covering h (by omega)
    -- the place of digit `j`, counted from the end of the last byte of the field
    have hplace : first / 8 + ((first + size - 1) / 8 + 1 - first / 8 - 1
        - (((first + size - 1) / 8 + 1) * 8 - (first + size) + j) / 8)
        = (first + (size - 1 - j)) / 8 := by omega
    have hdigit : (((first + size - 1) / 8 + 1) * 8 - (first + size) + j) % 8
        = 7 - (first + (size - 1 - j)) % 8 := by omega
    have hin : (((first + size - 1) / 8 + 1) * 8 - (first + size) + j) / 8
        < (first + size - 1) / 8 + 1 - first / 8 := by omega
    rw [hlen, getElem?_covering b (by omega), hplace, hdigit, bit]
    simp only [hin, decide_true, Bool.true_and]
  · simp only [hj, decide_false, Bool.false_and]

/-- A read is answered with the value, if its run can be read and is inside the buffer and the
window. -/
theorem answer_eq_ok {b : Buffer} {l : Layout} {width : Nat} {v : Int64} :
    b.answer l width = .ok v
      ↔ l.readable = true ∧ l.endBit ≤ b.bits ∧ l.endBit ≤ width ∧ b.value l = v := by
  by_cases hr : l.readable = true
  · rcases Nat.lt_or_ge b.bits l.endBit with hb | hb
    · simp [answer_of_past_end hr hb, Nat.not_le.mpr hb]
    · rcases Nat.lt_or_ge width l.endBit with hw | hw
      · simp [answer_of_past_window hr hb hw, Nat.not_le.mpr hw]
      · simp [answer_of_inside hr hb hw, digitsAt_eq_number hb, hr, hb, hw, value]
  · simp [answer_of_not_readable hr, hr]

end Buffer

end InstructionSet
