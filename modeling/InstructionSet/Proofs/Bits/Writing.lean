import InstructionSet.Proofs.Bits.Digits

/-!
# Writing values

`Buffer.encode` writes a value bit by bit. What it comes to is `bit_encode`: the
bits that the layout covers are the digits of the value, and every other bit is
what it was. A value that fits is what its digits stand for
(`Layout.ofDigits_digits`), so a buffer that has the digits of a value where the
layout says is a buffer that the value is read from (`value_eq_of_digits`).

A run must not reach past place `2 ^ 32`, where the places of its bits would start
again from zero. No run of a format does: formats have fewer bits than that.
-/

namespace InstructionSet

/-! ## A value and its digits -/

theorem ofNat_toUInt64 (v : Int64) : Int64.ofNat v.toUInt64.toNat = v := by
  refine Int64.toBitVec.inj ?_
  simp

theorem toUInt64_eq_emod (v : Int64) : (v.toUInt64.toNat : Int) = v.toInt % (2 ^ 64 : Nat) := by
  have hlt : v.toUInt64.toNat < 2 ^ 64 := v.toUInt64.toNat_lt
  rw [← Int64.toInt_toBitVec, BitVec.toInt_eq_toNat_bmod, Int.bmod_emod, Int64.toNat_toBitVec]
  exact (Int.emod_eq_of_lt (by omega) (by exact_mod_cast hlt)).symm

namespace Layout

/-- Whether bit `i` of a buffer belongs to the run. -/
def Covers (l : Layout) (i : Nat) : Prop := l.firstBit.toNat ≤ i ∧ i < l.endBit

instance (l : Layout) (i : Nat) : Decidable (l.Covers i) := inferInstanceAs (Decidable (_ ∧ _))

/-- The digit of `value` that belongs into bit `i` of a buffer. -/
def digit (l : Layout) (value : Int64) (i : Nat) : Bool :=
  (l.digits value).testBit (l.size.toNat - 1 - (i - l.firstBit.toNat))

theorem digits_lt (l : Layout) (value : Int64) : l.digits value < 2 ^ l.size.toNat := by
  rw [digits, twoPow_eq]
  exact Nat.mod_lt _ (Nat.two_pow_pos _)

/-- The digits are the value modulo the width of the run, as the width divides 64. -/
theorem digits_eq_emod {l : Layout} (hle : l.size.toNat ≤ 64) (v : Int64) :
    ((l.digits v : Nat) : Int) = v.toInt % (2 ^ l.size.toNat : Nat) := by
  have hdvd : ((2 ^ l.size.toNat : Nat) : Int) ∣ ((2 ^ 64 : Nat) : Int) := by
    exact_mod_cast Nat.pow_dvd_pow 2 hle
  rw [digits, twoPow_eq, Int.natCast_emod, toUInt64_eq_emod, Int.emod_emod_of_dvd _ hdvd]

/-- An unsigned value that fits is not negative, and below the numbers with more digits. -/
theorem ofDigits_digits_unsigned {l : Layout} {v : Int64} (hs : l.signed = false)
    (hl : l.size < 64) (h0 : 0 ≤ v.toInt) (hlt : v.toInt < 2 ^ l.size.toNat) :
    l.ofDigits (l.digits v) = v := by
  have hsize : l.size.toNat < 64 := UInt32.lt_iff_toNat_lt.mp hl
  have hpow : 2 ^ l.size.toNat ≤ 2 ^ 63 := Nat.pow_le_pow_right (by omega) (by omega)
  have hmod := toUInt64_eq_emod v
  rw [Int.emod_eq_of_lt h0 (by have := v.toInt_lt; omega)] at hmod
  have hnat : v.toUInt64.toNat < 2 ^ l.size.toNat := by
    have : ((2 ^ l.size.toNat : Nat) : Int) = 2 ^ l.size.toNat := by push_cast; rfl
    omega
  rw [ofDigits, hs, digits, twoPow_eq, Nat.mod_eq_of_lt hnat]
  exact ofNat_toUInt64 v

/-- A signed value that fits is found among the numbers of that width again. -/
theorem ofDigits_digits_signed {l : Layout} {v : Int64} (hs : l.signed = true)
    (h0 : l.size ≠ 0) (hl : l.size < 64) (hle : -2 ^ (l.size.toNat - 1) ≤ v.toInt)
    (hlt : v.toInt < 2 ^ (l.size.toNat - 1)) : l.ofDigits (l.digits v) = v := by
  have hsize : l.size.toNat < 64 := UInt32.lt_iff_toNat_lt.mp hl
  have hpos : 0 < l.size.toNat := by
    have : l.size.toNat ≠ 0 := fun h => h0 (UInt32.toNat_inj.mp h)
    omega
  have hdouble : 2 ^ (l.size.toNat - 1) * 2 = 2 ^ l.size.toNat := by
    rw [← Nat.pow_succ]
    congr 1
    omega
  have hpow : 2 ^ l.size.toNat ≤ 2 ^ 63 := Nat.pow_le_pow_right (by omega) (by omega)
  have hcast : ((2 ^ (l.size.toNat - 1) : Nat) : Int) = 2 ^ (l.size.toNat - 1) := by
    push_cast
    rfl
  have hdigits := digits_eq_emod (Nat.le_of_lt hsize) v
  have hnat : (UInt64.ofNat (l.digits v)).toNat = l.digits v := by
    have hdigits := l.digits_lt v
    have hword : UInt64.size = 2 ^ 64 := rfl
    exact UInt64.toNat_ofNat_of_lt' (by omega)
  have hwide : ¬(l.size = 0 ∨ 64 ≤ l.size) := by
    rw [not_or]
    exact ⟨h0, UInt32.not_le.mpr hl⟩
  rw [ofDigits, if_pos hs, signExtend, if_neg hwide, hnat, twoPow_eq, hdigits, Int.emod_bmod,
    Int.bmod_eq_of_le_mul_two (by omega) (by omega), Int64.ofInt_toInt]

/-- **The digits of a value that fits stand for it.** -/
theorem ofDigits_digits {l : Layout} {v : Int64} (hr : l.readable = true)
    (hf : l.fits v = true) : l.ofDigits (l.digits v) = v := by
  have h0 : l.size ≠ 0 := by
    intro h
    rw [readable, h] at hr
    exact absurd hr (by decide)
  by_cases hl : 64 ≤ l.size
  · -- all 64 digits are there, and both readings keep them
    have h64 : l.size = 64 := by
      rw [readable, decide_eq_true_iff] at hr
      exact UInt32.le_antisymm hr.2 hl
    have hlt : v.toUInt64.toNat < 2 ^ 64 := v.toUInt64.toNat_lt
    have hd : l.digits v = v.toUInt64.toNat := by
      rw [digits, twoPow_eq, h64]
      exact Nat.mod_eq_of_lt hlt
    rw [ofDigits, hd]
    split
    · rw [signExtend, if_pos (Or.inr hl), UInt64.ofNat_toNat, Int64.toInt64_toUInt64]
    · exact ofNat_toUInt64 v
  · rw [fits, if_neg h0, if_neg hl] at hf
    have hl' : l.size < 64 := UInt32.not_le.mp hl
    cases hs : l.signed with
    | false =>
      rw [hs, if_neg (by simp), decide_eq_true_iff, twoPow_eq] at hf
      exact ofDigits_digits_unsigned hs hl' hf.1 (by exact_mod_cast hf.2)
    | true =>
      rw [hs, if_pos rfl, decide_eq_true_iff, twoPow_eq] at hf
      exact ofDigits_digits_signed hs h0 hl' (by exact_mod_cast hf.1) (by exact_mod_cast hf.2)

end Layout

namespace Buffer

/-! ## Setting one bit -/

theorem testBit_setDigit (byte : UInt8) {place : Nat} (hp : place < 8) (on : Bool) {j : Nat}
    (hj : j < 8) :
    (setDigit byte place on).toNat.testBit j = if j = place then on else byte.toNat.testBit j := by
  have hpow : 2 ^ place < 2 ^ 8 := Nat.pow_lt_pow_right (by omega) hp
  have hweight : (UInt8.ofNat (2 ^ place)).toNat = 2 ^ place := UInt8.toNat_ofNat_of_lt' hpow
  rw [setDigit, twoPow_eq]
  cases on with
  | true =>
    rw [if_pos rfl, UInt8.toNat_or, Nat.testBit_or, hweight, Nat.testBit_two_pow]
    by_cases h : j = place
    · simp [h]
    · simp [h, Ne.symm h]
  | false =>
    have hnot : (~~~UInt8.ofNat (2 ^ place)).toNat = 2 ^ 8 - (2 ^ place + 1) := by
      rw [UInt8.toNat_not, hweight]
      have : UInt8.size = 2 ^ 8 := rfl
      omega
    rw [if_neg (by simp), UInt8.toNat_and, Nat.testBit_and, hnot,
      Nat.testBit_two_pow_sub_succ hpow, Nat.testBit_two_pow]
    by_cases h : j = place
    · simp [h]
    · simp [h, Ne.symm h, hj]

theorem bit_setBit {b : Buffer} {i : Nat} (hi : i < b.bits) (on : Bool) (j : Nat) :
    (b.setBit i on).bit j = if j = i then on else b.bit j := by
  rw [bits] at hi
  have hbyte : b[i / 8]? = some b[i / 8] := List.getElem?_eq_getElem (by omega)
  rw [bit, setBit, List.getElem?_modify, bit]
  by_cases h : i / 8 = j / 8
  · -- the bit lies in the byte that is changed
    rw [← h, hbyte]
    change (if i / 8 = i / 8 then setDigit b[i / 8] (7 - i % 8) on else b[i / 8]).toNat.testBit _
      = if j = i then on else b[i / 8].toNat.testBit (7 - j % 8)
    rw [if_pos rfl, testBit_setDigit _ (by omega) _ (by omega)]
    have hiff : (7 - j % 8 = 7 - i % 8) ↔ j = i := by omega
    simp only [hiff]
  · have hne : j ≠ i := fun he => h (by rw [he])
    simp [h, hne]

/-! ## Writing a run -/

theorem place_eq {first : UInt32} {offset : Nat} (h : first.toNat + offset < UInt32.size) :
    place first offset = first.toNat + offset := by
  have hoffset : (UInt32.ofNat offset).toNat = offset := UInt32.toNat_ofNat_of_lt' (by omega)
  rw [place, UInt32.toNat_add, hoffset]
  exact Nat.mod_eq_of_lt h

/-- The loop that writes the first `n` bits of a run writes these, and no others. -/
theorem bit_setBits (b : Buffer) (first : UInt32) (on : Nat → Bool) (n : Nat)
    (h : first.toNat + n ≤ UInt32.size) (hb : first.toNat + n ≤ b.bits) :
    ((List.range n).foldl (fun b k => b.setBit (place first k) (on k)) b).length = b.length
      ∧ ∀ j, ((List.range n).foldl (fun b k => b.setBit (place first k) (on k)) b).bit j
        = if first.toNat ≤ j ∧ j < first.toNat + n then on (j - first.toNat) else b.bit j := by
  induction n with
  | zero =>
    refine ⟨rfl, fun j => ?_⟩
    rw [if_neg (by omega)]
    rfl
  | succ n ih =>
    obtain ⟨hlen, hbit⟩ := ih (by omega) (by omega)
    rw [List.range_succ, List.foldl_append, List.foldl_cons, List.foldl_nil,
      place_eq (by omega)]
    refine ⟨by rw [length_setBit, hlen], fun j => ?_⟩
    rw [bit_setBit (by rw [bits, hlen, ← bits]; omega), hbit]
    by_cases hj : j = first.toNat + n
    · rw [if_pos hj, if_pos (by omega), hj, Nat.add_sub_cancel_left]
    · rw [if_neg hj]
      by_cases hin : first.toNat ≤ j ∧ j < first.toNat + n
      · rw [if_pos hin, if_pos (by omega)]
      · rw [if_neg hin, if_neg (by omega)]

/-! ## Writing a value -/

/-- A value is written if its layout can be read, it fits, and the run is inside the buffer. -/
theorem encode_eq_ok {b b' : Buffer} {l : Layout} {v : Int64} :
    b.encode l v = .ok b'
      ↔ (l.readable = true ∧ l.fits v = true ∧ l.endBit ≤ b.bits)
        ∧ b.put l.firstBit l.size.toNat (l.digits v) = b' := by
  unfold encode
  by_cases hr : l.readable = true
  · by_cases hf : l.fits v = true
    · by_cases hb : l.endBit ≤ b.bits
      · simp [hr, hf, hb, Nat.not_lt.mpr hb]
      · simp [hr, hf, hb, Nat.not_le.mp hb]
    · simp [hr, hf]
  · simp [hr]

section Encode

variable {b b' : Buffer} {l : Layout} {v : Int64}

theorem length_encode (h : b.encode l v = .ok b') (hl : l.endBit ≤ UInt32.size) :
    b'.length = b.length := by
  obtain ⟨⟨-, -, hb⟩, rfl⟩ := encode_eq_ok.mp h
  exact (bit_setBits b l.firstBit _ l.size.toNat hl hb).1

/-- **What is written.** The bits that the layout covers are the digits of the value; the others
are what they were. -/
theorem bit_encode (h : b.encode l v = .ok b') (hl : l.endBit ≤ UInt32.size) (i : Nat) :
    b'.bit i = if l.Covers i then l.digit v i else b.bit i := by
  obtain ⟨⟨-, -, hb⟩, rfl⟩ := encode_eq_ok.mp h
  exact (bit_setBits b l.firstBit _ l.size.toNat hl hb).2 i

end Encode

/-! ## Reading back -/

/-- **A buffer that has the digits of a value is one that the value is read from.** -/
theorem value_eq_of_digits {b : Buffer} {l : Layout} {v : Int64} (hr : l.readable = true)
    (hf : l.fits v = true) (h : ∀ i, l.Covers i → b.bit i = l.digit v i) : b.value l = v := by
  have hnumber : b.number l.firstBit.toNat l.size.toNat = l.digits v := by
    refine Nat.eq_of_testBit_eq fun j => ?_
    rw [testBit_number]
    by_cases hj : j < l.size.toNat
    · have hplace : l.size.toNat - 1 - (l.firstBit.toNat + (l.size.toNat - 1 - j)
          - l.firstBit.toNat) = j := by omega
      rw [h _ ⟨Nat.le_add_right .., by rw [Layout.endBit]; omega⟩, Layout.digit, hplace]
      simp [hj]
    · have hlt : l.digits v < 2 ^ j :=
        Nat.lt_of_lt_of_le (l.digits_lt v) (Nat.pow_le_pow_right (by omega) (by omega))
      simp [hj, Nat.testBit_lt_two_pow hlt]
  rw [value, hnumber, Layout.ofDigits_digits hr hf]

/-- Zero is read from bits that are all zero. -/
theorem value_eq_zero {b : Buffer} {l : Layout} (hr : l.readable = true)
    (h : ∀ i, l.Covers i → b.bit i = false) : b.value l = 0 := by
  have hf : l.fits 0 = true := by
    have hpos : 0 < twoPow (l.size.toNat - 1) := by rw [twoPow_eq]; exact Nat.two_pow_pos _
    have hpos' : 0 < twoPow l.size.toNat := by rw [twoPow_eq]; exact Nat.two_pow_pos _
    have h0 : (0 : Int64).toInt = 0 := rfl
    unfold Layout.fits
    rw [h0]
    split
    · rfl
    · split
      · rfl
      · split
        · exact decide_eq_true ⟨by omega, by omega⟩
        · exact decide_eq_true ⟨by omega, by omega⟩
  refine value_eq_of_digits hr hf fun i hi => ?_
  have hdigits : l.digits 0 = 0 := Nat.zero_mod _
  rw [h i hi, Layout.digit, hdigits, Nat.zero_testBit]

/-! ## Buffers behind one another -/

/-- What follows a buffer does not touch its bits. -/
theorem bit_append {b : Buffer} (tail : Buffer) {i : Nat} (hi : i < b.bits) :
    bit (b ++ tail) i = b.bit i := by
  rw [bits] at hi
  rw [bit, bit, List.getElem?_append_left (by omega)]

@[simp] theorem bit_zeros (n i : Nat) : (zeros n).bit i = false := by
  rw [bit, zeros, List.getElem?_replicate]
  split <;> simp

end Buffer

end InstructionSet
