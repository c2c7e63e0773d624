import InstructionSet.Proofs.Bits.Machine

/-!
# What a run has room for

Whether a value has a representation in a run is asked in two places, and each of them
works the answer out in machine words in its own way. A field compares the value with the
least and the greatest one of its width (`Layout.hasRoom?`); a writer looks whether it is
below a bound and not below the negative of it (`Layout.takes?`). Both come to
`Layout.fits` (`hasRoom?_eq`, `takes?_eq`), and no operation leaves its range on the way:
the greatest bound that a word has to hold is that of 63 digits.

A value that fits is also one that occurs. It can be written into nine bytes, whatever
place in the first of them the run begins at, and with other bytes in front of these it is
wherever the run lies, even where it reaches past place `2 ^ 32`, which a writer does not
(`Buffer.exists_value`). So the values that fit are those that are read from some buffer
(`Layout.yields_iff`).
-/

namespace InstructionSet

/-! ## Bounds in machine words -/

namespace Word

/-- The number with its sign changed, if a word of `w` bits holds that. -/
def neg? {w : Nat} (a : BitVec w) : Option (BitVec w) := if a.negOverflow then none else some (-a)

/-- The difference of numbers in two's complement, if a word of `w` bits holds it. -/
def signedSub? {w : Nat} (a b : BitVec w) : Option (BitVec w) :=
  if a.ssubOverflow b then none else some (a - b)

/-- The least number that is too great for `size` digits in two's complement. -/
def bound? (size : UInt32) : Option (BitVec 64) := do
  shiftLeft? 1 (← sub? size.toBitVec 1).toNat

/-- Whether the value is between the least and the greatest number of that width. -/
def between? (size : UInt32) (v : BitVec 64) : Option Bool := do
  let least ← neg? (← bound? size)
  let greatest ← signedSub? (← bound? size) 1
  return least.sle v && v.sle greatest

/-- Whether the value is below the bound of the width and not below its negative. -/
def below? (size : UInt32) (v : BitVec 64) : Option Bool := do
  let bound ← bound? size
  return (← neg? bound).sle v && v.slt bound

/-- Whether the value is not negative, and nothing is left of it without its low digits. -/
def unsigned? (size : UInt32) (v : BitVec 64) : Option Bool :=
  if (0 : BitVec 64).sle v then (shiftRight? v size.toNat).map fun rest => decide (rest = 0)
  else some false

theorem exists_neg? {a : BitVec 64} (h : 0 ≤ a.toInt) :
    ∃ c, neg? a = some c ∧ c.toInt = -a.toInt := by
  have hfits : ¬ a.negOverflow = true := by
    rw [BitVec.negOverflow, beq_iff_eq]
    omega
  exact ⟨-a, if_neg hfits, BitVec.toInt_neg_of_not_negOverflow hfits⟩

theorem exists_signedSub? {a b : BitVec 64} (ha : 0 ≤ a.toInt) (hb : 0 ≤ b.toInt) :
    ∃ c, signedSub? a b = some c ∧ c.toInt = a.toInt - b.toInt := by
  have hhigh := a.toInt_lt
  have hlow := b.toInt_lt
  have hfits : ¬ a.ssubOverflow b = true := by
    rw [BitVec.ssubOverflow, Bool.or_eq_true, decide_eq_true_iff, decide_eq_true_iff]
    omega
  exact ⟨a - b, if_neg hfits, BitVec.toInt_sub_of_not_ssubOverflow hfits⟩

section Narrow

variable {size : UInt32} (hpos : 1 ≤ size.toNat) (hlt : size.toNat < 64)
include hpos hlt

/-- A word holds the bound of every width below its own. -/
theorem exists_bound? :
    ∃ bound, bound? size = some bound ∧ bound.toInt = 2 ^ (size.toNat - 1) := by
  obtain ⟨amount, hamount, hnat⟩ :=
    exists_sub? (show (1 : BitVec 32).toNat ≤ size.toBitVec.toNat from hpos)
  replace hnat : BitVec.toNat amount = size.toNat - 1 := hnat
  have hfew : BitVec.toNat amount < 64 := by omega
  have hpow : 2 ^ (size.toNat - 1) ≤ 2 ^ 62 := Nat.pow_le_pow_right (by decide) (by omega)
  have hshift : BitVec.toNat ((1 : BitVec 64) <<< BitVec.toNat amount) = 2 ^ (size.toNat - 1) := by
    rw [BitVec.toNat_shiftLeft, Nat.shiftLeft_eq, hnat]
    change 1 * 2 ^ (size.toNat - 1) % 2 ^ 64 = _
    omega
  refine ⟨(1 : BitVec 64) <<< BitVec.toNat amount, ?_, ?_⟩
  · rw [bound?, hamount]
    exact if_pos hfew
  · rw [BitVec.toInt_eq_toNat_of_lt (by omega), hshift]
    push_cast
    rfl

theorem between?_eq (v : BitVec 64) : between? size v
    = some (decide (-2 ^ (size.toNat - 1) ≤ v.toInt ∧ v.toInt < 2 ^ (size.toNat - 1))) := by
  have hone : (1 : BitVec 64).toInt = 1 := rfl
  obtain ⟨bound, hbound, hboundInt⟩ := exists_bound? hpos hlt
  have h0 : 0 ≤ bound.toInt := hboundInt ▸ Int.pow_nonneg (by decide)
  obtain ⟨least, hleast, hleastInt⟩ := exists_neg? h0
  obtain ⟨greatest, hgreatest, hgreatestInt⟩ := exists_signedSub? h0 (hone ▸ Int.one_nonneg)
  simp only [between?, hbound, hleast, hgreatest, Option.bind_eq_bind, Option.bind_some,
    Option.pure_def]
  congr 1
  rw [Bool.eq_iff_iff, Bool.and_eq_true, BitVec.sle_iff_toInt_le, BitVec.sle_iff_toInt_le,
    decide_eq_true_iff, hleastInt, hgreatestInt, hboundInt, hone]
  omega

theorem below?_eq (v : BitVec 64) : below? size v
    = some (decide (-2 ^ (size.toNat - 1) ≤ v.toInt ∧ v.toInt < 2 ^ (size.toNat - 1))) := by
  obtain ⟨bound, hbound, hboundInt⟩ := exists_bound? hpos hlt
  have h0 : 0 ≤ bound.toInt := hboundInt ▸ Int.pow_nonneg (by decide)
  obtain ⟨least, hleast, hleastInt⟩ := exists_neg? h0
  simp only [below?, hbound, hleast, Option.bind_eq_bind, Option.bind_some, Option.pure_def]
  congr 1
  rw [Bool.eq_iff_iff, Bool.and_eq_true, BitVec.sle_iff_toInt_le, BitVec.slt_iff_toInt_lt,
    decide_eq_true_iff, hleastInt, hboundInt]

end Narrow

theorem unsigned?_eq {size : UInt32} (hlt : size.toNat < 64) (v : BitVec 64) :
    unsigned? size v = some (decide (0 ≤ v.toInt ∧ v.toInt < 2 ^ size.toNat)) := by
  have hsign : (0 : BitVec 64).sle v = true ↔ 0 ≤ v.toInt := BitVec.sle_iff_toInt_le
  unfold unsigned?
  by_cases h0 : 0 ≤ v.toInt
  · have hnat : v.toInt = v.toNat := BitVec.toInt_eq_toNat_of_lt (BitVec.toInt_pos_iff.mp h0)
    have hcast : ((2 ^ size.toNat : Nat) : Int) = 2 ^ size.toNat := by push_cast; rfl
    obtain ⟨rest, hrest, hrestNat⟩ := exists_shiftRight? v hlt
    rw [if_pos (hsign.mpr h0), hrest, Option.map_some]
    congr 1
    rw [decide_eq_decide, ← BitVec.toNat_inj, hrestNat, Nat.shiftRight_eq_div_pow]
    change v.toNat / 2 ^ size.toNat = 0 ↔ _
    rw [Nat.div_eq_zero_iff_lt (Nat.two_pow_pos _)]
    omega
  · rw [if_neg fun h => h0 (hsign.mp h), decide_eq_false fun h => h0 h.1]

end Word

/-! ## Two tests for one range -/

namespace Layout

/-- Whether the run has room for the value, as a field works it out. -/
def hasRoom? (l : Layout) (v : Int64) : Option Bool :=
  if l.size = 0 then some (decide (v = 0))
  else if 64 ≤ l.size then some true
  else if l.signed then Word.between? l.size v.toBitVec
  else Word.unsigned? l.size v.toBitVec

/-- Whether the run takes the value, as a writer works it out. -/
def takes? (l : Layout) (v : Int64) : Option Bool :=
  if 64 ≤ l.size then some true
  else if l.signed then Word.below? l.size v.toBitVec
  else Word.unsigned? l.size v.toBitVec

section Tests

variable {l : Layout} (h0 : l.size ≠ 0) (h64 : ¬ 64 ≤ l.size) (v : Int64)
include h0 h64

/-- In a run of fewer than 64 bits two comparisons decide. -/
theorem fits_of_narrow :
    l.fits v = if l.signed then
        decide (-2 ^ (l.size.toNat - 1) ≤ v.toBitVec.toInt
          ∧ v.toBitVec.toInt < 2 ^ (l.size.toNat - 1))
      else decide (0 ≤ v.toBitVec.toInt ∧ v.toBitVec.toInt < 2 ^ l.size.toNat) := by
  rw [fits, if_neg h0, if_neg h64, twoPow_eq, twoPow_eq, Int64.toInt_toBitVec]
  push_cast
  rfl

theorem narrow_of_size : 1 ≤ l.size.toNat ∧ l.size.toNat < 64 :=
  ⟨Nat.pos_of_ne_zero fun h => h0 (UInt32.toNat_inj.mp h),
    UInt32.lt_iff_toNat_lt.mp (UInt32.not_le.mp h64)⟩

end Tests

/-- Whether a value fits is a matter of the width and of the sign alone. -/
theorem fits_congr {l l' : Layout} (hsize : l.size = l'.size) (hsigned : l.signed = l'.signed)
    (v : Int64) : l.fits v = l'.fits v := by
  unfold fits
  rw [hsize, hsigned]

/-- **The test of a field is whether the value fits.** -/
theorem hasRoom?_eq (l : Layout) (v : Int64) : l.hasRoom? v = some (l.fits v) := by
  unfold hasRoom?
  by_cases h0 : l.size = 0
  · rw [if_pos h0, fits, if_pos h0]
  by_cases h64 : 64 ≤ l.size
  · rw [if_neg h0, if_pos h64, fits, if_neg h0, if_pos h64]
  obtain ⟨hpos, hlt⟩ := narrow_of_size h0 h64
  rw [if_neg h0, if_neg h64, fits_of_narrow h0 h64, Word.between?_eq hpos hlt,
    Word.unsigned?_eq hlt]
  cases l.signed <;> rfl

/-- **The test of a writer is whether the value fits.** It is not asked about a run without bits. -/
theorem takes?_eq {l : Layout} (h0 : l.size ≠ 0) (v : Int64) : l.takes? v = some (l.fits v) := by
  unfold takes?
  by_cases h64 : 64 ≤ l.size
  · rw [if_pos h64, fits, if_neg h0, if_pos h64]
  obtain ⟨hpos, hlt⟩ := narrow_of_size h0 h64
  rw [if_neg h64, fits_of_narrow h0 h64, Word.below?_eq hpos hlt, Word.unsigned?_eq hlt]
  cases l.signed <;> rfl

end Layout

/-! ## Values that are written and values that are read -/

namespace Buffer

/-- A write is refused for its value exactly if that does not fit, whatever buffer is written into
and wherever the run lies in it. -/
theorem fits_iff_encode (b : Buffer) {l : Layout} (hr : l.readable = true) (v : Int64) :
    l.fits v = true ↔ ∀ x size, b.encode l v ≠ .error (.valueTooWide x size) := by
  unfold encode
  rw [hr]
  constructor
  · intro hf x size
    rw [hf, Bool.not_true, if_neg Bool.false_ne_true, if_neg Bool.false_ne_true]
    split <;> exact fun h => by cases h
  · intro h
    by_contra hf
    refine h v l.size ?_
    rw [Bool.not_eq_true] at hf
    rw [hf]
    rfl

/-- Bytes in front of a buffer move its bits by as many places as they have. -/
theorem bit_prepend (front b : Buffer) (i : Nat) : bit (front ++ b) (front.bits + i) = b.bit i := by
  have hbyte : (8 * front.length + i) / 8 = front.length + i / 8 := by omega
  have hplace : (8 * front.length + i) % 8 = i % 8 := by omega
  rw [bit, bit, bits, hbyte, hplace, List.getElem?_append_right (Nat.le_add_right ..),
    Nat.add_sub_cancel_left]

/-- **What fits can be read from a buffer**, wherever the run lies. -/
theorem exists_value {l : Layout} (hr : l.readable = true) {v : Int64} (hf : l.fits v = true) :
    ∃ b : Buffer, l.endBit ≤ b.bits ∧ b.value l = v := by
  obtain ⟨hpos, hle⟩ := Layout.readable_iff.mp hr
  -- the same run in the byte that it begins in, and the eight bytes after it
  let near : Layout := { l with firstBit := l.firstBit % 8 }
  have hfirst : near.firstBit.toNat = l.firstBit.toNat % 8 := UInt32.toNat_mod ..
  have hend : near.endBit = l.firstBit.toNat % 8 + l.size.toNat := by rw [Layout.endBit, hfirst]
  have hlow : near.endBit ≤ UInt32.size := by rw [hend, UInt32.size]; omega
  have hbytes : (zeros 9).bits = 72 := rfl
  have hok : (zeros 9).encode near v
      = .ok ((zeros 9).put near.firstBit near.size.toNat (near.digits v)) :=
    encode_eq_ok.mpr ⟨⟨hr, hf, by omega⟩, rfl⟩
  have hfront : (zeros (l.firstBit.toNat / 8)).bits = 8 * (l.firstBit.toNat / 8) := by
    rw [bits, zeros, List.length_replicate]
  refine ⟨zeros (l.firstBit.toNat / 8)
      ++ (zeros 9).put near.firstBit near.size.toNat (near.digits v),
    ?_, value_eq_of_digits hr hf fun i hi => ?_⟩
  · rw [bits] at hfront
    rw [bits, List.length_append, Nat.mul_add, hfront, length_encode hok hlow, Layout.endBit,
      ← bits, hbytes]
    omega
  · obtain ⟨hstart, hstop⟩ := hi
    rw [Layout.endBit] at hstop
    obtain ⟨j, rfl⟩ := Nat.exists_eq_add_of_le
      (show 8 * (l.firstBit.toNat / 8) ≤ i by omega)
    have hcovers : near.Covers j := ⟨by omega, by omega⟩
    have hplace : j - near.firstBit.toNat
        = 8 * (l.firstBit.toNat / 8) + j - l.firstBit.toNat := by omega
    conv_lhs => rw [← hfront, bit_prepend, bit_encode hok hlow, if_pos hcovers]
    rw [Layout.digit, Layout.digit, hplace]
    rfl

end Buffer

namespace Layout

/-- Some buffer has the value where the run lies: a read of it answers with the value. -/
def Yields (l : Layout) (v : Int64) : Prop :=
  ∃ (b : Buffer) (session : Session Unit), (Extractor.msbFirst b l session).1 = .ok v

variable {l : Layout} {v : Int64}

/-- **The values that a read may answer are those that fit**, if the run can be read at all. -/
theorem yields_iff : l.Yields v ↔ l.readable = true ∧ l.fits v = true := by
  constructor
  · rintro ⟨b, session, hread⟩
    rw [Extractor.msbFirst_fst, Buffer.answer_eq_ok] at hread
    obtain ⟨hr, -, -, rfl⟩ := hread
    exact ⟨hr, Buffer.fits_value hr b⟩
  · rintro ⟨hr, hf⟩
    obtain ⟨b, hb, hvalue⟩ := Buffer.exists_value hr hf
    refine ⟨b, ⟨.ofBits l.endBit, ()⟩, ?_⟩
    rw [Extractor.msbFirst_fst, Buffer.answer_eq_ok]
    exact ⟨hr, hb, Nat.le_refl _, hvalue⟩

/-- What is read is what some digits stand for. -/
theorem Yields.expresses (h : l.Yields v) : l.Expresses v :=
  fits_iff_expresses.mp (yields_iff.mp h).2

theorem Expresses.yields (hr : l.readable = true) (h : l.Expresses v) : l.Yields v :=
  yields_iff.mpr ⟨hr, fits_iff_expresses.mpr h⟩

end Layout

end InstructionSet
