import InstructionSet.Proofs.Bits.Inverse
import Mathlib.Algebra.Order.Ring.Int

/-!
# Reading in machine words

A machine computes places and digits in words of 64 bits, and joins the bytes of a field
in one of 128. `Buffer.extract?` is a read on such a machine, operation by operation.
Nothing comes of it (`none`) as soon as one of them leaves its range: a sum, a product or
a difference that no word holds, a shift by as many bits as the word has, a byte that is
not there, or digits that are pushed out of the word in which the bytes are joined.

`extract?_eq` says that none of this happens in a buffer of fewer than `2 ^ 61` bytes,
whose bits can be counted in a word: the machine answers as `Extractor.msbFirst` does. The
wide word has room for sixteen bytes, and a field of 64 bits that begins inside a byte is
in nine of them. Signs are extended by moving the digits to the left end of a word and
back (`signExtend?_eq`).
-/

namespace InstructionSet

/-- A balanced remainder by an even number, scaled along with it. -/
theorem bmod_mul_right {n : Int} {m c : Nat} (heven : 2 ∣ m) (hm : 0 < m) (hc : 0 < c) :
    (n * c).bmod (m * c) = n.bmod m * c := by
  have hlow : -(m : Int) ≤ n.bmod m * 2 := by
    have := Int.le_bmod (x := n) hm
    omega
  have hhigh : n.bmod m * 2 < m := by
    have := Int.bmod_lt (x := n) hm
    omega
  have hsplit : n * c = n.bmod m * c + ((m * c : Nat) : Int) * n.bdiv m := by
    rw [Int.bmod_eq_self_sub_mul_bdiv, Int.sub_mul, Int.natCast_mul, Int.mul_right_comm (m : Int) c,
      Int.sub_add_cancel]
  have hcpos : (0 : Int) < c := Int.natCast_pos.mpr hc
  rw [hsplit, Int.add_mul_bmod_self_left]
  refine Int.bmod_eq_of_le_mul_two ?_ ?_
  · rw [Int.natCast_mul, Int.mul_right_comm, ← Int.neg_mul]
    exact Int.mul_le_mul_of_nonneg_right hlow (Int.le_of_lt hcpos)
  · rw [Int.natCast_mul, Int.mul_right_comm]
    exact Int.mul_lt_mul_of_pos_right hhigh hcpos

/-! ## Operations with a range -/

namespace Word

variable {w : Nat}

/-- The sum, if a word of `w` bits holds it. -/
def add? (a b : BitVec w) : Option (BitVec w) :=
  if a.toNat + b.toNat < 2 ^ w then some (a + b) else none

/-- The difference, if it is not negative. -/
def sub? (a b : BitVec w) : Option (BitVec w) := if b ≤ a then some (a - b) else none

/-- The product, if a word of `w` bits holds it. -/
def mul? (a b : BitVec w) : Option (BitVec w) :=
  if a.toNat * b.toNat < 2 ^ w then some (a * b) else none

/-- Shifts to the left by fewer bits than the word has. What is shifted out is lost. -/
def shiftLeft? (a : BitVec w) (amount : Nat) : Option (BitVec w) :=
  if amount < w then some (a <<< amount) else none

/-- Shifts to the right by fewer bits than the word has. -/
def shiftRight? (a : BitVec w) (amount : Nat) : Option (BitVec w) :=
  if amount < w then some (a >>> amount) else none

/-- Shifts to the right by fewer bits than the word has, and keeps the sign. -/
def arithShiftRight? (a : BitVec w) (amount : Nat) : Option (BitVec w) :=
  if amount < w then some (a.sshiftRight amount) else none

/-- A word holds the numbers with as many digits. -/
theorem toNat_ofNat_of_lt {n : Nat} (h : n < 2 ^ w) : (BitVec.ofNat w n).toNat = n := by
  rw [BitVec.toNat_ofNat]
  exact Nat.mod_eq_of_lt h

theorem exists_add? {a b : BitVec w} (h : a.toNat + b.toNat < 2 ^ w) :
    ∃ c, add? a b = some c ∧ c.toNat = a.toNat + b.toNat :=
  ⟨a + b, if_pos h, BitVec.toNat_add_of_lt h⟩

theorem exists_sub? {a b : BitVec w} (h : b.toNat ≤ a.toNat) :
    ∃ c, sub? a b = some c ∧ c.toNat = a.toNat - b.toNat :=
  ⟨a - b, if_pos (BitVec.le_def.mpr h), BitVec.toNat_sub_of_le (BitVec.le_def.mpr h)⟩

theorem exists_mul? {a b : BitVec w} (h : a.toNat * b.toNat < 2 ^ w) :
    ∃ c, mul? a b = some c ∧ c.toNat = a.toNat * b.toNat :=
  ⟨a * b, if_pos h, BitVec.toNat_mul_of_lt h⟩

theorem exists_shiftRight? (a : BitVec w) {amount : Nat} (h : amount < w) :
    ∃ c, shiftRight? a amount = some c ∧ c.toNat = a.toNat >>> amount :=
  ⟨a >>> amount, if_pos h, BitVec.toNat_ushiftRight a amount⟩

/-- The word with ones in the low `width` places, and in all of them for a width of 64 or more. -/
def mask? (width : UInt32) : Option (BitVec 64) :=
  if width = 0 then some 0
  else if 64 ≤ width then some (BitVec.allOnes 64)
  else do sub? (← shiftLeft? 1 width.toNat) 1

/-- A word holds the ones of any width up to its own. -/
theorem exists_mask? {width : UInt32} (hpos : 1 ≤ width.toNat) (hle : width.toNat ≤ 64) :
    ∃ mask, mask? width = some mask ∧ mask.toNat = 2 ^ width.toNat - 1 := by
  have h0 : width ≠ 0 := by
    rintro rfl
    exact absurd hpos (by decide)
  unfold mask?
  rw [if_neg h0]
  by_cases h64 : 64 ≤ width
  · have hwidth : width.toNat = 64 := Nat.le_antisymm hle (UInt32.le_iff_toNat_le.mp h64)
    exact ⟨_, if_pos h64, by rw [BitVec.toNat_allOnes, hwidth]⟩
  · have hlt : width.toNat < 64 := Nat.lt_of_not_le fun h => h64 (UInt32.le_iff_toNat_le.mpr h)
    have hone : ((1 : BitVec 64) <<< width.toNat).toNat = 2 ^ width.toNat := by
      rw [BitVec.toNat_shiftLeft, Nat.shiftLeft_eq]
      exact (Nat.mod_eq_of_lt (by simpa using Nat.pow_lt_pow_right (by decide) hlt)).trans
        (Nat.one_mul _)
    have hpower : (1 : BitVec 64).toNat ≤ ((1 : BitVec 64) <<< width.toNat).toNat := by
      rw [hone]
      exact Nat.two_pow_pos _
    obtain ⟨mask, hmask, hnat⟩ := exists_sub? hpower
    refine ⟨mask, ?_, by rw [hnat, hone]; rfl⟩
    rw [if_neg h64, shiftLeft?, if_pos hlt]
    exact hmask

/-- The low `width` digits as a two's complement number: they are moved to the left end of the word,
and back with copies of their sign. -/
def signExtend? (digits : BitVec 64) (width : UInt32) : Option (BitVec 64) :=
  if width = 0 ∨ 64 ≤ width then some digits
  else do
    let amount ← sub? 64 width.toBitVec
    arithShiftRight? (← shiftLeft? digits amount.toNat) amount.toNat

/-- **Moving digits to the left end and back extends their sign.** -/
theorem signExtend?_eq (digits : UInt64) (width : UInt32) :
    signExtend? digits.toBitVec width = some (signExtend digits width).toBitVec := by
  unfold signExtend?
  by_cases hwhole : width = 0 ∨ 64 ≤ width
  · rw [if_pos hwhole, signExtend, if_pos hwhole]
    rfl
  · obtain ⟨h0, h64⟩ := not_or.mp hwhole
    have hlt : width.toNat < 64 := Nat.lt_of_not_le fun h => h64 (UInt32.le_iff_toNat_le.mpr h)
    have hpos : 0 < width.toNat := Nat.pos_of_ne_zero fun h => h0 (UInt32.toNat_inj.mp h)
    obtain ⟨amount, hamount, hnat⟩ :=
      exists_sub? (show width.toBitVec.toNat ≤ (64 : BitVec 32).toNat from Nat.le_of_lt hlt)
    replace hnat : amount.toNat = 64 - width.toNat := hnat
    have hfew : amount.toNat < 64 := by omega
    have hword : 2 ^ 64 = 2 ^ width.toNat * 2 ^ amount.toNat := by
      rw [← Nat.pow_add]
      congr 1
      omega
    have heven : 2 ∣ 2 ^ width.toNat := dvd_pow_self 2 (Nat.ne_of_gt hpos)
    rw [if_neg hwhole, hamount]
    change (shiftLeft? digits.toBitVec amount.toNat).bind _ = _
    rw [shiftLeft?, if_pos hfew, Option.bind_some, arithShiftRight?, if_pos hfew]
    congr 1
    -- the shift to the left scales both the digits and the modulus
    rw [← BitVec.toInt_inj, BitVec.toInt_sshiftRight, BitVec.toInt_shiftLeft, Nat.shiftLeft_eq,
      Int.shiftRight_eq_div_pow, Int.natCast_mul, hword,
      bmod_mul_right heven (Nat.two_pow_pos _) (Nat.two_pow_pos _),
      Int.mul_ediv_cancel _ (Int.natCast_pos.mpr (Nat.two_pow_pos _)).ne', Int64.toInt_toBitVec,
      toInt_signExtend digits hpos (Nat.le_of_lt hlt), UInt64.toNat_toBitVec]

/-- The bytes joined so far with one more at the end. The word must not lose any digit. -/
def push? (joined : BitVec 128) (byte : UInt8) : Option (BitVec 128) :=
  if joined.toNat < 2 ^ 120 then some (joined <<< 8 ||| byte.toBitVec.setWidth 128) else none

/-- A byte is pushed without a loss where there is room for it. -/
theorem exists_push? {joined : BitVec 128} (byte : UInt8) (h : joined.toNat < 2 ^ 120) :
    ∃ next, push? joined byte = some next ∧ next.toNat = joined.toNat * 256 + byte.toNat := by
  refine ⟨_, if_pos h, ?_⟩
  have hbyte : byte.toNat < 2 ^ 8 := byte.toNat_lt
  have hshift : (joined <<< 8).toNat = joined.toNat <<< 8 := by
    rw [BitVec.toNat_shiftLeft, Nat.shiftLeft_eq]
    exact Nat.mod_eq_of_lt (by omega)
  have hwide : (byte.toBitVec.setWidth 128).toNat = byte.toNat := by
    rw [BitVec.toNat_setWidth, UInt8.toNat_toBitVec]
    exact Nat.mod_eq_of_lt (by omega)
  rw [BitVec.toNat_or, hshift, hwide, ← Nat.shiftLeft_add_eq_or_of_lt hbyte, Nat.shiftLeft_eq]

/-- Up to sixteen bytes are joined without a loss. -/
theorem exists_foldlM_push? {bytes : List UInt8} (hlen : bytes.length ≤ 16) :
    ∃ joined, bytes.foldlM push? 0 = some joined ∧ joined.toNat = Buffer.bigEndian bytes := by
  induction bytes using List.reverseRecOn with
  | nil => exact ⟨0, rfl, rfl⟩
  | append_singleton bytes byte ih =>
    rw [List.length_append, List.length_singleton] at hlen
    obtain ⟨joined, hjoined, hnat⟩ := ih (Nat.le_of_succ_le hlen)
    have hroom : joined.toNat < 2 ^ 120 := by
      rw [hnat]
      exact Nat.lt_of_lt_of_le (Buffer.bigEndian_lt bytes)
        (Nat.pow_le_pow_right (by decide) (by omega))
    obtain ⟨next, hnext, hnextNat⟩ := exists_push? byte hroom
    refine ⟨next, ?_, ?_⟩
    · rw [List.foldlM_append, hjoined]
      simpa using hnext
    · rw [hnextNat, hnat, Buffer.bigEndian_concat, Nat.mul_comm]
      rfl

end Word

open Word

/-- What a machine asks about the width of a run is whether it can be read. -/
theorem Layout.not_readable_iff {l : Layout} : ¬ l.readable = true ↔ l.size = 0 ∨ 64 < l.size := by
  rw [readable_iff, ← UInt32.toNat_inj, UInt32.lt_iff_toNat_lt]
  show _ ↔ l.size.toNat = 0 ∨ 64 < l.size.toNat
  omega

/-! ## The reader -/

namespace Buffer

/-- The bytes in the places from `first` to `last`, both included. -/
def slice? (b : Buffer) (first last : BitVec 64) : Option (List UInt8) :=
  if first.toNat ≤ last.toNat + 1 ∧ last.toNat < b.length then
    some ((b.drop first.toNat).take (last.toNat + 1 - first.toNat))
  else none

/-- Where a run is: the places of its first byte and its last, and how many bits follow it there. -/
structure Span where
  first : BitVec 64
  last : BitVec 64
  excess : BitVec 64

/-- Where the `size` bits from `start` on are. -/
def span? (start : BitVec 64) (size : UInt32) : Option Span := do
  let stop ← add? start (size.toBitVec.setWidth 64)
  let last := (← sub? stop 1) / 8
  let excess ← sub? (← mul? (← add? last 1) 8) stop
  return { first := start / 8, last, excess }

/-- The digits of the `size` bits from `start` on. -/
def readDigits? (b : Buffer) (start : BitVec 64) (size : UInt32) : Option (BitVec 64) := do
  let span ← span? start size
  let joined ← (← b.slice? span.first span.last).foldlM push? 0
  let shifted ← shiftRight? joined span.excess.toNat
  return shifted.setWidth 64 &&& (← mask? size)

/-- The value that digits stand for in a run laid out as `l`. -/
def ofDigits? (l : Layout) (digits : BitVec 64) : Option Int64 :=
  if l.signed then (signExtend? digits l.size).map Int64.ofBitVec
  else some (Int64.ofBitVec digits)

/-- Reads the value laid out as `l` in machine words. -/
def extract? {σ : Type} (b : Buffer) (l : Layout) (session : Session σ) :
    Option (Except AccessError Int64 × Session σ) :=
  if l.size = 0 ∨ 64 < l.size then some (.error (.invalidWidth l.size), session)
  else do
    let start := l.firstBit.toBitVec.setWidth 64
    let stop ← add? start (l.size.toBitVec.setWidth 64)
    let total ← mul? (BitVec.ofNat 64 b.length) 8
    if total < stop then some (.error (.shortBuffer stop.toNat total.toNat), session)
    else
      match session.window.claim stop.toNat with
      | .error e => some (.error e, session)
      | .ok window =>
        let digits ← b.readDigits? start l.size
        return (.ok (← ofDigits? l digits), { session with window })

theorem toNat_setWidth_word (n : UInt32) : (n.toBitVec.setWidth 64).toNat = n.toNat := by
  rw [BitVec.toNat_setWidth, UInt32.toNat_toBitVec]
  exact Nat.mod_eq_of_lt (Nat.lt_trans n.toNat_lt (by decide))

/-- A run that ends where a word can still say so has its place. -/
theorem exists_span? {start : BitVec 64} {size : UInt32} (hpos : 1 ≤ size.toNat)
    (hend : start.toNat + size.toNat ≤ 2 ^ 64 - 8) :
    ∃ span, span? start size = some span ∧ span.first.toNat = start.toNat / 8
      ∧ span.last.toNat = (start.toNat + size.toNat - 1) / 8
      ∧ span.excess.toNat
        = ((start.toNat + size.toNat - 1) / 8 + 1) * 8 - (start.toNat + size.toNat) := by
  have hone : (1 : BitVec 64).toNat = 1 := rfl
  have hbyte : (8 : BitVec 64).toNat = 8 := rfl
  have hsize := toNat_setWidth_word size
  obtain ⟨stop, hstop, hstopNat⟩ :=
    exists_add? (show start.toNat + (size.toBitVec.setWidth 64).toNat < 2 ^ 64 by omega)
  obtain ⟨back, hback, hbackNat⟩ := exists_sub? (show (1 : BitVec 64).toNat ≤ stop.toNat by omega)
  have hlast : (back / 8).toNat = (start.toNat + size.toNat - 1) / 8 := by
    rw [BitVec.toNat_udiv, hbackNat, hstopNat, hsize]
    rfl
  obtain ⟨next, hnext, hnextNat⟩ :=
    exists_add? (show (back / 8).toNat + (1 : BitVec 64).toNat < 2 ^ 64 by omega)
  rw [hlast, hone] at hnextNat
  obtain ⟨behind, hbehind, hbehindNat⟩ :=
    exists_mul? (show next.toNat * (8 : BitVec 64).toNat < 2 ^ 64 by rw [hbyte]; omega)
  rw [hbyte] at hbehindNat
  obtain ⟨excess, hexcess, hexcessNat⟩ := exists_sub? (show stop.toNat ≤ behind.toNat by omega)
  refine ⟨⟨start / 8, back / 8, excess⟩, ?_, BitVec.toNat_udiv, hlast, ?_⟩
  · simp only [span?, hstop, hback, hnext, hbehind, hexcess, Option.bind_eq_bind, Option.bind_some,
      Option.pure_def]
  · change excess.toNat = _
    rw [hexcessNat, hbehindNat, hnextNat, hstopNat, hsize]

/-- **The digits of a run inside the buffer are read without a loss.** -/
theorem exists_readDigits? {b : Buffer} (hb : b.length < 2 ^ 61) {start : BitVec 64} {size : UInt32}
    (hpos : 1 ≤ size.toNat) (hle : size.toNat ≤ 64) (hend : start.toNat + size.toNat ≤ b.bits) :
    ∃ digits, b.readDigits? start size = some digits
      ∧ digits.toNat = b.digitsAt start.toNat size.toNat := by
  rw [bits] at hend
  obtain ⟨span, hspan, hfirst, hlast, hexcess⟩ :=
    exists_span? hpos (show start.toNat + size.toNat ≤ 2 ^ 64 - 8 by omega)
  have hslice : b.slice? span.first span.last
      = some (b.covering start.toNat (start.toNat + size.toNat)) := by
    rw [slice?, hfirst, hlast, if_pos (by omega), covering]
  -- sixty-four bits are in nine bytes at most
  have hfew : (b.covering start.toNat (start.toNat + size.toNat)).length ≤ 16 := by
    rw [length_covering (by rw [bits]; exact hend) (by omega)]
    omega
  obtain ⟨joined, hjoined, hjoinedNat⟩ := exists_foldlM_push? hfew
  obtain ⟨shifted, hshifted, hshiftedNat⟩ :=
    exists_shiftRight? joined (show span.excess.toNat < 128 by omega)
  obtain ⟨mask, hmask, hmaskNat⟩ := exists_mask? hpos hle
  refine ⟨shifted.setWidth 64 &&& mask, ?_, ?_⟩
  · simp only [readDigits?, hspan, hslice, hjoined, hshifted, hmask, Option.bind_eq_bind,
      Option.bind_some, Option.pure_def]
  · rw [BitVec.toNat_and, BitVec.toNat_setWidth, hmaskNat, Nat.and_two_pow_sub_one_eq_mod,
      Nat.mod_mod_of_dvd _ (Nat.pow_dvd_pow 2 hle), hshiftedNat, hjoinedNat, hexcess, digitsAt,
      twoPow_eq]

/-- The machine takes digits to the value that they stand for. -/
theorem ofDigits?_eq {l : Layout} {digits : BitVec 64} {n : Nat} (h : digits.toNat = n) :
    ofDigits? l digits = some (l.ofDigits n) := by
  subst h
  unfold ofDigits? Layout.ofDigits
  cases l.signed with
  | true =>
    have hself : digits = (UInt64.ofNat digits.toNat).toBitVec := (BitVec.ofNat_toNat 64 digits).symm
    rw [if_pos rfl, if_pos rfl]
    conv_lhs => rw [hself, signExtend?_eq]
    rfl
  | false =>
    rw [if_neg Bool.false_ne_true, if_neg Bool.false_ne_true]
    exact congrArg (some ∘ Int64.ofBitVec) (BitVec.ofNat_toNat 64 digits).symm

/-- A word holds the end of every run, and the number of bits of a buffer that is not too long. -/
theorem exists_ends? {b : Buffer} (hb : b.length < 2 ^ 61) (l : Layout) (hsize : l.size.toNat ≤ 64) :
    ∃ stop total, add? (l.firstBit.toBitVec.setWidth 64) (l.size.toBitVec.setWidth 64) = some stop
      ∧ mul? (BitVec.ofNat 64 b.length) 8 = some total
      ∧ stop.toNat = l.endBit ∧ total.toNat = b.bits := by
  have hfirst := l.firstBit.toNat_lt
  have hstart := toNat_setWidth_word l.firstBit
  have hwidth := toNat_setWidth_word l.size
  have hbyte : (8 : BitVec 64).toNat = 8 := rfl
  have hlen : (BitVec.ofNat 64 b.length).toNat = b.length := toNat_ofNat_of_lt (by omega)
  obtain ⟨stop, hstop, hstopNat⟩ := exists_add? (show (l.firstBit.toBitVec.setWidth 64).toNat
    + (l.size.toBitVec.setWidth 64).toNat < 2 ^ 64 by omega)
  obtain ⟨total, htotal, htotalNat⟩ := exists_mul? (show (BitVec.ofNat 64 b.length).toNat
    * (8 : BitVec 64).toNat < 2 ^ 64 by rw [hlen, hbyte]; omega)
  rw [hstart, hwidth] at hstopNat
  rw [hlen, hbyte, Nat.mul_comm] at htotalNat
  exact ⟨stop, total, hstop, htotal, hstopNat, htotalNat⟩

/-- **A machine reads as `msbFirst` does**, from a buffer whose bits can be counted in a word. -/
theorem extract?_eq {σ : Type} {b : Buffer} (hb : b.length < 2 ^ 61) (l : Layout)
    (session : Session σ) : b.extract? l session = some (Extractor.msbFirst b l session) := by
  unfold extract?
  by_cases hr : l.readable = true
  · obtain ⟨hpos, hle⟩ := Layout.readable_iff.mp hr
    obtain ⟨stop, total, hstop, htotal, hstopNat, htotalNat⟩ := exists_ends? hb l hle
    simp only [if_neg (fun h => Layout.not_readable_iff.mpr h hr), hstop, htotal,
      Option.bind_eq_bind, Option.bind_some, BitVec.lt_def, hstopNat, htotalNat]
    rcases Nat.lt_or_ge b.bits l.endBit with hend | hend
    · rw [if_pos hend, Extractor.msbFirst_of_error (answer_of_past_end hr hend)]
    · rw [if_neg (Nat.not_lt.mpr hend)]
      rcases Nat.lt_or_ge session.window.available l.endBit with hw | hw
      · rw [Window.claim_of_lt hw, Extractor.msbFirst_of_error (answer_of_past_window hr hend hw)]
      · have hstart := toNat_setWidth_word l.firstBit
        obtain ⟨digits, hdigits, hdigitsNat⟩ := exists_readDigits? hb hpos hle
          (show (l.firstBit.toBitVec.setWidth 64).toNat + l.size.toNat ≤ b.bits by
            rw [hstart]
            exact hend)
        rw [hstart] at hdigitsNat
        rw [Window.claim_of_le hw, Extractor.msbFirst_of_ok (answer_of_inside hr hend hw)]
        simp only [hdigits, ofDigits?_eq hdigitsNat, Option.bind_some]
        rfl
  · rw [if_pos (Layout.not_readable_iff.mp hr),
      Extractor.msbFirst_of_error (answer_of_not_readable hr)]

end Buffer

end InstructionSet
