import InstructionSet.Proofs.Bits.Ranges
import Mathlib.Data.List.Basic

/-!
# Writing in machine words

A machine checks a write in words of 64 bits, as it does a read, but adds up the places of
the bits in words of 32. `Buffer.encode?` is a write on such a machine, operation by
operation, and nothing comes of it (`none`) as soon as one of them leaves its range.

One sum can. It is the place of a bit that is behind place `2 ^ 32`, and the checks do not
keep a run from having such bits, as they measure its end in 64 bits (`spot?_past`).
Everything else in a turn of the loop stays in its range (`putDigit?_eq`). So the machine
refuses what `encode` refuses, and for the same reason (`encode?_refused`). What is
accepted comes to the same buffer, or to nothing if the run ends behind place `2 ^ 32`
(`encode?_accepted`).
-/

namespace InstructionSet

open Word

/-- A loop that cannot do one of its turns comes to nothing. -/
theorem foldlM_eq_none {α β : Type} {f : β → α → Option β} {turns : List α} {a : α}
    (ha : a ∈ turns) (h : ∀ b, f b a = none) (b : β) : turns.foldlM f b = none := by
  induction turns generalizing b with
  | nil => exact absurd ha List.not_mem_nil
  | cons x rest ih =>
    rw [List.foldlM_cons]
    rcases List.mem_cons.mp ha with rfl | hrest
    · rw [h]
      rfl
    · cases f b x with
      | none => rfl
      | some next => exact ih hrest next

/-! ## One digit -/

namespace Word

/-- The digit of `raw` that is `offset` places into a run of `size` bits. -/
def digit? (raw : BitVec 64) (size : UInt32) (offset : BitVec 32) : Option (BitVec 8) := do
  let behind ← sub? (← sub? size.toBitVec 1) offset
  return ((← shiftRight? raw behind.toNat) &&& 1).setWidth 8

/-- The byte with `digit` in place `shift`, counted from the right: the place is cleared, and filled
again. -/
def setDigit? (byte : BitVec 8) (shift : BitVec 64) (digit : BitVec 8) : Option (BitVec 8) := do
  let weight ← shiftLeft? 1 shift.toNat
  let moved ← shiftLeft? digit shift.toNat
  return byte &&& ~~~weight ||| moved

theorem setWidth_shiftRight_and_one (raw : BitVec 64) (k : Nat) :
    ((raw >>> k) &&& 1).setWidth 8 = if raw.toNat.testBit k then (1 : BitVec 8) else 0 := by
  rw [← BitVec.toNat_inj, BitVec.toNat_setWidth, BitVec.toNat_and, BitVec.toNat_ushiftRight,
    Nat.testBit, Nat.one_and_eq_mod_two]
  show (raw.toNat >>> k &&& 1) % 2 ^ 8 = _
  rw [Nat.and_one_is_mod]
  rcases Nat.mod_two_eq_zero_or_one (raw.toNat >>> k) with h | h
  · rw [h]
    rfl
  · rw [h]
    rfl

/-- A run of up to 64 bits has a digit for each of them. -/
theorem digit?_eq (raw : BitVec 64) {size : UInt32} (hsize : size.toNat ≤ 64) {offset : BitVec 32}
    (h : offset.toNat < size.toNat) :
    digit? raw size offset
      = some (if raw.toNat.testBit (size.toNat - 1 - offset.toNat) then 1 else 0) := by
  have hone : (1 : BitVec 32).toNat ≤ size.toBitVec.toNat := by
    show 1 ≤ size.toNat
    omega
  obtain ⟨last, hlast, hlastNat⟩ := exists_sub? hone
  replace hlastNat : last.toNat = size.toNat - 1 := hlastNat
  obtain ⟨behind, hbehind, hbehindNat⟩ := exists_sub? (show offset.toNat ≤ last.toNat by omega)
  have hshift : shiftRight? raw behind.toNat = some (raw >>> behind.toNat) := if_pos (by omega)
  simp only [digit?, hlast, hbehind, hshift, Option.bind_eq_bind, Option.bind_some, Option.pure_def]
  rw [setWidth_shiftRight_and_one, hbehindNat, hlastNat]

/-- Clearing a place and filling it again sets its digit. -/
theorem setDigit?_eq (byte : UInt8) {shift : BitVec 64} (h : shift.toNat < 8) (on : Bool) :
    setDigit? byte.toBitVec shift (if on then 1 else 0)
      = some (Buffer.setDigit byte shift.toNat on).toBitVec := by
  have hweight : (UInt8.ofNat (twoPow shift.toNat)).toBitVec = (1 : BitVec 8) <<< shift.toNat := by
    rw [twoPow_eq, ← BitVec.toNat_inj, BitVec.toNat_shiftLeft, Nat.shiftLeft_eq]
    show 2 ^ shift.toNat % 2 ^ 8 = 1 * 2 ^ shift.toNat % 2 ^ 8
    rw [Nat.one_mul]
  simp only [setDigit?, shiftLeft?, if_pos h, Option.bind_eq_bind, Option.bind_some,
    Option.pure_def, Buffer.setDigit]
  congr 1
  cases on with
  | true =>
    rw [if_pos rfl, if_pos rfl, UInt8.toBitVec_or, hweight]
    ext i hi
    simp only [BitVec.getElem_or, BitVec.getElem_and, BitVec.getElem_not]
    cases byte.toBitVec[i] <;> cases ((1 : BitVec 8) <<< shift.toNat)[i] <;> rfl
  | false =>
    rw [if_neg Bool.false_ne_true, if_neg Bool.false_ne_true, UInt8.toBitVec_and,
      UInt8.toBitVec_not, hweight]
    simp

end Word

/-! ## One bit of the buffer -/

namespace Buffer

/-- Where a bit is: the place of its byte, and its own place in that, counted from the right. -/
structure Spot where
  byte : BitVec 64
  shift : BitVec 64

/-- Where the bit is that is `offset` places into a run. The sum has 32 bits, and is widened only
when it is there. -/
def spot? (first : UInt32) (offset : BitVec 32) : Option Spot := do
  let position := (← add? first.toBitVec offset).setWidth 64
  return { byte := position / 8, shift := ← sub? 7 (position % 8) }

/-- One turn of a writer: the digit of `raw` for the bit that is `offset` places into the run is put
there. -/
def putDigit? (raw : BitVec 64) (l : Layout) (b : Buffer) (offset : BitVec 32) :
    Option Buffer := do
  let digit ← digit? raw l.size offset
  let spot ← spot? l.firstBit offset
  let byte ← setDigit? (← b[spot.byte.toNat]?).toBitVec spot.shift digit
  return b.set spot.byte.toNat (UInt8.ofBitVec byte)

/-- A bit in front of place `2 ^ 32` has its place. -/
theorem exists_spot? {first : UInt32} {offset : BitVec 32}
    (h : first.toNat + offset.toNat < UInt32.size) :
    ∃ spot, spot? first offset = some spot ∧ spot.byte.toNat = (first.toNat + offset.toNat) / 8
      ∧ spot.shift.toNat = 7 - (first.toNat + offset.toNat) % 8 := by
  obtain ⟨position, hposition, hnat⟩ := exists_add? (a := first.toBitVec) (b := offset) h
  replace hnat : (position.setWidth 64).toNat = first.toNat + offset.toNat := by
    rw [BitVec.toNat_setWidth, hnat]
    exact Nat.mod_eq_of_lt (Nat.lt_trans h (by decide))
  have hmod : (position.setWidth 64 % 8).toNat = (first.toNat + offset.toNat) % 8 := by
    rw [BitVec.toNat_umod, hnat]
    rfl
  have hseven : (position.setWidth 64 % 8).toNat ≤ (7 : BitVec 64).toNat := by
    rw [hmod]
    show _ ≤ 7
    omega
  obtain ⟨shift, hshift, hshiftNat⟩ := exists_sub? hseven
  refine ⟨⟨position.setWidth 64 / 8, shift⟩, ?_, ?_, ?_⟩
  · simp only [spot?, hposition, hshift, Option.bind_eq_bind, Option.bind_some, Option.pure_def]
  · show (position.setWidth 64 / 8).toNat = _
    rw [BitVec.toNat_udiv, hnat]
    rfl
  · show shift.toNat = _
    rw [hshiftNat, hmod]
    rfl

/-- **A bit behind place `2 ^ 32` has none.** -/
theorem spot?_past {first : UInt32} {offset : BitVec 32}
    (h : UInt32.size ≤ first.toNat + offset.toNat) : spot? first offset = none := by
  have hsum : add? first.toBitVec offset = none := if_neg (Nat.not_lt.mpr h)
  rw [spot?, hsum]
  rfl

section Turn

variable {raw : BitVec 64} {l : Layout} {offset : BitVec 32}

theorem putDigit?_past (h : UInt32.size ≤ l.firstBit.toNat + offset.toNat) (b : Buffer) :
    putDigit? raw l b offset = none := by
  rw [putDigit?, spot?_past h]
  cases digit? raw l.size offset <;> rfl

/-- **A turn sets one bit,** if that has a place in the buffer. -/
theorem putDigit?_eq {b : Buffer} (hsize : l.size.toNat ≤ 64)
    (hoffset : offset.toNat < l.size.toNat) (hplace : l.firstBit.toNat + offset.toNat < UInt32.size)
    (hb : l.firstBit.toNat + offset.toNat < b.bits) :
    putDigit? raw l b offset = some (b.setBit (l.firstBit.toNat + offset.toNat)
      (raw.toNat.testBit (l.size.toNat - 1 - offset.toNat))) := by
  rw [bits] at hb
  obtain ⟨spot, hspot, hbyteNat, hshiftNat⟩ := exists_spot? hplace
  have hbyte : b[(l.firstBit.toNat + offset.toNat) / 8]?
      = some b[(l.firstBit.toNat + offset.toNat) / 8] := List.getElem?_eq_getElem (by omega)
  simp only [putDigit?, digit?_eq raw hsize hoffset, hspot, hbyteNat, hbyte,
    setDigit?_eq _ (show spot.shift.toNat < 8 by omega), Option.bind_eq_bind, Option.bind_some,
    Option.pure_def]
  rw [setBit, List.modify_eq_set_getElem?, hbyte, hshiftNat]
  rfl

end Turn

/-! ## The writer -/

/-- The first `n` turns of a writer that has the digits `raw`. -/
def putDigits? (b : Buffer) (l : Layout) (raw : BitVec 64) (n : Nat) : Option Buffer :=
  (List.range n).foldlM (fun b offset => putDigit? raw l b (BitVec.ofNat 32 offset)) b

/-- Writes `v` laid out as `l` in machine words. -/
def encode? (b : Buffer) (l : Layout) (v : Int64) : Option (Except AccessError Buffer) :=
  if l.size = 0 ∨ 64 < l.size then some (.error (.invalidWidth l.size))
  else do
    if ← l.takes? v then
      let stop ← add? (l.firstBit.toBitVec.setWidth 64) (l.size.toBitVec.setWidth 64)
      let total ← mul? (BitVec.ofNat 64 b.length) 8
      if total < stop then some (.error (.shortBuffer stop.toNat total.toNat))
      else
        let mask ← mask? l.size
        (b.putDigits? l (v.toBitVec &&& mask) l.size.toNat).map .ok
    else some (.error (.valueTooWide v l.size))

section Loop

variable {b : Buffer} {l : Layout} (hsize : l.size.toNat ≤ 64) (raw : BitVec 64)
include hsize

/-- The turns of a run that ends by place `2 ^ 32` set its bits one after the other. -/
theorem putDigits?_eq (hl : l.endBit ≤ UInt32.size) (hb : l.endBit ≤ b.bits) {n : Nat}
    (hn : n ≤ l.size.toNat) :
    b.putDigits? l raw n = some ((List.range n).foldl (fun b k =>
      b.setBit (place l.firstBit k) (raw.toNat.testBit (l.size.toNat - 1 - k))) b) := by
  rw [Layout.endBit] at hl hb
  unfold putDigits?
  induction n with
  | zero => rfl
  | succ n ih =>
    have hoffset : (BitVec.ofNat 32 n).toNat = n := toNat_ofNat_of_lt (by omega)
    -- the turns so far have left the buffer as long as it was
    have hlen := (bit_setBits b l.firstBit
      (fun k => raw.toNat.testBit (l.size.toNat - 1 - k)) n (by omega) (by omega)).1
    rw [List.range_succ, List.foldlM_append, ih (by omega), List.foldl_append, List.foldl_cons,
      List.foldl_nil, place_eq (by omega)]
    simp only [Option.bind_eq_bind, Option.bind_some, List.foldlM_cons, List.foldlM_nil,
      Option.pure_def]
    rw [putDigit?_eq hsize (by omega) (by omega) (by rw [bits, hlen, ← bits]; omega), hoffset]
    rfl

/-- A run that ends behind place `2 ^ 32` has a turn that cannot be done. -/
theorem putDigits?_past (hl : UInt32.size < l.endBit) :
    b.putDigits? l raw l.size.toNat = none := by
  have hfirst : l.firstBit.toNat < UInt32.size := l.firstBit.toNat_lt
  rw [Layout.endBit] at hl
  refine foldlM_eq_none (a := UInt32.size - l.firstBit.toNat) (List.mem_range.mpr (by omega))
    (putDigit?_past ?_) b
  rw [toNat_ofNat_of_lt (by omega)]
  omega

end Loop

section Write

variable {b : Buffer} (hb : b.length < 2 ^ 61) {l : Layout} {v : Int64}
include hb

/-- **A write is refused on a machine as it is by `encode`.** -/
theorem encode?_refused {e : AccessError} (h : b.encode l v = .error e) :
    b.encode? l v = some (.error e) := by
  unfold encode at h
  by_cases hr : l.readable = true
  · have hwidth : ¬(l.size = 0 ∨ 64 < l.size) := fun h => Layout.not_readable_iff.mpr h hr
    rw [encode?, if_neg hwidth, l.takes?_eq (not_or.mp hwidth).1]
    rw [hr, Bool.not_true, if_neg Bool.false_ne_true] at h
    cases hf : l.fits v with
    | false =>
      rw [hf] at h
      exact congrArg some h
    | true =>
      obtain ⟨stop, total, hstop, htotal, hstopNat, htotalNat⟩ :=
        exists_ends? hb l (Layout.readable_iff.mp hr).2
      rw [hf, Bool.not_true, if_neg Bool.false_ne_true] at h
      rcases Nat.lt_or_ge b.bits l.endBit with hend | hend
      · rw [if_pos hend] at h
        simp only [hstop, htotal, Option.bind_eq_bind, Option.bind_some, if_true, BitVec.lt_def,
          hstopNat, htotalNat, if_pos hend, h]
      · rw [if_neg (Nat.not_lt.mpr hend)] at h
        exact absurd h (by simp)
  · rw [encode?, if_pos (Layout.not_readable_iff.mp hr)]
    rw [Bool.eq_false_iff.mpr hr] at h
    exact congrArg some h

/-- **A write that is accepted is done if the run ends by place `2 ^ 32`,** and otherwise comes to
nothing. -/
theorem encode?_accepted (hr : l.readable = true) (hf : l.fits v = true)
    (hend : l.endBit ≤ b.bits) :
    b.encode? l v = if l.endBit ≤ UInt32.size then some (b.encode l v) else none := by
  obtain ⟨hpos, hle⟩ := Layout.readable_iff.mp hr
  obtain ⟨stop, total, hstop, htotal, hstopNat, htotalNat⟩ := exists_ends? hb l hle
  obtain ⟨mask, hmask, hmaskNat⟩ := exists_mask? hpos hle
  have hwidth : ¬(l.size = 0 ∨ 64 < l.size) := fun h => Layout.not_readable_iff.mpr h hr
  have hraw : (v.toBitVec &&& mask).toNat = l.digits v := by
    rw [BitVec.toNat_and, hmaskNat, Nat.and_two_pow_sub_one_eq_mod, Layout.digits, twoPow_eq]
    rfl
  simp only [encode?, if_neg hwidth, l.takes?_eq (not_or.mp hwidth).1, hf, hstop, htotal, hmask,
    Option.bind_eq_bind, Option.bind_some, if_true, BitVec.lt_def, hstopNat, htotalNat,
    if_neg (Nat.not_lt.mpr hend)]
  rcases Nat.lt_or_ge UInt32.size l.endBit with hpast | hl
  · rw [putDigits?_past hle _ hpast, if_neg (Nat.not_le.mpr hpast)]
    rfl
  · rw [putDigits?_eq hle _ hl hend (Nat.le_refl _), if_pos hl, hraw,
      encode_eq_ok.mpr ⟨⟨hr, hf, hend⟩, rfl⟩]
    rfl

/-- **A machine writes as `encode` does,** unless the write is accepted and its run ends behind
place `2 ^ 32`. -/
theorem encode?_eq (l : Layout) (v : Int64) :
    b.encode? l v = if (b.encode l v).isOk ∧ ¬ l.endBit ≤ UInt32.size then none
      else some (b.encode l v) := by
  cases h : b.encode l v with
  | error e =>
    rw [encode?_refused hb h]
    exact (if_neg fun hok => Bool.false_ne_true hok.1).symm
  | ok b' =>
    obtain ⟨⟨hr, hf, hend⟩, -⟩ := encode_eq_ok.mp h
    rw [encode?_accepted hb hr hf hend, h]
    by_cases hl : l.endBit ≤ UInt32.size
    · rw [if_pos hl, if_neg fun hok => hok.2 hl]
    · rw [if_neg hl, if_pos ⟨rfl, hl⟩]

end Write

end Buffer

end InstructionSet
