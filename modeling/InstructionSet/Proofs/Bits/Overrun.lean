import InstructionSet.Proofs.Bits.Writer

/-!
# Runs that end behind the last place

As long as a run ends by place `2 ^ 32`, it is read and written in the same bits. Behind
that, in a buffer which is long enough, a reader goes on, and a writer begins again: the
place of a bit is a number of 32 bits, and what comes after the last of them is place 0
(`place_past`). A machine that looks after its sums stops there instead (`encode?_eq`).

So the run is written as two, one up to the last place, and one at the beginning of the
buffer (`bit_setBits_past`). The second overwrites bits that do not belong to the run
(`Layout.writes_iff`), and the bits for which its digits were meant stay as they were. The
value is read back if they happened to have these digits already, and otherwise not
(`Leaves.read`).
-/

namespace InstructionSet

open Word

namespace Buffer

/-! ## Places that begin again -/

theorem place_eq_mod (first : UInt32) (offset : Nat) :
    place first offset = (first.toNat + offset) % UInt32.size := by
  rw [place, UInt32.toNat_add, UInt32.toNat_ofNat']
  exact Nat.add_mod_mod ..

/-- Behind the last place comes place 0. -/
theorem place_past {first : UInt32} {offset : Nat} (hoffset : offset < UInt32.size)
    (h : UInt32.size ≤ first.toNat + offset) :
    place first offset = first.toNat + offset - UInt32.size := by
  have hfirst : first.toNat < UInt32.size := first.toNat_lt
  rw [place_eq_mod, Nat.mod_eq_sub_mod h, Nat.mod_eq_of_lt (by omega)]

/-- From the end of the last place on, the places are those of a run that begins at place 0. -/
theorem place_add {first : UInt32} {m : Nat} (h : first.toNat + m = UInt32.size) (k : Nat) :
    place first (m + k) = place 0 k := by
  rw [place_eq_mod, place_eq_mod, ← Nat.add_assoc, h, Nat.add_mod_left]
  show k % UInt32.size = (0 + k) % UInt32.size
  rw [Nat.zero_add]

/-- The places of a run are numbers of 32 bits exactly if it ends by place `2 ^ 32`. -/
theorem exists_sums_iff (l : Layout) :
    (∀ offset < l.size.toNat, ∃ sum,
        add? l.firstBit.toBitVec (BitVec.ofNat 32 offset) = some sum)
      ↔ l.endBit ≤ UInt32.size := by
  have hplaces : UInt32.size = 2 ^ 32 := rfl
  have hfirst : l.firstBit.toNat < UInt32.size := l.firstBit.toNat_lt
  have hsize : l.size.toNat < UInt32.size := l.size.toNat_lt
  rw [Layout.endBit]
  constructor
  · intro h
    by_contra hpast
    obtain ⟨sum, hsum⟩ := h (UInt32.size - l.firstBit.toNat) (by omega)
    have hnone : add? l.firstBit.toBitVec (BitVec.ofNat 32 (UInt32.size - l.firstBit.toNat))
        = none := by
      refine if_neg (Nat.not_lt.mpr ?_)
      show UInt32.size ≤ l.firstBit.toNat + _
      rw [toNat_ofNat_of_lt (by omega)]
      omega
    rw [hnone] at hsum
    exact absurd hsum (by simp)
  · intro hl offset hoffset
    have hroom : l.firstBit.toBitVec.toNat + (BitVec.ofNat 32 offset).toNat < UInt32.size := by
      show l.firstBit.toNat + _ < _
      rw [toNat_ofNat_of_lt (by omega)]
      omega
    obtain ⟨sum, hsum, -⟩ := exists_add? hroom
    exact ⟨sum, hsum⟩

end Buffer

namespace Layout

variable {l : Layout}

/-- Some turn of a writer comes to bit `i` of the buffer. -/
def Writes (l : Layout) (i : Nat) : Prop :=
  ∃ offset < l.size.toNat, Buffer.place l.firstBit offset = i

/-- **Where a writer comes:** to the bits of the run that are in front of place `2 ^ 32`, and to as
many of the first bits of the buffer as the run has behind it. -/
theorem writes_iff {i : Nat} :
    l.Writes i ↔ l.Covers i ∧ i < UInt32.size ∨ i + UInt32.size < l.endBit := by
  have hfirst : l.firstBit.toNat < UInt32.size := l.firstBit.toNat_lt
  have hsize : l.size.toNat < UInt32.size := l.size.toNat_lt
  rw [Writes, Covers, endBit]
  constructor
  · rintro ⟨offset, hoffset, rfl⟩
    rcases Nat.lt_or_ge (l.firstBit.toNat + offset) UInt32.size with h | h
    · rw [Buffer.place_eq h]
      omega
    · rw [Buffer.place_past (by omega) h]
      omega
  · rintro (⟨hcovers, hi⟩ | hi)
    · refine ⟨i - l.firstBit.toNat, by omega, ?_⟩
      rw [Buffer.place_eq (by omega)]
      omega
    · refine ⟨i + UInt32.size - l.firstBit.toNat, by omega, ?_⟩
      rw [Buffer.place_past (by omega) (by omega)]
      omega

/-- A writer comes to the bits of the run, and to no others, exactly if that ends by place
`2 ^ 32`. -/
theorem writes_iff_covers (l : Layout) :
    (∀ i, l.Writes i ↔ l.Covers i) ↔ l.endBit ≤ UInt32.size := by
  have hfirst : l.firstBit.toNat < UInt32.size := l.firstBit.toNat_lt
  constructor
  · intro h
    by_contra hpast
    -- the run has a bit in place `2 ^ 32`, which is nowhere that a writer comes
    have hwrites := writes_iff.mp ((h UInt32.size).mpr ⟨Nat.le_of_lt hfirst, Nat.not_le.mp hpast⟩)
    have hend : l.endBit = l.firstBit.toNat + l.size.toNat := rfl
    have hsize : l.size.toNat < UInt32.size := l.size.toNat_lt
    omega
  · intro hl i
    rw [writes_iff, Covers]
    omega

end Layout

namespace Buffer

/-! ## Two runs instead of one -/

/-- **A loop that comes past the last place writes two runs.** The second one begins at place 0 with
the digit after the last one of the first. -/
theorem bit_setBits_past (b : Buffer) (first : UInt32) (on : Nat → Bool) (n : Nat)
    (hn : n ≤ UInt32.size) (hb : first.toNat + n ≤ b.bits) :
    ((List.range n).foldl (fun b k => b.setBit (place first k) (on k)) b).length = b.length
      ∧ ∀ j, ((List.range n).foldl (fun b k => b.setBit (place first k) (on k)) b).bit j
        = if (first.toNat ≤ j ∧ j < first.toNat + n) ∧ j < UInt32.size then on (j - first.toNat)
          else if j + UInt32.size < first.toNat + n then on (j + UInt32.size - first.toNat)
          else b.bit j := by
  have hfirst : first.toNat < UInt32.size := first.toNat_lt
  rcases Nat.lt_or_ge UInt32.size (first.toNat + n) with hpast | hin
  · obtain ⟨m, hm⟩ := Nat.exists_eq_add_of_le (Nat.le_of_lt hfirst)
    obtain ⟨k, rfl⟩ := Nat.exists_eq_add_of_le (show m ≤ n by omega)
    obtain ⟨hlen, hbit⟩ := bit_setBits b first on m (by omega) (by omega)
    obtain ⟨hlen', hbit'⟩ := bit_setBits
      ((List.range m).foldl (fun b k => b.setBit (place first k) (on k)) b) 0
      (fun j => on (m + j)) k (show 0 + k ≤ UInt32.size by omega)
      (by
        rw [bits, hlen, ← bits]
        show 0 + k ≤ b.bits
        omega)
    rw [List.range_add, List.foldl_append, List.foldl_map]
    simp only [place_add hm.symm]
    refine ⟨hlen'.trans hlen, fun j => ?_⟩
    rw [hbit', hbit]
    show (if 0 ≤ j ∧ j < 0 + k then on (m + (j - 0)) else _) = _
    by_cases hj : j < k
    · rw [if_pos (by omega), if_neg (by omega), if_pos (by omega)]
      congr 1
      omega
    · rw [if_neg (by omega)]
      by_cases hrun : first.toNat ≤ j ∧ j < first.toNat + m
      · rw [if_pos hrun, if_pos (by omega)]
      · rw [if_neg hrun, if_neg (by omega), if_neg (by omega)]
  · obtain ⟨hlen, hbit⟩ := bit_setBits b first on n hin hb
    refine ⟨hlen, fun j => ?_⟩
    rw [hbit]
    by_cases hrun : first.toNat ≤ j ∧ j < first.toNat + n
    · rw [if_pos hrun, if_pos (by omega)]
    · rw [if_neg hrun, if_neg (by omega), if_neg (by omega)]

section Encode

variable {b b' : Buffer} {l : Layout} {v : Int64} (h : b.encode l v = .ok b')
include h

theorem encode_past : b'.length = b.length
    ∧ ∀ i, b'.bit i = if l.Covers i ∧ i < UInt32.size then l.digit v i
      else if i + UInt32.size < l.endBit then l.digit v (i + UInt32.size) else b.bit i := by
  obtain ⟨⟨-, -, hb⟩, rfl⟩ := encode_eq_ok.mp h
  exact bit_setBits_past b l.firstBit _ l.size.toNat (Nat.le_of_lt l.size.toNat_lt) hb

/-- **What was written is read back** if the bits behind place `2 ^ 32`, to which no digits are
written, have those of the value before. -/
theorem value_encode_iff :
    b'.value l = v ↔ ∀ i, l.Covers i → UInt32.size ≤ i → b.bit i = l.digit v i := by
  obtain ⟨⟨hr, hf, -⟩, -⟩ := encode_eq_ok.mp h
  obtain ⟨-, hbit⟩ := encode_past h
  have hsize : l.size.toNat < UInt32.size := l.size.toNat_lt
  have hfirst : l.firstBit.toNat < UInt32.size := l.firstBit.toNat_lt
  have hend : l.endBit = l.firstBit.toNat + l.size.toNat := rfl
  have hbehind : ∀ i, UInt32.size ≤ i → b'.bit i = b.bit i := by
    intro i hi
    rw [hbit, if_neg (by omega), if_neg (by omega)]
  constructor
  · rintro rfl i hi hpast
    rw [← hbehind i hpast, digit_value hr b' hi]
  · intro hdigits
    refine value_eq_of_digits hr hf fun i hi => ?_
    rcases Nat.lt_or_ge i UInt32.size with hlt | hpast
    · rw [hbit, if_pos ⟨hi, hlt⟩]
    · rw [hbehind i hpast, hdigits i hi hpast]

end Encode

/-- What a write of `v` makes of `b`, and what a reader finds in it. -/
structure Leaves (b : Buffer) (l : Layout) (v : Int64) (b' : Buffer) : Prop where
  length : b'.length = b.length
  front : ∀ i, l.Covers i → i < UInt32.size → b'.bit i = l.digit v i
  /-- The digits for the bits behind place `2 ^ 32` are at the beginning of the buffer. -/
  spilled : ∀ i, i + UInt32.size < l.endBit → b'.bit i = l.digit v (i + UInt32.size)
  rest : ∀ i, ¬ l.Writes i → b'.bit i = b.bit i
  /-- The bits of the run are the digits of what is read, those behind place `2 ^ 32` as well. -/
  read : ∀ w, l.endBit ≤ w.available → ∃ x, b'.extract l w = .ok (x, w.mark l)
    ∧ (∀ i, l.Covers i → b'.bit i = l.digit x i)
    ∧ (x = v ↔ ∀ i, l.Covers i → UInt32.size ≤ i → b.bit i = l.digit v i)

theorem leaves_encode {b b' : Buffer} {l : Layout} {v : Int64} (h : b.encode l v = .ok b') :
    b.Leaves l v b' := by
  obtain ⟨⟨hr, -, hb⟩, -⟩ := encode_eq_ok.mp h
  obtain ⟨hlen, hbit⟩ := encode_past h
  have hsize : l.size.toNat < UInt32.size := l.size.toNat_lt
  have hend : l.endBit = l.firstBit.toNat + l.size.toNat := rfl
  refine ⟨hlen, fun i hi hlt => ?_, fun i hi => ?_, fun i hi => ?_, fun w hw => ?_⟩
  · rw [hbit, if_pos ⟨hi, hlt⟩]
  · rw [hbit, if_neg (fun hrun => by have := hrun.1.1; omega), if_pos hi]
  · rw [Layout.writes_iff, not_or] at hi
    rw [hbit, if_neg hi.1, if_neg hi.2]
  · rw [bits, ← hlen, ← bits] at hb
    exact ⟨b'.value l, extract_eq_ok.mpr ⟨⟨hr, hb, hw, rfl⟩, rfl⟩,
      fun i hi => (digit_value hr b' hi).symm, value_encode_iff h⟩

/--
**A write comes to the bits of its run exactly if that ends by place `2 ^ 32`.** Let the
run be one that can be written, end inside the buffer, and be meant for the value. Then
the writer takes it, and these are the same: no sum of its first place and an offset
leaves the range of 32 bits; a writer comes to the bits of the run and to no others; a
machine that looks after its sums gets to the end. Where the run ends behind that place, a
machine that does not look after them leaves what `Leaves` describes.
-/
theorem encode_exact {b : Buffer} {l : Layout} {v : Int64}
    (hsize : 1 ≤ l.size.toNat ∧ l.size.toNat ≤ 64) (hend : l.endBit ≤ 8 * b.length)
    (hrange : l.InRange v) :
    ((∀ offset < l.size.toNat, ∃ sum,
          add? l.firstBit.toBitVec (BitVec.ofNat 32 offset) = some sum)
        ↔ l.endBit ≤ UInt32.size)
      ∧ ((∀ i, l.Writes i ↔ l.Covers i) ↔ l.endBit ≤ UInt32.size)
      ∧ (b.length < 2 ^ 61 →
          b.encode? l v = if l.endBit ≤ UInt32.size then some (b.encode l v) else none)
      ∧ ∃ b', b.encode l v = .ok b' ∧ b.Leaves l v b' := by
  obtain ⟨b', hok⟩ := exists_encode_iff.mpr ⟨hsize, hend, hrange⟩
  refine ⟨exists_sums_iff l, l.writes_iff_covers, fun hb => ?_, b', hok, leaves_encode hok⟩
  rw [encode?_eq hb, hok]
  by_cases hl : l.endBit ≤ UInt32.size
  · rw [if_pos hl, if_neg fun hpast => hpast.2 hl]
  · rw [if_neg hl, if_pos ⟨rfl, hl⟩]

/-- All digits of a word are written into the middle of nine bytes. -/
theorem encode_exact_unaligned :
    Layout.InRange ⟨4, 64, false⟩ (-1)
      ∧ encode? (zeros 9) ⟨4, 64, false⟩ (-1)
        = some (.ok [0x0f, 0xff, 0xff, 0xff, 0xff, 0xff, 0xff, 0xff, 0xf0])
      ∧ ∃ b', encode (zeros 9) ⟨4, 64, false⟩ (-1) = .ok b'
        ∧ Leaves (zeros 9) ⟨4, 64, false⟩ (-1) b' := by
  have hrange : Layout.InRange ⟨4, 64, false⟩ (-1) := .inl rfl
  obtain ⟨-, -, hmachine, hleaves⟩ :=
    encode_exact (b := zeros 9) (l := ⟨4, 64, false⟩) (by decide) (by decide) hrange
  refine ⟨hrange, ?_, hleaves⟩
  rw [hmachine (by decide), if_pos (by decide)]
  decide

/-- Two bits, one in front of place `2 ^ 32` and one behind it. -/
def straddling : Layout := ⟨4294967295, 2, false⟩

/-- A one is written into the two bits. It comes to be the first bit of the buffer, and is not read
back. -/
theorem encode_exact_straddling :
    (1 ≤ straddling.size.toNat ∧ straddling.size.toNat ≤ 64)
      ∧ straddling.endBit ≤ 8 * (zeros (2 ^ 29 + 1)).length ∧ straddling.InRange 1
      ∧ add? straddling.firstBit.toBitVec 1 = none
      ∧ encode? (zeros (2 ^ 29 + 1)) straddling 1 = none
      ∧ ∃ b', encode (zeros (2 ^ 29 + 1)) straddling 1 = .ok b'
        ∧ ¬ straddling.Covers 0 ∧ bit (zeros (2 ^ 29 + 1)) 0 = false ∧ b'.bit 0 = true
        ∧ ∃ x w, b'.extract straddling (.ofBits (2 ^ 32 + 1)) = .ok (x, w) ∧ x ≠ 1 := by
  have hlen : (zeros (2 ^ 29 + 1)).length = 2 ^ 29 + 1 := by rw [zeros, List.length_replicate]
  have hbefore := bit_zeros (2 ^ 29 + 1)
  -- nothing but its length and its bits is needed of so long a buffer
  generalize zeros (2 ^ 29 + 1) = b at hlen hbefore ⊢
  have hplaces : UInt32.size = 2 ^ 32 := rfl
  have hstop : straddling.endBit = 4294967297 := by decide
  have hdigits : straddling.digits 1 = 1 := by decide
  have hsize : 1 ≤ straddling.size.toNat ∧ straddling.size.toNat ≤ 64 := by decide
  have hend : straddling.endBit ≤ 8 * b.length := by omega
  have hrange : straddling.InRange 1 := .inr (by decide)
  obtain ⟨b', hok⟩ := exists_encode_iff.mpr ⟨hsize, hend, hrange⟩
  have hleaves := leaves_encode hok
  have hwindow : straddling.endBit ≤ (Window.ofBits (2 ^ 32 + 1)).available := by
    rw [hstop]
    show 4294967297 ≤ 2 ^ 32 + 1
    omega
  obtain ⟨x, hread, -, hback⟩ := hleaves.read _ hwindow
  refine ⟨hsize, hend, hrange, by decide, ?_, b', hok, ?_, hbefore 0, ?_, x, _, hread, ?_⟩
  · rw [encode?_eq (by omega), hok, if_pos ⟨rfl, by omega⟩]
  · intro hcovers
    exact absurd hcovers.1 (by decide)
  · rw [hleaves.spilled 0 (by omega), Layout.digit, hdigits]
    rfl
  · -- the digit one was meant for the second bit, which is zero as before
    intro hone
    have hsecond : straddling.Covers 4294967296 := ⟨by decide, by omega⟩
    have hdigit := hback.mp hone 4294967296 hsecond (by omega)
    rw [hbefore, Layout.digit, hdigits] at hdigit
    exact absurd hdigit (by decide)

end Buffer

end InstructionSet
