import InstructionSet.Proofs.Bits.Writing

/-!
# Reading and writing undo each other

What is written is read back, and what was read can be written back. The first is a
matter of the digits of a value that fits, which stand for it (`ofDigits_digits`). The
second needs the converse: whatever digits a run may have, they stand for a value that
fits and whose digits they are (`fits_ofDigits`, `digits_ofDigits`). So the bits of a
run that was read are the digits of the value (`digit_value`), and writing them again
changes nothing.

`Buffer.encode` makes another buffer. A program overwrites the one that it has:
`Buffer.store` does so, one bit after the other, and what it leaves behind is the buffer
that `encode` makes, or the one that there was if the write is refused (`store_eq`).
-/

namespace InstructionSet

/-- Digits are extended to the number that they are in two's complement of that width. -/
theorem toInt_signExtend (digits : UInt64) {width : UInt32} (hpos : 0 < width.toNat)
    (hle : width.toNat ≤ 64) :
    (signExtend digits width).toInt = Int.bmod digits.toNat (2 ^ width.toNat) := by
  unfold signExtend
  rcases Nat.lt_or_eq_of_le hle with hlt | h64
  · have hwide : ¬(width = 0 ∨ 64 ≤ width) := by
      rw [UInt32.le_iff_toNat_le, ← UInt32.toNat_inj]
      change ¬(width.toNat = 0 ∨ 64 ≤ width.toNat)
      omega
    have hpow : 2 ^ width.toNat ≤ 2 ^ 63 := Nat.pow_le_pow_right (by omega) (by omega)
    have hlow := Int.le_bmod (x := digits.toNat) (Nat.two_pow_pos width.toNat)
    have hhigh := Int.bmod_lt (x := digits.toNat) (Nat.two_pow_pos width.toNat)
    rw [if_neg hwide, twoPow_eq]
    exact Int64.toInt_ofInt_of_le (by omega) (by omega)
  · rw [if_pos (.inr (UInt32.le_iff_toNat_le.mpr (Nat.le_of_eq h64.symm))), h64]
    exact BitVec.toInt_eq_toNat_bmod digits.toBitVec

namespace Layout

/-! ## The values of a run -/

/-- The value is one of those that the run is meant for. A run of 64 bits is meant for all. -/
def InRange (l : Layout) (v : Int64) : Prop :=
  l.size = 64 ∨
    if l.signed then -2 ^ (l.size.toNat - 1) ≤ v.toInt ∧ v.toInt < 2 ^ (l.size.toNat - 1)
    else 0 ≤ v.toInt ∧ v.toInt < 2 ^ l.size.toNat

theorem readable_iff {l : Layout} :
    l.readable = true ↔ 1 ≤ l.size.toNat ∧ l.size.toNat ≤ 64 := by
  rw [readable, decide_eq_true_iff, UInt32.le_iff_toNat_le, Ne, ← UInt32.toNat_inj,
    Nat.one_le_iff_ne_zero]
  rfl

/-- What has a representation are the values that the run is meant for. -/
theorem fits_iff_inRange {l : Layout} (hr : l.readable = true) {v : Int64} :
    l.fits v = true ↔ l.InRange v := by
  obtain ⟨hpos, hle⟩ := readable_iff.mp hr
  have h0 : l.size ≠ 0 := by
    intro h
    rw [h] at hpos
    exact absurd hpos (by decide)
  unfold fits InRange
  rw [if_neg h0, twoPow_eq, twoPow_eq]
  by_cases h64 : l.size = 64
  · rw [if_pos (UInt32.le_of_eq h64.symm)]
    exact iff_of_true rfl (.inl h64)
  · have hlt : ¬ 64 ≤ l.size := fun hge =>
      h64 (UInt32.le_antisymm (UInt32.le_iff_toNat_le.mpr hle) hge)
    rw [if_neg hlt, or_iff_right h64]
    cases l.signed with
    | true => simp
    | false => simp

/-! ## Digits and the value that they stand for -/

section Digits

variable {l : Layout} {n : Nat} (hr : l.readable = true) (hn : n < 2 ^ l.size.toNat)
include hr hn

/-- The digits are read in two's complement, of the run's own width if it is signed. -/
theorem toInt_ofDigits :
    (l.ofDigits n).toInt = Int.bmod n (2 ^ if l.signed then l.size.toNat else 64) := by
  obtain ⟨hpos, hle⟩ := readable_iff.mp hr
  unfold ofDigits
  cases l.signed with
  | false =>
    rw [if_neg Bool.false_ne_true, if_neg Bool.false_ne_true]
    exact Int64.toInt_ofNat'
  | true =>
    have hpow : 2 ^ l.size.toNat ≤ 2 ^ 64 := Nat.pow_le_pow_right (by decide) hle
    rw [if_pos rfl, if_pos rfl, toInt_signExtend _ hpos hle,
      UInt64.toNat_ofNat_of_lt' (Nat.lt_of_lt_of_le hn hpow)]

/-- **Whatever digits a run has, they are the digits of what they stand for.** -/
theorem digits_ofDigits : l.digits (l.ofDigits n) = n := by
  obtain ⟨-, hle⟩ := readable_iff.mp hr
  have hwidth : l.size.toNat ≤ if l.signed then l.size.toNat else 64 := by
    split
    · exact Nat.le_refl _
    · exact hle
  -- both the reading and the digits forget multiples of the run's own width
  have hdvd : ((2 ^ l.size.toNat : Nat) : Int)
      ∣ ((2 ^ if l.signed then l.size.toNat else 64 : Nat) : Int) := by
    exact_mod_cast Nat.pow_dvd_pow 2 hwidth
  have hmod : ((l.digits (l.ofDigits n) : Nat) : Int) = ((n : Nat) : Int) := by
    rw [digits_eq_emod hle, toInt_ofDigits hr hn, ← Int.emod_emod_of_dvd _ hdvd, Int.bmod_emod,
      Int.emod_emod_of_dvd _ hdvd]
    exact_mod_cast Nat.mod_eq_of_lt hn
  exact_mod_cast hmod

/-- **What digits stand for fits.** -/
theorem fits_ofDigits : l.fits (l.ofDigits n) = true := by
  obtain ⟨hpos, hle⟩ := readable_iff.mp hr
  rw [fits_iff_inRange hr, InRange, toInt_ofDigits hr hn]
  rcases Nat.lt_or_eq_of_le hle with hlt | h64
  · right
    have hdouble : 2 ^ (l.size.toNat - 1) * 2 = 2 ^ l.size.toNat := by
      rw [← Nat.pow_succ]
      congr 1
      omega
    cases l.signed with
    | true =>
      have hlow := Int.le_bmod (x := n) (Nat.two_pow_pos l.size.toNat)
      have hhigh := Int.bmod_lt (x := n) (Nat.two_pow_pos l.size.toNat)
      have hcast : ((2 ^ (l.size.toNat - 1) : Nat) : Int) = 2 ^ (l.size.toNat - 1) := by
        push_cast
        rfl
      rw [if_pos rfl, if_pos rfl, ← hcast]
      omega
    | false =>
      -- the number is too small for its first digit of 64 to be anything but zero
      have hpow : 2 ^ l.size.toNat ≤ 2 ^ 63 := Nat.pow_le_pow_right (by omega) (by omega)
      have hself : Int.bmod n (2 ^ 64) = n := Int.bmod_eq_of_le (by omega) (by omega)
      rw [if_neg Bool.false_ne_true, if_neg Bool.false_ne_true, hself]
      exact ⟨Int.natCast_nonneg n, by exact_mod_cast hn⟩
  · exact .inl (UInt32.toNat_inj.mp h64)

end Digits

/-- Some digits of the run stand for the value. -/
def Expresses (l : Layout) (v : Int64) : Prop := ∃ n < 2 ^ l.size.toNat, l.ofDigits n = v

/-- **What has a representation is what some digits stand for**, in a run of whatever width: in one
that is empty, or too long to be read, as well. -/
theorem fits_iff_expresses {l : Layout} {v : Int64} : l.fits v = true ↔ l.Expresses v := by
  by_cases hr : l.readable = true
  · constructor
    · intro hf
      exact ⟨l.digits v, l.digits_lt v, ofDigits_digits hr hf⟩
    · rintro ⟨n, hn, rfl⟩
      exact fits_ofDigits hr hn
  · by_cases h0 : l.size = 0
    · -- the one number without digits is zero
      have hzero : ∀ n < 2 ^ l.size.toNat, l.ofDigits n = 0 := by
        intro n hn
        obtain rfl : n = 0 := by
          rw [h0] at hn
          exact Nat.lt_one_iff.mp hn
        rw [ofDigits, h0]
        split <;> rfl
      rw [fits, if_pos h0, decide_eq_true_iff]
      constructor
      · intro hv
        exact ⟨0, Nat.two_pow_pos _, (hzero 0 (Nat.two_pow_pos _)).trans hv.symm⟩
      · rintro ⟨n, hn, rfl⟩
        exact hzero n hn
    · -- more than 64 digits are those of every value
      have h64 : 64 < l.size.toNat := by
        rw [readable_iff] at hr
        have hne : l.size.toNat ≠ 0 := fun h => h0 (UInt32.toNat_inj.mp h)
        omega
      have hle : 64 ≤ l.size := UInt32.le_iff_toNat_le.mpr (Nat.le_of_lt h64)
      have hlt : v.toUInt64.toNat < 2 ^ l.size.toNat :=
        Nat.lt_of_lt_of_le v.toUInt64.toNat_lt (Nat.pow_le_pow_right (by omega) (by omega))
      rw [fits, if_neg h0, if_pos hle]
      refine iff_of_true rfl ⟨v.toUInt64.toNat, hlt, ?_⟩
      rw [ofDigits]
      split
      · rw [signExtend, if_pos (.inr hle), UInt64.ofNat_toNat, Int64.toInt64_toUInt64]
      · exact ofNat_toUInt64 v

end Layout

namespace Buffer

/-! ## Buffers are their bits -/

/-- Buffers of one length with the same bits are the same. -/
theorem ext_bit {b b' : Buffer} (hlen : b.length = b'.length) (h : ∀ i, b.bit i = b'.bit i) :
    b = b' := by
  refine List.ext_getElem hlen fun k hk hk' => UInt8.toNat_inj.mp ?_
  refine Nat.eq_of_testBit_eq fun j => ?_
  by_cases hj : j < 8
  · have hbyte : (8 * k + (7 - j)) / 8 = k := by omega
    have hplace : 7 - (8 * k + (7 - j)) % 8 = j := by omega
    have hbit := h (8 * k + (7 - j))
    rwa [bit, bit, hbyte, hplace, List.getElem?_eq_getElem hk, List.getElem?_eq_getElem hk',
      Option.getD_some, Option.getD_some] at hbit
  · have hpow : 2 ^ 8 ≤ 2 ^ j := Nat.pow_le_pow_right (by omega) (by omega)
    rw [Nat.testBit_lt_two_pow (Nat.lt_of_lt_of_le b[k].toNat_lt hpow),
      Nat.testBit_lt_two_pow (Nat.lt_of_lt_of_le b'[k].toNat_lt hpow)]

theorem number_lt (b : Buffer) (first size : Nat) : b.number first size < 2 ^ size := by
  refine Nat.lt_pow_two_of_testBit _ fun j hj => ?_
  rw [testBit_number, decide_eq_false (Nat.not_lt.mpr hj), Bool.false_and]

section Value

variable {l : Layout} (hr : l.readable = true) (b : Buffer)
include hr

/-- **What is read fits where it was read.** -/
theorem fits_value : l.fits (b.value l) = true := Layout.fits_ofDigits hr (b.number_lt _ _)

/-- **The bits of a run are the digits of the value that is read from them.** -/
theorem digit_value {i : Nat} (hi : l.Covers i) : l.digit (b.value l) i = b.bit i := by
  obtain ⟨hfirst, hend⟩ := hi
  have hend' : i < l.firstBit.toNat + l.size.toNat := hend
  have hplace : l.firstBit.toNat + (l.size.toNat - 1 - (l.size.toNat - 1
      - (i - l.firstBit.toNat))) = i := by omega
  have hin : l.size.toNat - 1 - (i - l.firstBit.toNat) < l.size.toNat := by omega
  rw [Layout.digit, value, Layout.digits_ofDigits hr (b.number_lt _ _), testBit_number, hplace,
    decide_eq_true hin, Bool.true_and]

end Value

/-- A read is answered with the value, if its run can be read and is inside the buffer and the
window. -/
theorem extract_eq_ok {b : Buffer} {l : Layout} {w w' : Window} {v : Int64} :
    b.extract l w = .ok (v, w')
      ↔ (l.readable = true ∧ l.endBit ≤ b.bits ∧ l.endBit ≤ w.available ∧ b.value l = v)
        ∧ w.mark l = w' := by
  rw [extract_eq, ← answer_eq_ok]
  cases b.answer l w.available with
  | error e => simp [Except.map]
  | ok v' => simp [Except.map]

/-- A value is written if the run can be read, lies inside the buffer and is meant for it. -/
theorem exists_encode_iff {b : Buffer} {l : Layout} {v : Int64} :
    (∃ b', b.encode l v = .ok b')
      ↔ (1 ≤ l.size.toNat ∧ l.size.toNat ≤ 64) ∧ l.endBit ≤ 8 * b.length ∧ l.InRange v := by
  constructor
  · intro hex
    obtain ⟨b', hok⟩ := hex
    obtain ⟨⟨hr, hf, hb⟩, -⟩ := encode_eq_ok.mp hok
    exact ⟨Layout.readable_iff.mp hr, hb, (Layout.fits_iff_inRange hr).mp hf⟩
  · intro hand
    obtain ⟨hsize, hb, hrange⟩ := hand
    have hr := Layout.readable_iff.mpr hsize
    exact ⟨_, encode_eq_ok.mpr ⟨⟨hr, (Layout.fits_iff_inRange hr).mpr hrange, hb⟩, rfl⟩⟩

/-- **What was written is read back.** -/
theorem extract_encode {b b' : Buffer} {l : Layout} {v : Int64} (hl : l.endBit ≤ UInt32.size)
    (hok : b.encode l v = .ok b') {w : Window} (hw : l.endBit ≤ w.available) :
    b'.extract l w = .ok (v, w.mark l) := by
  obtain ⟨⟨hr, hf, hb⟩, -⟩ := encode_eq_ok.mp hok
  rw [bits, ← length_encode hok hl, ← bits] at hb
  refine extract_eq_ok.mpr ⟨⟨hr, hb, hw, value_eq_of_digits hr hf fun i hi => ?_⟩, rfl⟩
  rw [bit_encode hok hl, if_pos hi]

/-- **Writing back what was read changes nothing.** -/
theorem encode_value {b : Buffer} {l : Layout} (hl : l.endBit ≤ UInt32.size)
    (hr : l.readable = true) (hb : l.endBit ≤ b.bits) : b.encode l (b.value l) = .ok b := by
  have hok := encode_eq_ok.mpr ⟨⟨hr, fits_value hr b, hb⟩, rfl⟩
  rw [hok]
  congr 1
  refine ext_bit (length_encode hok hl) fun i => ?_
  rw [bit_encode hok hl]
  split
  · rename_i hi
    exact digit_value hr b hi
  · rfl

/-! ## Two writes -/

/-- Writes that share no bit may change places. -/
theorem encode_comm {b b₁ b₂ : Buffer} {l l' : Layout} {v v' : Int64}
    (hl : l.endBit ≤ UInt32.size) (hl' : l'.endBit ≤ UInt32.size)
    (hapart : ∀ i, l.Covers i → ¬ l'.Covers i) (h₁ : b.encode l v = .ok b₁)
    (h₂ : b₁.encode l' v' = .ok b₂) : ∃ b₃, b.encode l' v' = .ok b₃ ∧ b₃.encode l v = .ok b₂ := by
  obtain ⟨⟨hr, hf, hb⟩, -⟩ := encode_eq_ok.mp h₁
  obtain ⟨⟨hr', hf', hb'⟩, -⟩ := encode_eq_ok.mp h₂
  have hlen₁ := length_encode h₁ hl
  rw [bits, hlen₁, ← bits] at hb'
  have h₃ := encode_eq_ok.mpr ⟨⟨hr', hf', hb'⟩, rfl⟩
  have hlen₃ := length_encode h₃ hl'
  rw [bits, ← hlen₃, ← bits] at hb
  have h₄ := encode_eq_ok.mpr ⟨⟨hr, hf, hb⟩, rfl⟩
  refine ⟨_, h₃, h₄.trans (congrArg Except.ok (ext_bit ?_ fun i => ?_))⟩
  · rw [length_encode h₄ hl, hlen₃, length_encode h₂ hl', hlen₁]
  · rw [bit_encode h₄ hl, bit_encode h₃ hl', bit_encode h₂ hl', bit_encode h₁ hl]
    by_cases hi : l.Covers i
    · rw [if_pos hi, if_neg (hapart i hi), if_pos hi]
    · rw [if_neg hi, if_neg hi]

/-- One write after the other. -/
theorem bind_encode {b : Buffer} {l l' : Layout} {v v' : Int64} {r : Buffer} :
    (b.encode l v).bind (·.encode l' v') = .ok r
      ↔ ∃ b₁, b.encode l v = .ok b₁ ∧ b₁.encode l' v' = .ok r := by
  cases b.encode l v with
  | ok b₁ => simp [Except.bind]
  | error e => simp [Except.bind]

theorem bind_encode_comm (b : Buffer) {l l' : Layout} (v v' : Int64)
    (hl : l.endBit ≤ UInt32.size) (hl' : l'.endBit ≤ UInt32.size)
    (hapart : ∀ i, l.Covers i → ¬ l'.Covers i) (r : Buffer) :
    (b.encode l v).bind (·.encode l' v') = .ok r
      ↔ (b.encode l' v').bind (·.encode l v) = .ok r := by
  rw [bind_encode, bind_encode]
  constructor
  · intro hex
    obtain ⟨b₁, h₁, h₂⟩ := hex
    exact encode_comm hl hl' hapart h₁ h₂
  · intro hex
    obtain ⟨b₁, h₁, h₂⟩ := hex
    exact encode_comm hl' hl (fun i hi' hi => hapart i hi hi') h₁ h₂

/-! ## Writing in place -/

/-- Writes `value` laid out as `l` into the buffer at hand, one bit after the other. -/
def store (l : Layout) (value : Int64) : EStateM AccessError Buffer Unit := do
  if !l.readable then throw (.invalidWidth l.size)
  if !l.fits value then throw (.valueTooWide value l.size)
  let b ← get
  if b.bits < l.endBit then throw (.shortBuffer l.endBit b.bits)
  (List.range l.size.toNat).forM fun offset =>
    modify (·.setBit (place l.firstBit offset)
      ((l.digits value).testBit (l.size.toNat - 1 - offset)))

/-- A loop that changes the buffer leaves behind what the changes make of it. -/
theorem forM_modify {α : Type} (f : Buffer → α → Buffer) (steps : List α) (b : Buffer) :
    (steps.forM fun a => modify (f · a) : EStateM AccessError Buffer PUnit) b
      = .ok PUnit.unit (steps.foldl f b) := by
  induction steps generalizing b with
  | nil => rfl
  | cons a rest ih => exact ih (f b a)

/-- **What a write in place leaves behind:** the buffer that `encode` makes, or the one that there
was. -/
theorem store_eq (b : Buffer) (l : Layout) (v : Int64) :
    store l v b = match b.encode l v with
      | .ok b' => .ok () b'
      | .error e => .error e b := by
  unfold store encode
  cases l.readable with
  | false => rfl
  | true =>
    cases l.fits v with
    | false => rfl
    | true =>
      -- only now is the buffer looked at
      change (if b.bits < l.endBit then _ else _ : EStateM AccessError Buffer Unit) b = _
      by_cases hb : b.bits < l.endBit
      · simp only [Bool.not_true, Bool.false_eq_true, if_false, if_pos hb]
        rfl
      · simp only [Bool.not_true, Bool.false_eq_true, if_false, if_neg hb]
        exact forM_modify _ (List.range l.size.toNat) b

theorem store_eq_ok {b b' : Buffer} {l : Layout} {v : Int64} :
    store l v b = .ok () b' ↔ b.encode l v = .ok b' := by
  rw [store_eq]
  cases b.encode l v with
  | ok b₁ => simp
  | error e => simp

theorem store_eq_error {b b' : Buffer} {l : Layout} {v : Int64} {e : AccessError} :
    store l v b = .error e b' ↔ b.encode l v = .error e ∧ b' = b := by
  rw [store_eq]
  cases b.encode l v with
  | ok b₁ => simp
  | error e' => simp [eq_comm]

/--
**Reading and writing are inverse to one another**, for runs that end by place
`2 ^ 32`. A value is written exactly if the run can be read, lies inside the buffer and
is meant for the value. A write that is refused leaves the buffer as it was. One that is
not changes no bit outside the run, and the value is read back in every window that has
room for it. What was read is written back without a change, and writes that share no
bit may change places.
-/
theorem encode_extract (b : Buffer) {l : Layout} (hl : l.endBit ≤ UInt32.size) (v : Int64) :
    ((∃ b', b.encode l v = .ok b')
        ↔ (1 ≤ l.size.toNat ∧ l.size.toNat ≤ 64) ∧ l.endBit ≤ 8 * b.length ∧ l.InRange v)
      ∧ (∀ b', store l v b = .ok () b' ↔ b.encode l v = .ok b')
      ∧ (∀ e b', store l v b = .error e b' ↔ b.encode l v = .error e ∧ b' = b)
      ∧ (∀ b', b.encode l v = .ok b' → b'.length = b.length
          ∧ (∀ i, ¬ l.Covers i → b'.bit i = b.bit i)
          ∧ ∀ w, l.endBit ≤ w.available → b'.extract l w = .ok (v, w.mark l))
      ∧ (∀ w w', b.extract l w = .ok (v, w') → b.encode l v = .ok b)
      ∧ ∀ l' v', l'.endBit ≤ UInt32.size → (∀ i, l.Covers i → ¬ l'.Covers i) → ∀ b₂,
          (b.encode l v).bind (·.encode l' v') = .ok b₂
            ↔ (b.encode l' v').bind (·.encode l v) = .ok b₂ := by
  refine ⟨exists_encode_iff, fun b' => store_eq_ok, fun e b' => store_eq_error, ?_, ?_, ?_⟩
  · intro b' hok
    refine ⟨length_encode hok hl, fun i hi => ?_, fun w hw => extract_encode hl hok hw⟩
    rw [bit_encode hok hl, if_neg hi]
  · intro w w' hread
    obtain ⟨⟨hr, hb, -, rfl⟩, -⟩ := extract_eq_ok.mp hread
    exact encode_value hl hr hb
  · intro l' v' hl' hapart
    exact bind_encode_comm b v v' hl hl' hapart

/-- An immediate is written into a word and read back. The operation code in front of it, which
shares no bit with it, may be written before or after. -/
theorem encode_extract_word :
    Buffer.encode [0, 0, 0, 0] ⟨16, 16, true⟩ (-100) = .ok [0, 0, 0xff, 0x9c]
      ∧ Buffer.extract [0, 0, 0xff, 0x9c] ⟨16, 16, true⟩ (.ofBits 32) = .ok (-100, ⟨32, 32⟩)
      ∧ Buffer.encode [0, 0, 0xff, 0x9c] ⟨16, 16, true⟩ (-100) = .ok [0, 0, 0xff, 0x9c]
      ∧ (Buffer.encode [0, 0, 0, 0] ⟨0, 6, false⟩ 8).bind (·.encode ⟨16, 16, true⟩ (-100))
        = .ok [0x20, 0, 0xff, 0x9c] := by
  have hl : Layout.endBit ⟨16, 16, true⟩ ≤ UInt32.size := by decide
  have hwritten : Buffer.encode [0, 0, 0, 0] ⟨16, 16, true⟩ (-100) = .ok [0, 0, 0xff, 0x9c] := by
    decide
  obtain ⟨-, -, -, hback, -, hcomm⟩ := encode_extract [0, 0, 0, 0] hl (-100)
  obtain ⟨-, -, -, -, hagain, -⟩ := encode_extract [0, 0, 0xff, 0x9c] hl (-100)
  have hread := (hback _ hwritten).2.2 (.ofBits 32) (by decide)
  refine ⟨hwritten, hread, hagain _ _ hread, ?_⟩
  refine (hcomm ⟨0, 6, false⟩ 8 (by decide) ?_ _).mp (by decide)
  intro i hi hi'
  exact absurd hi'.2 (Nat.not_lt.mpr (Nat.le_trans (by decide) hi.1))

end Buffer

end InstructionSet
