import InstructionSet.Bits.Extractor

/-!
# What a read answers

`Buffer.extract` checks, reads and moves the mark of the window. What it answers
is a function of the buffer, the layout and the width of the window alone, and
that function is `Buffer.answer`; the mark is not looked at.
-/

namespace InstructionSet

/-- The value laid out as `l`, or why it cannot be read in a window of `width` bits. -/
def Buffer.answer (b : Buffer) (l : Layout) (width : Nat) : Except AccessError Int64 :=
  if !l.readable then .error (.invalidWidth l.size)
  else if b.bits < l.endBit then .error (.shortBuffer l.endBit b.bits)
  else if width < l.endBit then .error (.shortBuffer l.endBit width)
  else .ok (l.ofDigits (b.digitsAt l.firstBit.toNat l.size.toNat))

namespace Buffer

variable {b : Buffer} {l : Layout} {width : Nat}

theorem answer_of_not_readable (hr : l.readable ≠ true) :
    b.answer l width = .error (.invalidWidth l.size) := by
  rw [answer, Bool.eq_false_iff.mpr hr]
  rfl

theorem answer_of_past_end (hr : l.readable = true) (hb : b.bits < l.endBit) :
    b.answer l width = .error (.shortBuffer l.endBit b.bits) := by
  rw [answer, hr, if_pos hb]
  rfl

theorem answer_of_past_window (hr : l.readable = true) (hb : l.endBit ≤ b.bits)
    (hw : width < l.endBit) : b.answer l width = .error (.shortBuffer l.endBit width) := by
  rw [answer, hr, if_neg (Nat.not_lt.mpr hb), if_pos hw]
  rfl

theorem answer_of_inside (hr : l.readable = true) (hb : l.endBit ≤ b.bits)
    (hw : l.endBit ≤ width) :
    b.answer l width = .ok (l.ofDigits (b.digitsAt l.firstBit.toNat l.size.toNat)) := by
  rw [answer, hr, if_neg (Nat.not_lt.mpr hb), if_neg (Nat.not_lt.mpr hw)]
  rfl

end Buffer

/-- The window after the value laid out as `l` was read in it. -/
def Window.mark (w : Window) (l : Layout) : Window := { w with consumed := max w.consumed l.endBit }

theorem Buffer.extract_eq (b : Buffer) (l : Layout) (w : Window) :
    b.extract l w = (b.answer l w.available).map (·, w.mark l) := by
  unfold extract answer
  split
  · rfl
  · split
    · rfl
    · by_cases h : l.endBit ≤ w.available
      · rw [Window.claim_of_le h, if_neg (Nat.not_lt.mpr h)]
        rfl
      · rw [Window.claim_of_lt (Nat.not_le.mp h), if_pos (Nat.not_le.mp h)]
        rfl

namespace Extractor

variable {σ : Type}

theorem msbFirst_of_ok {b : Buffer} {l : Layout} {session : Session σ} {value : Int64}
    (h : b.answer l session.window.available = .ok value) :
    msbFirst b l session = (.ok value, { session with window := session.window.mark l }) := by
  unfold msbFirst
  rw [b.extract_eq, h]
  rfl

theorem msbFirst_of_error {b : Buffer} {l : Layout} {session : Session σ} {e : AccessError}
    (h : b.answer l session.window.available = .error e) :
    msbFirst b l session = (.error e, session) := by
  unfold msbFirst
  rw [b.extract_eq, h]
  rfl

theorem msbFirst_fst (b : Buffer) (l : Layout) (session : Session σ) :
    (msbFirst b l session).1 = b.answer l session.window.available := by
  cases h : b.answer l session.window.available with
  | ok value => rw [msbFirst_of_ok h]
  | error e => rw [msbFirst_of_error h]

theorem msbFirst_available (b : Buffer) (l : Layout) (session : Session σ) :
    (msbFirst b l session).2.window.available = session.window.available := by
  cases h : b.answer l session.window.available with
  | ok value => rw [msbFirst_of_ok h]; rfl
  | error e => rw [msbFirst_of_error h]

end Extractor

/-! ## What comes of a session -/

/-- A session that reads may lead to: the window is as wide as it was, and its mark is not behind
where it was. -/
structure Session.Reaches {σ : Type} (session later : Session σ) : Prop where
  available : later.window.available = session.window.available
  consumed : session.window.consumed ≤ later.window.consumed

theorem Session.Reaches.refl {σ : Type} (session : Session σ) : session.Reaches session :=
  ⟨rfl, Nat.le_refl _⟩

theorem Session.Reaches.trans {σ : Type} {a b c : Session σ} (hab : a.Reaches b)
    (hbc : b.Reaches c) : a.Reaches c :=
  ⟨hbc.available.trans hab.available, Nat.le_trans hab.consumed hbc.consumed⟩

namespace Extractor

variable {σ : Type}

theorem reaches_msbFirst (b : Buffer) (l : Layout) (session : Session σ) :
    session.Reaches (msbFirst b l session).2 := by
  cases h : b.answer l session.window.available with
  | ok value =>
    rw [msbFirst_of_ok h]
    exact ⟨rfl, Nat.le_max_left ..⟩
  | error e =>
    rw [msbFirst_of_error h]
    exact .refl session

/-- **What was read once is read again for nothing:** the answer is the same, and the mark stays
where it is. -/
theorem msbFirst_again {b : Buffer} {l : Layout} {session last later : Session σ} {value : Int64}
    (h : msbFirst b l session = (.ok value, last)) (hl : last.Reaches later) :
    msbFirst b l later = (.ok value, later) := by
  cases ha : b.answer l session.window.available with
  | error e =>
    rw [msbFirst_of_error ha] at h
    exact absurd h (by simp)
  | ok v =>
    rw [msbFirst_of_ok ha] at h
    injection h with hv hs
    subst hs
    -- the read left the mark behind the field, and nothing has moved it back
    have hc : max later.window.consumed l.endBit = later.window.consumed :=
      Nat.max_eq_left (Nat.le_trans (Nat.le_max_right ..) hl.consumed)
    rw [msbFirst_of_ok ((congrArg (b.answer l) hl.available).trans (ha.trans hv)), Window.mark, hc]

end Extractor

end InstructionSet
