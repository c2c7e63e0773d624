import InstructionSet.Proofs.Bits.Machine

/-!
# What reads come to

`Buffer.Answers` lists what a read may come to, with its reasons in the order in which
they are looked for: the width, the end of the buffer, the end of the window. What is
read is described by the bits alone (`Buffer.Holds`), as a number in two's complement of
the field's own width or as the 64 bits of the answer, whatever bytes hold them.

A session that goes on is a sequence of accesses, which are reads of any buffers and
claims that the host makes itself. `exists_perform?` says how far one of them moves the
mark, and `exists_performAll?` where it is after all of them.
-/

namespace InstructionSet

variable {σ : Type}

/-- The session with the mark moved up to bit `stop`, unless it is there already. -/
def Session.markedTo (session : Session σ) (stop : Nat) : Session σ :=
  { session with window := ⟨session.window.available, max session.window.consumed stop⟩ }

/-! ## One read -/

/-- The bits of the run stand for `v`: in two's complement of as many digits as there are bits, if the
run is signed, and otherwise as the low digits of `v`, the others being zero. -/
structure Buffer.Holds (b : Buffer) (l : Layout) (v : Int64) : Prop where
  signed : l.signed = true → v.toInt =
    if b.number l.firstBit.toNat l.size.toNat < 2 ^ (l.size.toNat - 1) then
      (b.number l.firstBit.toNat l.size.toNat : Int)
    else b.number l.firstBit.toNat l.size.toNat - 2 ^ l.size.toNat
  unsigned : l.signed = false → v.toUInt64.toNat = b.number l.firstBit.toNat l.size.toNat

/-- What a read comes to, and the session that it leaves behind. -/
inductive Buffer.Answers (b : Buffer) (l : Layout) (session : Session σ) :
    Except AccessError Int64 × Session σ → Prop where
  | badWidth (width : ¬(1 ≤ l.size.toNat ∧ l.size.toNat ≤ 64)) :
    Answers b l session (.error (.invalidWidth l.size), session)
  | pastEnd (width : 1 ≤ l.size.toNat ∧ l.size.toNat ≤ 64) (past : 8 * b.length < l.endBit) :
    Answers b l session (.error (.shortBuffer l.endBit (8 * b.length)), session)
  | pastWindow (width : 1 ≤ l.size.toNat ∧ l.size.toNat ≤ 64) (inside : l.endBit ≤ 8 * b.length)
      (past : session.window.available < l.endBit) :
    Answers b l session (.error (.shortBuffer l.endBit session.window.available), session)
  | value (width : 1 ≤ l.size.toNat ∧ l.size.toNat ≤ 64) (inside : l.endBit ≤ 8 * b.length)
      (within : l.endBit ≤ session.window.available) {v : Int64} (holds : b.Holds l v) :
    Answers b l session (.ok v, session.markedTo l.endBit)

/-- Digits of two's complement, by whether the first of them is set. -/
theorem bmod_two_pow {n size : Nat} (hpos : 1 ≤ size) (hn : n < 2 ^ size) :
    Int.bmod n (2 ^ size) = if n < 2 ^ (size - 1) then (n : Int) else n - 2 ^ size := by
  have hdouble : 2 ^ (size - 1) * 2 = 2 ^ size := by
    rw [← Nat.pow_succ]
    congr 1
    omega
  have hself : (n : Int) % (2 ^ size : Nat) = n := by exact_mod_cast Nat.mod_eq_of_lt hn
  have hcast : ((2 ^ size : Nat) : Int) = 2 ^ size := by push_cast; rfl
  rw [Int.bmod_def, hself, ← hcast]
  by_cases hlow : n < 2 ^ (size - 1)
  · rw [if_pos hlow, if_pos (by omega)]
  · rw [if_neg hlow, if_neg (by omega)]

namespace Buffer

/-- The bits of a run stand for the value that is laid out there. -/
theorem holds_value {b : Buffer} {l : Layout} (hr : l.readable = true) : b.Holds l (b.value l) := by
  obtain ⟨hpos, hle⟩ := Layout.readable_iff.mp hr
  have hn := b.number_lt l.firstBit.toNat l.size.toNat
  constructor
  · intro hs
    rw [value, Layout.toInt_ofDigits hr hn, if_pos hs, bmod_two_pow hpos hn]
  · intro hs
    have hword : b.number l.firstBit.toNat l.size.toNat < 2 ^ 64 :=
      Nat.lt_of_lt_of_le hn (Nat.pow_le_pow_right (by decide) hle)
    rw [value, Layout.ofDigits, hs, if_neg Bool.false_ne_true]
    exact UInt64.toNat_ofNat_of_lt' hword

/-- **What a read comes to** is one of what is listed, and for the reason that is given there. -/
theorem answers_msbFirst (b : Buffer) (l : Layout) (session : Session σ) :
    b.Answers l session (Extractor.msbFirst b l session) := by
  by_cases hr : l.readable = true
  · have hwidth := Layout.readable_iff.mp hr
    rcases Nat.lt_or_ge b.bits l.endBit with hend | hend
    · rw [Extractor.msbFirst_of_error (answer_of_past_end hr hend)]
      exact .pastEnd hwidth hend
    · rcases Nat.lt_or_ge session.window.available l.endBit with hw | hw
      · rw [Extractor.msbFirst_of_error (answer_of_past_window hr hend hw)]
        exact .pastWindow hwidth hend hw
      · rw [Extractor.msbFirst_of_ok (answer_of_inside hr hend hw), digitsAt_eq_number hend]
        exact .value hwidth hend hw (holds_value hr)
  · rw [Extractor.msbFirst_of_error (answer_of_not_readable hr)]
    exact .badWidth fun h => hr (Layout.readable_iff.mpr h)

end Buffer

/-! ## One access after the other -/

/-- A use of the window of a session. -/
inductive Access where
  /-- The value laid out as `layout` is read from `buffer`. -/
  | extract (buffer : Buffer) (layout : Layout)
  /-- A read that ends before bit `stop` is announced. -/
  | claim (stop : Nat)

namespace Access

/-- One past the last bit that is accessed. -/
def stop : Access → Nat
  | extract _ layout => layout.endBit
  | claim stop => stop

/-- The bits of the buffer can be counted in a word. -/
def Countable : Access → Prop
  | extract buffer _ => buffer.length < 2 ^ 61
  | claim _ => True

/-- Whether the access succeeds, and the session then. -/
def perform? (a : Access) (session : Session σ) : Option (Bool × Session σ) :=
  match a with
  | extract buffer layout =>
    (buffer.extract? layout session).map fun (answer, session) => (answer.toBool, session)
  | claim stop =>
    match session.window.claim stop with
    | .ok window => some (true, { session with window })
    | .error _ => some (false, session)

/-- Where those of the accesses end that succeed, one after the other, and the session then. -/
def performAll? : List Access → Session σ → Option (List Nat × Session σ)
  | [], session => some ([], session)
  | a :: rest, session => do
    let (succeeded, session) ← a.perform? session
    let (ends, session) ← performAll? rest session
    return (if succeeded then a.stop :: ends else ends, session)

/-- **An access moves the mark to its end, or fails.** -/
theorem exists_perform? {a : Access} (h : a.Countable) (session : Session σ) :
    (a.stop ≤ session.window.available
        ∧ a.perform? session = some (true, session.markedTo a.stop))
      ∨ a.perform? session = some (false, session) := by
  cases a with
  | claim stop =>
    rcases Nat.lt_or_ge session.window.available stop with hlt | hle
    · right
      simp only [perform?, Window.claim_of_lt hlt]
    · left
      exact ⟨hle, by simp only [perform?, Window.claim_of_le hle]; rfl⟩
  | extract buffer layout =>
    have hread := buffer.answers_msbFirst layout session
    rw [perform?, Buffer.extract?_eq h]
    generalize Extractor.msbFirst buffer layout session = outcome at hread
    cases hread with
    | badWidth => exact .inr rfl
    | pastEnd => exact .inr rfl
    | pastWindow => exact .inr rfl
    | value _ _ hw => exact .inl ⟨hw, rfl⟩

/-- **Accesses move the mark to the furthest end** of those that succeed. -/
theorem exists_performAll? {accesses : List Access} (h : ∀ a ∈ accesses, a.Countable)
    {session : Session σ} (hw : session.window.consumed ≤ session.window.available) :
    ∃ ends last, performAll? accesses session = some (ends, last)
      ∧ last.window.available = session.window.available
      ∧ last.window.consumed ≤ last.window.available
      ∧ last.window.consumed = ends.foldl max session.window.consumed := by
  induction accesses generalizing session with
  | nil => exact ⟨[], session, rfl, rfl, hw, rfl⟩
  | cons a rest ih =>
    obtain ⟨ha, hrest⟩ := List.forall_mem_cons.mp h
    rcases exists_perform? ha session with ⟨hle, hstep⟩ | hstep
    · have hmoved : (session.markedTo a.stop).window.consumed ≤ session.window.available :=
        Nat.max_le.mpr ⟨hw, hle⟩
      obtain ⟨ends, last, hrun, havailable, hinside, hmark⟩ := ih hrest hmoved
      refine ⟨a.stop :: ends, last, ?_, havailable, hinside, hmark⟩
      simp only [performAll?, hstep, hrun, Option.bind_eq_bind, Option.bind_some, if_true,
        Option.pure_def]
    · obtain ⟨ends, last, hrun, hlast⟩ := ih hrest hw
      refine ⟨ends, last, ?_, hlast⟩
      simp only [performAll?, hstep, hrun, Option.bind_eq_bind, Option.bind_some,
        Bool.false_eq_true, if_false, Option.pure_def]

end Access

/--
**Reads are exact.** A read comes to what its bits say, or is refused for the first
reason there is, and only the mark of the window is moved. On a machine whose words can
count the bits of the buffer no place, no shift and no number of a read leaves its range.
So nothing comes between the accesses of a new window: its mark stays inside it, and is
where the furthest of those that succeeded ends.
-/
theorem Extractor.msbFirst_exact :
    (∀ (b : Buffer) (l : Layout) (session : Session σ),
        b.Answers l session (msbFirst b l session)
          ∧ (b.length < 2 ^ 61 → b.extract? l session = some (msbFirst b l session)))
      ∧ ∀ (bits : Nat) (host : σ) (accesses : List Access), (∀ a ∈ accesses, a.Countable) →
        ∃ ends last, Access.performAll? accesses ⟨.ofBits bits, host⟩ = some (ends, last)
          ∧ last.window.available = bits ∧ last.window.consumed ≤ bits
          ∧ last.window.consumed = ends.max?.getD 0 := by
  refine ⟨fun b l session => ⟨b.answers_msbFirst l session, fun hb => b.extract?_eq hb l session⟩, ?_⟩
  intro bits host accesses hcount
  obtain ⟨ends, last, hrun, havailable, hinside, hmark⟩ :=
    Access.exists_performAll? hcount
      (show (Session.mk (.ofBits bits) host).window.consumed ≤ bits from Nat.zero_le _)
  replace havailable : last.window.available = bits := havailable
  rw [havailable] at hinside
  refine ⟨ends, last, hrun, havailable, hinside, hmark.trans ?_⟩
  exact List.foldl_max.trans (Nat.zero_max _)

/-- The low half of a word is read as a negative number. A claim past the word fails, and one of its
first bits moves the mark no further. -/
theorem Extractor.msbFirst_exact_word :
    Buffer.Answers [0x21, 0x0f, 0xff, 0xfc] ⟨16, 16, true⟩ ⟨.ofBits 32, ()⟩
        (.ok (-4), ⟨⟨32, 32⟩, ()⟩)
      ∧ Buffer.extract? [0x21, 0x0f, 0xff, 0xfc] ⟨16, 16, true⟩ ⟨.ofBits 32, ()⟩
        = some (.ok (-4), ⟨⟨32, 32⟩, ()⟩)
      ∧ ∃ last, Access.performAll?
          [.extract [0x21, 0x0f, 0xff, 0xfc] ⟨16, 16, true⟩, .claim 40, .claim 6]
          ⟨.ofBits 32, ()⟩ = some ([32, 6], last)
        ∧ last.window.available = 32 ∧ last.window.consumed = 32 := by
  obtain ⟨hread, hall⟩ := @msbFirst_exact Unit
  obtain ⟨hanswers, hmachine⟩ := hread [0x21, 0x0f, 0xff, 0xfc] ⟨16, 16, true⟩ ⟨.ofBits 32, ()⟩
  have hvalue : msbFirst [0x21, 0x0f, 0xff, 0xfc] ⟨16, 16, true⟩ ⟨.ofBits 32, ()⟩
      = (.ok (-4), ⟨⟨32, 32⟩, ()⟩) := rfl
  rw [hvalue] at hanswers hmachine
  have hcount : ∀ a ∈ ([.extract [0x21, 0x0f, 0xff, 0xfc] ⟨16, 16, true⟩, .claim 40, .claim 6] :
      List Access), a.Countable := by
    intro a ha
    rcases List.mem_cons.mp ha with rfl | ha
    · exact show 4 < 2 ^ 61 by decide
    · rcases List.mem_cons.mp ha with rfl | ha
      · trivial
      · rw [List.mem_singleton.mp ha]
        trivial
  obtain ⟨ends, last, hrun, havailable, -, hmark⟩ := hall 32 () _ hcount
  have hends : (Access.performAll?
      [.extract [0x21, 0x0f, 0xff, 0xfc] ⟨16, 16, true⟩, .claim 40, .claim 6]
      (⟨.ofBits 32, ()⟩ : Session Unit)).map Prod.fst = some [32, 6] := rfl
  rw [hrun] at hends
  obtain rfl : ends = [32, 6] := Option.some.inj hends
  exact ⟨hanswers, hmachine (by decide), last, hrun, havailable, hmark⟩

end InstructionSet
