import InstructionSet.Proofs.Search.Visits

/-!
# When a held value serves

What a search holds is not to be seen in its moves, but what it amounts to is. A value is
*at hand* if the last test obtained it and the search has not gone down since; going up,
and putting owners forward, leaves it at hand, and so does a test that does not hold. A
test is served from what is held exactly if the policy lets it and the value of its field
is at hand (`run_reuses`).

The invariant is that what is held is what is at hand after the moves so far (`Tracks`).
-/

namespace InstructionSet.Search

variable {α σ : Type}

/-- The last of these moves that was a test obtained `value` for `field`, and the search has not
gone down since. -/
def AtHand (moves : List (Move α)) (field : FieldId) (value : Int64) : Prop :=
  ∃ (earlier : List (Move α)) (index : Nat) (reading : Reading) (since : List (Move α)),
    moves = earlier ++ .test index field reading :: since ∧ reading.value? = some value
      ∧ ∀ m ∈ since, m.isTest = false ∧ m.isDescent = false

/-- Each test among the moves is served from what is held exactly if the policy lets it and the
value is at hand; `before` are the moves before these. -/
def Reuses (policy : CachePolicy) (before moves : List (Move α)) : Prop :=
  ∀ (first : List (Move α)) (index : Nat) (field : FieldId) (reading : Reading)
    (rest : List (Move α)), moves = first ++ .test index field reading :: rest →
    ∀ value, reading = .held value
      ↔ policy = .acrossSiblings ∧ AtHand (before ++ first) field value

/-- What is held is what is at hand. -/
def Tracks (held : Held) (moves : List (Move α)) : Prop :=
  ∀ field value, held = some (field, value) ↔ AtHand moves field value

/-! ## What is at hand -/

theorem not_atHand_nil {field : FieldId} {value : Int64} :
    ¬ AtHand ([] : List (Move α)) field value := by
  rintro ⟨earlier, index, reading, since, he, -⟩
  exact absurd he (by simp)

/-- A move may be the test that obtained the value, or else leave at hand what was. -/
theorem atHand_concat {moves : List (Move α)} {m : Move α} {field : FieldId} {value : Int64} :
    AtHand (moves ++ [m]) field value
      ↔ (∃ index reading, m = .test index field reading ∧ reading.value? = some value)
        ∨ (m.isTest = false ∧ m.isDescent = false) ∧ AtHand moves field value := by
  constructor
  · rintro ⟨earlier, index, reading, since, he, hvalue, hquiet⟩
    rcases List.eq_nil_or_concat since with rfl | ⟨since, last, rfl⟩
    · obtain ⟨-, hm⟩ := List.append_inj' he rfl
      exact .inl ⟨index, reading, List.singleton_inj.mp hm, hvalue⟩
    · rw [List.concat_eq_append] at he hquiet
      rw [← List.cons_append, ← List.append_assoc] at he
      obtain ⟨rfl, hm⟩ := List.append_inj' he rfl
      obtain rfl := List.singleton_inj.mp hm
      exact .inr ⟨hquiet _ (List.mem_append_right _ (List.mem_singleton_self _)),
        earlier, index, reading, since, rfl, hvalue,
        fun x hx => hquiet x (List.mem_append_left _ hx)⟩
  · rintro (⟨index, reading, rfl, hvalue⟩
      | ⟨hm, earlier, index, reading, since, rfl, hvalue, hquiet⟩)
    · exact ⟨moves, index, reading, [], rfl, hvalue, by simp⟩
    · refine ⟨earlier, index, reading, since ++ [m], by simp, hvalue, ?_⟩
      rw [List.forall_mem_append, List.forall_mem_singleton]
      exact ⟨hquiet, hm⟩

theorem atHand_test {moves : List (Move α)} {index : Nat} {tested field : FieldId}
    {reading : Reading} {value : Int64} :
    AtHand (moves ++ [.test index tested reading]) field value
      ↔ tested = field ∧ reading.value? = some value := by
  rw [atHand_concat]
  constructor
  · rintro (⟨index', reading', he, hvalue⟩ | ⟨⟨ht, -⟩, -⟩)
    · cases he
      exact ⟨rfl, hvalue⟩
    · exact absurd ht (by simp [Move.isTest])
  · rintro ⟨rfl, hvalue⟩
    exact .inl ⟨index, reading, rfl, hvalue⟩

theorem not_atHand_descend {moves : List (Move α)} {field : FieldId} {value : Int64} :
    ¬ AtHand (moves ++ [.descend]) field value := by
  rw [atHand_concat]
  rintro (⟨index, reading, he, -⟩ | ⟨⟨-, hd⟩, -⟩)
  · cases he
  · exact absurd hd (by simp [Move.isDescent])

theorem Tracks.quiet {held : Held} {moves quiet : List (Move α)} (h : Tracks held moves)
    (hq : ∀ m ∈ quiet, m.isTest = false ∧ m.isDescent = false) : Tracks held (moves ++ quiet) := by
  induction quiet generalizing moves with
  | nil => rwa [List.append_nil]
  | cons m rest ih =>
    obtain ⟨⟨ht, hd⟩, hrest⟩ := List.forall_mem_cons.mp hq
    rw [← List.singleton_append, ← List.append_assoc]
    refine ih (fun field value => ?_) hrest
    rw [h, atHand_concat]
    constructor
    · intro hv
      exact .inr ⟨⟨ht, hd⟩, hv⟩
    · rintro (⟨index, reading, rfl, -⟩ | ⟨-, hv⟩)
      · exact absurd ht (by simp [Move.isTest])
      · exact hv

theorem tracks_none {moves : List (Move α)} (h : ∀ field value, ¬ AtHand moves field value) :
    Tracks none moves :=
  fun field value => iff_of_false (by simp) (h field value)

/-! ## What is served -/

variable {policy : CachePolicy}

theorem reuses_quiet (before : List (Move α)) {moves : List (Move α)}
    (h : ∀ m ∈ moves, m.isTest = false) : Reuses policy before moves := by
  rintro first index field reading rest rfl
  exact absurd (h (.test index field reading) (by simp)) (by simp [Move.isTest])

theorem Reuses.append {before moves moves' : List (Move α)} (h : Reuses policy before moves)
    (h' : Reuses policy (before ++ moves) moves') : Reuses policy before (moves ++ moves') := by
  intro first index field reading rest he
  rcases List.append_eq_append_iff.mp he with ⟨more, rfl, hmore⟩ | ⟨more, rfl, hmore⟩
  · rw [← List.append_assoc]
    exact h' more index field reading rest hmore
  · cases more with
    | nil =>
      simpa only [List.append_nil] using h' [] index field reading rest hmore.symm
    | cons m more =>
      obtain ⟨rfl, -⟩ := List.cons.inj hmore
      exact h first index field reading more rfl

variable {s : Search α σ}

/-- After a look what is held is what was obtained. -/
theorem held_of_look {field : FieldId} {held : Held} {session : Session σ} {seen : Look σ}
    (h : s.look field held session = seen) : seen.held = seen.reading.value?.map (field, ·) := by
  subst h
  cases hr : s.reuse? field held with
  | some value =>
    rw [look_of_reuse hr]
    exact (reuse?_eq_some.mp hr).2
  | none =>
    rw [look_of_none hr]
    cases hf : s.table.get? field with
    | none => rw [read_undeclared hf]; rfl
    | some f =>
      cases hx : s.extractor s.buffer f.layout session with
      | mk result last =>
        cases result with
        | ok value => rw [read_ok hf hx]; rfl
        | error e => rw [read_error hf hx]; rfl

/-- A look is served from what is held exactly if that may be used again. -/
theorem reading_eq_held_iff {field : FieldId} {held : Held} {session : Session σ} {seen : Look σ}
    (h : s.look field held session = seen) (value : Int64) :
    seen.reading = .held value
      ↔ s.policy = .acrossSiblings ∧ held = some (field, value) := by
  rw [← reuse?_eq_some]
  subst h
  cases hr : s.reuse? field held with
  | some v =>
    rw [look_of_reuse hr, Reading.held.injEq, Option.some.injEq]
  | none =>
    refine iff_of_false ?_ (by simp)
    rw [look_of_none hr]
    cases hf : s.table.get? field with
    | none => rw [read_undeclared hf]; simp
    | some f =>
      cases hx : s.extractor s.buffer f.layout session with
      | mk result last =>
        cases result with
        | ok value => rw [read_ok hf hx]; simp
        | error e => rw [read_error hf hx]; simp

/-- **One test is served as it should be**, and what is held then is what is at hand. -/
theorem Tracks.test {held : Held} {before : List (Move α)} (h : Tracks held before)
    {field : FieldId} {session : Session σ} {seen : Look σ}
    (look : s.look field held session = seen) (index : Nat) :
    Reuses s.policy before [.test index field seen.reading]
      ∧ Tracks seen.held (before ++ [.test index field seen.reading]) := by
  constructor
  · intro first index' field' reading rest he value
    cases first with
    | nil =>
      cases he
      rw [reading_eq_held_iff look, h, List.append_nil]
    | cons m first => exact absurd he (by simp)
  · intro field' value
    rw [held_of_look look, atHand_test]
    cases seen.reading.value? with
    | none => simp
    | some v => simp

theorem quiet_of_offer {owner : Option α} {session last : Session σ} {accepted : Bool}
    {offers : List (Move α)} (h : s.offer owner session = (accepted, last, offers)) :
    ∀ m ∈ offers, m.isTest = false ∧ m.isDescent = false := by
  intro m hm
  obtain ⟨a, rfl⟩ := eq_offer_of_mem h hm
  exact ⟨rfl, rfl⟩

/-- The test of a turn, and the owner that is put forward after it. -/
theorem Tracks.offers {held : Held} {before : List (Move α)} (h : Tracks held before)
    {field : FieldId} {session last : Session σ} {seen : Look σ} {owner : Option α}
    {accepted : Bool} {offers : List (Move α)} (look : s.look field held session = seen)
    (offer : s.offer owner seen.session = (accepted, last, offers)) (index : Nat) :
    Reuses s.policy before (.test index field seen.reading :: offers)
      ∧ Tracks seen.held (before ++ .test index field seen.reading :: offers) := by
  obtain ⟨hreuses, htracks⟩ := h.test look index
  have hquiet := quiet_of_offer offer
  rw [← List.singleton_append, ← List.append_assoc]
  exact ⟨hreuses.append (reuses_quiet _ fun m hm => (hquiet m hm).1), htracks.quiet hquiet⟩

/-- **A turn serves its test as it should**, and what is held stays what is at hand. -/
theorem Turn.reuses_go {state state' : State α σ} {moves before : List (Move α)}
    (ht : s.Turn state moves (.go state')) (h : Tracks state.held before) :
    Reuses s.policy before moves ∧ Tracks state'.held (before ++ moves) := by
  cases ht with
  | up =>
    exact ⟨reuses_quiet _ (by simp [Move.isTest]),
      h.quiet (by simp [Move.isTest, Move.isDescent])⟩
  | @missed index _ _ _ _ _ _ _ _ look => exact h.test look index
  | @refused index _ _ _ _ _ _ _ _ _ look _ offer => exact h.offers look offer index
  | @down index test owner below next path held session last seen offers look value offer =>
    obtain ⟨hreuses, -⟩ := h.offers look offer index
    refine ⟨hreuses.append (reuses_quiet _ (by simp [Move.isTest])), tracks_none ?_⟩
    intro field value
    rw [← List.append_assoc]
    exact not_atHand_descend

theorem Turn.reuses_stop {state : State α σ} {moves before : List (Move α)} {found : Option α}
    {last : Session σ} (ht : s.Turn state moves (.stop found last))
    (h : Tracks state.held before) : Reuses s.policy before moves := by
  cases ht with
  | ended => exact reuses_quiet _ (by simp)
  | @accepted index _ _ _ _ _ _ _ _ _ _ look _ offer => exact (h.offers look offer index).1

theorem loop_reuses (s : Search α σ) (state : State α σ) {before : List (Move α)}
    (h : Tracks state.held before) : Reuses s.policy before (s.loop state).moves := by
  induction state using s.turn_induction generalizing before with
  | stop state moves found session ht =>
    rw [ht.loop_stop]
    exact ht.reuses_stop h
  | go state moves state' ht ih =>
    rw [ht.loop_go]
    obtain ⟨hreuses, htracks⟩ := ht.reuses_go h
    exact hreuses.append (ih htracks)

/-- **Each test of a search is served from what is held exactly if its value is at hand** and the
policy lets it. -/
theorem run_reuses (s : Search α σ) (f : Forest α) (session : Session σ) :
    Reuses s.policy [] (s.run f session).moves :=
  s.loop_reuses _ (tracks_none fun _ _ => not_atHand_nil)

end InstructionSet.Search
