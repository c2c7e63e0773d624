import InstructionSet.Proofs.Bits.Reading
import InstructionSet.Proofs.Search.Turns

/-!
# Holding values

Under `CachePolicy.acrossSiblings` a search uses a value again that it has read
before, and what it does in between, owners refused and levels left included,
moves the mark of the window. It still makes the same moves as the search that
reads every field anew, and ends in the same session: a field that was read once
can be read again, has the same value, and the mark is past its end already.

The two searches go in step. `Turn.unheld` says so of one turn, `loop_unheld` of
every run.
-/

namespace InstructionSet.Search

variable {α σ : Type}

/-- The reading of a search that holds no values. -/
def Reading.unheld : Reading → Reading
  | held value => fresh (.ok value)
  | reading => reading

/-- The move of a search that holds no values. -/
def Move.unheld : Move α → Move α
  | test index field reading => test index field reading.unheld
  | move => move

def Outcome.unheld (o : Outcome α σ) : Outcome α σ := { o with moves := o.moves.map Move.unheld }

/-- The search with another policy. -/
def under (s : Search α σ) (policy : CachePolicy) : Search α σ := { s with policy }

/-- What is held can be read again, to the same effect as before. -/
def UpToDate (s : Search α σ) (held : Held) (session : Session σ) : Prop :=
  ∀ id value, held = some (id, value) → ∃ f, s.table.get? id = some f
    ∧ Extractor.msbFirst s.buffer f.layout session = (.ok value, session)

variable {s : Search α σ}

theorem upToDate_none (s : Search α σ) (session : Session σ) : s.UpToDate none session := by
  intro id value h
  exact absurd h (by simp)

theorem UpToDate.reaches {held : Held} {session later : Session σ} (h : s.UpToDate held session)
    (hr : session.Reaches later) : s.UpToDate held later := by
  intro id value hh
  obtain ⟨f, hf, hx⟩ := h id value hh
  exact ⟨f, hf, Extractor.msbFirst_again hx hr⟩

/-! ## One turn -/

/-- A search that holds no values sees the same, whatever it is given as held. -/
theorem UpToDate.look (hx : s.extractor = .msbFirst) {held : Held} {session : Session σ}
    (h : s.UpToDate held session) {field : FieldId} {seen : Look σ}
    (hl : s.look field held session = seen) (held' : Held) :
    s.UpToDate seen.held seen.session ∧ ∃ last : Held,
      (s.under .never).look field held' session
        = { reading := seen.reading.unheld, held := last, session := seen.session } := by
  subst hl
  have hnone : (s.under .never).reuse? field held' = none := by
    rw [Option.eq_none_iff_forall_ne_some]
    intro value hv
    exact absurd (reuse?_eq_some.mp hv).1 (by simp [under])
  rw [look_of_none hnone]
  change _ ∧ ∃ last, s.read field session = _
  cases hr : s.reuse? field held with
  | some value =>
    -- one search uses what it holds, the other reads it again and comes to the same session
    obtain ⟨f, hf, hread⟩ := h field value (reuse?_eq_some.mp hr).2
    rw [← hx] at hread
    rw [look_of_reuse hr, read_ok hf hread]
    exact ⟨h, _, rfl⟩
  | none =>
    -- both read, and hold what they have read if they have read anything
    rw [look_of_none hr]
    cases hf : s.table.get? field with
    | none =>
      rw [read_undeclared hf]
      exact ⟨upToDate_none s session, _, rfl⟩
    | some f =>
      cases hread : s.extractor s.buffer f.layout session with
      | mk result last =>
        cases result with
        | error e =>
          rw [read_error hf hread]
          exact ⟨upToDate_none s last, _, rfl⟩
        | ok value =>
          rw [read_ok hf hread]
          refine ⟨?_, _, rfl⟩
          intro id v hv
          injection hv with hv
          injection hv with hid hv
          subst hid hv
          rw [hx] at hread
          exact ⟨f, hf, Extractor.msbFirst_again hread (.refl last)⟩

theorem value?_unheld (reading : Reading) : reading.unheld.value? = reading.value? := by
  cases reading <;> rfl

theorem offer_unheld {owner : Option α} {session last : Session σ} {accepted : Bool}
    {offers : List (Move α)} (h : s.offer owner session = (accepted, last, offers)) :
    offers.map Move.unheld = offers := by
  rcases offer_cases h with ⟨-, -, -, ho⟩ | ⟨a, -, -, ho⟩
  · rw [ho]
    rfl
  · rw [ho]
    rfl

theorem offer_reaches (hr : ∀ (a : α) (session : Session σ), session.Reaches (s.accept a session).2)
    {owner : Option α} {session last : Session σ} {accepted : Bool} {offers : List (Move α)}
    (h : s.offer owner session = (accepted, last, offers)) : session.Reaches last := by
  rcases offer_cases h with ⟨-, -, hl, -⟩ | ⟨a, -, ha, -⟩
  · rw [hl]
    exact .refl session
  · have hra := hr a session
    rwa [ha] at hra

/-- The search that holds no values is over at the same time. -/
theorem Turn.unheld_stop (hx : s.extractor = .msbFirst) {state : State α σ}
    {moves : List (Move α)} {found : Option α} {last : Session σ}
    (ht : s.Turn state moves (.stop found last)) (h : s.UpToDate state.held state.session)
    (held' : Held) :
    (s.under .never).Turn { state with held := held' } (moves.map Move.unheld)
      (.stop found last) := by
  cases ht with
  | ended => exact .ended
  | accepted look value offer =>
    obtain ⟨-, held'', hl⟩ := h.look hx look held'
    rw [List.map_cons, offer_unheld offer]
    exact .accepted hl (by rwa [value?_unheld]) offer

/-- **The search that holds no values goes in step**, and what is held stays up to date. -/
theorem Turn.unheld_go (hx : s.extractor = .msbFirst)
    (hr : ∀ (a : α) (session : Session σ), session.Reaches (s.accept a session).2)
    {state state' : State α σ} {moves : List (Move α)} (ht : s.Turn state moves (.go state'))
    (h : s.UpToDate state.held state.session) (held' : Held) :
    s.UpToDate state'.held state'.session ∧ ∃ last : Held,
      (s.under .never).Turn { state with held := held' } (moves.map Move.unheld)
        (.go { state' with held := last }) := by
  cases ht with
  | up => exact ⟨h, held', .up⟩
  | missed look value =>
    obtain ⟨h', held'', hl⟩ := h.look hx look held'
    exact ⟨h', held'', .missed hl (by rwa [value?_unheld])⟩
  | refused look value offer =>
    obtain ⟨h', held'', hl⟩ := h.look hx look held'
    -- the owner may have moved the mark, but only onwards
    refine ⟨h'.reaches (offer_reaches hr offer), held'', ?_⟩
    rw [List.map_cons, offer_unheld offer]
    exact .refused hl (by rwa [value?_unheld]) offer
  | down look value offer deeper =>
    obtain ⟨-, held'', hl⟩ := h.look hx look held'
    refine ⟨upToDate_none s _, none, ?_⟩
    rw [List.map_append, List.map_cons, offer_unheld offer]
    exact .down hl (by rwa [value?_unheld]) offer deeper

/-! ## Every run -/

theorem loop_unheld (hx : s.extractor = .msbFirst)
    (hr : ∀ (a : α) (session : Session σ), session.Reaches (s.accept a session).2)
    (state : State α σ) (h : s.UpToDate state.held state.session) (held' : Held) :
    (s.under .never).loop { state with held := held' } = (s.loop state).unheld := by
  induction state using s.turn_induction generalizing held' with
  | stop state moves found session ht =>
    rw [ht.loop_stop, (ht.unheld_stop hx h held').loop_stop]
    rfl
  | go state moves state' ht ih =>
    obtain ⟨h', last, ht'⟩ := ht.unheld_go hx hr h held'
    rw [ht.loop_go, ht'.loop_go, ih h' last, Outcome.after, Outcome.after, Outcome.unheld,
      Outcome.unheld, List.map_append]

/-- **Under `never` a search is as under any other policy**, but that it reads where the other
uses what it holds. -/
theorem run_under_never (hx : s.extractor = .msbFirst)
    (hr : ∀ (a : α) (session : Session σ), session.Reaches (s.accept a session).2) (f : Forest α)
    (session : Session σ) : (s.under .never).run f session = (s.run f session).unheld :=
  loop_unheld hx hr ⟨f.branches, [], none, session⟩ (upToDate_none s session) none

theorem eq_of_unheld_eq {o o' : Outcome α σ} (h : o.unheld = o'.unheld) :
    o.found = o'.found ∧ o.session = o'.session := by
  unfold Outcome.unheld at h
  injection h with hf hs
  exact ⟨hf, hs⟩

/-! ## What is counted -/

theorem offered_unheld (moves : List (Move α)) :
    offered (moves.map Move.unheld) = offered moves := by
  have h : (Move.offered? ∘ Move.unheld : Move α → Option α) = Move.offered? := by
    funext move
    cases move <;> rfl
  rw [offered, List.filterMap_map, h]
  rfl

theorem tests_unheld (moves : List (Move α)) :
    (effort (moves.map Move.unheld)).tests = (effort moves).tests := by
  have h : (Move.isTest ∘ Move.unheld : Move α → Bool) = Move.isTest := by
    funext move
    cases move <;> rfl
  simp only [effort, List.countP_map, h]

theorem backtracks_unheld (moves : List (Move α)) :
    (effort (moves.map Move.unheld)).backtracks = (effort moves).backtracks := by
  have h : (Move.isBacktrack ∘ Move.unheld : Move α → Bool) = Move.isBacktrack := by
    funext move
    cases move <;> rfl
  simp only [effort, List.countP_map, h]

/-- Every test of a search that holds no values asks for its value. -/
theorem extractions_unheld (moves : List (Move α)) :
    (effort (moves.map Move.unheld)).extractions = (effort (moves.map Move.unheld)).tests := by
  have h : (Move.isExtraction ∘ Move.unheld : Move α → Bool) = Move.isTest ∘ Move.unheld := by
    funext move
    cases move with
    | test index field reading => cases reading <;> rfl
    | _ => rfl
  simp only [effort, List.countP_map, h]

theorem extractions_le_tests (moves : List (Move α)) :
    (effort moves).extractions ≤ (effort moves).tests := by
  apply List.countP_mono_left
  intro move _ h
  cases move with
  | test => rfl
  | _ => exact absurd h (by simp [Move.isExtraction])

/-- Two searches that take the same course: the second one reads every field that it tests, the
first one perhaps not. -/
structure SameCourse (holding reading : Outcome α σ) : Prop where
  found : holding.found = reading.found
  /-- The mark of the window is in the same place, too. -/
  session : holding.session = reading.session
  offered : offered holding.moves = offered reading.moves
  tests : (effort holding.moves).tests = (effort reading.moves).tests
  backtracks : (effort holding.moves).backtracks = (effort reading.moves).backtracks
  extractions_eq : (effort reading.moves).extractions = (effort reading.moves).tests
  extractions_le : (effort holding.moves).extractions ≤ (effort reading.moves).extractions

theorem sameCourse_unheld (o : Outcome α σ) : SameCourse o o.unheld where
  found := rfl
  session := rfl
  offered := (offered_unheld o.moves).symm
  tests := (tests_unheld o.moves).symm
  backtracks := (backtracks_unheld o.moves).symm
  extractions_eq := extractions_unheld o.moves
  extractions_le := by
    rw [Outcome.unheld, extractions_unheld, tests_unheld]
    exact extractions_le_tests o.moves

end InstructionSet.Search
