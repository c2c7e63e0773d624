import InstructionSet.Search.Basic

/-!
# The turns of a search

`Search.step` says what a search does next, and this module what it can come to:
six kinds of turn, of which two end the search. Whatever is to be shown of all
searches is shown of the kinds of turn, and carried through the loop by
`turn_induction`.
-/

namespace InstructionSet.Search

variable {α σ : Type} {s : Search α σ}

/-- A turn of the search `s`, with the moves that it makes and what comes of it. -/
inductive Turn (s : Search α σ) : State α σ → List (Move α) → Next α σ → Prop where
  /-- Nothing is left at any level. -/
  | ended {held : Held} {session : Session σ} :
    Turn s ⟨.nil, [], held, session⟩ [] (.stop none session)
  /-- Nothing is left at this level. -/
  | up {alternatives : Forest.Branches α} {path : List (Forest.Branches α)} {held : Held}
      {session : Session σ} :
    Turn s ⟨.nil, alternatives :: path, held, session⟩ [.backtrack path.length]
      (.go ⟨alternatives, path, held, session⟩)
  /-- The test does not hold. -/
  | missed {index : Nat} {test : Test} {owner : Option α} {below next : Forest.Branches α}
      {path : List (Forest.Branches α)} {held : Held} {session : Session σ} {seen : Look σ}
      (look : s.look test.field held session = seen)
      (value : seen.reading.value? ≠ some test.value) :
    Turn s ⟨.node index test owner below next, path, held, session⟩
      [.test index test.field seen.reading] (.go ⟨next, path, seen.held, seen.session⟩)
  /-- The test holds, and the owner is accepted. -/
  | accepted {index : Nat} {test : Test} {owner : Option α} {below next : Forest.Branches α}
      {path : List (Forest.Branches α)} {held : Held} {session last : Session σ} {seen : Look σ}
      {offers : List (Move α)}
      (look : s.look test.field held session = seen)
      (value : seen.reading.value? = some test.value)
      (offer : s.offer owner seen.session = (true, last, offers)) :
    Turn s ⟨.node index test owner below next, path, held, session⟩
      (.test index test.field seen.reading :: offers) (.stop owner last)
  /-- The test holds, but no owner is accepted, and there is nothing below it. -/
  | refused {index : Nat} {test : Test} {owner : Option α} {next : Forest.Branches α}
      {path : List (Forest.Branches α)} {held : Held} {session last : Session σ} {seen : Look σ}
      {offers : List (Move α)}
      (look : s.look test.field held session = seen)
      (value : seen.reading.value? = some test.value)
      (offer : s.offer owner seen.session = (false, last, offers)) :
    Turn s ⟨.node index test owner .nil next, path, held, session⟩
      (.test index test.field seen.reading :: offers) (.go ⟨next, path, seen.held, last⟩)
  /-- The test holds, no owner is accepted, and the search goes on below it. -/
  | down {index : Nat} {test : Test} {owner : Option α} {below next : Forest.Branches α}
      {path : List (Forest.Branches α)} {held : Held} {session last : Session σ} {seen : Look σ}
      {offers : List (Move α)}
      (look : s.look test.field held session = seen)
      (value : seen.reading.value? = some test.value)
      (offer : s.offer owner seen.session = (false, last, offers))
      (deeper : below.isNil = false) :
    Turn s ⟨.node index test owner below next, path, held, session⟩
      (.test index test.field seen.reading :: offers ++ [.descend])
      (.go ⟨below, next :: path, none, last⟩)

theorem turn_step (s : Search α σ) (state : State α σ) :
    s.Turn state (s.step state).1 (s.step state).2 := by
  obtain ⟨current, path, held, session⟩ := state
  cases current with
  | nil =>
    cases path with
    | nil => exact .ended
    | cons alternatives path => exact .up
  | node index test owner below next =>
    cases hseen : s.look test.field held session with
    | mk reading held' session' =>
      cases ho : s.offer owner session' with
      | mk verdict rest =>
        obtain ⟨last, offers⟩ := rest
        unfold step
        dsimp only
        rw [hseen]
        dsimp only
        rw [ho]
        -- what was read and what the owner was told settle which turn it is
        by_cases hv : reading.value? = some test.value
        · rw [if_pos hv]
          cases verdict with
          | true => exact .accepted hseen hv ho
          | false =>
            cases below with
            | nil => exact .refused hseen hv ho
            | node => exact .down hseen hv ho rfl
        · rw [if_neg hv]
          exact .missed hseen hv

theorem Turn.step_eq {state : State α σ} {moves : List (Move α)} {next : Next α σ}
    (h : s.Turn state moves next) : s.step state = (moves, next) := by
  cases h with
  | ended => rfl
  | up => rfl
  | missed look value => simp only [step, look, if_neg value]
  | accepted look value offer => simp only [step, look, offer, if_pos value, if_true]
  | refused look value offer =>
    simp only [step, look, offer, if_pos value, Bool.false_eq_true, if_false, Forest.Branches.isNil,
      if_true]
  | down look value offer deeper =>
    simp only [step, look, offer, if_pos value, Bool.false_eq_true, if_false, deeper]

/-! ## The loop -/

theorem Turn.loop_stop {state : State α σ} {moves : List (Move α)} {found : Option α}
    {session : Session σ} (h : s.Turn state moves (.stop found session)) :
    s.loop state = { found, session, moves } := by
  rw [loop, h.step_eq]

theorem Turn.loop_go {state state' : State α σ} {moves : List (Move α)}
    (h : s.Turn state moves (.go state')) : s.loop state = (s.loop state').after moves := by
  rw [loop, h.step_eq]

/-- What holds of a search that is about to end, and of one that is a turn away from where it holds,
holds of every search. -/
@[elab_as_elim]
theorem turn_induction (s : Search α σ) {motive : State α σ → Prop}
    (stop : ∀ state moves found session, s.Turn state moves (.stop found session) → motive state)
    (go : ∀ state moves state', s.Turn state moves (.go state') → motive state' → motive state)
    (state : State α σ) : motive state := by
  -- on what is left to be tried, which a turn that goes on makes less
  induction hn : state.left using Nat.strongRecOn generalizing state with
  | ind n ih =>
    have ht := s.turn_step state
    cases hs : s.step state with
    | mk moves next =>
      rw [hs] at ht
      cases next with
      | stop found session => exact stop _ _ _ _ ht
      | go state' => exact go _ _ _ ht (ih _ (hn ▸ left_lt_of_step hs) _ rfl)

/-! ## Looking at a field -/

theorem reuse?_eq_some {field : FieldId} {held : Held} {value : Int64} :
    s.reuse? field held = some value
      ↔ s.policy = .acrossSiblings ∧ held = some (field, value) := by
  cases held with
  | none => simp [reuse?]
  | some pair =>
    rw [reuse?, Option.ite_none_right_eq_some, Option.some.injEq, Option.some.injEq,
      Prod.ext_iff, and_assoc]

theorem look_of_reuse {field : FieldId} {held : Held} {session : Session σ} {value : Int64}
    (h : s.reuse? field held = some value) :
    s.look field held session = { reading := .held value, held, session } := by
  rw [look, h]

theorem look_of_none {field : FieldId} {held : Held} {session : Session σ}
    (h : s.reuse? field held = none) : s.look field held session = s.read field session := by
  rw [look, h]

theorem read_undeclared {field : FieldId} {session : Session σ} (h : s.table.get? field = none) :
    s.read field session = { reading := .undeclared, held := none, session } := by
  rw [read, h]

theorem read_ok {field : FieldId} {session last : Session σ} {f : Field} {value : Int64}
    (h : s.table.get? field = some f)
    (hx : s.extractor s.buffer f.layout session = (.ok value, last)) :
    s.read field session
      = { reading := .fresh (.ok value), held := some (field, value), session := last } := by
  rw [read, h]
  dsimp only
  rw [hx]

theorem read_error {field : FieldId} {session last : Session σ} {f : Field} {e : AccessError}
    (h : s.table.get? field = some f)
    (hx : s.extractor s.buffer f.layout session = (.error e, last)) :
    s.read field session = { reading := .fresh (.error e), held := none, session := last } := by
  rw [read, h]
  dsimp only
  rw [hx]

/-! ## Putting an owner forward -/

theorem offer_cases {owner : Option α} {session last : Session σ} {accepted : Bool}
    {offers : List (Move α)} (h : s.offer owner session = (accepted, last, offers)) :
    (owner = none ∧ accepted = false ∧ last = session ∧ offers = [])
      ∨ ∃ a, owner = some a ∧ s.accept a session = (accepted, last)
          ∧ offers = [.offer a accepted] := by
  cases owner with
  | none =>
    injection h with hv h
    injection h with hl ho
    exact .inl ⟨rfl, hv.symm, hl.symm, ho.symm⟩
  | some a =>
    injection h with hv h
    injection h with hl ho
    refine .inr ⟨a, rfl, Prod.ext hv hl, ?_⟩
    rw [← ho, ← hv]

/-! ## What was put forward -/

@[simp] theorem offered_nil : offered ([] : List (Move α)) = [] := rfl

@[simp] theorem offered_append (moves moves' : List (Move α)) :
    offered (moves ++ moves') = offered moves ++ offered moves' :=
  List.filterMap_append

@[simp] theorem offered_test (index : Nat) (field : FieldId) (reading : Reading)
    (moves : List (Move α)) : offered (.test index field reading :: moves) = offered moves := rfl

@[simp] theorem offered_offer (a : α) (accepted : Bool) (moves : List (Move α)) :
    offered (.offer a accepted :: moves) = a :: offered moves := rfl

@[simp] theorem offered_descend (moves : List (Move α)) :
    offered (.descend :: moves) = offered moves := rfl

@[simp] theorem offered_backtrack (depth : Nat) (moves : List (Move α)) :
    offered (.backtrack depth :: moves) = offered moves := rfl

end InstructionSet.Search
