import InstructionSet.Proofs.Search.Turns

/-!
# The course of a search on a tree

A search keeps what is left of the levels above it, and goes on there when a level is
exhausted. On the tree the same course is described level by level, with no such list:
`Walk` has one case for each way in which a node can go, whatever was read there and
whatever became of its owner. What a walk tests, whom it puts forward and where it ends
is settled by the tree and by the answers (`run_walk`).
-/

namespace InstructionSet.Search

open Forest (Branches)

variable {α σ : Type}

/-- The owner of a node is put forward, if there is one, and refused. -/
def refusal (owner : Option α) : List (Move α) := owner.toList.map (.offer · false)

/-- The moves of a search through a level and all below it, and the owner that it ends with;
`depth` levels are above. -/
inductive Walk : Nat → Branches α → List (Move α) → Option α → Prop where
  | nil {depth : Nat} : Walk depth .nil [] none
  /-- The test does not hold. -/
  | missed {depth index : Nat} {test : Test} {owner found : Option α} {below next : Branches α}
      {reading : Reading} {moves : List (Move α)} (value : reading.value? ≠ some test.value)
      (rest : Walk depth next moves found) :
    Walk depth (.node index test owner below next) (.test index test.field reading :: moves) found
  /-- The test holds, and the owner is accepted. -/
  | accepted {depth index : Nat} {test : Test} {a : α} {below next : Branches α}
      {reading : Reading} (value : reading.value? = some test.value) :
    Walk depth (.node index test (some a) below next)
      [.test index test.field reading, .offer a true] (some a)
  /-- The test holds, no owner is accepted, and there is nothing below. -/
  | barren {depth index : Nat} {test : Test} {owner found : Option α} {next : Branches α}
      {reading : Reading} {moves : List (Move α)} (value : reading.value? = some test.value)
      (rest : Walk depth next moves found) :
    Walk depth (.node index test owner .nil next)
      (.test index test.field reading :: refusal owner ++ moves) found
  /-- The test holds, no owner is accepted, and one is below. -/
  | within {depth index : Nat} {test : Test} {owner : Option α} {a : α} {below next : Branches α}
      {reading : Reading} {moves : List (Move α)} (value : reading.value? = some test.value)
      (deeper : below.isNil = false) (down : Walk (depth + 1) below moves (some a)) :
    Walk depth (.node index test owner below next)
      (.test index test.field reading :: refusal owner ++ .descend :: moves) (some a)
  /-- The test holds, no owner is accepted, nor is one below. -/
  | past {depth index : Nat} {test : Test} {owner found : Option α} {below next : Branches α}
      {reading : Reading} {moves moves' : List (Move α)}
      (value : reading.value? = some test.value) (deeper : below.isNil = false)
      (down : Walk (depth + 1) below moves none) (rest : Walk depth next moves' found) :
    Walk depth (.node index test owner below next)
      (.test index test.field reading :: refusal owner ++ .descend :: moves
        ++ .backtrack depth :: moves') found

/-! ## From the levels above to the tree -/

/-- The moves of a search through what is left of a level and of those above it. -/
inductive Climb : List (Branches α) → List (Move α) → Option α → Prop where
  | here {b : Branches α} {path : List (Branches α)} {moves : List (Move α)} {a : α}
      (walk : Walk path.length b moves (some a)) : Climb (b :: path) moves (some a)
  | top {b : Branches α} {moves : List (Move α)} (walk : Walk 0 b moves none) :
    Climb [b] moves none
  | up {b alternatives : Branches α} {path : List (Branches α)} {moves moves' : List (Move α)}
      {found : Option α} (walk : Walk (path.length + 1) b moves none)
      (rest : Climb (alternatives :: path) moves' found) :
    Climb (b :: alternatives :: path) (moves ++ .backtrack path.length :: moves') found

/-- What can be done before a walk can be done before a climb that begins with it. -/
theorem Climb.after {b next : Branches α} {path : List (Branches α)} {first : List (Move α)}
    (h : ∀ {moves found}, Walk path.length next moves found →
      Walk path.length b (first ++ moves) found)
    {moves : List (Move α)} {found : Option α} (hc : Climb (next :: path) moves found) :
    Climb (b :: path) (first ++ moves) found := by
  cases hc with
  | here walk => exact .here (h walk)
  | top walk => exact .top (h walk)
  | up walk rest =>
    rw [← List.append_assoc]
    exact .up (h walk) rest

/-- A climb that begins below a node is one that begins with the node. -/
theorem Climb.unnest {index : Nat} {test : Test} {owner : Option α} {below next : Branches α}
    {path : List (Branches α)} {reading : Reading} (value : reading.value? = some test.value)
    (deeper : below.isNil = false) {moves : List (Move α)} {found : Option α}
    (hc : Climb (below :: next :: path) moves found) :
    Climb (.node index test owner below next :: path)
      (.test index test.field reading :: refusal owner ++ [.descend] ++ moves) found := by
  generalize hlevels : below :: next :: path = levels at hc
  cases hc with
  | here walk =>
    cases hlevels
    rw [List.append_assoc]
    exact .here (.within value deeper walk)
  | top walk => cases hlevels
  | @up _ _ _ inner outer _ walk rest =>
    cases hlevels
    have hpast : ∀ {moves : List (Move α)} {found : Option α}, Walk path.length next moves found →
        Walk path.length (.node index test owner below next)
          (.test index test.field reading :: refusal owner ++ .descend :: inner
            ++ [.backtrack path.length] ++ moves) found := by
      intro moves found walk'
      rw [List.append_assoc, List.singleton_append]
      exact .past value deeper walk walk'
    have hafter := rest.after hpast
    simpa only [List.append_assoc, List.cons_append, List.nil_append] using hafter

theorem eq_refusal {s : Search α σ} {owner : Option α} {session last : Session σ}
    {offers : List (Move α)} (h : s.offer owner session = (false, last, offers)) :
    offers = refusal owner := by
  rcases offer_cases h with ⟨rfl, -, -, rfl⟩ | ⟨a, rfl, -, rfl⟩ <;> rfl

theorem loop_climb (s : Search α σ) (state : State α σ) :
    Climb (state.current :: state.path) (s.loop state).moves (s.loop state).found := by
  induction state using s.turn_induction with
  | stop state moves found session h =>
    rw [h.loop_stop]
    cases h with
    | ended => exact .top .nil
    | accepted look value offer =>
      rcases offer_cases offer with ⟨-, hv, -⟩ | ⟨a, rfl, -, rfl⟩
      · exact absurd hv (by simp)
      · exact .here (.accepted value)
  | go state moves state' h ih =>
    rw [h.loop_go]
    cases h with
    | up => exact .up .nil ih
    | missed look value => exact ih.after fun walk => .missed value walk
    | refused look value offer =>
      rw [eq_refusal offer]
      exact ih.after fun walk => .barren value walk
    | down look value offer deeper =>
      rw [eq_refusal offer]
      exact ih.unnest value deeper

/-- **A search goes through the tree level by level**, for any extractor. -/
theorem run_walk (s : Search α σ) (f : Forest α) (session : Session σ) :
    Walk 0 f.branches (s.run f session).moves (s.run f session).found := by
  have h : Climb [f.branches] (s.run f session).moves (s.run f session).found :=
    s.loop_climb ⟨f.branches, [], none, session⟩
  generalize (s.run f session).found = found, (s.run f session).moves = moves at h ⊢
  generalize hlevels : [f.branches] = levels at h
  cases h with
  | here walk =>
    cases hlevels
    exact walk
  | top walk =>
    cases hlevels
    exact walk
  | up walk rest => cases hlevels

end InstructionSet.Search
