import InstructionSet.Proofs.Search.Cache
import InstructionSet.Proofs.Search.Offers

/-!
# Where a search comes to

Reads may be answered in any way and owners refused at will; a search goes through
the forest in one direction all the same. It comes to some of the nodes, in the
order in which the forest lists them and to none of them twice
(`run_visits`), and at each it does one of three things (`Visit`). How much it can
test, read and put forward follows from that alone.

Levels are another matter. A search goes up only from where it went down, and one
that finds nothing has undone each step down by one step up (`run_nested`).
-/

namespace InstructionSet.Search

open Forest (Node)
open Forest.Branches (listed)

variable {α σ : Type}

/-- The number of the node that was tested. -/
def Move.tested? : Move α → Option Nat
  | test index _ _ => some index
  | _ => none

def Move.isDescent : Move α → Bool
  | descend => true
  | _ => false

def tested (moves : List (Move α)) : List Nat := moves.filterMap Move.tested?

def descents (moves : List (Move α)) : Nat := moves.countP Move.isDescent

/-- The owners that were put forward, each with the number of the node whose test came just before.
-/
def claims : List (Move α) → List (Nat × α)
  | .test index _ _ :: .offer a _ :: rest => (index, a) :: claims rest
  | _ :: rest => claims rest
  | [] => []

/-! ## One node after the other -/

/-- The moves that are made at a node. -/
inductive Visit (n : Node α) : List (Move α) → Prop where
  /-- The test does not hold. -/
  | missed {reading : Reading} (value : reading.value? ≠ some n.test.value) :
    Visit n [.test n.index n.test.field reading]
  /-- The test holds, and the owner is accepted. -/
  | accepted {reading : Reading} {a : α} (value : reading.value? = some n.test.value)
      (owner : n.owner = some a) :
    Visit n [.test n.index n.test.field reading, .offer a true]
  /-- The test holds, the owner is refused if there is one, and the search goes down if it can. -/
  | passed {reading : Reading} (value : reading.value? = some n.test.value) :
    Visit n (.test n.index n.test.field reading
      :: n.owner.toList.map (.offer · false) ++ n.child.toList.map fun _ => .descend)

/-- The moves of a search that comes to some nodes, one after the other. -/
inductive Visits : List (Node α) → List (Move α) → Prop where
  | nil : Visits [] []
  | up {ns : List (Node α)} {moves : List (Move α)} (depth : Nat) (rest : Visits ns moves) :
    Visits ns (.backtrack depth :: moves)
  | visit {n : Node α} {ns : List (Node α)} {made moves : List (Move α)} (here : Visit n made)
      (rest : Visits ns moves) : Visits (n :: ns) (made ++ moves)

/-- The nodes of all that is left to be searched, as the forest lists them. -/
def State.nodes (state : State α σ) : List (Node α) :=
  (state.current :: state.path).flatMap Forest.Branches.preorder

variable {s : Search α σ}

section Turn

variable {index : Nat} {test : Test} {owner : Option α} {below next : Forest.Branches α}

theorem State.nodes_node {path : List (Forest.Branches α)} {held : Held} {session : Session σ} :
    State.nodes ⟨.node index test owner below next, path, held, session⟩
      = listed index test owner below next
          :: (below :: next :: path).flatMap Forest.Branches.preorder := by
  simp only [State.nodes, List.flatMap_cons, Forest.Branches.preorder, List.cons_append,
    List.append_assoc]

theorem visit_of_accepted {reading : Reading} {session last : Session σ} {offers : List (Move α)}
    (value : reading.value? = some test.value)
    (offer : s.offer owner session = (true, last, offers)) :
    Visit (listed index test owner below next) (.test index test.field reading :: offers) := by
  rcases offer_cases offer with ⟨-, hv, -⟩ | ⟨a, rfl, -, rfl⟩
  · exact absurd hv (by simp)
  · exact .accepted value rfl

theorem visit_of_refused {reading : Reading} {session last : Session σ} {offers : List (Move α)}
    (value : reading.value? = some test.value)
    (offer : s.offer owner session = (false, last, offers)) :
    Visit (listed index test owner below next)
      (.test index test.field reading :: offers ++ below.head?.toList.map fun _ => .descend) := by
  have ho : offers = owner.toList.map (.offer · false) := by
    rcases offer_cases offer with ⟨rfl, -, -, rfl⟩ | ⟨a, rfl, -, rfl⟩ <;> rfl
  rw [ho]
  exact .passed (n := listed index test owner below next) value

/-- **A turn that goes on is a visit**, or else a step up. -/
theorem Turn.visits_go {state state' : State α σ} {moves moves' : List (Move α)}
    {ns : List (Node α)} (h : s.Turn state moves (.go state')) (hv : Visits ns moves')
    (hs : ns.Sublist state'.nodes) :
    ∃ ns', ns'.Sublist state.nodes ∧ Visits ns' (moves ++ moves') := by
  cases h with
  | up => exact ⟨ns, hs, .up _ hv⟩
  | @missed index test owner below next path held session seen look value =>
    refine ⟨listed index test owner below next :: ns, ?_, .visit (.missed value) hv⟩
    rw [State.nodes_node, List.flatMap_cons]
    -- what is below the node is passed over
    exact (hs.trans (List.sublist_append_right _ _)).cons_cons _
  | @refused index test owner next path held session last seen offers look value offer =>
    refine ⟨listed index test owner .nil next :: ns, ?_, .visit ?_ hv⟩
    · rw [State.nodes_node]
      exact hs.cons_cons _
    · have hp : Visit (listed index test owner .nil next) _ := visit_of_refused value offer
      rwa [Forest.Branches.head?, Option.toList_none, List.map_nil, List.append_nil] at hp
  | @down index test owner below next path held session last seen offers look value offer deeper =>
    refine ⟨listed index test owner below next :: ns, ?_, .visit ?_ hv⟩
    · rw [State.nodes_node]
      exact hs.cons_cons _
    · cases below with
      | nil => exact absurd deeper (by simp [Forest.Branches.isNil])
      | node => exact visit_of_refused value offer

end Turn

/-- So is the last turn, unless nothing was left. -/
theorem Turn.visits_stop {state : State α σ} {found : Option α} {last : Session σ}
    {moves : List (Move α)} (h : s.Turn state moves (.stop found last)) :
    ∃ ns, ns.Sublist state.nodes ∧ Visits ns moves := by
  cases h with
  | ended => exact ⟨[], List.nil_sublist _, .nil⟩
  | @accepted index test _ below next path held session last seen offers look value offer =>
    refine ⟨[listed index test found below next], ?_, ?_⟩
    · rw [State.nodes_node]
      exact (List.nil_sublist _).cons_cons _
    · have hv : Visits [listed index test found below next] _ :=
        .visit (visit_of_accepted value offer) .nil
      rwa [List.append_nil] at hv

theorem loop_visits (state : State α σ) :
    ∃ ns, ns.Sublist state.nodes ∧ Visits ns (s.loop state).moves := by
  induction state using s.turn_induction with
  | stop state moves found session h =>
    rw [h.loop_stop]
    exact h.visits_stop
  | go state moves state' h ih =>
    obtain ⟨ns, hs, hv⟩ := ih
    rw [h.loop_go]
    exact h.visits_go hv hs

/-- **A search comes to the nodes in the order in which the forest lists them.** -/
theorem run_visits (s : Search α σ) (f : Forest α) (session : Session σ) :
    ∃ ns, ns.Sublist f.branches.preorder ∧ Visits ns (s.run f session).moves := by
  have h := s.loop_visits ⟨f.branches, [], none, session⟩
  rwa [State.nodes, List.flatMap_singleton] at h

/-! ## What the visits amount to -/

theorem Visits.tested_eq {ns : List (Node α)} {moves : List (Move α)} (h : Visits ns moves) :
    tested moves = ns.map Node.index := by
  unfold tested
  induction h with
  | nil => rfl
  | up depth _ ih => exact ih
  | @visit n ns made moves here _ ih =>
    rw [List.filterMap_append, ih]
    cases here with
    | missed value => rfl
    | accepted value owner => rfl
    | passed value => cases n.owner <;> cases n.child <;> rfl

theorem tests_eq (moves : List (Move α)) :
    (effort moves).tests = (tested moves).length := by
  rw [tested, List.length_filterMap_eq_countP]
  refine List.countP_congr fun move _ => ?_
  cases move <;> simp [Move.isTest, Move.tested?]

theorem Visits.descents_le {ns : List (Node α)} {moves : List (Move α)} (h : Visits ns moves) :
    descents moves ≤ ns.countP fun n => n.child.isSome := by
  unfold descents
  induction h with
  | nil => exact Nat.le_refl _
  | up depth _ ih => exact ih
  | @visit n ns made moves here _ ih =>
    have hm : made.countP Move.isDescent ≤ [n].countP fun n => n.child.isSome := by
      cases here with
      | missed value => exact Nat.zero_le _
      | accepted value owner => exact Nat.zero_le _
      | passed value =>
        rw [List.countP_singleton]
        cases n.owner <;> cases n.child <;> simp [Move.isDescent]
    rw [List.countP_append, ← List.singleton_append, List.countP_append]
    exact Nat.add_le_add hm ih

/-- A test that is followed by another one, or by nothing, puts nobody forward. -/
theorem Visits.claims_test {ns : List (Node α)} {moves : List (Move α)} (h : Visits ns moves)
    (index : Nat) (field : FieldId) (reading : Reading) :
    claims (.test index field reading :: moves) = claims moves := by
  cases h with
  | nil => rfl
  | up depth rest => rfl
  | visit here rest => cases here <;> rfl

/-- The owner of a node, with the node's number. -/
def claim? (n : Node α) : Option (Nat × α) := n.owner.map (n.index, ·)

/-- At most the owner of the node is put forward, and for that node. -/
theorem Visit.claims_append {n : Node α} {made moves : List (Move α)} {ns : List (Node α)}
    (h : Visit n made) (hv : Visits ns moves) :
    (offered made = [] ∧ claims (made ++ moves) = claims moves)
      ∨ ∃ c, claim? n = some c ∧ offered made = [c.2]
          ∧ claims (made ++ moves) = c :: claims moves := by
  cases h with
  | missed value => exact .inl ⟨rfl, hv.claims_test ..⟩
  | @accepted reading a value owner =>
    exact .inr ⟨(n.index, a), congrArg (Option.map _) owner, rfl, rfl⟩
  | passed value =>
    cases ho : n.owner with
    | none =>
      refine .inl ?_
      cases n.child with
      | none => exact ⟨rfl, hv.claims_test ..⟩
      | some child => exact ⟨rfl, rfl⟩
    | some a =>
      refine .inr ⟨(n.index, a), congrArg (Option.map _) ho, ?_⟩
      cases n.child <;> exact ⟨rfl, rfl⟩

/-- **Each owner is put forward for a node of its own.** -/
theorem Visits.claims_eq {ns : List (Node α)} {moves : List (Move α)} (h : Visits ns moves) :
    (claims moves).map Prod.snd = offered moves ∧ (claims moves).Sublist (ns.filterMap claim?) := by
  induction h with
  | nil => exact ⟨rfl, List.Sublist.refl _⟩
  | up depth _ ih => exact ih
  | @visit n ns made moves here rest ih =>
    obtain ⟨ihe, ihs⟩ := ih
    rw [offered_append, ← ihe]
    rcases here.claims_append rest with ⟨ho, hc⟩ | ⟨c, hn, ho, hc⟩
    · rw [ho, hc]
      exact ⟨rfl, ihs.trans ((List.sublist_cons_self n ns).filterMap _)⟩
    · rw [ho, hc, List.filterMap_cons_some hn]
      exact ⟨rfl, ihs.cons_cons _⟩

theorem map_fst_claim? (ns : List (Node α)) :
    ((ns.filterMap claim?).map Prod.fst).Sublist (ns.map Node.index) := by
  induction ns with
  | nil => exact List.Sublist.refl _
  | cons n ns ih =>
    cases ho : n.owner with
    | none =>
      rw [List.filterMap_cons_none (by rw [claim?, ho]; rfl)]
      exact ih.cons _
    | some a =>
      rw [List.filterMap_cons_some (by rw [claim?, ho]; rfl)]
      exact ih.cons_cons _

/-! ## Reading for each test -/

/-- Under `CachePolicy.never` no value is at hand for a test. -/
theorem look_fresh (hp : s.policy = .never) (field : FieldId) (held : Held) (session : Session σ) :
    (s.look field held session).reading.isFresh = true := by
  have hr : s.reuse? field held = none := by
    rw [Option.eq_none_iff_forall_not_mem]
    intro value hv
    rw [(reuse?_eq_some.mp hv).1] at hp
    exact absurd hp (by simp)
  rw [look_of_none hr]
  cases hf : s.table.get? field with
  | none => rw [read_undeclared hf]; rfl
  | some f =>
    cases hx : s.extractor s.buffer f.layout session with
    | mk result last =>
      cases result with
      | ok value => rw [read_ok hf hx]; rfl
      | error e => rw [read_error hf hx]; rfl

theorem eq_offer_of_mem {owner : Option α} {session last : Session σ} {accepted : Bool}
    {offers : List (Move α)} (h : s.offer owner session = (accepted, last, offers))
    {move : Move α} (hm : move ∈ offers) : ∃ a, move = .offer a accepted := by
  rcases offer_cases h with ⟨-, -, -, rfl⟩ | ⟨a, -, -, rfl⟩
  · exact absurd hm (by simp)
  · exact ⟨a, List.mem_singleton.mp hm⟩

theorem Turn.extractions (hp : s.policy = .never) {state : State α σ} {moves : List (Move α)}
    {next : Next α σ} (h : s.Turn state moves next) :
    ∀ move ∈ moves, move.isExtraction = move.isTest := by
  have hoffers {owner : Option α} {session last : Session σ} {accepted : Bool}
      {offers : List (Move α)} (h : s.offer owner session = (accepted, last, offers)) :
      ∀ move ∈ offers, move.isExtraction = move.isTest := by
    intro move hm
    obtain ⟨a, rfl⟩ := eq_offer_of_mem h hm
    rfl
  cases h with
  | ended => simp
  | up => simp [Move.isExtraction, Move.isTest]
  | missed look value =>
    rw [List.forall_mem_singleton, ← look]
    exact look_fresh hp ..
  | accepted look value offer =>
    rw [List.forall_mem_cons, ← look]
    exact ⟨look_fresh hp .., hoffers offer⟩
  | refused look value offer =>
    rw [List.forall_mem_cons, ← look]
    exact ⟨look_fresh hp .., hoffers offer⟩
  | down look value offer deeper =>
    rw [List.cons_append, List.forall_mem_cons, List.forall_mem_append, List.forall_mem_singleton,
      ← look]
    exact ⟨look_fresh hp .., hoffers offer, rfl⟩

/-- So each test is an extraction. -/
theorem extractions_eq_of_never (hp : s.policy = .never) (state : State α σ) :
    (effort (s.loop state).moves).extractions = (effort (s.loop state).moves).tests := by
  have hall : ∀ move ∈ (s.loop state).moves, move.isExtraction = move.isTest := by
    induction state using s.turn_induction with
    | stop state moves found session h =>
      rw [h.loop_stop]
      exact h.extractions hp
    | go state moves state' h ih =>
      rw [h.loop_go]
      intro move hm
      rcases List.mem_append.mp hm with hm | hm
      · exact h.extractions hp move hm
      · exact ih move hm
  exact List.countP_congr fun move hm => by rw [hall move hm]

/-! ## Down and up again -/

/-- The moves of a search that ends on the level that it begins on, with `n` levels above it, and
goes no higher: each step down is undone by one step up. -/
inductive Nested : Nat → List (Move α) → Prop where
  | nil {n : Nat} : Nested n []
  | stay {n : Nat} {move : Move α} {moves : List (Move α)} (down : move.isDescent = false)
      (up : move.isBacktrack = false) (rest : Nested n moves) : Nested n (move :: moves)
  | level {n : Nat} {inside moves : List (Move α)} (lower : Nested (n + 1) inside)
      (rest : Nested n moves) : Nested n (.descend :: (inside ++ .backtrack n :: moves))

/-- The moves of a search that ends on the highest level, and begins `n` levels below it. -/
inductive Unwinds : Nat → List (Move α) → Prop where
  | highest {moves : List (Move α)} (nested : Nested 0 moves) : Unwinds 0 moves
  | up {n : Nat} {inside moves : List (Move α)} (nested : Nested (n + 1) inside)
      (rest : Unwinds n moves) : Unwinds (n + 1) (inside ++ .backtrack n :: moves)

theorem Unwinds.stay {n : Nat} {move : Move α} {moves : List (Move α)}
    (down : move.isDescent = false) (up : move.isBacktrack = false) (h : Unwinds n moves) :
    Unwinds n (move :: moves) := by
  cases h with
  | highest nested => exact .highest (.stay down up nested)
  | up nested rest => exact .up (.stay down up nested) rest

theorem Unwinds.down {n : Nat} {moves : List (Move α)} (h : Unwinds (n + 1) moves) :
    Unwinds n (.descend :: moves) := by
  obtain _ | ⟨nested, rest⟩ := h
  cases rest with
  | highest outside => exact .highest (.level nested outside)
  | @up n between moves outside rest =>
    have h := Unwinds.up (.level nested outside) rest
    rwa [List.cons_append, List.append_assoc, List.cons_append] at h

theorem backtracks_eq (moves : List (Move α)) :
    (effort moves).backtracks = moves.countP Move.isBacktrack := rfl

theorem Nested.descents_eq {n : Nat} {moves : List (Move α)} (h : Nested n moves) :
    descents moves = (effort moves).backtracks := by
  rw [descents, backtracks_eq]
  induction h with
  | nil => rfl
  | stay down up _ ih =>
    rw [List.countP_cons_of_neg (by simp [down]), List.countP_cons_of_neg (by simp [up])]
    exact ih
  | level _ _ ihl ihr =>
    rw [List.countP_cons_of_pos rfl, List.countP_cons_of_neg (by simp [Move.isBacktrack]),
      List.countP_append, List.countP_append, List.countP_cons_of_neg (by simp [Move.isDescent]),
      List.countP_cons_of_pos rfl]
    omega

/-- Steps within a level come before what unwinds from it. -/
theorem Unwinds.append {n : Nat} {made moves : List (Move α)} (h : Unwinds n moves)
    (hm : ∀ move ∈ made, move.isDescent = false ∧ move.isBacktrack = false) :
    Unwinds n (made ++ moves) := by
  induction made with
  | nil => exact h
  | cons move made ih =>
    obtain ⟨hd, hu⟩ := hm move (List.mem_cons_self ..)
    exact (ih fun m hm' => hm m (List.mem_cons_of_mem _ hm')).stay hd hu

theorem level_of_offer {owner : Option α} {session last : Session σ} {accepted : Bool}
    {offers : List (Move α)} (h : s.offer owner session = (accepted, last, offers)) :
    ∀ move ∈ offers, move.isDescent = false ∧ move.isBacktrack = false := by
  intro move hm
  obtain ⟨a, rfl⟩ := eq_offer_of_mem h hm
  exact ⟨rfl, rfl⟩

/-- **A search that finds nothing comes back up** to where it is over. -/
theorem loop_unwinds (state : State α σ) (h : (s.loop state).found = none) :
    Unwinds state.path.length (s.loop state).moves := by
  induction state using s.turn_induction with
  | stop state moves found session ht =>
    rw [ht.loop_stop] at h ⊢
    cases ht with
    | ended => exact .highest .nil
    | accepted look value offer =>
      rcases offer_cases offer with ⟨-, hv, -⟩ | ⟨a, rfl, -⟩
      · exact absurd hv (by simp)
      · exact absurd h (by simp)
  | go state moves state' ht ih =>
    rw [ht.loop_go] at h ⊢
    have hu := ih h
    unfold Outcome.after
    dsimp only
    cases ht with
    | up => exact .up .nil hu
    | missed look value => exact hu.stay rfl rfl
    | refused look value offer => exact (hu.append (level_of_offer offer)).stay rfl rfl
    | down look value offer deeper =>
      rw [List.append_assoc]
      exact (hu.down.append (level_of_offer offer)).stay rfl rfl

theorem run_nested {f : Forest α} {session : Session σ} (h : (s.run f session).found = none) :
    Nested 0 (s.run f session).moves := by
  obtain ⟨nested⟩ := loop_unwinds _ h
  exact nested

theorem descents_append (moves moves' : List (Move α)) :
    descents (moves ++ moves') = descents moves + descents moves' := List.countP_append

theorem backtracks_append (moves moves' : List (Move α)) :
    (effort (moves ++ moves')).backtracks
      = (effort moves).backtracks + (effort moves').backtracks := List.countP_append

theorem descents_of_level {moves : List (Move α)}
    (h : ∀ move ∈ moves, move.isDescent = false ∧ move.isBacktrack = false) :
    descents moves = 0 ∧ (effort moves).backtracks = 0 :=
  ⟨List.countP_eq_zero.mpr fun move hm => by simp [(h move hm).1],
    List.countP_eq_zero.mpr fun move hm => by simp [(h move hm).2]⟩

/-- The levels above are those that the search went down from and has not come back up to. -/
theorem Turn.levels {state state' : State α σ} {moves : List (Move α)}
    (h : s.Turn state moves (.go state')) :
    (effort moves).backtracks + state'.path.length = descents moves + state.path.length := by
  cases h with
  | up => simp [effort, descents, Move.isBacktrack, Move.isDescent, Nat.add_comm]
  | missed look value => rfl
  | refused look value offer =>
    obtain ⟨hd, hb⟩ := descents_of_level (level_of_offer offer)
    rw [← List.singleton_append, backtracks_append, descents_append, hb, hd]
    rfl
  | down look value offer deeper =>
    obtain ⟨hd, hb⟩ := descents_of_level (level_of_offer offer)
    rw [← List.singleton_append, List.append_assoc, backtracks_append, backtracks_append,
      descents_append, descents_append, hb, hd]
    simp [effort, descents, Move.isBacktrack, Move.isDescent, Nat.add_comm]

/-- **No search goes up more often than it went down.** -/
theorem loop_backtracks_le (state : State α σ) :
    (effort (s.loop state).moves).backtracks
      ≤ descents (s.loop state).moves + state.path.length := by
  induction state using s.turn_induction with
  | stop state moves found session ht =>
    rw [ht.loop_stop]
    cases ht with
    | ended => exact Nat.zero_le _
    | accepted look value offer =>
      obtain ⟨-, hb⟩ := descents_of_level (level_of_offer offer)
      rw [← List.singleton_append, backtracks_append, hb]
      exact Nat.zero_le _
  | go state moves state' ht ih =>
    have hl := ht.levels
    rw [ht.loop_go, Outcome.after]
    dsimp only
    rw [backtracks_append, descents_append]
    omega

end InstructionSet.Search
