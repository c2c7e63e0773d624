import InstructionSet.Proofs.Forest.Height
import InstructionSet.Proofs.Forest.Linked
import InstructionSet.Proofs.Search.Visits

/-!
# Searching by number

Whoever has only the list of linked nodes can search it: keep the number of the
node that is to be tested next, and those of the nodes that the search went down
from, and follow the links. Nothing in that says that it ever ends, or that a link
leads to a node. `walk` is such a search with a number of turns to spend, which
comes to nothing when they are used up or a number is out of range.

`walk_eq` says that neither happens. A search by number keeps to the search of the
forest (`At`), turn by turn, and two turns for each node are enough. Together with
what visits amount to this bounds all that a search takes (`Bounded`).
-/

namespace InstructionSet.Search

open Forest (Node Linked)
open Forest.Branches (listed listed_test)

variable {α σ : Type}

/-- Where a search by number stands. -/
structure Place (σ : Type) where
  /-- The node that is to be tested next. -/
  current : Option Nat
  /-- The nodes that the search went down from, the last one first. -/
  path : List Nat
  held : Held
  session : Session σ

/-- How a search by number goes on after a turn. -/
inductive Onward (α σ : Type) where
  | stop (found : Option α) (session : Session σ)
  | go (place : Place σ)

/-- Takes a turn at a node. -/
def visit (s : Search α σ) (n : Node α) (place : Place σ) : List (Move α) × Onward α σ :=
  let seen := s.look n.test.field place.held place.session
  let made := Move.test n.index n.test.field seen.reading
  if seen.reading.value? = some n.test.value then
    let (accepted, session, offers) := s.offer n.owner seen.session
    if accepted then (made :: offers, .stop n.owner session)
    else
      match n.child with
      | none =>
        (made :: offers, .go { place with current := n.sibling, held := seen.held, session })
      | some child =>
        (made :: offers ++ [.descend],
          .go { current := some child, path := n.index :: place.path, held := none, session })
  else
    ([made], .go { place with current := n.sibling, held := seen.held, session := seen.session })

/-- Takes a turn. Nothing comes of a number that is out of range. -/
def turnAt (s : Search α σ) (l : Linked α) (place : Place σ) :
    Option (List (Move α) × Onward α σ) :=
  match place.current, place.path with
  | none, [] => some ([], .stop none place.session)
  | none, above :: path =>
    (l.nodes[above]?).map fun n =>
      ([.backtrack path.length], .go { place with current := n.sibling, path })
  | some k, _ => (l.nodes[k]?).map fun n => s.visit n place

/-- Searches on for so many turns at most. -/
def walk (s : Search α σ) (l : Linked α) : Nat → Place σ → Option (Outcome α σ)
  | 0, _ => none
  | turns + 1, place =>
    (s.turnAt l place).bind fun
      | (moves, .stop found session) => some { found, session, moves }
      | (moves, .go place) => (s.walk l turns place).map (Outcome.after moves)

/-- Where a search stands after so many turns, if it is not over by then. -/
def placeAfter (s : Search α σ) (l : Linked α) : Nat → Place σ → Option (Place σ)
  | 0, place => some place
  | turns + 1, place =>
    (s.turnAt l place).bind fun
      | (_, .stop ..) => none
      | (_, .go place) => s.placeAfter l turns place

/-- Where a search of linked nodes begins. -/
def start (l : Linked α) (session : Session σ) : Place σ :=
  { current := l.root?, path := [], held := none, session }

/-! ## In step with the search of a forest -/

/-- A state with numbers in the place of nodes, `path` being those that were left downwards. -/
def State.place (state : State α σ) (path : List Nat) : Place σ :=
  { current := state.current.head?, path, held := state.held, session := state.session }

/-- The list of nodes serves the search of a forest: the nodes that were left downwards have the
levels above as their siblings, and what is left to be searched is in the place of its number. -/
structure Serves (l : Linked α) (path : List Nat) (state : State α σ) : Prop where
  path : List.Forall₂ (fun k b => (l.nodes[k]?).map Node.sibling = some (Forest.Branches.head? b))
    path state.path
  nodes : ∀ n ∈ state.nodes, l.nodes[n.index]? = some n

/-- A turn by number comes to the same as one in the forest. -/
inductive Follows (l : Linked α) : Onward α σ → Next α σ → Prop where
  | stop (found : Option α) (session : Session σ) :
    Follows l (.stop found session) (.stop found session)
  | go {path : List Nat} {state : State α σ} (h : Serves l path state) :
    Follows l (.go (state.place path)) (.go state)

variable {s : Search α σ} {l : Linked α}

section Visit

variable {n : Node α} {place : Place σ} {seen : Look σ} {last : Session σ}
  {offers : List (Move α)}

theorem visit_missed (look : s.look n.test.field place.held place.session = seen)
    (value : seen.reading.value? ≠ some n.test.value) :
    s.visit n place
      = ([.test n.index n.test.field seen.reading],
          .go { place with current := n.sibling, held := seen.held, session := seen.session }) := by
  simp only [visit, look, if_neg value]

theorem visit_accepted (look : s.look n.test.field place.held place.session = seen)
    (value : seen.reading.value? = some n.test.value)
    (offer : s.offer n.owner seen.session = (true, last, offers)) :
    s.visit n place
      = (.test n.index n.test.field seen.reading :: offers, .stop n.owner last) := by
  simp only [visit, look, if_pos value, offer, if_true]

theorem visit_refused (look : s.look n.test.field place.held place.session = seen)
    (value : seen.reading.value? = some n.test.value)
    (offer : s.offer n.owner seen.session = (false, last, offers)) (child : n.child = none) :
    s.visit n place
      = (.test n.index n.test.field seen.reading :: offers,
          .go { place with current := n.sibling, held := seen.held, session := last }) := by
  simp only [visit, look, if_pos value, offer, Bool.false_eq_true, if_false, child]

theorem visit_down {k : Nat} (look : s.look n.test.field place.held place.session = seen)
    (value : seen.reading.value? = some n.test.value)
    (offer : s.offer n.owner seen.session = (false, last, offers)) (child : n.child = some k) :
    s.visit n place
      = (.test n.index n.test.field seen.reading :: offers ++ [.descend],
          .go { current := some k, path := n.index :: place.path, held := none,
                session := last }) := by
  simp only [visit, look, if_pos value, offer, Bool.false_eq_true, if_false, child]

end Visit

section Node

variable {index : Nat} {test : Test} {owner : Option α} {below next : Forest.Branches α}
  {path : List Nat} {levels : List (Forest.Branches α)} {held : Held} {session : Session σ}

theorem Serves.nodes_of_mem
    (h : Serves l path ⟨.node index test owner below next, levels, held, session⟩)
    {n : Node α} (hn : n ∈ (below :: next :: levels).flatMap Forest.Branches.preorder) :
    l.nodes[n.index]? = some n := by
  refine h.nodes n ?_
  rw [State.nodes_node]
  exact List.mem_cons_of_mem _ hn

theorem Serves.getElem?_head
    (h : Serves l path ⟨.node index test owner below next, levels, held, session⟩) :
    l.nodes[index]? = some (listed index test owner below next) := by
  refine h.nodes (listed index test owner below next) ?_
  rw [State.nodes_node]
  exact List.mem_cons_self ..

theorem Serves.turnAt_node
    (h : Serves l path ⟨.node index test owner below next, levels, held, session⟩) :
    s.turnAt l (State.place ⟨.node index test owner below next, levels, held, session⟩ path)
      = some (s.visit (listed index test owner below next)
          ⟨some index, path, held, session⟩) := by
  show (l.nodes[index]?).map _ = _
  rw [h.getElem?_head]
  rfl

/-- The search stays on the level. -/
theorem Serves.across {held' : Held} {session' : Session σ}
    (h : Serves l path ⟨.node index test owner below next, levels, held, session⟩) :
    Serves l path ⟨next, levels, held', session'⟩ where
  path := h.path
  nodes n hn := h.nodes_of_mem (by
    rw [List.flatMap_cons]
    exact List.mem_append_right _ hn)

/-- The search goes down. -/
theorem Serves.down {held' : Held} {session' : Session σ}
    (h : Serves l path ⟨.node index test owner below next, levels, held, session⟩) :
    Serves l (index :: path) ⟨below, next :: levels, held', session'⟩ where
  path := .cons (by rw [h.getElem?_head]; rfl) h.path
  nodes n hn := h.nodes_of_mem hn

end Node

/-- **A turn by number is a turn of the search of the forest.** -/
theorem Serves.turnAt {path : List Nat} {state : State α σ} (h : Serves l path state)
    {moves : List (Move α)} {next : Next α σ} (ht : s.Turn state moves next) :
    ∃ onward, s.turnAt l (state.place path) = some (moves, onward) ∧ Follows l onward next := by
  cases ht with
  | ended =>
    cases h.path
    exact ⟨_, rfl, .stop ..⟩
  | up =>
    obtain ⟨hp, hn⟩ := h
    cases hp with
    | @cons above _ path _ hk hp =>
      obtain ⟨n, hget, hs⟩ := Option.map_eq_some_iff.mp hk
      refine ⟨_, ?_, .go ⟨hp, hn⟩⟩
      show (l.nodes[above]?).map _ = _
      rw [hget, ← hp.length_eq]
      unfold State.place
      rw [← hs]
      rfl
  | missed look value =>
    refine ⟨_, ?_, .go h.across⟩
    rw [h.turnAt_node]
    exact congrArg some (visit_missed look value)
  | accepted look value offer =>
    refine ⟨_, ?_, .stop ..⟩
    rw [h.turnAt_node]
    exact congrArg some (visit_accepted look value offer)
  | refused look value offer =>
    refine ⟨_, ?_, .go h.across⟩
    rw [h.turnAt_node]
    exact congrArg some (visit_refused look value offer rfl)
  | @down _ _ _ below _ _ _ _ _ _ _ look value offer deeper =>
    refine ⟨_, ?_, .go h.down⟩
    rw [h.turnAt_node]
    cases below with
    | nil => exact absurd deeper (by simp [Forest.Branches.isNil])
    | node => exact congrArg some (visit_down look value offer rfl)

/-- **Two turns for each node are enough**, and no number is out of range. -/
theorem walk_eq {turns : Nat} {path : List Nat} {state : State α σ} (h : Serves l path state)
    (ht : state.left < turns) : s.walk l turns (state.place path) = some (s.loop state) := by
  induction turns generalizing path state with
  | zero => exact absurd ht (Nat.not_lt_zero _)
  | succ turns ih =>
    have hturn := s.turn_step state
    cases hstep : s.step state with
    | mk moves next =>
      rw [hstep] at hturn
      obtain ⟨onward, hw, hf⟩ := h.turnAt hturn
      rw [walk, hw, Option.bind_some]
      cases hf with
      | stop found session => rw [hturn.loop_stop]
      | go hs =>
        have hlt := left_lt_of_step hstep
        dsimp only
        rw [ih hs (by omega), hturn.loop_go]
        rfl

/-! ## The levels above -/

/-- Each of the levels, of which the later ones are above, leaves room for those above it. -/
def Fits (depth : Nat) : List (Forest.Branches α) → Prop
  | [] => True
  | b :: above => b.height + above.length ≤ depth ∧ Fits depth above

theorem Turn.fits {depth : Nat} {state state' : State α σ} {moves : List (Move α)}
    (ht : s.Turn state moves (.go state')) (h : Fits depth (state.current :: state.path)) :
    Fits depth (state'.current :: state'.path) := by
  cases ht with
  | up => exact h.2
  | missed look value =>
    exact ⟨(Nat.add_le_add_right (Forest.Branches.height_next_le ..) _).trans h.1, h.2⟩
  | refused look value offer =>
    exact ⟨(Nat.add_le_add_right (Forest.Branches.height_next_le ..) _).trans h.1, h.2⟩
  | down look value offer deeper =>
    refine ⟨?_, (Nat.add_le_add_right (Forest.Branches.height_next_le ..) _).trans h.1, h.2⟩
    -- there is one more level above, and one less below
    refine Nat.le_trans ?_ h.1
    rw [List.length_cons, ← Nat.add_assoc, Nat.add_right_comm]
    exact Nat.add_le_add_right (Forest.Branches.height_below_lt ..) _

theorem path_le_of_placeAfter {depth turns : Nat} {path : List Nat} {state : State α σ}
    {place : Place σ} (h : Serves l path state) (hf : Fits depth (state.current :: state.path))
    (hp : s.placeAfter l turns (state.place path) = some place) : place.path.length ≤ depth := by
  induction turns generalizing path state with
  | zero =>
    rw [placeAfter, Option.some.injEq] at hp
    rw [← hp]
    exact (h.path.length_eq.le.trans (Nat.le_add_left _ _)).trans hf.1
  | succ turns ih =>
    have hturn := s.turn_step state
    cases hstep : s.step state with
    | mk moves next =>
      rw [hstep] at hturn
      obtain ⟨onward, hw, hon⟩ := h.turnAt hturn
      rw [placeAfter, hw, Option.bind_some] at hp
      cases hon with
      | stop found session => exact absurd hp (by simp)
      | go hs => exact ih hs (hturn.fits hf) hp

/-! ## All that a search takes -/

theorem serves_start {f : Forest α} (h : f.branches.Numbered) (session : Session σ) :
    Serves f.linked [] (⟨f.branches, [], none, session⟩ : State α σ) where
  path := .nil
  nodes n hn := Forest.getElem?_of_mem_nodes h (Forest.mem_nodes.mpr (by
    rwa [State.nodes, List.flatMap_singleton] at hn))

/-- **A search by number is the search of the forest.** -/
theorem walk_start {f : Forest α} (h : f.branches.Numbered) (s : Search α σ)
    (session : Session σ) {turns : Nat} (ht : 2 * f.size < turns) :
    s.walk f.linked turns (start f.linked session) = some (s.run f session) :=
  walk_eq (serves_start h session) ht

/-- What a search takes is bounded by the forest, whatever reads and owners are answered with. -/
structure Bounded (s : Search α σ) (f : Forest α) (session : Session σ) : Prop where
  /-- Two turns for each node and one more are enough, and no number is out of range. -/
  ends : ∀ turns, 2 * f.size < turns →
    s.walk f.linked turns (start f.linked session) = some (s.run f session)
  /-- No node is tested twice. -/
  tested_nodup : (tested (s.run f session).moves).Nodup
  tests_eq : (effort (s.run f session).moves).tests = (tested (s.run f session).moves).length
  tests_le : (effort (s.run f session).moves).tests ≤ f.size
  extractions_le :
    (effort (s.run f session).moves).extractions ≤ (effort (s.run f session).moves).tests
  extractions_eq : s.policy = .never →
    (effort (s.run f session).moves).extractions = (effort (s.run f session).moves).tests
  backtracks_le :
    (effort (s.run f session).moves).backtracks ≤ f.nodes.countP fun n => n.child.isSome
  /-- A search that finds nothing has undone each step down by one step up. -/
  nested : (s.run f session).found = none → Nested 0 (s.run f session).moves
  descents_eq : (s.run f session).found = none →
    descents (s.run f session).moves = (effort (s.run f session).moves).backtracks
  /-- No more nodes are kept on the way down than the forest is deep. -/
  path_le : ∀ turns place, s.placeAfter f.linked turns (start f.linked session) = some place →
    place.path.length ≤ f.maxDepth
  /-- Whatever is put forward is put forward for the node that was tested just before, -/
  claims_eq : (claims (s.run f session).moves).map Prod.snd = offered (s.run f session).moves
  /-- which has it as its owner, -/
  claims_owned : ∀ c ∈ claims (s.run f session).moves, ∃ n ∈ f.nodes, claim? n = some c
  /-- and for no node twice. -/
  claims_nodup : ((claims (s.run f session).moves).map Prod.fst).Nodup
  /-- What is found was put forward last. -/
  found : ∀ a, (s.run f session).found = some a →
    (offered (s.run f session).moves).getLast? = some a

theorem bounded_of_represents {f : Forest α} {made : List (Forest.Call α)} (h : f.Represents made)
    (s : Search α σ) (session : Session σ) : s.Bounded f session := by
  obtain ⟨ns, hsub, hv⟩ := s.run_visits f session
  have hnodup : (ns.map Node.index).Nodup := by
    refine List.Nodup.sublist (hsub.map Node.index) ?_
    rw [Forest.Branches.map_index_preorder]
    exact h.numbered.nodup
  have hlen : ns.length ≤ f.size := by
    have hl := (hsub.map Node.index).length_le
    rwa [Forest.Branches.map_index_preorder, Forest.Branches.length_indices,
      List.length_map] at hl
  have htests : (effort (s.run f session).moves).tests = (tested (s.run f session).moves).length :=
    tests_eq _
  obtain ⟨hclaims, hclaimed⟩ := hv.claims_eq
  exact {
    ends := fun turns ht => walk_start h.numbered s session ht
    tested_nodup := by rw [hv.tested_eq]; exact hnodup
    tests_eq := htests
    tests_le := by rw [htests, hv.tested_eq, List.length_map]; exact hlen
    extractions_le := extractions_le_tests _
    extractions_eq := fun hp => extractions_eq_of_never hp _
    backtracks_le := by
      have hb := s.loop_backtracks_le ⟨f.branches, [], none, session⟩
      have hc : ns.countP (fun n => n.child.isSome) ≤ f.nodes.countP fun n => n.child.isSome := by
        rw [f.perm_nodes.countP_eq]
        exact hsub.countP_le
      exact (hb.trans hv.descents_le).trans hc
    nested := run_nested
    descents_eq := fun hn => (run_nested hn).descents_eq
    path_le := fun turns place hp =>
      path_le_of_placeAfter (serves_start h.numbered session)
        ⟨h.height_le, trivial⟩ hp
    claims_eq := hclaims
    claims_owned := by
      intro c hc
      obtain ⟨n, hn, he⟩ := List.mem_filterMap.mp (hclaimed.subset hc)
      exact ⟨n, Forest.mem_nodes.mpr (hsub.subset hn), he⟩
    claims_nodup := ((hclaimed.map Prod.fst).trans (map_fst_claim? ns)).nodup hnodup
    found := by
      intro a ha
      obtain ⟨-, before, he⟩ := s.run_offered f session
      rw [← he, ha, Option.toList_some, List.getLast?_concat] }

/--
**What a search takes.** Chains may have been entered into a forest in any order,
accepted or refused, and fields tested that the table does not have. Reads may be
answered in any way, and owners, too. The list of nodes is the one that the chains
make in place; a search of it ends, and `Bounded` is what it takes.
-/
theorem bounded_after (calls : List (Forest.Call α)) (s : Search α σ) (session : Session σ) :
    ({} : Linked α).after calls = some (({} : Forest α).after calls).linked
      ∧ s.Bounded (({} : Forest α).after calls) session := by
  refine ⟨?_, bounded_of_represents (Forest.represents_after Forest.represents_empty calls) s
    session⟩
  have hl := Forest.after_linked (Forest.represents_empty (α := α)) calls
  rwa [Forest.linked_empty] at hl

end InstructionSet.Search
