import InstructionSet.Proofs.Forest.Terminals
import InstructionSet.Proofs.Search.Turns

/-!
# What a search can put forward at all

A host may answer reads as it likes, refuse them, or answer the same read twice in
two ways, and whoever accepts owners may do the same. Even so a search goes through
the forest in one direction only. What it puts forward is taken from the owners
that the forest lists, in that order and none of them twice, and what it finds is
what it put forward last (`run_offered`).

`State.owners` is what a search has still before it. A turn that goes on takes what
it puts forward from the front, and may leave some out (`Turn.owners_go`).
-/

namespace InstructionSet

variable {α σ : Type}

/-- The owners in a forest, as the forest lists them. -/
def Forest.Branches.owners (b : Forest.Branches α) : List α := b.terminals.map Prod.snd

theorem Forest.Branches.owners_node (index : Nat) (test : Test) (owner : Option α)
    (below next : Forest.Branches α) :
    (Forest.Branches.node index test owner below next).owners
      = owner.toList ++ below.owners ++ next.owners := by
  unfold owners
  rw [terminals, List.map_append, List.map_append, List.map_map, List.map_map]
  congr 2
  exact List.map_id _

namespace Search

/-- The owners of all that is left to be searched. -/
def State.owners (state : State α σ) : List α :=
  (state.current :: state.path).flatMap Forest.Branches.owners

theorem State.owners_node {index : Nat} {test : Test} {owner : Option α}
    {below next : Forest.Branches α} {path : List (Forest.Branches α)} {held : Held}
    {session : Session σ} :
    State.owners ⟨.node index test owner below next, path, held, session⟩
      = owner.toList ++ (below :: next :: path).flatMap Forest.Branches.owners := by
  simp only [State.owners, List.flatMap_cons, Forest.Branches.owners_node, List.append_assoc]

variable {s : Search α σ}

/-- Only what a node owns is put forward. -/
theorem offered_of_offer {owner : Option α} {session last : Session σ} {accepted : Bool}
    {offers : List (Move α)} (h : s.offer owner session = (accepted, last, offers)) :
    offered offers = owner.toList ∧ (accepted = true → owner.isSome = true) := by
  rcases offer_cases h with ⟨rfl, rfl, -, rfl⟩ | ⟨a, rfl, -, rfl⟩
  · exact ⟨rfl, by simp⟩
  · exact ⟨rfl, fun _ => rfl⟩

/-- **A turn that goes on takes from the front.** -/
theorem Turn.owners_go {state state' : State α σ} {moves : List (Move α)}
    (h : s.Turn state moves (.go state')) :
    (offered moves ++ state'.owners).Sublist state.owners := by
  cases h with
  | up => exact List.Sublist.refl _
  | missed look value =>
    rw [State.owners_node, offered_test, offered_nil, List.nil_append, List.flatMap_cons]
    -- the node's own owner and all below it are passed over
    exact (List.sublist_append_right _ _).trans (List.sublist_append_right _ _)
  | refused look value offer =>
    rw [State.owners_node, offered_test, (offered_of_offer offer).1]
    exact List.Sublist.refl _
  | down look value offer deeper =>
    rw [State.owners_node, List.cons_append, offered_test, offered_append, offered_descend,
      offered_nil, List.append_nil, (offered_of_offer offer).1]
    exact List.Sublist.refl _

/-- The last turn puts forward what is found, and nothing else. -/
theorem Turn.owners_stop {state : State α σ} {found : Option α} {last : Session σ}
    {moves : List (Move α)} (h : s.Turn state moves (.stop found last)) :
    offered moves = found.toList ∧ found.toList.Sublist state.owners := by
  cases h with
  | ended => exact ⟨rfl, List.nil_sublist _⟩
  | accepted look value offer =>
    rw [State.owners_node, offered_test]
    exact ⟨(offered_of_offer offer).1, List.sublist_append_left _ _⟩

/-- **Every run takes what it puts forward from what it has before it**, and finds the last of it, if
anything. -/
theorem loop_offered (state : State α σ) :
    (offered (s.loop state).moves).Sublist state.owners
      ∧ (s.loop state).found.toList <:+ offered (s.loop state).moves := by
  induction state using s.turn_induction with
  | stop state moves found session h =>
    obtain ⟨ho, hs⟩ := h.owners_stop
    rw [h.loop_stop, ho]
    exact ⟨hs, List.suffix_refl _⟩
  | go state moves state' h ih =>
    obtain ⟨hs, hf⟩ := ih
    rw [h.loop_go, Outcome.after, offered_append]
    exact ⟨(hs.append_left _).trans h.owners_go, hf.trans (List.suffix_append _ _)⟩

theorem run_offered (s : Search α σ) (f : Forest α) (session : Session σ) :
    (offered (s.run f session).moves).Sublist (f.terminals.map Prod.snd)
      ∧ (s.run f session).found.toList <:+ offered (s.run f session).moves := by
  have h := s.loop_offered ⟨f.branches, [], none, session⟩
  rw [State.owners, List.flatMap_singleton] at h
  exact h

/-- What is found is an owner of the forest. -/
theorem mem_terminals_of_found {f : Forest α} {session : Session σ} {a : α}
    (h : (s.run f session).found = some a) : ∃ path, (path, a) ∈ f.terminals := by
  obtain ⟨hs, hf⟩ := s.run_offered f session
  rw [h] at hf
  obtain ⟨⟨path, a'⟩, hm, rfl⟩ :=
    List.mem_map.mp (hs.subset (hf.subset (Option.mem_toList.mpr rfl)))
  exact ⟨path, hm⟩

end Search

end InstructionSet
