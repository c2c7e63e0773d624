import InstructionSet.Proofs.Forest.Routes

/-!
# Forests that chains were entered into

A forest is made by entering chains one after the other, some of which are
refused. Nothing of it depends on how it was made except through the chains that
were accepted, and that in the simplest way: its nodes are the beginnings of
those chains, numbered in the order in which they first occurred, and a node is
owned by whoever entered its chain last.

`Represents` says so of the map, together with what the links need. A step keeps
it (`represents_call`), so every run has it (`represents_after`).
-/

namespace InstructionSet.Forest

variable {α : Type}

/-- A chain to be entered. -/
structure Call (α : Type) where
  owner : α
  chain : List Test
  /-- Whether to take the chain over from an owner that it has. -/
  replace : Bool

def call (f : Forest α) (c : Call α) : Except (Refusal α) (Placement α) × Forest α :=
  f.insert c.owner c.chain c.replace

/-- The forest after some chains were entered. -/
def after (f : Forest α) (calls : List (Call α)) : Forest α :=
  calls.foldl (fun f c => (f.call c).2) f

/-- The calls that are accepted when all are made one after the other. -/
def accepted (f : Forest α) : List (Call α) → List (Call α)
  | [] => []
  | c :: rest =>
    match (f.call c).1 with
    | .ok _ => c :: (f.call c).2.accepted rest
    | .error _ => (f.call c).2.accepted rest

/-- The beginnings of the chains `made`, each once, in the order of their first occurrence. -/
def introduced (made : List (Call α)) : List (List Test) :=
  (made.flatMap fun c => prefixes c.chain).eraseDups

/-- Who entered `chain` last. -/
def lastOwner (made : List (Call α)) (chain : List Test) : Option α :=
  (made.reverse.find? (·.chain = chain)).map Call.owner

def longest (made : List (Call α)) : Nat := made.foldl (fun n c => max n c.chain.length) 0

/-! ## One more chain -/

theorem eraseDups_of_nodup {l : List (List Test)} (h : l.Nodup) : l.eraseDups = l := by
  induction l with
  | nil => rfl
  | cons p rest ih =>
    obtain ⟨hp, hrest⟩ := List.nodup_cons.mp h
    have hf : rest.filter (fun q => !q == p) = rest := by
      rw [List.filter_eq_self]
      intro q hq
      have : q ≠ p := fun he => hp (he ▸ hq)
      simpa using this
    rw [List.eraseDups_cons, hf, ih hrest]

theorem mem_introduced {made : List (Call α)} {p : List Test} :
    p ∈ introduced made ↔ p ≠ [] ∧ ∃ c ∈ made, p <+: c.chain := by
  rw [introduced, List.mem_eraseDups, List.mem_flatMap]
  constructor
  · intro hex
    obtain ⟨c, hc, hp⟩ := hex
    exact ⟨(mem_prefixes.mp hp).1, c, hc, (mem_prefixes.mp hp).2⟩
  · intro hand
    obtain ⟨hne, c, hc, hp⟩ := hand
    exact ⟨c, hc, mem_prefixes.mpr ⟨hne, hp⟩⟩

theorem introduced_concat (made : List (Call α)) (c : Call α) :
    introduced (made ++ [c])
      = introduced made ++ (prefixes c.chain).filter fun p => p ∉ introduced made := by
  unfold introduced
  rw [List.flatMap_append, List.eraseDups_append, List.flatMap_singleton]
  congr 1
  rw [List.removeAll, eraseDups_of_nodup ((nodup_prefixes c.chain).filter _)]
  apply List.filter_congr
  intro p _
  simp only [List.elem_eq_mem, List.mem_eraseDups, decide_not]

theorem lastOwner_concat (made : List (Call α)) (c : Call α) (p : List Test) :
    lastOwner (made ++ [c]) p = if p = c.chain then some c.owner else lastOwner made p := by
  unfold lastOwner
  rw [List.reverse_concat, List.find?_cons]
  by_cases h : p = c.chain
  · simp [h]
  · simp [h, Ne.symm h]

theorem longest_concat (made : List (Call α)) (c : Call α) :
    longest (made ++ [c]) = max (longest made) c.chain.length := by
  rw [longest, List.foldl_append]
  rfl

/-! ## What a forest represents -/

/-- The forest is one into which the chains `made` were entered. -/
structure Represents (f : Forest α) (made : List (Call α)) : Prop where
  /-- Nodes are numbered as they come into being. -/
  numbered : f.branches.Numbered
  ascending : f.branches.Ascending
  /-- No level offers a test twice. -/
  distinct : f.branches.Distinct
  owned : f.branches.Owned
  /-- The nodes are the beginnings of the chains. -/
  number?_eq : ∀ p, f.branches.number? p = (introduced made).idxOf? p
  size_eq : f.size = (introduced made).length
  /-- A node belongs to whoever entered its chain last. -/
  owner?_eq : ∀ p, f.branches.owner? p = lastOwner made p
  maxDepth_eq : f.maxDepth = longest made
  /-- No chain was empty. -/
  chain_ne_nil : ∀ c ∈ made, c.chain ≠ []

theorem represents_empty : Represents ({} : Forest α) [] where
  numbered := Branches.numbered_nil
  ascending := trivial
  distinct := trivial
  owned := trivial
  number?_eq := fun _ => rfl
  size_eq := rfl
  owner?_eq := fun _ => rfl
  maxDepth_eq := rfl
  chain_ne_nil := by simp

/-- A refused call leaves the forest as it was. -/
theorem call_of_error {f : Forest α} {c : Call α} {r : Refusal α} (h : (f.call c).1 = .error r) :
    (f.call c).2 = f := by
  unfold call insert at h ⊢
  dsimp only at h ⊢
  split at h
  · rename_i hr
    dsimp only
    rw [Branches.insert_of_error _ _ hr]
  · exact absurd h (by simp)

theorem call_of_ok {f : Forest α} {c : Call α} {r : Placement α} (h : (f.call c).1 = .ok r) :
    (f.branches.insert c.owner c.replace f.size c.chain).1 = .ok r
      ∧ (f.call c).2 = {
          branches := (f.branches.insert c.owner c.replace f.size c.chain).2
          maxDepth := max f.maxDepth c.chain.length } := by
  unfold call insert at h ⊢
  dsimp only at h ⊢
  split at h
  · exact absurd h (by simp)
  · rename_i hr
    injection h with h
    subst h
    rw [hr]
    exact ⟨rfl, rfl⟩

theorem Represents.missing_eq {f : Forest α} {made : List (Call α)} (h : f.Represents made)
    (chain : List Test) :
    f.branches.missing chain = (prefixes chain).filter fun p => p ∉ introduced made := by
  unfold Branches.missing
  apply List.filter_congr
  intro p _
  have hp := h.number?_eq p
  rw [Branches.number?] at hp
  by_cases hm : p ∈ introduced made
  · obtain ⟨k, hk⟩ := Option.isSome_iff_exists.mp (List.isSome_idxOf?.mpr hm)
    rw [hk, Option.map_eq_some_iff] at hp
    obtain ⟨x, hx, -⟩ := hp
    simp [hx, hm]
  · rw [List.idxOf?_eq_none_iff.mpr hm, Option.map_eq_none_iff] at hp
    simp [hp, hm]

/-- **An accepted call adds its chain.** -/
theorem represents_call {f : Forest α} {made : List (Call α)} (h : f.Represents made)
    {c : Call α} {r : Placement α} (hc : (f.call c).1 = .ok r) :
    (f.call c).2.Represents (made ++ [c]) := by
  obtain ⟨hok, hf⟩ := call_of_ok hc
  have hlt : ∀ k ∈ f.branches.indices, k < f.size := fun k hk => h.numbered.lt hk
  rw [hf]
  refine ⟨Branches.numbered_insert h.numbered _, Branches.ascending_insert _ hlt h.ascending,
    Branches.distinct_insert _ h.distinct, Branches.owned_insert _ h.owned, ?_, ?_, ?_, ?_, ?_⟩
  · intro p
    rw [Branches.number?_insert, h.number?_eq, h.missing_eq, introduced_concat, h.size_eq]
    unfold List.idxOf?
    rw [List.findIdx?_append]
  · rw [size, Branches.size_insert, h.missing_eq, introduced_concat, List.length_append,
      ← h.size_eq]
    rfl
  · intro p
    rw [Branches.owner?_insert _ _ hok, h.owner?_eq, lastOwner_concat]
  · rw [longest_concat, h.maxDepth_eq]
  · intro d hd
    rcases List.mem_append.mp hd with hd | hd
    · exact h.chain_ne_nil d hd
    -- an empty chain would have been refused
    · rw [List.mem_singleton.mp hd]
      intro he
      rw [he, Branches.insert_empty] at hok
      exact absurd hok (by simp)

theorem after_append (f : Forest α) (calls later : List (Call α)) :
    f.after (calls ++ later) = (f.after calls).after later :=
  List.foldl_append ..

theorem accepted_append (f : Forest α) (calls later : List (Call α)) :
    f.accepted (calls ++ later) = f.accepted calls ++ (f.after calls).accepted later := by
  induction calls generalizing f with
  | nil => rfl
  | cons c rest ih =>
    rw [List.cons_append, accepted, accepted, after, List.foldl_cons]
    cases (f.call c).1 with
    | ok r => exact congrArg (List.cons c) (ih _)
    | error r => exact ih _

/-- **Every run.** -/
theorem represents_after {f : Forest α} {made : List (Call α)} (h : f.Represents made)
    (calls : List (Call α)) : (f.after calls).Represents (made ++ f.accepted calls) := by
  induction calls generalizing f made with
  | nil => rw [accepted, List.append_nil]; exact h
  | cons c rest ih =>
    rw [after, List.foldl_cons, accepted]
    cases hc : (f.call c).1 with
    | ok r =>
      have hrest := ih (represents_call h hc)
      rwa [List.append_assoc, List.singleton_append] at hrest
    | error r =>
      rw [call_of_error hc]
      exact ih h

end InstructionSet.Forest
