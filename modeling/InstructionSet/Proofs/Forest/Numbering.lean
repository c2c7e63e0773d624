import InstructionSet.Proofs.Forest.Chains

/-!
# How nodes are numbered

Nodes are numbered in the order in which they come into being, whatever place in
the forest they come into. Three properties of `Branches` follow from that and
from the way chains are entered, and each is kept by every insertion:

* the numbers are those below the number of nodes, each once,
* a node has a smaller number than its alternatives and whatever is below it,
* no level offers a test twice, and nothing ends without an owner.
-/

namespace InstructionSet.Forest.Branches

variable {α : Type} {a : α} {replace : Bool} {index : Nat}

/-- The numbers of all nodes, a node coming before what is below it and that before its
alternatives. -/
def indices : Branches α → List Nat
  | nil => []
  | node i _ _ below next => i :: (below.indices ++ next.indices)

theorem length_indices (b : Branches α) : b.indices.length = b.size := by
  induction b with
  | nil => rfl
  | node i t o below next ihb ihn =>
    rw [indices, size, List.length_cons, List.length_append, ihb, ihn]

theorem mem_indices_of_head? {b : Branches α} {k : Nat} (h : b.head? = some k) :
    k ∈ b.indices := by
  cases b with
  | nil => exact absurd h (by simp [head?])
  | node i t o below next =>
    rw [head?, Option.some.injEq] at h
    rw [indices, h]
    exact List.mem_cons_self ..

/-! ## Every number is used once -/

theorem indices_spine (a : α) (index : Nat) (u : Test) (rest : List Test) :
    (spine a index u rest).indices = List.range' index (rest.length + 1) := by
  induction rest generalizing index u with
  | nil => rfl
  | cons f rest ih =>
    rw [spine, indices, ih, indices, List.append_nil, List.length_cons, ← List.range'_succ]

/-- Insertion uses as many new numbers as it makes nodes, one after the other. -/
theorem indices_insert (b : Branches α) (chain : List Test) :
    (b.insert a replace index chain).2.indices.Perm
      (b.indices ++ List.range' index (b.missing chain).length) := by
  induction b, chain using chain_induction with
  | empty b => simp [missing]
  | fresh u rest =>
    rw [insert_fresh, missing_nil, indices_spine, length_prefixes, indices, List.nil_append,
      List.length_cons]
  | here i t o below next =>
    rw [insert_here, missing_below]
    cases o <;> cases replace <;> simp [occupy, indices, missing]
  | below i t o below next f rest ih =>
    rw [insert_below, missing_below, List.length_map, indices, indices, List.cons_append,
      List.append_assoc]
    -- the new numbers change places with those of the alternatives
    refine List.Perm.cons _ ((ih.append_right _).trans ?_)
    rw [List.append_assoc]
    exact List.perm_append_comm.append_left _
  | next i t o below next u rest hne ih =>
    rw [insert_next hne, missing_next hne, indices, indices, List.cons_append, List.append_assoc]
    exact List.Perm.cons _ (ih.append_left _)

theorem size_insert (b : Branches α) (chain : List Test) :
    (b.insert a replace index chain).2.size = b.size + (b.missing chain).length := by
  have h : (b.insert a replace index chain).2.indices.length = _ :=
    (indices_insert b chain).length_eq
  rwa [length_indices, List.length_append, length_indices, List.length_range'] at h

/-- The numbers are those below the number of nodes. -/
def Numbered (b : Branches α) : Prop := b.indices.Perm (List.range b.size)

theorem Numbered.lt {b : Branches α} (h : b.Numbered) {k : Nat} (hk : k ∈ b.indices) :
    k < b.size := List.mem_range.mp (h.mem_iff.mp hk)

theorem Numbered.nodup {b : Branches α} (h : b.Numbered) : b.indices.Nodup :=
  h.nodup_iff.mpr List.nodup_range

theorem numbered_nil : (nil : Branches α).Numbered := List.Perm.refl _

theorem numbered_insert {b : Branches α} (h : b.Numbered) (chain : List Test) :
    (b.insert a replace b.size chain).2.Numbered := by
  unfold Numbered
  rw [size_insert, List.range_add]
  refine (indices_insert b chain).trans (h.append ?_)
  rw [List.range'_eq_map_range]

/-! ## A node comes before what hangs on it -/

/-- A node has a smaller number than its alternatives and whatever is below it. -/
def Ascending : Branches α → Prop
  | nil => True
  | node i _ _ below next =>
    (∀ k ∈ below.indices ++ next.indices, i < k) ∧ below.Ascending ∧ next.Ascending

theorem ascending_spine (a : α) (index : Nat) (u : Test) (rest : List Test) :
    (spine a index u rest).Ascending := by
  induction rest generalizing index u with
  | nil => exact ⟨by simp [indices], trivial, trivial⟩
  | cons f rest ih =>
    refine ⟨?_, ih (index + 1) f, trivial⟩
    intro k hk
    rw [indices, List.append_nil, indices_spine, List.mem_range'_1] at hk
    omega

/-- What is in a level after insertion was there before, or is new. -/
theorem mem_indices_insert {b : Branches α} {chain : List Test} {k : Nat}
    (h : k ∈ (b.insert a replace index chain).2.indices) : k ∈ b.indices ∨ index ≤ k := by
  rcases List.mem_append.mp ((indices_insert b chain).mem_iff.mp h) with hk | hk
  · exact Or.inl hk
  · exact Or.inr (List.mem_range'_1.mp hk).1

theorem ascending_insert {b : Branches α} (chain : List Test) (hlt : ∀ k ∈ b.indices, k < index)
    (h : b.Ascending) : (b.insert a replace index chain).2.Ascending := by
  induction b, chain using chain_induction with
  | empty b => rw [insert_empty]; exact h
  | fresh u rest => rw [insert_fresh]; exact ascending_spine ..
  | here i t o below next =>
    rw [insert_here]
    cases o <;> cases replace <;> exact h
  | below i t o below next f rest ih =>
    rw [insert_below]
    obtain ⟨hi, hb, hn⟩ := h
    have hlt' : ∀ k ∈ below.indices, k < index := fun k hk =>
      hlt k (List.mem_cons_of_mem _ (List.mem_append_left _ hk))
    refine ⟨?_, ih hlt' hb, hn⟩
    -- new numbers are greater than all that there are, this node's included
    intro k hk
    rcases List.mem_append.mp hk with hk | hk
    · rcases mem_indices_insert hk with hk | hk
      · exact hi k (List.mem_append_left _ hk)
      · exact Nat.lt_of_lt_of_le (hlt i (List.mem_cons_self ..)) hk
    · exact hi k (List.mem_append_right _ hk)
  | next i t o below next u rest hne ih =>
    rw [insert_next hne]
    obtain ⟨hi, hb, hn⟩ := h
    have hlt' : ∀ k ∈ next.indices, k < index := fun k hk =>
      hlt k (List.mem_cons_of_mem _ (List.mem_append_right _ hk))
    refine ⟨?_, hb, ih hlt' hn⟩
    intro k hk
    rcases List.mem_append.mp hk with hk | hk
    · exact hi k (List.mem_append_left _ hk)
    · rcases mem_indices_insert hk with hk | hk
      · exact hi k (List.mem_append_right _ hk)
      · exact Nat.lt_of_lt_of_le (hlt i (List.mem_cons_self ..)) hk

/-! ## No level offers a test twice -/

/-- The tests of a level differ, here and everywhere below. -/
def Distinct : Branches α → Prop
  | nil => True
  | node _ t _ below next => next.number? [t] = none ∧ below.Distinct ∧ next.Distinct

theorem distinct_spine (a : α) (index : Nat) (u : Test) (rest : List Test) :
    (spine a index u rest).Distinct := by
  induction rest generalizing index u with
  | nil => exact ⟨rfl, trivial, trivial⟩
  | cons f rest ih => exact ⟨rfl, ih (index + 1) f, trivial⟩

theorem distinct_insert {b : Branches α} (chain : List Test) (h : b.Distinct) :
    (b.insert a replace index chain).2.Distinct := by
  induction b, chain using chain_induction with
  | empty b => rw [insert_empty]; exact h
  | fresh u rest => rw [insert_fresh]; exact distinct_spine ..
  | here i t o below next =>
    rw [insert_here]
    cases o <;> cases replace <;> exact h
  | below i t o below next f rest ih =>
    rw [insert_below]
    exact ⟨h.1, ih h.2.1, h.2.2⟩
  | next i t o below next u rest hne ih =>
    rw [insert_next hne]
    refine ⟨?_, h.2.1, ih h.2.2⟩
    -- the new chain begins with another test, so the level still lacks this one
    have hnot : (next.missing (u :: rest)).idxOf? [t] = none := by
      rw [List.idxOf?_eq_none_iff]
      intro hm
      exact hne (List.cons_prefix_cons.mp (mem_missing.mp hm).1.2).1
    rw [number?_insert, h.1, hnot]
    rfl

/-! ## Nothing ends without an owner -/

/-- A node below which there is nothing has an owner. -/
def Owned : Branches α → Prop
  | nil => True
  | node _ _ o below next => (below = nil → o.isSome) ∧ below.Owned ∧ next.Owned

theorem owned_spine (a : α) (index : Nat) (u : Test) (rest : List Test) :
    (spine a index u rest).Owned := by
  induction rest generalizing index u with
  | nil => exact ⟨fun _ => rfl, trivial, trivial⟩
  | cons f rest ih =>
    have hne : spine a (index + 1) f rest ≠ nil := by
      cases rest <;> simp [spine]
    refine ⟨?_, ih (index + 1) f, trivial⟩
    intro h
    exact absurd h hne

theorem insert_ne_nil (b : Branches α) (f : Test) (rest : List Test) :
    (b.insert a replace index (f :: rest)).2 ≠ nil := by
  cases b with
  | nil => rw [insert_fresh]; cases rest <;> simp [spine]
  | node i t o below next =>
    by_cases h : t = f
    · subst h
      cases rest with
      | nil => rw [insert_here]; cases o <;> cases replace <;> simp [occupy]
      | cons g rest => rw [insert_below]; simp
    · rw [insert_next h]; simp

theorem owned_insert {b : Branches α} (chain : List Test) (h : b.Owned) :
    (b.insert a replace index chain).2.Owned := by
  induction b, chain using chain_induction with
  | empty b => rw [insert_empty]; exact h
  | fresh u rest => rw [insert_fresh]; exact owned_spine ..
  | here i t o below next =>
    rw [insert_here]
    cases o <;> cases replace <;> exact ⟨fun _ => rfl, h.2⟩
  | below i t o below next f rest ih =>
    rw [insert_below]
    exact ⟨fun hn => absurd hn (insert_ne_nil below f rest), ih h.2.1, h.2.2⟩
  | next i t o below next u rest hne ih =>
    rw [insert_next hne]
    exact ⟨h.1, h.2.1, ih h.2.2⟩

end InstructionSet.Forest.Branches
