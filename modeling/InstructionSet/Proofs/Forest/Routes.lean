import InstructionSet.Proofs.Forest.Numbering

/-!
# Getting about in a forest by number

`Forest.nodes` lists the nodes by number, each with the numbers of its first
child and its next sibling. Whoever holds such a list gets from node to node
along these links, and `follow?` says where a sequence of turns leads: to a node,
with the tests that it stands for. The links of a forest whose nodes are numbered
as they should be lead everywhere, to every node in one way only.

`Branches.follow?` is the same for the nodes themselves, and `route?_eq` says that
the list of nodes does not lose the way.
-/

namespace InstructionSet.Forest

variable {α : Type}

/-- Which of a node's links to follow. -/
inductive Turn where
  /-- To the first test of the level below. -/
  | down
  /-- To the next test of the same level. -/
  | across
deriving DecidableEq

/-- The number at the end of a link. -/
def Node.link (n : Node α) : Turn → Option Nat
  | .down => n.child
  | .across => n.sibling

/-- The node that turns lead to from the node numbered `start`, with the tests that lead there:
those of the nodes left downwards, and the node's own. -/
def follow? (nodes : List (Node α)) : Option Nat → List Turn → Option (List Test × Node α)
  | start, [] => (start.bind (nodes[·]?)).map fun n => ([n.test], n)
  | start, .across :: rest => (start.bind (nodes[·]?)).bind fun n => follow? nodes n.sibling rest
  | start, .down :: rest =>
    (start.bind (nodes[·]?)).bind fun n =>
      (follow? nodes n.child rest).map fun x => (n.test :: x.1, x.2)

/-- The node that turns lead to from the first node of a forest. -/
def route? (f : Forest α) (turns : List Turn) : Option (List Test × Node α) :=
  follow? f.nodes f.root? turns

namespace Branches

/-- The first node of a level as the list of nodes has it. -/
def listed (index : Nat) (test : Test) (owner : Option α) (below next : Branches α) : Node α :=
  { index, test, owner, child := below.head?, sibling := next.head? }

section Listed

variable (i : Nat) (t : Test) (o : Option α) (below next : Branches α)

@[simp] theorem listed_index : (listed i t o below next).index = i := rfl

@[simp] theorem listed_test : (listed i t o below next).test = t := rfl

@[simp] theorem listed_child : (listed i t o below next).child = below.head? := rfl

@[simp] theorem listed_sibling : (listed i t o below next).sibling = next.head? := rfl

end Listed

/-- The nodes, each before what is below it and that before its alternatives. -/
def preorder : Branches α → List (Node α)
  | nil => []
  | node index test owner below next =>
    listed index test owner below next :: (below.preorder ++ next.preorder)

/-- Where turns lead from the first alternative on. -/
def follow? : Branches α → List Turn → Option (List Test × Node α)
  | nil, _ => none
  | node index test owner below next, [] =>
    some ([test], listed index test owner below next)
  | node _ _ _ _ next, .across :: rest => next.follow? rest
  | node _ test _ below _, .down :: rest =>
    (below.follow? rest).map fun x => (test :: x.1, x.2)

theorem map_snd_outline (b : Branches α) (level : Nat) :
    (b.outline level).map Prod.snd = b.preorder := by
  induction b generalizing level with
  | nil => rfl
  | node i t o below next ihb ihn =>
    rw [outline, preorder, List.map_cons, List.map_append, ihb, ihn]
    rfl

theorem map_index_preorder (b : Branches α) : b.preorder.map Node.index = b.indices := by
  induction b with
  | nil => rfl
  | node i t o below next ihb ihn =>
    rw [preorder, indices, List.map_cons, List.map_append, ihb, ihn]
    rfl

theorem index_mem_indices {b : Branches α} {n : Node α} (h : n ∈ b.preorder) :
    n.index ∈ b.indices := by
  rw [← map_index_preorder]
  exact List.mem_map_of_mem h

/-! ## Every node has one route -/

theorem exists_follow?_of_mem {b : Branches α} {n : Node α} (h : n ∈ b.preorder) :
    ∃ turns path, b.follow? turns = some (path, n) := by
  induction b with
  | nil => exact absurd h (by simp [preorder])
  | node i t o below next ihb ihn =>
    rw [preorder, List.mem_cons, List.mem_append] at h
    rcases h with rfl | h | h
    · exact ⟨[], [t], rfl⟩
    · obtain ⟨turns, path, hf⟩ := ihb h
      exact ⟨.down :: turns, t :: path, by rw [follow?, hf]; rfl⟩
    · obtain ⟨turns, path, hf⟩ := ihn h
      exact ⟨.across :: turns, path, hf⟩

/-- The first turn decides in which of its three parts a level is left. -/
theorem follow?_cases {i : Nat} {t : Test} {o : Option α} {below next : Branches α}
    {turns : List Turn} {path : List Test} {n : Node α}
    (h : (node i t o below next).follow? turns = some (path, n)) :
    (turns = [] ∧ path = [t] ∧ n = listed i t o below next)
      ∨ (∃ rest q, turns = .down :: rest ∧ path = t :: q ∧ below.follow? rest = some (q, n))
      ∨ ∃ rest, turns = .across :: rest ∧ next.follow? rest = some (path, n) := by
  cases turns with
  | nil =>
    rw [follow?, Option.some.injEq, Prod.mk.injEq] at h
    exact Or.inl ⟨rfl, h.1.symm, h.2.symm⟩
  | cons turn rest =>
    cases turn with
    | down =>
      rw [follow?, Option.map_eq_some_iff] at h
      obtain ⟨⟨q, m⟩, hf, he⟩ := h
      obtain ⟨rfl, rfl⟩ := Prod.mk.inj he
      exact Or.inr (Or.inl ⟨rest, q, rfl, rfl, hf⟩)
    | across => exact Or.inr (Or.inr ⟨rest, rfl, h⟩)

theorem mem_of_follow? {b : Branches α} {turns : List Turn} {path : List Test} {n : Node α}
    (h : b.follow? turns = some (path, n)) : n ∈ b.preorder := by
  induction b generalizing turns path with
  | nil => exact absurd h (by simp [follow?])
  | node i t o below next ihb ihn =>
    rw [preorder, List.mem_cons, List.mem_append]
    rcases follow?_cases h with ⟨-, -, he⟩ | ⟨_, _, -, -, hf⟩ | ⟨_, -, hf⟩
    · exact Or.inl he
    · exact Or.inr (Or.inl (ihb hf))
    · exact Or.inr (Or.inr (ihn hf))

/-- **No node is reached twice**, since no number is used twice. -/
theorem follow?_injective {b : Branches α} (hnd : b.indices.Nodup) {r₁ r₂ : List Turn}
    {p₁ p₂ : List Test} {n : Node α} (h₁ : b.follow? r₁ = some (p₁, n))
    (h₂ : b.follow? r₂ = some (p₂, n)) : r₁ = r₂ := by
  induction b generalizing r₁ r₂ p₁ p₂ with
  | nil => exact absurd h₁ (by simp [follow?])
  | node i t o below next ihb ihn =>
    rw [indices, List.nodup_cons, List.mem_append, List.nodup_append] at hnd
    obtain ⟨hi, hb, hn, hdisj⟩ := hnd
    have here : n = listed i t o below next → n.index = i := fun h => by rw [h, listed_index]
    have inb : ∀ {r p}, below.follow? r = some (p, n) → n.index ∈ below.indices :=
      fun h => index_mem_indices (mem_of_follow? h)
    have inn : ∀ {r p}, next.follow? r = some (p, n) → n.index ∈ next.indices :=
      fun h => index_mem_indices (mem_of_follow? h)
    -- two routes that part here would find the node's number in two of the three parts
    rcases follow?_cases h₁ with ⟨rfl, -, he₁⟩ | ⟨r₁', _, rfl, -, hf₁⟩ | ⟨r₁', rfl, hf₁⟩ <;>
      rcases follow?_cases h₂ with ⟨rfl, -, he₂⟩ | ⟨r₂', _, rfl, -, hf₂⟩ | ⟨r₂', rfl, hf₂⟩
    · rfl
    · exact absurd (Or.inl (here he₁ ▸ inb hf₂)) hi
    · exact absurd (Or.inr (here he₁ ▸ inn hf₂)) hi
    · exact absurd (Or.inl (here he₂ ▸ inb hf₁)) hi
    · rw [ihb hb hf₁ hf₂]
    · exact absurd rfl (hdisj _ (inb hf₁) _ (inn hf₂))
    · exact absurd (Or.inr (here he₂ ▸ inn hf₁)) hi
    · exact absurd rfl (hdisj _ (inb hf₂) _ (inn hf₁))
    · rw [ihn hn hf₁ hf₂]

/-! ## Routes and the map -/

/-- What begins with a test that leads somewhere begins in this level. -/
theorem number?_head {b : Branches α} {u : Test} {q : List Test} {k : Nat}
    (h : b.number? (u :: q) = some k) : b.number? [u] ≠ none := by
  induction b with
  | nil => exact absurd h (by simp)
  | node i t o below next _ ihn =>
    rw [number?_cons] at h ⊢
    by_cases ht : t = u
    · simp [ht]
    · rw [if_neg ht] at h ⊢
      exact ihn h

theorem follow?_ne_nil {b : Branches α} {turns : List Turn} {path : List Test} {n : Node α}
    (h : b.follow? turns = some (path, n)) : path ≠ [] := by
  induction b generalizing turns path with
  | nil => exact absurd h (by simp [follow?])
  | node i t o below next ihb ihn =>
    rcases follow?_cases h with ⟨-, rfl, -⟩ | ⟨_, q, -, rfl, -⟩ | ⟨_, -, hf⟩
    · simp
    · simp
    · exact ihn hf

/-- Without a turn down, a route stands for the test of its last node alone. -/
theorem path_of_across {b : Branches α} {k : Nat} {path : List Test} {n : Node α}
    (h : b.follow? (List.replicate k .across) = some (path, n)) : path = [n.test] := by
  induction b generalizing k with
  | nil => exact absurd h (by simp [follow?])
  | node i t o below next ihb ihn =>
    cases k with
    | zero =>
      rw [List.replicate_zero, follow?, Option.some.injEq, Prod.mk.injEq] at h
      rw [← h.1, ← h.2, listed_test]
    | succ k => exact ihn h

/-- The map has every node under the tests that lead to it. -/
theorem at?_of_follow? {b : Branches α} (hd : b.Distinct) {turns : List Turn} {path : List Test}
    {n : Node α} (h : b.follow? turns = some (path, n)) :
    b.at? path = some (n.index, n.owner) := by
  induction b generalizing turns path with
  | nil => exact absurd h (by simp [follow?])
  | node i t o below next ihb ihn =>
    obtain ⟨ht, hb, hn⟩ := hd
    rcases follow?_cases h with ⟨-, rfl, rfl⟩ | ⟨_, q, -, rfl, hf⟩ | ⟨_, -, hf⟩
    · exact at?_here ..
    · rw [at?_below_of_ne_nil _ _ _ _ _ (follow?_ne_nil hf)]
      exact ihb hb hf
    · have hat := ihn hn hf
      cases path with
      | nil => exact absurd rfl (follow?_ne_nil hf)
      | cons u q =>
        -- no alternative has this test, and so none of their paths begins with it
        have hne : t ≠ u := by
          intro he
          subst he
          exact number?_head (k := n.index) (by rw [number?, hat]; rfl) ht
        rw [at?_next hne]
        exact hat

/-- The map has nothing that no turns lead to. -/
theorem exists_follow?_of_at? {b : Branches α} {path : List Test} {k : Nat} {o : Option α}
    (h : b.at? path = some (k, o)) :
    ∃ turns n, b.follow? turns = some (path, n) ∧ n.index = k := by
  induction b generalizing path with
  | nil => exact absurd h (by simp)
  | node i t o' below next ihb ihn =>
    cases path with
    | nil => exact absurd h (by simp)
    | cons u q =>
      rw [at?_cons] at h
      by_cases ht : t = u
      · subst ht
        rw [if_pos rfl] at h
        by_cases hq : q = []
        · subst hq
          rw [if_pos rfl, Option.some.injEq, Prod.mk.injEq] at h
          exact ⟨[], _, rfl, h.1⟩
        · rw [if_neg hq] at h
          obtain ⟨turns, n, hf, hk⟩ := ihb h
          exact ⟨.down :: turns, n, by rw [follow?, hf]; rfl, hk⟩
      · rw [if_neg ht] at h
        obtain ⟨turns, n, hf, hk⟩ := ihn h
        exact ⟨.across :: turns, n, hf, hk⟩

/-! ## The links of a node -/

theorem lt_of_link {b : Branches α} (ha : b.Ascending) {n : Node α} (hn : n ∈ b.preorder)
    {turn : Turn} {k : Nat} (h : n.link turn = some k) : n.index < k ∧ k ∈ b.indices := by
  induction b with
  | nil => exact absurd hn (by simp [preorder])
  | node i t o below next ihb ihn =>
    obtain ⟨hi, hab, han⟩ := ha
    rw [preorder, List.mem_cons, List.mem_append] at hn
    rw [indices, List.mem_cons, List.mem_append]
    rcases hn with rfl | hn | hn
    · cases turn with
      | down =>
        have hk := mem_indices_of_head? h
        exact ⟨hi k (List.mem_append_left _ hk), Or.inr (Or.inl hk)⟩
      | across =>
        have hk := mem_indices_of_head? h
        exact ⟨hi k (List.mem_append_right _ hk), Or.inr (Or.inr hk)⟩
    · obtain ⟨hlt, hk⟩ := ihb hab hn
      exact ⟨hlt, Or.inr (Or.inl hk)⟩
    · obtain ⟨hlt, hk⟩ := ihn han hn
      exact ⟨hlt, Or.inr (Or.inr hk)⟩

theorem owner_of_child_none {b : Branches α} (ho : b.Owned) {n : Node α} (hn : n ∈ b.preorder)
    (h : n.child = none) : n.owner.isSome := by
  induction b with
  | nil => exact absurd hn (by simp [preorder])
  | node i t o below next ihb ihn =>
    rw [preorder, List.mem_cons, List.mem_append] at hn
    rcases hn with rfl | hn | hn
    · rw [listed_child] at h
      cases below with
      | nil => exact ho.1 rfl
      | node => exact absurd h (by simp [head?])
    · exact ihb ho.2.1 hn
    · exact ihn ho.2.2 hn

theorem head?_insert {a : α} {replace : Bool} {index : Nat} {b : Branches α} (chain : List Test)
    {k : Nat} (h : b.head? = some k) : (b.insert a replace index chain).2.head? = some k := by
  induction b, chain using chain_induction with
  | empty b => rw [insert_empty]; exact h
  | fresh u rest => exact absurd h (by simp [head?])
  | here i t o below next =>
    rw [insert_here]
    cases o <;> cases replace <;> exact h
  | below i t o below next f rest _ => rw [insert_below]; exact h
  | next i t o below next u rest hne _ => rw [insert_next hne]; exact h

/-- Insertion leaves a node its number, its test and every link that was set. -/
theorem preorder_insert (a : α) (replace : Bool) (index : Nat) {b : Branches α}
    (chain : List Test) {n : Node α} (hn : n ∈ b.preorder) :
    ∃ m ∈ (b.insert a replace index chain).2.preorder, m.index = n.index ∧ m.test = n.test
      ∧ ∀ turn k, n.link turn = some k → m.link turn = some k := by
  induction b, chain using chain_induction with
  | empty b => rw [insert_empty]; exact ⟨n, hn, rfl, rfl, fun _ _ h => h⟩
  | fresh u rest => exact absurd hn (by simp [preorder])
  | here i t o below next =>
    rw [insert_here]
    rw [preorder, List.mem_cons] at hn
    rcases hn with rfl | hn
    · cases o <;> cases replace <;>
        exact ⟨_, List.mem_cons_self .., rfl, rfl, fun turn _ h => by cases turn <;> exact h⟩
    · cases o <;> cases replace <;>
        exact ⟨n, List.mem_cons_of_mem _ hn, rfl, rfl, fun _ _ h => h⟩
  | below i t o below next f rest ih =>
    rw [insert_below]
    rw [preorder, List.mem_cons, List.mem_append] at hn
    rcases hn with rfl | hn | hn
    -- the level below may have been empty, but what it began with it still begins with
    · refine ⟨_, List.mem_cons_self .., rfl, rfl, ?_⟩
      intro turn k h
      cases turn with
      | down => exact head?_insert _ h
      | across => exact h
    · obtain ⟨m, hm, hrest⟩ := ih hn
      exact ⟨m, List.mem_cons_of_mem _ (List.mem_append_left _ hm), hrest⟩
    · exact ⟨n, List.mem_cons_of_mem _ (List.mem_append_right _ hn), rfl, rfl, fun _ _ h => h⟩
  | next i t o below next u rest hne ih =>
    rw [insert_next hne]
    rw [preorder, List.mem_cons, List.mem_append] at hn
    rcases hn with rfl | hn | hn
    · refine ⟨_, List.mem_cons_self .., rfl, rfl, ?_⟩
      intro turn k h
      cases turn with
      | down => exact h
      | across => exact head?_insert _ h
    · exact ⟨n, List.mem_cons_of_mem _ (List.mem_append_left _ hn), rfl, rfl, fun _ _ h => h⟩
    · obtain ⟨m, hm, hrest⟩ := ih hn
      exact ⟨m, List.mem_cons_of_mem _ (List.mem_append_right _ hm), hrest⟩

end Branches

/-! ## The list of nodes -/

theorem perm_nodes (f : Forest α) : f.nodes.Perm f.branches.preorder := by
  rw [nodes, Branches.map_snd_outline]
  exact List.mergeSort_perm _ _

theorem mem_nodes {f : Forest α} {n : Node α} : n ∈ f.nodes ↔ n ∈ f.branches.preorder :=
  f.perm_nodes.mem_iff

/-- **The place of a node in the list is its number.** -/
theorem map_index_nodes {f : Forest α} (h : f.branches.Numbered) :
    f.nodes.map Node.index = List.range f.size := by
  -- there is one list of the numbers in order
  have hsorted : (f.nodes.map Node.index).Pairwise (· ≤ ·) := by
    rw [List.pairwise_map]
    refine List.Pairwise.imp (fun h => by simpa using h) (List.pairwise_mergeSort ?_ ?_ _)
    · intro a b c
      simpa using Nat.le_trans
    · intro a b
      simpa using Nat.le_total a.index b.index
  have hperm : (f.nodes.map Node.index).Perm (List.range f.size) := by
    refine (f.perm_nodes.map Node.index).trans ?_
    rw [Branches.map_index_preorder]
    exact h
  exact hperm.eq_of_pairwise (fun a b _ _ => Nat.le_antisymm) hsorted List.pairwise_le_range

theorem index_of_getElem? {f : Forest α} (h : f.branches.Numbered) {k : Nat} {n : Node α}
    (hk : f.nodes[k]? = some n) : n.index = k := by
  have hm : (f.nodes.map Node.index)[k]? = some n.index := by rw [List.getElem?_map, hk]; rfl
  rw [map_index_nodes h, List.getElem?_eq_some_iff] at hm
  obtain ⟨_, hm⟩ := hm
  rw [List.getElem_range] at hm
  exact hm.symm

theorem getElem?_of_mem_nodes {f : Forest α} (h : f.branches.Numbered) {n : Node α}
    (hn : n ∈ f.nodes) : f.nodes[n.index]? = some n := by
  obtain ⟨k, hk⟩ := List.mem_iff_getElem?.mp hn
  rw [index_of_getElem? h hk]
  exact hk

/-- A list that has every node in the place of its number knows the way. -/
theorem follow?_head? {nodes : List (Node α)} {b : Branches α}
    (h : ∀ n ∈ b.preorder, nodes[n.index]? = some n) (turns : List Turn) :
    follow? nodes b.head? turns = b.follow? turns := by
  induction b generalizing turns with
  | nil => cases turns with
    | nil => rfl
    | cons turn rest => cases turn <;> rfl
  | node i t o below next ihb ihn =>
    have hhead : nodes[i]? = some (Branches.listed i t o below next) :=
      h _ (List.mem_cons_self ..)
    have hb : ∀ n ∈ below.preorder, nodes[n.index]? = some n := fun n hn =>
      h n (List.mem_cons_of_mem _ (List.mem_append_left _ hn))
    have hn : ∀ n ∈ next.preorder, nodes[n.index]? = some n := fun n hn =>
      h n (List.mem_cons_of_mem _ (List.mem_append_right _ hn))
    cases turns with
    | nil => rw [Branches.head?, follow?, Option.bind_some, hhead]; rfl
    | cons turn rest =>
      cases turn with
      | down =>
        rw [Branches.head?, follow?, Option.bind_some, hhead, Option.bind_some,
          Branches.listed_child, ihb hb]
        rfl
      | across =>
        rw [Branches.head?, follow?, Option.bind_some, hhead, Option.bind_some,
          Branches.listed_sibling, ihn hn]
        rfl

theorem route?_eq {f : Forest α} (h : f.branches.Numbered) (turns : List Turn) :
    f.route? turns = f.branches.follow? turns :=
  follow?_head? (fun _ hn => getElem?_of_mem_nodes h (mem_nodes.mpr hn)) turns

/-- What follows a node in its level tests something else. -/
theorem test_ne_of_across {nodes : List (Node α)} {b : Branches α} (hd : b.Distinct)
    (h : ∀ n ∈ b.preorder, nodes[n.index]? = some n) {n : Node α} (hn : n ∈ b.preorder)
    {k : Nat} {path : List Test} {m : Node α}
    (hf : follow? nodes n.sibling (List.replicate k .across) = some (path, m)) :
    m.test ≠ n.test := by
  induction b with
  | nil => exact absurd hn (by simp [Branches.preorder])
  | node i t o below next ihb ihn =>
    obtain ⟨ht, hdb, hdn⟩ := hd
    have hbelow : ∀ n ∈ below.preorder, nodes[n.index]? = some n := fun n hn =>
      h n (List.mem_cons_of_mem _ (List.mem_append_left _ hn))
    have hnext : ∀ n ∈ next.preorder, nodes[n.index]? = some n := fun n hn =>
      h n (List.mem_cons_of_mem _ (List.mem_append_right _ hn))
    rw [Branches.preorder, List.mem_cons, List.mem_append] at hn
    rcases hn with rfl | hn | hn
    -- a node further on with the same test would make that test one of the alternatives
    · rw [Branches.listed_sibling, follow?_head? hnext] at hf
      have hpath := Branches.path_of_across hf
      have hat := Branches.at?_of_follow? hdn hf
      rw [Branches.listed_test]
      intro he
      rw [hpath, he] at hat
      rw [Branches.number?, hat] at ht
      exact absurd ht (by simp)
    · exact ihb hdb hbelow hn
    · exact ihn hdn hnext hn

end InstructionSet.Forest
