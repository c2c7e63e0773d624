import InstructionSet.Proofs.Forest.Linked

/-!
# A list of linked nodes as a map from chains to owners

`Forest.nodes` is what a host sees of a forest: nodes in the order of their
numbers, linked by number. Which links such a list has depends on the order in
which chains came, and on nothing that a host could look up. `Refines` says what
the list is good for all the same, and `after_refines` that every run of calls
from the empty forest ends in a list that is good for it, the one that comes of
appending nodes and setting links in place. The list only ever grows: a number,
once handed out, names the same test for good.
-/

namespace InstructionSet.Forest

variable {α : Type}

/--
**The linked nodes of the forest are the map that the chains `made` describe.**

The first four properties say that the links make a tree of the nodes, the next
two that no level and no branch of it is idle, and the others what it holds.
-/
structure Refines (f : Forest α) (made : List (Call α)) : Prop where
  /-- A node stands in the place of its number. -/
  index_eq : ∀ (k : Nat) (n : Node α), f.nodes[k]? = some n → n.index = k
  /-- The first node is the root. -/
  root?_eq : f.root? = if f.nodes = [] then none else some 0
  /-- Links lead forward, to nodes that are there. -/
  link_lt : ∀ n ∈ f.nodes, ∀ turn k, n.link turn = some k → n.index < k ∧ k < f.nodes.length
  /-- Each node is reached in one way, and in no other. -/
  one_route : ∀ n ∈ f.nodes, ∃! turns, ∃ path, f.route? turns = some (path, n)
  /-- What comes later in the level of a node tests something else. -/
  siblings_differ : ∀ n ∈ f.nodes, ∀ k path m,
    follow? f.nodes n.sibling (List.replicate k .across) = some (path, m) → m.test ≠ n.test
  /-- A node below which there is nothing has an owner. -/
  leaf_owned : ∀ n ∈ f.nodes, n.child = none → n.owner.isSome
  /-- There are as many nodes as beginnings of chains. -/
  length_eq : f.nodes.length = (introduced made).length
  /-- The tests on the way to nodes are the beginnings of chains. -/
  path_iff : ∀ path, (∃ turns n, f.route? turns = some (path, n))
    ↔ path ≠ [] ∧ ∃ c ∈ made, path <+: c.chain
  /-- Nodes are numbered in the order in which what they stand for was introduced. -/
  path_index : ∀ turns path n, f.route? turns = some (path, n) →
    (introduced made).idxOf? path = some n.index
  /-- A level is in the order of introduction. -/
  sibling_order : ∀ r s p q n m, f.route? r = some (p, n) → f.route? s = some (q, m) →
    n.sibling = some m.index → (introduced made).idxOf p < (introduced made).idxOf q
  /-- The owner of a node is the one who entered its chain last. -/
  path_owner : ∀ turns path n, f.route? turns = some (path, n) → n.owner = lastOwner made path
  /-- No way to a node is longer than the depth. -/
  path_length_le : ∀ turns path n, f.route? turns = some (path, n) → path.length ≤ f.maxDepth
  /-- Some way is that long. -/
  path_length_eq : f.maxDepth ≠ 0 →
    ∃ turns path n, f.route? turns = some (path, n) ∧ path.length = f.maxDepth

/-- **Numbers are for good:** in `g` a number of `f` has the test that it had, and the links that
were set. -/
structure Keeps (f g : Forest α) : Prop where
  root? : ∀ k, f.root? = some k → g.root? = some k
  node : ∀ (k : Nat) (n : Node α), f.nodes[k]? = some n → ∃ m : Node α, g.nodes[k]? = some m
    ∧ m.index = n.index ∧ m.test = n.test
    ∧ ∀ turn j, n.link turn = some j → m.link turn = some j

/-! ## The depth -/

theorem length_le_longest {made : List (Call α)} {c : Call α} (h : c ∈ made) :
    c.chain.length ≤ longest made := by
  induction made using List.reverseRecOn with
  | nil => exact absurd h (by simp)
  | append_singleton made d ih =>
    rw [longest_concat]
    rcases List.mem_append.mp h with h | h
    · exact Nat.le_trans (ih h) (Nat.le_max_left ..)
    · rw [List.mem_singleton.mp h]
      exact Nat.le_max_right ..

theorem exists_length_eq_longest {made : List (Call α)} (h : longest made ≠ 0) :
    ∃ c ∈ made, c.chain.length = longest made := by
  induction made using List.reverseRecOn with
  | nil => exact absurd rfl h
  | append_singleton made d ih =>
    rw [longest_concat] at h ⊢
    rcases Nat.le_total (longest made) d.chain.length with hle | hle
    · exact ⟨d, by simp, (Nat.max_eq_right hle).symm⟩
    · rw [Nat.max_eq_left hle] at h ⊢
      obtain ⟨c, hc, hlen⟩ := ih h
      exact ⟨c, List.mem_append_left _ hc, hlen⟩

/-! ## From the map to the list -/

section Represented

variable {f : Forest α} {made : List (Call α)}

theorem Represents.root?_eq (h : f.Represents made) :
    f.root? = if f.nodes = [] then none else some 0 := by
  have hmem : ∀ {n}, n ∈ f.nodes ↔ n ∈ f.branches.preorder := mem_nodes
  have hnum := h.numbered
  have hasc := h.ascending
  unfold root?
  cases hb : f.branches with
  | nil =>
    have : f.nodes = [] := by
      rw [List.eq_nil_iff_forall_not_mem]
      intro n hn
      rw [hmem, hb] at hn
      exact absurd hn (by simp [Branches.preorder])
    rw [if_pos this]
    rfl
  | node i t o below next =>
    rw [hb] at hmem hnum hasc
    have hne : f.nodes ≠ [] :=
      List.ne_nil_of_mem (hmem.mpr (List.mem_cons_self ..))
    rw [if_neg hne, Branches.head?]
    -- the number 0 is somewhere, and it cannot be behind a greater one
    have h0 : 0 ∈ (Branches.node i t o below next).indices :=
      hnum.mem_iff.mpr (List.mem_range.mpr (by rw [Branches.size]; omega))
    rw [Branches.indices, List.mem_cons] at h0
    rcases h0 with h0 | h0
    · rw [← h0]
    · exact absurd (hasc.1 0 h0) (Nat.not_lt_zero i)

theorem Represents.one_route (h : f.Represents made) {n : Node α} (hn : n ∈ f.nodes) :
    ∃! turns, ∃ path, f.route? turns = some (path, n) := by
  obtain ⟨turns, path, hf⟩ := Branches.exists_follow?_of_mem (mem_nodes.mp hn)
  refine ⟨turns, ⟨path, by rw [route?_eq h.numbered, hf]⟩, ?_⟩
  intro turns' hex
  obtain ⟨path', hf'⟩ := hex
  rw [route?_eq h.numbered] at hf'
  exact Branches.follow?_injective h.numbered.nodup hf' hf

theorem Represents.path_index (h : f.Represents made) {turns : List Turn} {path : List Test}
    {n : Node α} (hr : f.route? turns = some (path, n)) :
    (introduced made).idxOf? path = some n.index := by
  rw [route?_eq h.numbered] at hr
  rw [← h.number?_eq, Branches.number?, Branches.at?_of_follow? h.distinct hr]
  rfl

theorem Represents.path_owner (h : f.Represents made) {turns : List Turn} {path : List Test}
    {n : Node α} (hr : f.route? turns = some (path, n)) : n.owner = lastOwner made path := by
  rw [route?_eq h.numbered] at hr
  rw [← h.owner?_eq, Branches.owner?, Branches.at?_of_follow? h.distinct hr]
  rfl

theorem Represents.path_iff (h : f.Represents made) (path : List Test) :
    (∃ turns n, f.route? turns = some (path, n)) ↔ path ≠ [] ∧ ∃ c ∈ made, path <+: c.chain := by
  rw [← mem_introduced]
  constructor
  · intro hex
    obtain ⟨turns, n, hr⟩ := hex
    rw [← List.isSome_idxOf?, h.path_index hr]
    rfl
  · intro hp
    obtain ⟨k, hk⟩ := Option.isSome_iff_exists.mp (List.isSome_idxOf?.mpr hp)
    rw [← h.number?_eq, Branches.number?, Option.map_eq_some_iff] at hk
    obtain ⟨⟨k', o⟩, hat, -⟩ := hk
    obtain ⟨turns, n, hf, -⟩ := Branches.exists_follow?_of_at? hat
    exact ⟨turns, n, by rw [route?_eq h.numbered, hf]⟩

theorem Represents.length_le (h : f.Represents made) {turns : List Turn} {path : List Test}
    {n : Node α} (hr : f.route? turns = some (path, n)) : path.length ≤ f.maxDepth := by
  obtain ⟨-, c, hc, hp⟩ := (h.path_iff path).mp ⟨turns, n, hr⟩
  rw [h.maxDepth_eq]
  exact Nat.le_trans hp.length_le (length_le_longest hc)

theorem Represents.exists_length_eq (h : f.Represents made) (hne : f.maxDepth ≠ 0) :
    ∃ turns path n, f.route? turns = some (path, n) ∧ path.length = f.maxDepth := by
  rw [h.maxDepth_eq] at hne ⊢
  obtain ⟨c, hc, hlen⟩ := exists_length_eq_longest hne
  obtain ⟨turns, n, hr⟩ := (h.path_iff c.chain).mpr
    ⟨h.chain_ne_nil c hc, c, hc, List.prefix_refl _⟩
  exact ⟨turns, c.chain, n, hr, hlen⟩

theorem idxOf_of_idxOf? {l : List (List Test)} {p : List Test} {k : Nat}
    (h : l.idxOf? p = some k) : l.idxOf p = k := by
  rw [List.idxOf_eq_getD_idxOf?, h]
  rfl

theorem Represents.refines (h : f.Represents made) : f.Refines made where
  index_eq := fun _ _ => index_of_getElem? h.numbered
  root?_eq := h.root?_eq
  link_lt := by
    intro n hn turn k hk
    obtain ⟨hlt, hmem⟩ := Branches.lt_of_link h.ascending (mem_nodes.mp hn) hk
    rw [length_nodes]
    exact ⟨hlt, h.numbered.lt hmem⟩
  one_route := fun _ => h.one_route
  siblings_differ := by
    intro n hn k path m hf
    exact test_ne_of_across h.distinct
      (fun _ hx => getElem?_of_mem_nodes h.numbered (mem_nodes.mpr hx)) (mem_nodes.mp hn) hf
  leaf_owned := fun _ hn => Branches.owner_of_child_none h.owned (mem_nodes.mp hn)
  length_eq := by rw [length_nodes, h.size_eq]
  path_iff := h.path_iff
  path_index := fun _ _ _ => h.path_index
  sibling_order := by
    intro r s p q n m hr hs hlink
    rw [idxOf_of_idxOf? (h.path_index hr), idxOf_of_idxOf? (h.path_index hs)]
    rw [route?_eq h.numbered] at hr
    have hl : n.link .across = some m.index := hlink
    exact (Branches.lt_of_link h.ascending (Branches.mem_of_follow? hr) hl).1
  path_owner := fun _ _ _ => h.path_owner
  path_length_le := fun _ _ _ => h.length_le
  path_length_eq := h.exists_length_eq

/-- Another call keeps all numbers, whether or not it is refused. -/
theorem Represents.keeps_call (h : f.Represents made) (c : Call α) : f.Keeps (f.call c).2 := by
  cases hc : (f.call c).1 with
  | error r =>
    rw [call_of_error hc]
    exact ⟨fun _ hk => hk, fun _ n hn => ⟨n, hn, rfl, rfl, fun _ _ hl => hl⟩⟩
  | ok r =>
    obtain ⟨-, hf⟩ := call_of_ok hc
    have hnum := (represents_call h hc).numbered
    refine ⟨?_, ?_⟩
    · intro k hk
      rw [hf]
      exact Branches.head?_insert c.chain hk
    · intro k n hn
      obtain ⟨m, hm, hi, ht, hl⟩ := Branches.preorder_insert c.owner c.replace f.size c.chain
        (mem_nodes.mp (List.mem_of_getElem? hn))
      have hm' : m ∈ (f.call c).2.nodes := by rw [mem_nodes, hf]; exact hm
      -- the node has kept its number, and with it its place in the list
      have hk : m.index = k := hi.trans (index_of_getElem? h.numbered hn)
      exact ⟨m, by rw [← hk]; exact getElem?_of_mem_nodes hnum hm', hi, ht, hl⟩

end Represented

/--
**Every run of calls from the empty forest.** Made in place, the calls end in the
linked nodes of the forest, and these are the map that the accepted chains
describe. Whatever is called next is answered alike in place, and keeps the
numbers.
-/
theorem after_refines (calls : List (Call α)) :
    Linked.after {} calls = some (after {} calls).linked
      ∧ (after {} calls).Refines (accepted {} calls)
      ∧ ∀ c : Call α,
        (after {} calls).linked.call c
            = some (((after {} calls).call c).1, ((after {} calls).call c).2.linked)
          ∧ (after {} calls).Keeps ((after {} calls).call c).2 := by
  have h : (after {} calls).Represents (accepted {} calls) :=
    represents_after represents_empty calls
  refine ⟨?_, h.refines, fun c => ⟨call_linked h c, h.keeps_call c⟩⟩
  rw [← linked_empty]
  exact after_linked represents_empty calls

end InstructionSet.Forest
