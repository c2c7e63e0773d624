import InstructionSet.Proofs.Forest.Placements
import InstructionSet.Proofs.Forest.Refinement

/-!
# What a call answers, and what a refusal leaves behind

A call walks down its chain, makes the nodes that are missing and gathers its answer
on the way. `call_report` says what that answer is in terms of the owners that were
there before: who has the chain, who has the shortest beginning of it, and who is the
first, in the order of a search, to go on from its end. Whether anybody goes on from
there at all can be told from the nodes, since nothing ends without an owner.

A refusal comes to light at the last node only, when nodes may have been made, and
nothing takes them back. `refusal_unchanged` says that none were: the last node had an
owner, so that the whole way to it was there. Hence a run leaves behind what its
accepted calls alone would have left.
-/

namespace InstructionSet.Forest

variable {α : Type}

/-! ## Owners by name -/

/-- `a` has the shortest chain that is a beginning of `chain`, and not all of it. -/
def InFront (f : Forest α) (chain : List Test) (a : α) : Prop :=
  ∃ path, (path, a) ∈ f.terminals ∧ path <+: chain ∧ path ≠ chain
    ∧ ∀ x ∈ f.terminals, x.1 <+: chain → x.1 ≠ chain → path.length ≤ x.1.length

/-- `a` has the first chain, in the order of a search, that goes on from the end of `chain`. -/
def GoesOn (f : Forest α) (chain : List Test) (a : α) : Prop :=
  ∃ before path after, f.terminals = before ++ (path, a) :: after ∧ chain <+: path ∧ chain ≠ path
    ∧ ∀ x ∈ before, chain <+: x.1 → chain = x.1

/-- The placement of `chain` in `f` names everybody who is concerned, and nobody else. -/
structure Placement.Exact (p : Placement α) (f : Forest α) (chain : List Test) : Prop where
  replaced : ∀ a, p.replaced = some a ↔ (chain, a) ∈ f.terminals
  shadowedBy : ∀ a, p.shadowedBy = some a ↔ f.InFront chain a
  shadows : ∀ a, p.shadows = some a ↔ f.GoesOn chain a
  /-- Nobody is hidden only if no node is below the end of the chain. -/
  shadows_eq_none : p.shadows = none
    ↔ ∀ turns path n, f.route? turns = some (path, n) → chain <+: path → chain = path

namespace Branches

variable {b : Branches α}

theorem pairwise_prefixes (chain : List Test) : (prefixes chain).Pairwise (· <+: ·) := by
  induction chain with
  | nil => exact List.Pairwise.nil
  | cons t rest ih =>
    rw [prefixes_cons, List.pairwise_cons, List.pairwise_map]
    refine ⟨?_, ih.imp fun h => List.cons_prefix_cons.mpr ⟨rfl, h⟩⟩
    intro p hp
    obtain ⟨q, -, rfl⟩ := List.mem_map.mp hp
    exact List.cons_prefix_cons.mpr ⟨rfl, List.nil_prefix⟩

/-- Who is met first on the way has the shortest chain. -/
theorem shortest_of_front? {chain : List Test} {a : α} (h : b.front? chain = some a) :
    ∃ p, b.owner? p = some a ∧ p <+: chain ∧ p ≠ chain
      ∧ ∀ q e, b.owner? q = some e → q <+: chain → q ≠ chain → p.length ≤ q.length := by
  obtain ⟨before, p, after, hl, ho, hnone⟩ := List.findSome?_eq_some_iff.mp h
  have hp : p ∈ (prefixes chain).dropLast := by
    rw [hl]
    exact List.mem_append_right _ List.mem_cons_self
  obtain ⟨-, hpre, hne⟩ := mem_dropLast_prefixes.mp hp
  refine ⟨p, ho, hpre, hne, ?_⟩
  intro q e hq hqpre hqne
  have hqmem := mem_dropLast_prefixes.mpr ⟨ne_nil_of_owner? hq, hqpre, hqne⟩
  have hsorted := (pairwise_prefixes chain).sublist (List.dropLast_sublist _)
  rw [hl] at hqmem hsorted
  rcases List.mem_append.mp hqmem with hq' | hq'
  -- those before the first owner have none
  · rw [hnone q hq'] at hq
    exact absurd hq (by simp)
  · rcases List.mem_cons.mp hq' with rfl | hq'
    · exact Nat.le_refl _
    · have hrest := (List.pairwise_append.mp hsorted).2.1
      exact ((List.pairwise_cons.mp hrest).1 q hq').length_le

/-- There is an owner at a node, or below it. -/
theorem exists_owner_head {i : Nat} {t : Test} {o : Option α} {below next : Branches α}
    (h : (node i t o below next).Owned) :
    ∃ q a, (node i t o below next).owner? (t :: q) = some a := by
  induction below generalizing i t o next with
  | nil =>
    obtain ⟨a, rfl⟩ := Option.isSome_iff_exists.mp (h.1 rfl)
    exact ⟨[], a, by rw [owner?_cons, if_pos rfl, if_pos rfl]⟩
  | node i' t' o' below' next' ih _ =>
    obtain ⟨q, a, hq⟩ := ih h.2.1
    exact ⟨t' :: q, a, by rw [owner?_cons, if_pos rfl, if_neg (by simp), hq]⟩

/-- Every node is on the way to an owner. -/
theorem exists_owner_of_at? (ho : b.Owned) {path : List Test} {x : Nat × Option α}
    (h : b.at? path = some x) : ∃ q a, path <+: q ∧ b.owner? q = some a := by
  induction b generalizing path with
  | nil => exact absurd h (by simp)
  | node i t o below next ihb ihn =>
    cases path with
    | nil => exact absurd h (by simp)
    | cons u rest =>
      rw [at?_cons] at h
      by_cases htu : t = u
      · subst htu
        rw [if_pos rfl] at h
        by_cases hr : rest = []
        · subst hr
          obtain ⟨q, a, hq⟩ := exists_owner_head ho
          exact ⟨t :: q, a, List.cons_prefix_cons.mpr ⟨rfl, List.nil_prefix⟩, hq⟩
        · rw [if_neg hr] at h
          obtain ⟨q, a, hpre, hq⟩ := ihb ho.2.1 h
          refine ⟨t :: q, a, List.cons_prefix_cons.mpr ⟨rfl, hpre⟩, ?_⟩
          rw [owner?_cons, if_pos rfl, if_neg (ne_nil_of_owner? hq), hq]
      · rw [if_neg htu] at h
        obtain ⟨q, a, hpre, hq⟩ := ihn ho.2.2 h
        cases q with
        | nil => exact absurd (List.prefix_nil.mp hpre) (by simp)
        | cons v q =>
          refine ⟨v :: q, a, hpre, ?_⟩
          rw [owner?_cons, if_neg (by rwa [← (List.cons_prefix_cons.mp hpre).1]), hq]

end Branches

/-! ## The answer to a call -/

section Represented

variable {f : Forest α} {made : List (Call α)}

/-- The list of owners is what can be seen of them at the nodes. -/
theorem Represents.mem_terminals_iff (h : f.Represents made) {path : List Test} {a : α} :
    (path, a) ∈ f.terminals ↔ ∃ turns n, f.route? turns = some (path, n) ∧ n.owner = some a := by
  rw [terminals, Branches.mem_terminals h.distinct]
  constructor
  · intro ho
    obtain ⟨⟨k, o⟩, hat, rfl⟩ := Option.bind_eq_some_iff.mp ho
    obtain ⟨turns, n, hf, -⟩ := Branches.exists_follow?_of_at? hat
    have hn := Branches.at?_of_follow? h.distinct hf
    rw [hat] at hn
    refine ⟨turns, n, by rw [route?_eq h.numbered, hf], ?_⟩
    exact (Prod.mk.inj (Option.some.inj hn)).2.symm
  · intro hex
    obtain ⟨turns, n, hr, ho⟩ := hex
    rw [route?_eq h.numbered] at hr
    rw [Branches.owner?, Branches.at?_of_follow? h.distinct hr, Option.bind_some, ho]

theorem Represents.front?_eq_some (h : f.Represents made) {chain : List Test} {a : α} :
    f.branches.front? chain = some a ↔ f.InFront chain a := by
  have hmem : ∀ {p e}, (p, e) ∈ f.terminals ↔ f.branches.owner? p = some e :=
    Branches.mem_terminals h.distinct
  constructor
  · intro hfront
    obtain ⟨p, ho, hpre, hne, hshort⟩ := Branches.shortest_of_front? hfront
    exact ⟨p, hmem.mpr ho, hpre, hne, fun x hx => hshort x.1 x.2 (hmem.mp hx)⟩
  · intro hin
    obtain ⟨p, hp, hpre, hne, hshort⟩ := hin
    obtain ⟨e, he⟩ := Option.isSome_iff_exists.mp (Branches.isSome_front? (hmem.mp hp) hpre hne)
    obtain ⟨q, hq, hqpre, hqne, hqshort⟩ := Branches.shortest_of_front? he
    -- both are the shortest, and there is one beginning of that length
    have hlen : p.length = q.length :=
      Nat.le_antisymm (hshort (q, e) (hmem.mpr hq) hqpre hqne) (hqshort p a (hmem.mp hp) hpre hne)
    have hpq : p = q := (List.prefix_of_prefix_length_le hpre hqpre hlen.le).eq_of_length hlen
    rw [hpq, hmem, hq] at hp
    rw [he, hp]

theorem behind?_eq_some {chain : List Test} {a : α} :
    f.branches.behind? chain = some a ↔ f.GoesOn chain a := by
  unfold Branches.behind? GoesOn terminals
  rw [Option.map_eq_some_iff]
  constructor
  · intro hex
    obtain ⟨⟨path, a'⟩, hfind, rfl⟩ := hex
    obtain ⟨hcont, before, after, hl, hnone⟩ := List.find?_eq_some_iff_append.mp hfind
    obtain ⟨hpre, hne⟩ := Branches.continues_iff.mp hcont
    refine ⟨before, path, after, hl, hpre, hne, ?_⟩
    intro x hx hxpre
    by_contra hxne
    have hcontx := Branches.continues_iff.mpr ⟨hxpre, hxne⟩
    exact absurd (hnone x hx) (by simp [hcontx])
  · intro hex
    obtain ⟨before, path, after, hl, hpre, hne, hnone⟩ := hex
    refine ⟨(path, a), List.find?_eq_some_iff_append.mpr
      ⟨Branches.continues_iff.mpr ⟨hpre, hne⟩, before, after, hl, ?_⟩, rfl⟩
    intro x hx
    rw [Bool.not_eq_true']
    refine Bool.eq_false_iff.mpr fun hcont => ?_
    obtain ⟨hxpre, hxne⟩ := Branches.continues_iff.mp hcont
    exact hxne (hnone x hx hxpre)

/-- Nobody is behind the end of a chain only if nothing is. -/
theorem Represents.behind?_eq_none (h : f.Represents made) {chain : List Test} :
    f.branches.behind? chain = none
      ↔ ∀ turns path n, f.route? turns = some (path, n) → chain <+: path → chain = path := by
  constructor
  · intro hnone turns path n hr hpre
    by_contra hne
    rw [route?_eq h.numbered] at hr
    obtain ⟨q, a, hpq, hq⟩ :=
      Branches.exists_owner_of_at? h.owned (Branches.at?_of_follow? h.distinct hr)
    -- the owner further down has a chain that goes on as well
    have hlt : chain.length < path.length :=
      Nat.lt_of_le_of_ne hpre.length_le fun he => hne (hpre.eq_of_length he)
    have hcq : chain ≠ q := by
      intro he
      have := hpq.length_le
      rw [← he] at this
      omega
    have hsome := Branches.isSome_behind? h.distinct hq (hpre.trans hpq) hcq
    rw [hnone] at hsome
    exact absurd hsome (by simp)
  · intro hall
    cases hb : f.branches.behind? chain with
    | none => rfl
    | some a =>
      obtain ⟨p, ho, hpre, hne⟩ := Branches.owner?_of_behind? h.distinct hb
      obtain ⟨turns, n, hr, -⟩ :=
        h.mem_terminals_iff.mp ((Branches.mem_terminals h.distinct).mpr ho)
      exact absurd (hall turns p n hr hpre) hne

/-- Whoever the report names is the one whom it ought to name. -/
theorem Represents.exact (h : f.Represents made) (chain : List Test) :
    Placement.Exact {
      replaced := f.branches.owner? chain
      shadowedBy := f.branches.front? chain
      shadows := f.branches.behind? chain } f chain where
  replaced := fun _ => (Branches.mem_terminals h.distinct).symm
  shadowedBy := fun _ => h.front?_eq_some
  shadows := fun _ => behind?_eq_some
  shadows_eq_none := h.behind?_eq_none

/-- What is answered to the call `c` in the forest `f`. -/
structure Answered (result : Except (Refusal α) (Placement α)) (f : Forest α) (c : Call α) :
    Prop where
  emptyChain : result = .error .emptyChain ↔ c.chain = []
  /-- A chain is occupied if somebody has it who is not to give way. -/
  occupied : ∀ existing, result = .error (.occupied existing)
    ↔ c.replace = false ∧ (c.chain, existing) ∈ f.terminals
  /-- Nothing else stands in the way of a chain. -/
  accepted : (∃ p, result = .ok p)
    ↔ c.chain ≠ [] ∧ (c.replace = true ∨ ∀ a, (c.chain, a) ∉ f.terminals)
  placed : ∀ p, result = .ok p → p.Exact f c.chain

/-- Whoever finds the chain free, or makes it so, is answered with its placement. -/
theorem Placement.Exact.answered {p : Placement α} {c : Call α} (hp : p.Exact f c.chain)
    (hne : c.chain ≠ []) (hfree : c.replace = true ∨ ∀ a, (c.chain, a) ∉ f.terminals) :
    Answered (.ok p) f c where
  emptyChain := iff_of_false (by simp) hne
  occupied := by
    intro existing
    refine iff_of_false (by simp) ?_
    rintro ⟨hkeep, hmem⟩
    rcases hfree with hreplace | hnone
    · rw [hkeep] at hreplace
      exact absurd hreplace (by simp)
    · exact hnone existing hmem
  accepted := iff_of_true ⟨p, rfl⟩ ⟨hne, hfree⟩
  placed := by
    intro q hq
    rw [← Except.ok.inj hq]
    exact hp

/-- Whoever finds the chain with an owner, and leaves it to that one, is answered with the owner. -/
theorem answered_occupied {c : Call α} {existing : α} (hkeep : c.replace = false)
    (hown : ∀ a, (c.chain, a) ∈ f.terminals ↔ a = existing) (hne : c.chain ≠ []) :
    Answered (.error (.occupied existing)) f c where
  emptyChain := iff_of_false (by simp) hne
  occupied := by
    intro a
    rw [hown, and_iff_right hkeep, Except.error.injEq, Refusal.occupied.injEq, eq_comm]
  accepted := by
    refine iff_of_false (by simp) ?_
    rintro ⟨-, hreplace | hnone⟩
    · rw [hkeep] at hreplace
      exact absurd hreplace (by simp)
    · exact hnone existing ((hown existing).mpr rfl)
  placed := fun p hp => absurd hp (by simp)

/-- **The answer is about the forest as it was**, whatever was made on the way to it. -/
theorem Represents.answered (h : f.Represents made) (c : Call α) :
    Answered (f.call c).1 f c := by
  have hmem : ∀ {a}, (c.chain, a) ∈ f.terminals ↔ f.branches.owner? c.chain = some a :=
    Branches.mem_terminals h.distinct
  by_cases hne : c.chain = []
  · have hempty : (f.call c).1 = .error .emptyChain := by
      rw [call, insert, hne, Branches.insert_empty]
    have hnone : ∀ a, (c.chain, a) ∉ f.terminals := fun a ha =>
      Branches.ne_nil_of_mem_terminals ha hne
    rw [hempty]
    exact ⟨by simp [hne], by simp [hnone], by simp [hne], by simp⟩
  · have hexact := h.exact c.chain
    rw [call_eq_report h.distinct hne]
    cases hreplace : c.replace with
    | true =>
      rw [Branches.report_replace]
      exact hexact.answered hne (.inl hreplace)
    | false =>
      rw [Branches.report_keep]
      cases ho : f.branches.owner? c.chain with
      | some existing =>
        refine answered_occupied hreplace (fun a => ?_) hne
        rw [hmem, ho, Option.some.injEq, eq_comm]
      | none =>
        rw [ho] at hexact
        refine hexact.answered hne (.inr fun a ha => ?_)
        rw [hmem, ho] at ha
        exact absurd ha (by simp)

end Represented

/-! ## The walk below the end of a chain -/

/-- Looks for an owner with a stack of levels, each given by the number of its first node: the level
that was put there last is taken up, and what is below its node comes before what is next to it.
Nothing comes of a number that is out of range, nor of a walk for which `turns` turns are not
enough. -/
def Linked.firstMet (l : Linked α) : Nat → List (Option Nat) → Option (Option α)
  | 0, _ => none
  | _ + 1, [] => some none
  | turns + 1, none :: rest => l.firstMet turns rest
  | turns + 1, some k :: rest =>
    (l.nodes[k]?).bind fun n =>
      match n.owner with
      | some a => some (some a)
      | none => l.firstMet turns (n.child :: n.sibling :: rest)

/-- How many turns a walk of the levels may take: one for each node, and one for each level that is
exhausted, of which there is one more. -/
def turnsFor : List (Branches α) → Nat
  | [] => 0
  | b :: rest => 2 * b.size + 1 + turnsFor rest

/-- **The walk meets the first owner of its levels.** -/
theorem firstMet_eq {l : Linked α} {turns : Nat} {levels : List (Branches α)}
    (h : ∀ n ∈ levels.flatMap Branches.preorder, l.nodes[n.index]? = some n)
    (hturns : turnsFor levels < turns) :
    l.firstMet turns (levels.map Branches.head?)
      = some (levels.findSome? Branches.firstOwner?) := by
  induction turns generalizing levels with
  | zero => exact absurd hturns (Nat.not_lt_zero _)
  | succ turns ih =>
    cases levels with
    | nil => rfl
    | cons b rest =>
      cases b with
      | nil =>
        rw [turnsFor, Branches.size] at hturns
        exact ih h (by omega)
      | node i t o below next =>
        have hhead : l.nodes[i]? = some (Branches.listed i t o below next) :=
          h _ (List.mem_cons_self ..)
        rw [turnsFor, Branches.size] at hturns
        rw [List.map_cons, Branches.head?, Linked.firstMet, hhead, Option.bind_some,
          List.findSome?_cons, Branches.firstOwner?]
        cases o with
        | some a => rfl
        | none =>
          have hlisted : ∀ n ∈ (below :: next :: rest).flatMap Branches.preorder,
              l.nodes[n.index]? = some n := by
            intro n hn
            rw [List.flatMap_cons, List.flatMap_cons, ← List.append_assoc] at hn
            exact h n (List.mem_cons_of_mem _ hn)
          have henough : turnsFor (below :: next :: rest) < turns := by
            rw [turnsFor, turnsFor]
            omega
          have hwalk := ih hlisted henough
          refine hwalk.trans (congrArg some ?_)
          rw [List.findSome?_cons, List.findSome?_cons]
          cases below.firstOwner? <;> cases next.firstOwner? <;> rfl

/-- What is below a node begins with its child, and has the owners behind the end of the path. -/
theorem Branches.exists_below {b : Branches α} (hd : b.Distinct) {turns : List Turn}
    {path : List Test} {n : Node α} (h : b.follow? turns = some (path, n)) :
    ∃ below : Branches α, n.child = below.head? ∧ below.size ≤ b.size
      ∧ (∀ m ∈ below.preorder, m ∈ b.preorder) ∧ below.firstOwner? = b.behind? path := by
  induction b generalizing turns path with
  | nil => exact absurd h (by simp [Branches.follow?])
  | node i t o below next ihb ihn =>
    obtain ⟨ht, hb, hn⟩ := hd
    rcases follow?_cases h with ⟨-, rfl, rfl⟩ | ⟨_, q, -, rfl, hf⟩ | ⟨_, -, hf⟩
    · refine ⟨below, rfl, by rw [size]; omega, ?_, ?_⟩
      · exact fun m hm => List.mem_cons_of_mem _ (List.mem_append_left _ hm)
      · rw [behind?_cons ⟨ht, hb, hn⟩, if_pos rfl, behind?_empty]
    · obtain ⟨b', hchild, hsize, hmem, howner⟩ := ihb hb hf
      refine ⟨b', hchild, by rw [size]; omega, ?_, ?_⟩
      · exact fun m hm => List.mem_cons_of_mem _ (List.mem_append_left _ (hmem m hm))
      · rw [behind?_cons ⟨ht, hb, hn⟩, if_pos rfl, howner]
    · obtain ⟨b', hchild, hsize, hmem, howner⟩ := ihn hn hf
      refine ⟨b', hchild, by rw [size]; omega, ?_, ?_⟩
      · exact fun m hm => List.mem_cons_of_mem _ (List.mem_append_right _ (hmem m hm))
      · cases path with
        | nil => exact absurd rfl (follow?_ne_nil hf)
        | cons u q =>
          have hne : t ≠ u := by
            intro he
            subst he
            exact number?_head (k := n.index) (by rw [number?, at?_of_follow? hn hf]; rfl) ht
          rw [behind?_cons ⟨ht, hb, hn⟩, if_neg hne, howner]

/-- Who enters a chain changes nothing behind the end of it. -/
theorem Branches.behind?_insert {a : α} {replace : Bool} {index : Nat} {b : Branches α}
    (hd : b.Distinct) (chain : List Test) :
    (b.insert a replace index chain).2.behind? chain = b.behind? chain := by
  have hd' : (b.insert a replace index chain).2.Distinct := distinct_insert chain hd
  induction b, chain using chain_induction with
  | empty b => rw [insert_empty]
  | fresh u rest =>
    have hends : continues (u :: rest) (u :: rest, a) = false := by simp [continues]
    rw [insert_fresh, behind?, terminals_spine, List.find?_singleton, hends]
    rfl
  | here i t o below next =>
    have hoccupy : ∃ o', (occupy a replace i t o below next).2 = node i t o' below next := by
      cases o <;> cases replace <;> exact ⟨_, rfl⟩
    rw [insert_here] at hd' ⊢
    obtain ⟨o', ho'⟩ := hoccupy
    rw [ho'] at hd' ⊢
    rw [behind?_cons hd, behind?_cons hd']
  | below i t o below next f rest ih =>
    rw [insert_below] at hd' ⊢
    rw [behind?_cons hd, behind?_cons hd', if_pos rfl, if_pos rfl, ih hd.2.1 hd'.2.1]
  | next i t o below next u rest hne ih =>
    rw [insert_next hne] at hd' ⊢
    rw [behind?_cons hd, behind?_cons hd', if_neg hne, if_neg hne, ih hd.2.2 hd'.2.2]

/-- **Who is said to be hidden is whom the walk meets** below the last node of the chain. -/
theorem Represents.firstMet_shadows {f : Forest α} {made : List (Call α)} (h : f.Represents made)
    {c : Call α} {p : Placement α} (hc : (f.call c).1 = .ok p) :
    ∃ turns n, (f.call c).2.route? turns = some (c.chain, n) ∧ n.owner = some c.owner
      ∧ (f.call c).2.linked.firstMet (2 * (f.call c).2.size + 2) [n.child] = some p.shadows := by
  have hg := represents_call h hc
  have hown : (c.chain, c.owner) ∈ (f.call c).2.terminals := by
    rw [hg.mem_terminals, lastOwner_concat, if_pos rfl]
  obtain ⟨turns, n, hr, ho⟩ := hg.mem_terminals_iff.mp hown
  refine ⟨turns, n, hr, ho, ?_⟩
  have hf := hr
  rw [route?_eq hg.numbered] at hf
  obtain ⟨below, hchild, hsize, hmem, howner⟩ := Branches.exists_below hg.distinct hf
  have hlisted : ∀ m ∈ [below].flatMap Branches.preorder,
      (f.call c).2.linked.nodes[m.index]? = some m := by
    intro m hm
    rw [List.flatMap_singleton] at hm
    exact getElem?_of_mem_nodes hg.numbered (mem_nodes.mpr (hmem m hm))
  have henough : turnsFor [below] < 2 * (f.call c).2.size + 2 := by
    rw [turnsFor, turnsFor, size]
    omega
  have hwalk := firstMet_eq hlisted henough
  rw [List.map_singleton, ← hchild] at hwalk
  rw [hwalk, List.findSome?_singleton, howner]
  -- behind the end of the chain nothing has changed
  have hshadows : p.shadows = f.branches.behind? c.chain := by
    have hexact := (h.answered c).placed p hc
    refine Option.ext fun a => ?_
    rw [hexact.shadows, behind?_eq_some]
  rw [hshadows, (call_of_ok hc).2, Branches.behind?_insert h.distinct]

/-! ## Refusals -/

section Represented

variable {f : Forest α} {made : List (Call α)}

/-- An occupied chain has all its nodes. -/
theorem Represents.route_of_occupied (h : f.Represents made) {c : Call α} {existing : α}
    (hc : (f.call c).1 = .error (.occupied existing)) {path : List Test} (hne : path ≠ [])
    (hpre : path <+: c.chain) : ∃ turns n, f.route? turns = some (path, n) := by
  have hmem := (((h.answered c).occupied existing).mp hc).2
  obtain ⟨d, hd, hchain, -⟩ := h.exists_call ((Branches.mem_terminals h.distinct).mp hmem)
  exact (h.path_iff path).mpr ⟨hne, d, hd, by rwa [hchain]⟩

/-- **Refused calls leave no trace:** the accepted ones alone make the same forest. -/
theorem after_accepted (f : Forest α) (calls : List (Call α)) :
    f.after (f.accepted calls) = f.after calls := by
  induction calls generalizing f with
  | nil => rfl
  | cons c rest ih =>
    rw [accepted]
    cases hc : (f.call c).1 with
    | ok p => exact ih (f.call c).2
    | error refusal =>
      have hrest := ih (f.call c).2
      rw [call_of_error hc] at hrest ⊢
      rw [hrest, after, after, List.foldl_cons, call_of_error hc]

end Represented

/--
**What is answered to a call, after every run of calls from the empty forest.** A
chain is refused if it is empty, or if somebody has it and is not to give way.
Otherwise the answer names who gave way, who has the shortest chain with which this
one begins, and who is the first to go on from its end; a walk with a stack, from the
child of the last node, meets just that one. To whoever enters chains in place, the
same is answered.
-/
theorem call_report (calls : List (Call α)) (c : Call α) :
    Answered ((after {} calls).call c).1 (after {} calls) c
      ∧ Linked.after {} calls = some (after {} calls).linked
      ∧ (after {} calls).linked.call c
        = some (((after {} calls).call c).1, ((after {} calls).call c).2.linked)
      ∧ (∀ path a, (path, a) ∈ (after {} calls).terminals
        ↔ ∃ turns n, (after {} calls).route? turns = some (path, n) ∧ n.owner = some a)
      ∧ ∀ p, ((after {} calls).call c).1 = .ok p → ∃ turns n,
        ((after {} calls).call c).2.route? turns = some (c.chain, n) ∧ n.owner = some c.owner
          ∧ ((after {} calls).call c).2.linked.firstMet (2 * ((after {} calls).call c).2.size + 2)
              [n.child] = some p.shadows := by
  have h : (after {} calls).Represents (accepted {} calls) :=
    represents_after represents_empty calls
  have hafter := after_linked represents_empty calls
  rw [linked_empty] at hafter
  exact ⟨h.answered c, hafter, call_linked h c, fun _ _ => h.mem_terminals_iff,
    fun _ hp => h.firstMet_shadows hp⟩

/--
**A refused call changes nothing**, after every run of calls from the empty forest:
chains that are entered in place leave behind the same nodes with the same links and
owners, the same root and the same depth. A chain that is occupied had all its nodes
before the call. So whatever a run of calls makes, its accepted calls alone make as well.
-/
theorem refusal_unchanged (calls : List (Call α)) :
    ∃ l, Linked.after {} calls = some l
      ∧ Linked.after {} (accepted {} calls) = some l
      ∧ ∀ c : Call α, ∃ result last, l.call c = some (result, last)
        ∧ result = ((after {} calls).call c).1
        ∧ (∀ refusal, result = .error refusal →
            last = l ∧ ((after {} calls).call c).2 = after {} calls)
        ∧ ∀ existing, result = .error (.occupied existing) → ∀ path, path ≠ [] →
            path <+: c.chain → ∃ turns n, follow? l.nodes l.root? turns = some (path, n) := by
  have h : (after {} calls).Represents (accepted {} calls) :=
    represents_after represents_empty calls
  have hafter : ∀ calls : List (Call α), Linked.after {} calls = some (after {} calls).linked := by
    intro calls
    rw [← linked_empty]
    exact after_linked represents_empty calls
  refine ⟨(after {} calls).linked, hafter calls, ?_, ?_⟩
  · rw [hafter, after_accepted]
  · intro c
    refine ⟨_, _, call_linked h c, rfl, ?_, ?_⟩
    · intro refusal hc
      rw [call_of_error hc]
      exact ⟨rfl, rfl⟩
    · intro existing hc path hne hpre
      exact h.route_of_occupied hc hne hpre

end InstructionSet.Forest
