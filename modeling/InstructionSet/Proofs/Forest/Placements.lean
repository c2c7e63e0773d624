import InstructionSet.Proofs.Forest.Terminals

/-!
# What entering a chain reports

The answer of `Forest.insert` is put together on the way down a chain, while the
nodes on it are being made. It is nevertheless a statement about the forest as it
was before, and one that needs only the owners: who had the chain, who is the
first on the way to its last node, and who is the first below that.

`Branches.insert_report` says so of the nodes. For a forest that chains were
entered into, an owner is somebody whose chain was accepted; a refused chain has
another owner in its place, so that in either case a chain that was ever called
for is a chain that somebody has (`exists_accepted`).
-/

namespace InstructionSet.Forest

variable {α : Type}

/-! ## The first owner on the way, and the first beyond -/

theorem findSome?_congr {β γ : Type} {f g : β → Option γ} {l : List β}
    (h : ∀ x ∈ l, f x = g x) : l.findSome? f = l.findSome? g := by
  induction l with
  | nil => rfl
  | cons x rest ih =>
    rw [List.findSome?_cons, List.findSome?_cons, h x List.mem_cons_self,
      ih fun y hy => h y (List.mem_cons_of_mem x hy)]

namespace Branches

/-- The first owner that is met before the end of `chain`. -/
def front? (b : Branches α) (chain : List Test) : Option α :=
  (prefixes chain).dropLast.findSome? b.owner?

/-- Does the path lead through the end of `chain` and further? -/
def continues (chain : List Test) (x : List Test × α) : Bool := chain <+: x.1 ∧ chain ≠ x.1

/-- The first owner, in the order of a search, whose path continues `chain`. -/
def behind? (b : Branches α) (chain : List Test) : Option α :=
  (b.terminals.find? (continues chain)).map Prod.snd

theorem continues_iff {chain : List Test} {x : List Test × α} :
    continues chain x = true ↔ chain <+: x.1 ∧ chain ≠ x.1 := decide_eq_true_iff

theorem continues_cons (t : Test) (q : List Test) :
    (continues (t :: q) ∘ fun x : List Test × α => (t :: x.1, x.2)) = continues q := by
  funext x
  simp [continues, List.cons_prefix_cons]

theorem prefixes_ne_nil {chain : List Test} (h : chain ≠ []) : prefixes chain ≠ [] := by
  intro he
  have hl := length_prefixes chain
  rw [he, List.length_nil] at hl
  exact h (List.length_eq_zero_iff.mp hl.symm)

theorem prefixes_concat {chain : List Test} (h : chain ≠ []) :
    prefixes chain = (prefixes chain).dropLast ++ [chain] := by
  induction chain with
  | nil => exact absurd rfl h
  | cons t rest ih =>
    rw [prefixes_cons]
    by_cases hr : rest = []
    · subst hr
      rfl
    · have hne : (prefixes rest).map (t :: ·) ≠ [] := by
        intro he
        exact prefixes_ne_nil hr (List.map_eq_nil_iff.mp he)
      rw [List.dropLast_cons_of_ne_nil hne, ← List.map_dropLast, List.cons_append,
        List.cons.injEq]
      refine ⟨rfl, ?_⟩
      conv_lhs => rw [ih hr]
      rw [List.map_append, List.map_singleton]

/-- All beginnings but the last are the shorter ones. -/
theorem mem_dropLast_prefixes {p chain : List Test} :
    p ∈ (prefixes chain).dropLast ↔ p ≠ [] ∧ p <+: chain ∧ p ≠ chain := by
  by_cases hc : chain = []
  · subst hc
    simp only [prefixes_nil, List.dropLast_nil, List.not_mem_nil, List.prefix_nil, false_iff]
    exact fun h => h.1 h.2.1
  · have hn := nodup_prefixes chain
    have hm : p ∈ prefixes chain ↔ p ∈ (prefixes chain).dropLast ∨ p = chain := by
      conv_lhs => rw [prefixes_concat hc]
      rw [List.mem_append, List.mem_singleton]
    rw [prefixes_concat hc, List.nodup_append] at hn
    rw [mem_prefixes] at hm
    constructor
    · intro h
      exact ⟨(hm.mpr (.inl h)).1, (hm.mpr (.inl h)).2,
        hn.2.2 p h chain (List.mem_singleton.mpr rfl)⟩
    · intro hand
      obtain ⟨hne, hpre, hnot⟩ := hand
      exact (hm.mp ⟨hne, hpre⟩).resolve_right hnot

@[simp] theorem front?_nil (chain : List Test) : (nil : Branches α).front? chain = none := by
  rw [front?, List.findSome?_eq_none_iff]
  exact fun _ _ => rfl

@[simp] theorem behind?_nil (chain : List Test) : (nil : Branches α).behind? chain = none := rfl

theorem front?_below (i : Nat) (t f : Test) (o : Option α) (below next : Branches α)
    (rest : List Test) :
    (node i t o below next).front? (t :: f :: rest) = (o <|> below.front? (f :: rest)) := by
  have hne : (prefixes (f :: rest)).map (t :: ·) ≠ [] := by
    intro he
    exact prefixes_ne_nil (by simp) (List.map_eq_nil_iff.mp he)
  have hbelow : ((prefixes (f :: rest)).dropLast.map (t :: ·)).findSome?
      (node i t o below next).owner? = below.front? (f :: rest) := by
    rw [List.findSome?_map, front?]
    refine findSome?_congr fun p hp => ?_
    rw [Function.comp_apply, owner?_cons, if_pos rfl, if_neg (mem_dropLast_prefixes.mp hp).1]
  rw [front?, prefixes_cons, List.dropLast_cons_of_ne_nil hne, ← List.map_dropLast,
    List.findSome?_cons, owner?_cons, if_pos rfl, if_pos rfl, hbelow]
  cases o <;> rfl

theorem front?_next {i : Nat} {t u : Test} (h : t ≠ u) (o : Option α) (below next : Branches α)
    (rest : List Test) :
    (node i t o below next).front? (u :: rest) = next.front? (u :: rest) := by
  unfold front?
  refine findSome?_congr fun p hp => ?_
  obtain ⟨hne, hpre, -⟩ := mem_dropLast_prefixes.mp hp
  cases p with
  | nil => exact absurd rfl hne
  | cons v q =>
    rw [(List.cons_prefix_cons.mp hpre).1, owner?_cons, if_neg h]

/-- Every path continues the empty one, so this is the first owner of all. -/
theorem behind?_empty (b : Branches α) : b.behind? [] = b.firstOwner? := by
  have hall : ∀ b : Branches α, b.behind? [] = b.terminals.head?.map Prod.snd := by
    intro b
    rw [behind?]
    cases hb : b.terminals with
    | nil => rfl
    | cons x rest =>
      have hx : x.1 ≠ [] := ne_nil_of_mem_terminals (a := x.2) (by rw [hb]; exact List.mem_cons_self)
      rw [List.find?_cons_of_pos (continues_iff.mpr ⟨List.nil_prefix, hx.symm⟩), List.head?_cons]
  rw [hall]
  induction b with
  | nil => rfl
  | node i t o below next ihb ihn =>
    rw [terminals, firstOwner?, ← ihb, ← ihn]
    cases o with
    | some a => rfl
    | none => cases below.terminals <;> rfl

/-- A level that does not offer the test of a node has nothing that continues a chain through it. -/
theorem find?_eq_none_of_head {b : Branches α} (hd : b.Distinct) {t : Test}
    (h : b.number? [t] = none) (q : List Test) :
    b.terminals.find? (continues (t :: q)) = none := by
  rw [List.find?_eq_none]
  intro x hx hcont
  obtain ⟨⟨r, hr⟩, -⟩ := continues_iff.mp hcont
  have ho : b.owner? x.1 = some x.2 := (mem_terminals hd).mp hx
  rw [← hr, List.cons_append, owner?_eq_none_of_head h] at ho
  exact absurd ho (by simp)

theorem behind?_cons {i : Nat} {t u : Test} {o : Option α} {below next : Branches α}
    (hd : (node i t o below next).Distinct) (q : List Test) :
    (node i t o below next).behind? (u :: q)
      = if t = u then below.behind? q else next.behind? (u :: q) := by
  obtain ⟨ht, -, hn⟩ := hd
  -- who ends at the node itself has no longer chain
  have hhere : (o.toList.map (([t], ·))).find? (continues (u :: q)) = none := by
    rw [List.find?_eq_none]
    intro x hx hcont
    obtain ⟨a, -, rfl⟩ := List.mem_map.mp hx
    obtain ⟨⟨r, hr⟩, hne⟩ := continues_iff.mp hcont
    obtain ⟨hu, hqr⟩ := List.cons.inj hr
    exact hne (by rw [hu, (List.append_eq_nil_iff.mp hqr).1])
  rw [behind?, terminals, List.find?_append, List.find?_append, hhere, Option.none_or,
    List.find?_map]
  by_cases htu : t = u
  · subst htu
    rw [if_pos rfl, continues_cons, find?_eq_none_of_head hn ht, Option.or_none, Option.map_map]
    rfl
  · have hnone : below.terminals.find? (continues (u :: q) ∘ fun x => (t :: x.1, x.2)) = none := by
      rw [List.find?_eq_none]
      intro x _ hcont
      have hpre := (continues_iff.mp hcont).1
      exact htu (List.cons_prefix_cons.mp hpre).1.symm
    rw [if_neg htu, hnone, Option.map_none, Option.none_or, behind?]

/-! ## The report -/

variable {a : α} {replace : Bool} {index : Nat}

/-- What `insert` answers, in terms of the forest as it was before. -/
def report (b : Branches α) (replace : Bool) (chain : List Test) :
    Except (Refusal α) (Placement α) :=
  match b.owner? chain, replace with
  | some existing, false => .error (.occupied existing)
  | previous, _ =>
    .ok { replaced := previous, shadowedBy := b.front? chain, shadows := b.behind? chain }

theorem report_replace (b : Branches α) (chain : List Test) :
    b.report true chain
      = .ok {
          replaced := b.owner? chain
          shadowedBy := b.front? chain
          shadows := b.behind? chain } := by
  unfold report
  cases b.owner? chain <;> rfl

theorem report_keep (b : Branches α) (chain : List Test) :
    b.report false chain
      = match b.owner? chain with
        | some existing => .error (.occupied existing)
        | none => .ok { shadowedBy := b.front? chain, shadows := b.behind? chain } := by
  unfold report
  cases b.owner? chain <;> rfl

/-- **The report is about the forest as it was.** -/
theorem insert_report {b : Branches α} (hd : b.Distinct) {chain : List Test} (h : chain ≠ []) :
    (b.insert a replace index chain).1 = b.report replace chain := by
  induction b, chain using chain_induction with
  | empty b => exact absurd rfl h
  | fresh u rest =>
    unfold report
    rw [insert_fresh, front?_nil, behind?_nil, owner?_nil]
  | here i t o below next =>
    have hfront : (node i t o below next).front? [t] = none := rfl
    unfold report
    rw [insert_here, hfront, behind?_cons hd, if_pos rfl, behind?_empty, owner?_cons, if_pos rfl,
      if_pos rfl]
    cases o <;> cases replace <;> rfl
  | below i t o below next f rest ih =>
    rw [insert_below, ih hd.2.1 (by simp)]
    unfold report
    rw [front?_below, behind?_cons hd, if_pos rfl, owner?_cons, if_pos rfl, if_neg (by simp)]
    cases below.owner? (f :: rest) <;> cases replace <;> rfl
  | next i t o below next u rest hne ih =>
    rw [insert_next hne, ih hd.2.2 h]
    unfold report
    rw [front?_next hne, behind?_cons hd, if_neg hne, owner?_cons, if_neg hne]

/-- Taking over or not makes no difference to a chain that nobody has. -/
theorem insert_of_free {b : Branches α} {chain : List Test} (h : b.owner? chain = none) :
    b.insert a true index chain = b.insert a false index chain := by
  induction b, chain using chain_induction with
  | empty b => rw [insert_empty, insert_empty]
  | fresh u rest => rw [insert_fresh, insert_fresh]
  | here i t o below next =>
    rw [owner?_cons, if_pos rfl, if_pos rfl] at h
    rw [insert_here, insert_here, h]
    rfl
  | below i t o below next f rest ih =>
    rw [owner?_cons, if_pos rfl, if_neg (by simp)] at h
    rw [insert_below, insert_below, ih h]
  | next i t o below next u rest hne ih =>
    rw [owner?_cons, if_neg hne] at h
    rw [insert_next hne, insert_next hne, ih h]

/-! ## Whom the report names -/

/-- Who is met on the way has a shorter chain. -/
theorem owner?_of_front? {b : Branches α} {chain : List Test} {e : α}
    (h : b.front? chain = some e) : ∃ p, b.owner? p = some e ∧ p <+: chain ∧ p ≠ chain := by
  obtain ⟨p, hp, ho⟩ := List.exists_of_findSome?_eq_some h
  exact ⟨p, ho, (mem_dropLast_prefixes.mp hp).2⟩

/-- Somebody is met on the way to the end of a chain if somebody has a shorter one. -/
theorem isSome_front? {b : Branches α} {p chain : List Test} {e : α} (h : b.owner? p = some e)
    (hpre : p <+: chain) (hne : p ≠ chain) : (b.front? chain).isSome := by
  rw [front?, List.findSome?_isSome_iff]
  exact ⟨p, mem_dropLast_prefixes.mpr ⟨ne_nil_of_owner? h, hpre, hne⟩, by rw [h]; rfl⟩

/-- Who is behind the end of a chain has a longer one. -/
theorem owner?_of_behind? {b : Branches α} (hd : b.Distinct) {chain : List Test} {e : α}
    (h : b.behind? chain = some e) : ∃ p, b.owner? p = some e ∧ chain <+: p ∧ chain ≠ p := by
  obtain ⟨⟨p, e'⟩, hfind, rfl⟩ := Option.map_eq_some_iff.mp h
  exact ⟨p, (mem_terminals hd).mp (List.mem_of_find?_eq_some hfind),
    continues_iff.mp (List.find?_some hfind)⟩

/-- Somebody is behind the end of a chain if somebody has a longer one. -/
theorem isSome_behind? {b : Branches α} (hd : b.Distinct) {p chain : List Test} {e : α}
    (h : b.owner? p = some e) (hpre : chain <+: p) (hne : chain ≠ p) :
    (b.behind? chain).isSome := by
  rw [behind?, Option.isSome_map, List.find?_isSome]
  exact ⟨(p, e), (mem_terminals hd).mpr h, continues_iff.mpr ⟨hpre, hne⟩⟩

end Branches

/-! ## Owners and calls -/

variable {f : Forest α} {made : List (Call α)}

theorem call_eq_report (hd : f.branches.Distinct) {c : Call α} (hc : c.chain ≠ []) :
    (f.call c).1 = f.branches.report c.replace c.chain := by
  have hrep : (f.branches.insert c.owner c.replace f.size c.chain).1
      = f.branches.report c.replace c.chain := Branches.insert_report hd hc
  rw [← hrep, call, insert]
  dsimp only
  split
  · rename_i hr
    rw [hr]
  · rename_i hr
    rw [hr]

theorem call_of_free {c : Call α} (h : f.branches.owner? c.chain = none) (replace : Bool) :
    f.call { c with replace } = f.call c := by
  have hsame : ∀ r, f.branches.insert c.owner r f.size c.chain
      = f.branches.insert c.owner false f.size c.chain := by
    intro r
    cases r with
    | true => exact Branches.insert_of_free h
    | false => rfl
  unfold call insert
  dsimp only
  rw [hsame replace, hsame c.replace]

/-- An owner is somebody whose chain was entered. -/
theorem Represents.exists_call (h : f.Represents made) {p : List Test} {e : α}
    (ho : f.branches.owner? p = some e) : ∃ c ∈ made, c.chain = p ∧ c.owner = e := by
  rw [h.owner?_eq] at ho
  obtain ⟨k, c, hk, hc, he, -⟩ := lastOwner_eq_some.mp ho
  exact ⟨c, List.mem_of_getElem? hk, hc, he⟩

/-- Whose chain was entered, or somebody who entered it later, is its owner. -/
theorem Represents.exists_owner (h : f.Represents made) {c : Call α} (hc : c ∈ made) :
    ∃ e, f.branches.owner? c.chain = some e := by
  rw [h.owner?_eq, lastOwner]
  have hfound : (made.reverse.find? (·.chain = c.chain)).isSome := by
    rw [List.find?_isSome]
    exact ⟨c, List.mem_reverse.mpr hc, by simp⟩
  obtain ⟨d, hd⟩ := Option.isSome_iff_exists.mp hfound
  exact ⟨d.owner, by rw [hd]; rfl⟩

theorem accepted_sublist (f : Forest α) (calls : List (Call α)) :
    (f.accepted calls).Sublist calls := by
  induction calls generalizing f with
  | nil => exact List.Sublist.refl _
  | cons c rest ih =>
    unfold accepted
    split
    · exact (ih _).cons_cons c
    · exact (ih _).cons c

/-- **Every chain that was called for is a chain that was entered.** If the call for it was refused,
another was accepted before. -/
theorem exists_accepted (h : f.Represents made) {calls : List (Call α)}
    (hne : ∀ c ∈ calls, c.chain ≠ []) {c : Call α} (hc : c ∈ made ++ calls) :
    ∃ d ∈ made ++ f.accepted calls, d.chain = c.chain := by
  induction calls generalizing f made with
  | nil => exact ⟨c, hc, rfl⟩
  | cons b rest ih =>
    have hrest : ∀ c ∈ rest, c.chain ≠ [] := fun c hc => hne c (List.mem_cons_of_mem b hc)
    rw [accepted]
    cases hb : (f.call b).1 with
    | ok r =>
      have hc' : c ∈ (made ++ [b]) ++ rest := by
        rw [List.append_assoc, List.singleton_append]
        exact hc
      obtain ⟨d, hd, he⟩ := ih (represents_call h hb) hrest hc'
      rw [List.append_assoc, List.singleton_append] at hd
      exact ⟨d, hd, he⟩
    | error r =>
      rw [call_of_error hb]
      rcases List.mem_append.mp hc with hm | hm
      · exact ih h hrest (List.mem_append_left rest hm)
      rcases List.mem_cons.mp hm with rfl | hm
      -- this is the refused call: the chain had an owner
      · have hrep := call_eq_report h.distinct (hne c List.mem_cons_self)
        rw [hb] at hrep
        unfold Branches.report at hrep
        split at hrep
        · rename_i e _ ho _
          obtain ⟨d, hd, he, -⟩ := h.exists_call ho
          exact ⟨d, List.mem_append_left _ hd, he⟩
        · exact absurd hrep (by simp)
      · exact ih h hrest (List.mem_append_right made hm)

end InstructionSet.Forest
