import InstructionSet.Proofs.Forest.Runs

/-!
# The owners of a forest, listed

`Forest.terminals` lists the owners in the order in which a search comes by them,
each with the tests that lead to it. If no level offers a test twice, the list is
the map `owner?` written down: it has an entry for every path that has an owner,
and just one.

A chain that is entered may find its place anywhere in the list, but it does not
move the others (`Branches.terminals_insert`).
-/

namespace InstructionSet.Forest

variable {α : Type}

/-- The owners, each with the tests that lead to it, a node coming before what is below it and that
before the node's alternatives. -/
def Branches.terminals : Branches α → List (List Test × α)
  | .nil => []
  | .node _ test owner below next =>
    owner.toList.map (([test], ·))
      ++ below.terminals.map (fun t => (test :: t.1, t.2)) ++ next.terminals

def terminals (f : Forest α) : List (List Test × α) := f.branches.terminals

namespace Branches

theorem mem_terminals_node {i : Nat} {t : Test} {o : Option α} {below next : Branches α}
    {path : List Test} {a : α} :
    (path, a) ∈ (node i t o below next).terminals
      ↔ (path = [t] ∧ o = some a) ∨ (∃ q, path = t :: q ∧ (q, a) ∈ below.terminals)
        ∨ (path, a) ∈ next.terminals := by
  rw [terminals, List.mem_append, List.mem_append, List.mem_map, List.mem_map, or_assoc]
  refine or_congr ?_ (or_congr ?_ Iff.rfl)
  · constructor
    · intro hex
      obtain ⟨b, hb, he⟩ := hex
      obtain ⟨rfl, rfl⟩ := Prod.mk.inj he
      exact ⟨rfl, Option.mem_toList.mp hb⟩
    · intro hand
      obtain ⟨rfl, ho⟩ := hand
      exact ⟨a, Option.mem_toList.mpr ho, rfl⟩
  · constructor
    · intro hand
      obtain ⟨⟨q, b⟩, hb, he⟩ := hand
      obtain ⟨rfl, rfl⟩ := Prod.mk.inj he
      exact ⟨q, rfl, hb⟩
    · intro hex
      obtain ⟨q, rfl, hq⟩ := hex
      exact ⟨(q, a), hq, rfl⟩

theorem ne_nil_of_mem_terminals {b : Branches α} {path : List Test} {a : α}
    (h : (path, a) ∈ b.terminals) : path ≠ [] := by
  induction b with
  | nil => exact absurd h (by simp [terminals])
  | node i t o below next ihb ihn =>
    rcases mem_terminals_node.mp h with ⟨rfl, -⟩ | ⟨q, rfl, -⟩ | hn
    · simp
    · simp
    · exact ihn hn

/-- What is listed in a level whose tests differ from `t` does not begin with `t`. -/
theorem owner?_eq_none_of_head {b : Branches α} {t : Test} (h : b.number? [t] = none)
    (q : List Test) : b.owner? (t :: q) = none := by
  cases hat : b.at? (t :: q) with
  | none => rw [owner?, hat, Option.bind_none]
  | some x => exact absurd h (number?_head (k := x.1) (by rw [number?, hat]; rfl))

/-- **The list is the map.** -/
theorem mem_terminals {b : Branches α} (hd : b.Distinct) {path : List Test} {a : α} :
    (path, a) ∈ b.terminals ↔ b.owner? path = some a := by
  induction b generalizing path with
  | nil => simp [terminals]
  | node i t o below next ihb ihn =>
    obtain ⟨ht, hb, hn⟩ := hd
    rw [mem_terminals_node, ihn hn]
    cases path with
    | nil => simp
    | cons u q =>
      rw [owner?_cons]
      by_cases htu : t = u
      · subst htu
        -- the alternatives have nothing under `t`, so only the other two ways are left
        rw [if_pos rfl, owner?_eq_none_of_head ht]
        by_cases hq : q = []
        · subst hq
          rw [if_pos rfl]
          refine ⟨?_, fun ho => .inl ⟨rfl, ho⟩⟩
          intro hor
          rcases hor with ⟨-, ho⟩ | ⟨q', he, hm⟩ | hx
          · exact ho
          · rw [← (List.cons.inj he).2] at hm
            exact absurd rfl (ne_nil_of_mem_terminals hm)
          · exact absurd hx (by simp)
        · rw [if_neg hq, ← ihb hb]
          constructor
          · intro hor
            rcases hor with ⟨he, -⟩ | ⟨q', he, hm⟩ | hx
            · exact absurd (List.cons.inj he).2 hq
            · rw [(List.cons.inj he).2]
              exact hm
            · exact absurd hx (by simp)
          · exact fun hm => .inr (.inl ⟨q, rfl, hm⟩)
      · rw [if_neg htu]
        constructor
        · intro hor
          rcases hor with ⟨he, -⟩ | ⟨q', he, -⟩ | hx
          · exact absurd (List.cons.inj he).1.symm htu
          · exact absurd (List.cons.inj he).1.symm htu
          · exact hx
        · exact fun hx => .inr (.inr hx)

/-- **What is listed later does not begin what was listed before:** a chain comes before those that
begin with it. -/
theorem pairwise_terminals {b : Branches α} (hd : b.Distinct) :
    b.terminals.Pairwise fun x y => ¬ y.1 <+: x.1 := by
  induction b with
  | nil => exact List.Pairwise.nil
  | node i t o below next ihb ihn =>
    obtain ⟨ht, hb, hn⟩ := hd
    have hhere : (o.toList.map (([t], ·)) : List (List Test × α)).Pairwise
        fun x y => ¬ y.1 <+: x.1 := by
      cases o <;> simp
    have hbelow : (below.terminals.map fun x => (t :: x.1, x.2)).Pairwise
        fun x y => ¬ y.1 <+: x.1 := by
      rw [List.pairwise_map]
      exact (ihb hb).imp fun h hpre => h (List.cons_prefix_cons.mp hpre).2
    rw [terminals, List.pairwise_append, List.pairwise_append]
    refine ⟨⟨hhere, hbelow, ?_⟩, ihn hn, ?_⟩
    · intro x hx y hy hpre
      obtain ⟨a, -, rfl⟩ := List.mem_map.mp hx
      obtain ⟨⟨q, a'⟩, hq, rfl⟩ := List.mem_map.mp hy
      exact ne_nil_of_mem_terminals hq (List.prefix_nil.mp (List.cons_prefix_cons.mp hpre).2)
    -- what is listed up to here begins with `t`, and none of the alternatives does
    · intro x hx y hy hpre
      obtain ⟨q, hq⟩ : ∃ q, x.1 = t :: q := by
        rcases List.mem_append.mp hx with hx | hx
        · obtain ⟨a, -, rfl⟩ := List.mem_map.mp hx
          exact ⟨[], rfl⟩
        · obtain ⟨z, -, rfl⟩ := List.mem_map.mp hx
          exact ⟨z.1, rfl⟩
      obtain ⟨p, a⟩ := y
      have ho := (mem_terminals hn).mp hy
      cases p with
      | nil => exact ne_nil_of_mem_terminals hy rfl
      | cons u r =>
        rw [hq] at hpre
        rw [(List.cons_prefix_cons.mp hpre).1, owner?_eq_none_of_head ht] at ho
        exact absurd ho (by simp)

/-- **No path is listed twice.** -/
theorem nodup_terminals {b : Branches α} (hd : b.Distinct) :
    (b.terminals.map Prod.fst).Nodup := by
  rw [List.Nodup, List.pairwise_map]
  refine (pairwise_terminals hd).imp fun h he => h ?_
  rw [he]

/-! ## One more owner -/

theorem terminals_spine (a : α) (index : Nat) (t : Test) (rest : List Test) :
    (spine a index t rest).terminals = [(t :: rest, a)] := by
  induction rest generalizing index t with
  | nil => rfl
  | cons f rest ih =>
    rw [spine, terminals, ih]
    rfl

/-- **A newcomer is put into the list, which otherwise stays as it is.** Where it is put depends on
what it shares with those that are there. -/
theorem terminals_insert {a : α} {index : Nat} (b : Branches α) (chain : List Test)
    {r : Placement α} (h : (b.insert a false index chain).1 = .ok r) :
    ∃ before after, b.terminals = before ++ after
      ∧ (b.insert a false index chain).2.terminals = before ++ (chain, a) :: after := by
  induction b, chain using chain_induction generalizing r with
  | empty b => exact absurd h (by simp)
  | fresh u rest => exact ⟨[], [], rfl, by rw [insert_fresh, terminals_spine]; rfl⟩
  | here i t o below next =>
    rw [insert_here] at h ⊢
    cases o with
    | some _ => exact absurd h (by simp [occupy])
    | none => exact ⟨[], _, rfl, rfl⟩
  | below i t o below next f rest ih =>
    rw [insert_below] at h ⊢
    cases hr : (below.insert a false index (f :: rest)).1 with
    | error e => rw [hr] at h; exact absurd h (by simp [Except.map])
    | ok r' =>
      obtain ⟨before, after, hold, hnew⟩ := ih hr
      refine ⟨o.toList.map (([t], ·)) ++ before.map (fun p => (t :: p.1, p.2)),
        after.map (fun p => (t :: p.1, p.2)) ++ next.terminals, ?_, ?_⟩
      · rw [terminals, hold, List.map_append]
        simp only [List.append_assoc]
      · rw [terminals, hnew, List.map_append, List.map_cons]
        simp only [List.append_assoc, List.cons_append]
  | next i t o below next u rest hne ih =>
    rw [insert_next hne] at h ⊢
    obtain ⟨before, after, hold, hnew⟩ := ih h
    refine ⟨o.toList.map (([t], ·)) ++ below.terminals.map (fun p => (t :: p.1, p.2)) ++ before,
      after, ?_, ?_⟩
    · rw [terminals, hold, List.append_assoc, List.append_assoc, List.append_assoc]
    · rw [terminals, hnew, List.append_assoc, List.append_assoc, List.append_assoc]

end Branches

theorem terminals_call {f : Forest α} {c : Call α} (hc : c.replace = false) {r : Placement α}
    (h : (f.call c).1 = .ok r) :
    ∃ before after, f.terminals = before ++ after
      ∧ (f.call c).2.terminals = before ++ (c.chain, c.owner) :: after := by
  obtain ⟨hok, hf⟩ := call_of_ok h
  rw [hc] at hok hf
  rw [hf]
  exact Branches.terminals_insert f.branches c.chain hok

/-! ## Who entered them -/

theorem getElem?_concat_eq_some {made : List (Call α)} {c d : Call α} {k : Nat} :
    (made ++ [d])[k]? = some c ↔ made[k]? = some c ∨ (k = made.length ∧ d = c) := by
  rcases Nat.lt_trichotomy k made.length with hlt | rfl | hgt
  · rw [List.getElem?_append_left hlt]
    refine ⟨.inl, ?_⟩
    intro hor
    rcases hor with hk | ⟨rfl, -⟩
    · exact hk
    · exact absurd hlt (Nat.lt_irrefl _)
  · rw [List.getElem?_concat_length, List.getElem?_eq_none (Nat.le_refl _)]
    simp
  · rw [List.getElem?_eq_none (by rw [List.length_append, List.length_singleton]; omega),
      List.getElem?_eq_none (Nat.le_of_lt hgt)]
    refine ⟨fun h => absurd h (by simp), ?_⟩
    intro hor
    rcases hor with hk | ⟨rfl, -⟩
    · exact hk
    · exact absurd hgt (Nat.lt_irrefl _)

/-- Who entered a chain last is who entered it and was not followed by another. -/
theorem lastOwner_eq_some {made : List (Call α)} {path : List Test} {a : α} :
    lastOwner made path = some a
      ↔ ∃ (k : Nat) (c : Call α), made[k]? = some c ∧ c.chain = path ∧ c.owner = a
          ∧ ∀ (j : Nat) (c' : Call α), k < j → made[j]? = some c' → c'.chain ≠ path := by
  induction made using List.reverseRecOn with
  | nil => simp [lastOwner]
  | append_singleton made d ih =>
    have hin : ∀ {k : Nat} {c : Call α}, made[k]? = some c → k < made.length := fun hk =>
      (List.getElem?_eq_some_iff.mp hk).1
    rw [lastOwner_concat]
    by_cases hp : path = d.chain
    · rw [if_pos hp]
      constructor
      · intro ho
        refine ⟨made.length, d, List.getElem?_concat_length, hp.symm, Option.some.inj ho, ?_⟩
        intro j c' hj hc'
        rcases getElem?_concat_eq_some.mp hc' with hc' | ⟨rfl, -⟩
        · have := hin hc'
          omega
        · exact absurd hj (Nat.lt_irrefl _)
      · intro hex
        obtain ⟨k, c, hk, -, rfl, hlater⟩ := hex
        rcases getElem?_concat_eq_some.mp hk with hk | ⟨-, rfl⟩
        -- whoever came earlier was followed by this call
        · exact absurd hp.symm (hlater _ d (hin hk) List.getElem?_concat_length)
        · rfl
    · rw [if_neg hp, ih]
      constructor
      · intro hex
        obtain ⟨k, c, hk, hc, ho, hlater⟩ := hex
        refine ⟨k, c, getElem?_concat_eq_some.mpr (.inl hk), hc, ho, ?_⟩
        intro j c' hj hc'
        rcases getElem?_concat_eq_some.mp hc' with hc' | ⟨-, rfl⟩
        · exact hlater j c' hj hc'
        · exact fun he => hp he.symm
      · intro hex
        obtain ⟨k, c, hk, hc, ho, hlater⟩ := hex
        rcases getElem?_concat_eq_some.mp hk with hk | ⟨-, rfl⟩
        · exact ⟨k, c, hk, hc, ho, fun j c' hj hc' =>
            hlater j c' hj (getElem?_concat_eq_some.mpr (.inl hc'))⟩
        · exact absurd hc.symm hp

/-- The list has, for every chain, who entered it last. -/
theorem Represents.mem_terminals {f : Forest α} {made : List (Call α)} (h : f.Represents made)
    {path : List Test} {a : α} : (path, a) ∈ f.terminals ↔ lastOwner made path = some a := by
  rw [terminals, Branches.mem_terminals h.distinct, h.owner?_eq]

end InstructionSet.Forest
