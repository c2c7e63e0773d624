import InstructionSet.Forest.Insert
import Mathlib.Data.List.Infix
import Mathlib.Data.List.Nodup

/-!
# What a forest holds, chain by chain

A forest is searched node by node, but what it means is a map: every non-empty
beginning of a chain that was entered has a node, and the node of a whole chain
has an owner. `Branches.at?` reads the map off the nodes, and the lemmas here say
what `Branches.insert` does to it:

* a refused chain changes nothing at all,
* an accepted one makes the beginnings that were missing, numbered in order of
  length, and owns the last of them; every other entry stays as it was.

That the map tells the whole truth needs one property of the nodes, which
insertion keeps: no level offers a test twice.
-/

namespace InstructionSet.Forest

/-- The non-empty beginnings of a chain, the shortest first. -/
def prefixes (chain : List Test) : List (List Test) := chain.inits.tail

@[simp] theorem prefixes_nil : prefixes [] = [] := rfl

theorem prefixes_cons (t : Test) (rest : List Test) :
    prefixes (t :: rest) = [t] :: (prefixes rest).map (t :: ·) := by
  unfold prefixes
  rw [List.inits_cons, List.tail_cons]
  cases rest with
  | nil => rfl
  | cons f rest => rw [List.inits_cons, List.map_cons, List.tail_cons]

theorem mem_prefixes {p chain : List Test} : p ∈ prefixes chain ↔ p ≠ [] ∧ p <+: chain := by
  induction chain generalizing p with
  | nil => simp [prefixes_nil]
  | cons t rest ih =>
    rw [prefixes_cons, List.mem_cons, List.mem_map]
    constructor
    · intro hor
      rcases hor with rfl | ⟨q, hq, rfl⟩
      · exact ⟨by simp, by simp⟩
      · exact ⟨by simp, List.cons_prefix_cons.mpr ⟨rfl, (ih.mp hq).2⟩⟩
    · intro hand
      obtain ⟨hne, hpre⟩ := hand
      cases p with
      | nil => exact absurd rfl hne
      | cons u q =>
        obtain ⟨rfl, hq⟩ := List.cons_prefix_cons.mp hpre
        cases q with
        | nil => exact Or.inl rfl
        | cons v q => exact Or.inr ⟨v :: q, ih.mpr ⟨by simp, hq⟩, rfl⟩

theorem nodup_prefixes (chain : List Test) : (prefixes chain).Nodup := by
  induction chain with
  | nil => rw [prefixes_nil]; exact List.nodup_nil
  | cons t rest ih =>
    rw [prefixes_cons, List.nodup_cons]
    refine ⟨?_, ih.map (fun _ _ h => (List.cons.inj h).2)⟩
    -- the other beginnings have the test in front of something
    intro h
    obtain ⟨q, hq, he⟩ := List.mem_map.mp h
    exact (mem_prefixes.mp hq).1 (List.cons.inj he).2

theorem length_prefixes (chain : List Test) : (prefixes chain).length = chain.length := by
  rw [prefixes, List.length_tail, List.length_inits, Nat.add_sub_cancel]

theorem idxOf?_map_cons (t u : Test) (l : List (List Test)) (q : List Test) :
    (l.map (t :: ·)).idxOf? (u :: q) = if t = u then l.idxOf? q else none := by
  unfold List.idxOf?
  rw [List.findIdx?_map]
  by_cases h : t = u
  · subst h
    rw [if_pos rfl]
    congr 1
    funext r
    simp
  · rw [if_neg h, List.findIdx?_eq_none_iff]
    intro r _
    simp [h]

theorem idxOf?_prefixes_cons (t u : Test) (rest q : List Test) :
    (prefixes (t :: rest)).idxOf? (u :: q)
      = if t = u then (if q = [] then some 0 else ((prefixes rest).idxOf? q).map (· + 1))
        else none := by
  rw [prefixes_cons, List.idxOf?_cons, idxOf?_map_cons]
  by_cases h : t = u
  · subst h
    cases q <;> simp
  · simp [h]

@[simp] theorem idxOf?_prefixes_empty (chain : List Test) :
    (prefixes chain).idxOf? [] = none := by
  rw [List.idxOf?_eq_none_iff, mem_prefixes]
  exact fun h => h.1 rfl

namespace Branches

variable {α : Type}

/-! ## The map -/

/-- The number of the node that a path of tests leads to, and its owner. -/
def at? : Branches α → List Test → Option (Nat × Option α)
  | nil, _ => none
  | node .., [] => none
  | node index test owner below next, t :: rest =>
    if test = t then
      match rest with
      | [] => some (index, owner)
      | following :: rest => below.at? (following :: rest)
    else next.at? (t :: rest)

def number? (b : Branches α) (path : List Test) : Option Nat := (b.at? path).map Prod.fst

def owner? (b : Branches α) (path : List Test) : Option α := (b.at? path).bind Prod.snd

@[simp] theorem at?_nil (path : List Test) : (nil : Branches α).at? path = none := rfl

@[simp] theorem at?_empty (b : Branches α) : b.at? [] = none := by
  cases b <;> rfl

@[simp] theorem at?_here (i : Nat) (t : Test) (o : Option α) (below next : Branches α) :
    (node i t o below next).at? [t] = some (i, o) := by
  simp [at?]

@[simp] theorem at?_below (i : Nat) (t f : Test) (o : Option α) (below next : Branches α)
    (rest : List Test) :
    (node i t o below next).at? (t :: f :: rest) = below.at? (f :: rest) := by
  simp [at?]

theorem at?_below_of_ne_nil (i : Nat) (t : Test) (o : Option α) (below next : Branches α)
    {path : List Test} (h : path ≠ []) :
    (node i t o below next).at? (t :: path) = below.at? path := by
  cases path with
  | nil => exact absurd rfl h
  | cons f rest => exact at?_below ..

theorem at?_next {i : Nat} {t u : Test} (h : t ≠ u) (o : Option α) (below next : Branches α)
    (rest : List Test) :
    (node i t o below next).at? (u :: rest) = next.at? (u :: rest) := by
  simp [at?, h]

theorem at?_cons (i : Nat) (t u : Test) (o : Option α) (below next : Branches α)
    (q : List Test) :
    (node i t o below next).at? (u :: q)
      = if t = u then (if q = [] then some (i, o) else below.at? q) else next.at? (u :: q) := by
  by_cases h : t = u
  · subst h
    rw [if_pos rfl]
    cases q with
    | nil => rw [at?_here, if_pos rfl]
    | cons f q => rw [at?_below, if_neg (by simp)]
  · rw [if_neg h, at?_next h]

theorem number?_cons (i : Nat) (t u : Test) (o : Option α) (below next : Branches α)
    (q : List Test) :
    (node i t o below next).number? (u :: q)
      = if t = u then (if q = [] then some i else below.number? q)
        else next.number? (u :: q) := by
  unfold number?
  rw [at?_cons]
  split
  · split <;> rfl
  · rfl

theorem owner?_cons (i : Nat) (t u : Test) (o : Option α) (below next : Branches α)
    (q : List Test) :
    (node i t o below next).owner? (u :: q)
      = if t = u then (if q = [] then o else below.owner? q) else next.owner? (u :: q) := by
  unfold owner?
  rw [at?_cons]
  split
  · split <;> rfl
  · rfl

@[simp] theorem number?_empty (b : Branches α) : b.number? [] = none := by simp [number?]

@[simp] theorem owner?_empty (b : Branches α) : b.owner? [] = none := by simp [owner?]

theorem ne_nil_of_owner? {b : Branches α} {path : List Test} {a : α}
    (h : b.owner? path = some a) : path ≠ [] := by
  intro he
  rw [he, owner?_empty] at h
  exact absurd h (by simp)

@[simp] theorem number?_nil (p : List Test) : (nil : Branches α).number? p = none := rfl

@[simp] theorem owner?_nil (p : List Test) : (nil : Branches α).owner? p = none := rfl

/--
The five ways in which a chain can meet a level: it has no test left, the level
has no alternative left, its only test is the level's first, its first test is
but there are more, or its first test is not.
-/
@[elab_as_elim]
theorem chain_induction {motive : Branches α → List Test → Prop}
    (empty : ∀ b, motive b [])
    (fresh : ∀ u rest, motive nil (u :: rest))
    (here : ∀ i t o below next, motive (node i t o below next) [t])
    (below : ∀ i t o below next f rest, motive below (f :: rest) →
      motive (node i t o below next) (t :: f :: rest))
    (next : ∀ i t o below next u rest, t ≠ u → motive next (u :: rest) →
      motive (node i t o below next) (u :: rest))
    (b : Branches α) (chain : List Test) : motive b chain := by
  induction b generalizing chain with
  | nil =>
    cases chain with
    | nil => exact empty nil
    | cons u rest => exact fresh u rest
  | node i t o b n ihb ihn =>
    cases chain with
    | nil => exact empty _
    | cons u rest =>
      by_cases h : t = u
      · subst h
        cases rest with
        | nil => exact here i t o b n
        | cons f rest => exact below i t o b n f rest (ihb (f :: rest))
      · exact next i t o b n u rest h (ihn (u :: rest))

/-! ## The equations of insertion -/

variable {a : α} {replace : Bool} {index : Nat}

@[simp] theorem insert_empty (b : Branches α) :
    b.insert a replace index [] = (.error .emptyChain, b) := by
  cases b <;> rfl

@[simp] theorem insert_fresh (u : Test) (rest : List Test) :
    (nil : Branches α).insert a replace index (u :: rest)
      = (.ok {}, spine a index u rest) := rfl

@[simp] theorem insert_here (i : Nat) (t : Test) (o : Option α) (below next : Branches α) :
    (node i t o below next).insert a replace index [t] = occupy a replace i t o below next := by
  simp [insert]

@[simp] theorem insert_below (i : Nat) (t f : Test) (o : Option α) (below next : Branches α)
    (rest : List Test) :
    (node i t o below next).insert a replace index (t :: f :: rest)
      = ((below.insert a replace index (f :: rest)).1.map (Placement.behind o),
        node i t o (below.insert a replace index (f :: rest)).2 next) := by
  simp [insert]

theorem insert_next {i : Nat} {t u : Test} (h : t ≠ u) (o : Option α) (below next : Branches α)
    (rest : List Test) :
    (node i t o below next).insert a replace index (u :: rest)
      = ((next.insert a replace index (u :: rest)).1,
        node i t o below (next.insert a replace index (u :: rest)).2) := by
  simp [insert, h]

/-! ## What insertion does to the map -/

/-- **A refused chain changes nothing.** A chain is refused at its last node, and that node has an
owner only if all of the chain was there before. -/
theorem insert_of_error (b : Branches α) (chain : List Test) {r : Refusal α}
    (h : (b.insert a replace index chain).1 = .error r) :
    (b.insert a replace index chain).2 = b := by
  induction b, chain using chain_induction with
  | empty b => rw [insert_empty]
  | fresh u rest => exact absurd h (by simp)
  | here i t o below next =>
    rw [insert_here] at h ⊢
    cases o <;> cases replace <;> simp [occupy] at h ⊢
  | below i t o below next f rest ih =>
    rw [insert_below] at h ⊢
    cases hr : (below.insert a replace index (f :: rest)).1 with
    | ok p => rw [hr] at h; exact absurd h (by simp [Except.map])
    | error r' =>
      -- the refusal comes from below, where it changed nothing
      rw [hr] at h
      injection h with h
      subst h
      rw [ih hr]
  | next i t o below next u rest hne ih =>
    rw [insert_next hne] at h ⊢
    rw [ih h]

/-- The beginnings of `chain` that have no node yet, the shortest first. -/
def missing (b : Branches α) (chain : List Test) : List (List Test) :=
  (prefixes chain).filter fun p => (b.at? p).isNone

theorem missing_nil (chain : List Test) : (nil : Branches α).missing chain = prefixes chain := by
  simp [missing]

theorem missing_below (i : Nat) (t : Test) (o : Option α) (below next : Branches α)
    (rest : List Test) :
    (node i t o below next).missing (t :: rest) = (below.missing rest).map (t :: ·) := by
  unfold missing
  rw [prefixes_cons, List.filter_cons_of_neg (by simp), List.filter_map]
  congr 1
  apply List.filter_congr
  intro p hp
  rw [Function.comp_apply, at?_below_of_ne_nil _ _ _ _ _ (mem_prefixes.mp hp).1]

theorem missing_next {i : Nat} {t u : Test} (h : t ≠ u) (o : Option α) (below next : Branches α)
    (rest : List Test) :
    (node i t o below next).missing (u :: rest) = next.missing (u :: rest) := by
  unfold missing
  apply List.filter_congr
  intro p hp
  rw [prefixes_cons, List.mem_cons, List.mem_map] at hp
  rcases hp with rfl | ⟨q, _, rfl⟩
  · rw [at?_next h]
  · rw [at?_next h]

theorem mem_missing {b : Branches α} {p chain : List Test} :
    p ∈ b.missing chain ↔ (p ≠ [] ∧ p <+: chain) ∧ b.at? p = none := by
  rw [missing, List.mem_filter, mem_prefixes, Option.isNone_iff_eq_none]

@[simp] theorem idxOf?_missing_empty (b : Branches α) (chain : List Test) :
    (b.missing chain).idxOf? [] = none := by
  rw [List.idxOf?_eq_none_iff, mem_missing]
  exact fun h => h.1.1 rfl

/-- A chain on its own has a node for each of its beginnings, numbered one after the other. -/
theorem number?_spine (a : α) (index : Nat) (u : Test) (rest p : List Test) :
    (spine a index u rest).number? p = ((prefixes (u :: rest)).idxOf? p).map (· + index) := by
  induction rest generalizing index u p with
  | nil =>
    cases p with
    | nil => simp
    | cons v q =>
      rw [spine, number?_cons, idxOf?_prefixes_cons]
      split
      · split <;> simp
      · simp
  | cons f rest ih =>
    cases p with
    | nil => simp
    | cons v q =>
      rw [spine, number?_cons, idxOf?_prefixes_cons, ih]
      split
      · split
        · simp
        · rw [Option.map_map]
          congr 1
          funext k
          simp [Nat.add_comm, Nat.add_left_comm]
      · simp

/-- A chain on its own has an owner at its end, and nowhere else. -/
theorem owner?_spine (a : α) (index : Nat) (u : Test) (rest p : List Test) :
    (spine a index u rest).owner? p = if p = u :: rest then some a else none := by
  induction rest generalizing index u p with
  | nil =>
    cases p with
    | nil => simp
    | cons v q =>
      rw [spine, owner?_cons]
      by_cases h : u = v
      · subst h
        by_cases hq : q = [] <;> simp [hq]
      · simp [h, Ne.symm h]
  | cons f rest ih =>
    cases p with
    | nil => simp
    | cons v q =>
      rw [spine, owner?_cons, ih]
      by_cases h : u = v
      · subst h
        by_cases hq : q = [] <;> simp [hq]
      · simp [h, Ne.symm h]

/-- **The numbers after insertion.** Nodes keep their numbers, and the missing ones are numbered
from `index` on. -/
theorem number?_insert (b : Branches α) (chain p : List Test) :
    (b.insert a replace index chain).2.number? p
      = (b.number? p).or (((b.missing chain).idxOf? p).map (· + index)) := by
  induction b, chain using chain_induction generalizing p with
  | empty b => simp [missing]
  | fresh u rest => rw [insert_fresh, number?_spine, missing_nil, number?_nil, Option.none_or]
  | here i t o below next =>
    cases p with
    | nil => simp
    | cons v q =>
      rw [insert_here, missing_below]
      cases o <;> cases replace <;> simp [occupy, number?_cons, missing]
  | below i t o below next f rest ih =>
    cases p with
    | nil => simp
    | cons v q =>
      rw [insert_below, missing_below, number?_cons, number?_cons, idxOf?_map_cons, ih]
      by_cases h : t = v
      · by_cases hq : q = []
        · simp [h, hq]
        · simp [h, hq]
      · simp [h]
  | next i t o below next u rest hne ih =>
    cases p with
    | nil => simp
    | cons v q =>
      rw [insert_next hne, missing_next hne, number?_cons, number?_cons, ih]
      by_cases h : t = v
      -- the path goes below the node, where the chain does not lead
      · have hnot : (next.missing (u :: rest)).idxOf? (v :: q) = none := by
          rw [List.idxOf?_eq_none_iff]
          intro hm
          have hpre := (mem_missing.mp hm).1.2
          exact hne (h.trans (List.cons_prefix_cons.mp hpre).1)
        simp [h, hnot]
      · simp [h]

/-- **The owners after insertion.** The chain has its new owner, and no other owner changes. -/
theorem owner?_insert (b : Branches α) (chain : List Test) {r : Placement α}
    (h : (b.insert a replace index chain).1 = .ok r) (p : List Test) :
    (b.insert a replace index chain).2.owner? p
      = if p = chain then some a else b.owner? p := by
  induction b, chain using chain_induction generalizing p r with
  | empty b => exact absurd h (by simp)
  | fresh u rest => rw [insert_fresh, owner?_spine, owner?_nil]
  | here i t o below next =>
    rw [insert_here] at h ⊢
    have hoc : (occupy a replace i t o below next).2 = node i t (some a) below next := by
      cases o <;> cases replace <;> simp [occupy] at h ⊢
    rw [hoc]
    cases p with
    | nil => simp
    | cons v q =>
      rw [owner?_cons, owner?_cons]
      by_cases hv : t = v
      · subst hv
        by_cases hq : q = [] <;> simp [hq]
      · simp [hv, Ne.symm hv]
  | below i t o below next f rest ih =>
    rw [insert_below] at h ⊢
    cases hr : (below.insert a replace index (f :: rest)).1 with
    | error e => rw [hr] at h; exact absurd h (by simp [Except.map])
    | ok r' =>
      -- a path that does not begin with the test ends elsewhere, and its owner stays
      cases p with
      | nil => simp
      | cons v q =>
        rw [owner?_cons, owner?_cons, ih hr]
        by_cases hv : t = v
        · subst hv
          by_cases hq : q = [] <;> simp [hq]
        · simp [hv, Ne.symm hv]
  | next i t o below next u rest hne ih =>
    rw [insert_next hne] at h ⊢
    cases p with
    | nil => simp
    | cons v q =>
      rw [owner?_cons, owner?_cons, ih h]
      by_cases hv : t = v
      · subst hv
        have hcons : t :: q ≠ u :: rest := fun he => hne (List.cons.inj he).1
        simp [hcons]
      · simp [hv]

end Branches

end InstructionSet.Forest
