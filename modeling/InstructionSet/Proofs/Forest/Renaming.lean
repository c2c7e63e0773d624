import InstructionSet.Proofs.Forest.Terminals
import Mathlib.Data.List.Forall2

/-!
# Forests that differ in names

A forest does not care what its tests are about. All that is ever asked of two tests
is whether they are the same, so if the tests of every chain are replaced by others,
and the same always by the same and different ones by different ones, the chains find
the same places, and the forests have one shape (`related_after`). Nor does it care
who its owners are.

The replacement is a relation between tests, and need not be a function of them that
anybody could compute: two descriptions that number their fields differently have
related tests where both ask for one name.
-/

namespace InstructionSet.Forest

variable {α β : Type}

/-- Levels of one shape and numbering, with related tests and related owners in the same places. -/
inductive Branches.Related (R : Test → Test → Prop) (S : α → β → Prop) :
    Branches α → Branches β → Prop
  | nil : Related R S .nil .nil
  | node {index : Nat} {t t' : Test} {owner : Option α} {owner' : Option β}
      {below next : Branches α} {below' next' : Branches β} :
      R t t' → Option.Rel S owner owner' → Related R S below below' → Related R S next next' →
      Related R S (.node index t owner below next) (.node index t' owner' below' next')

/-- Forests of one shape. -/
def Related (R : Test → Test → Prop) (S : α → β → Prop) (f : Forest α) (f' : Forest β) : Prop :=
  f.branches.Related R S f'.branches

/-- Related chains are entered for related owners. -/
structure Call.Related (R : Test → Test → Prop) (S : α → β → Prop) (c : Call α) (c' : Call β) :
    Prop where
  owner : S c.owner c'.owner
  chain : List.Forall₂ R c.chain c'.chain
  replace : c.replace = c'.replace

/-- An owner with related tests leading to it. -/
def TerminalRelated (R : Test → Test → Prop) (S : α → β → Prop) (x : List Test × α)
    (x' : List Test × β) : Prop :=
  List.Forall₂ R x.1 x'.1 ∧ S x.2 x'.2

variable {R : Test → Test → Prop} {S : α → β → Prop}

namespace Branches

theorem Related.size_eq {b : Branches α} {b' : Branches β} (h : b.Related R S b') :
    b.size = b'.size := by
  induction h with
  | nil => rfl
  | node _ _ _ _ ihb ihn => rw [size, size, ihb, ihn]

/-- Forests of one shape list related owners. -/
theorem Related.terminals {b : Branches α} {b' : Branches β} (h : b.Related R S b') :
    List.Forall₂ (TerminalRelated R S) b.terminals b'.terminals := by
  induction h with
  | nil => exact .nil
  | @node index t t' owner owner' _ _ _ _ ht ho _ _ ihb ihn =>
    rw [Branches.terminals, Branches.terminals]
    refine List.rel_append (List.rel_append ?_ ?_) ihn
    · cases ho with
      | none => exact .nil
      | some hs => exact .cons ⟨.cons ht .nil, hs⟩ .nil
    · rw [List.forall₂_map_left_iff, List.forall₂_map_right_iff]
      exact ihb.imp fun _ _ hx => ⟨.cons ht hx.1, hx.2⟩

/-! ## One more chain -/

theorem related_spine {a : α} {a' : β} (ha : S a a') {t t' : Test} (ht : R t t')
    {rest rest' : List Test} (hrest : List.Forall₂ R rest rest') (index : Nat) :
    (spine a index t rest).Related R S (spine a' index t' rest') := by
  induction hrest generalizing index t t' with
  | nil => exact .node ht (.some ha) .nil .nil
  | cons hf _ ih => exact .node ht .none (ih hf (index + 1)) .nil

theorem related_occupy {a : α} {a' : β} (ha : S a a') (replace : Bool) (index : Nat)
    {t t' : Test} (ht : R t t') {owner : Option α} {owner' : Option β}
    (ho : Option.Rel S owner owner') {below next : Branches α} {below' next' : Branches β}
    (hb : below.Related R S below') (hn : next.Related R S next') :
    (occupy a replace index t owner below next).2.Related R S
      (occupy a' replace index t' owner' below' next').2 := by
  cases ho with
  | none => exact .node ht (.some ha) hb hn
  | some hs =>
    cases replace with
    | false => exact .node ht (.some hs) hb hn
    | true => exact .node ht (.some ha) hb hn

/-- **Related chains find the same place.** -/
theorem related_insert (hR : Relator.BiUnique R) {a : α} {a' : β} (ha : S a a') (replace : Bool)
    (index : Nat) {b : Branches α} {b' : Branches β} (hb : b.Related R S b')
    {chain chain' : List Test} (hc : List.Forall₂ R chain chain') :
    (b.insert a replace index chain).2.Related R S (b'.insert a' replace index chain').2 := by
  induction hb generalizing chain chain' with
  | nil =>
    cases hc with
    | nil => exact .nil
    | cons hu hrest => exact related_spine ha hu hrest index
  | @node i t t' o o' below next below' next' ht ho hbelow hnext ihb ihn =>
    cases hc with
    | nil => exact .node ht ho hbelow hnext
    | @cons u u' rest rest' hu hrest =>
      have hiff : t = u ↔ t' = u' := Relator.rel_eq hR ht hu
      by_cases htu : t = u
      · obtain rfl : t' = u' := hiff.mp htu
        subst htu
        cases hrest with
        | nil =>
          rw [insert_here, insert_here]
          exact related_occupy ha replace i ht ho hbelow hnext
        | cons hf hrest =>
          rw [insert_below, insert_below]
          exact .node ht ho (ihb (.cons hf hrest)) hnext
      · rw [insert_next htu, insert_next fun h => htu (hiff.mpr h)]
        exact .node ht ho hbelow (ihn (.cons hu hrest))

end Branches

theorem related_empty : ({} : Forest α).Related R S ({} : Forest β) := Branches.Related.nil

theorem branches_call (f : Forest α) (c : Call α) :
    (f.call c).2.branches = (f.branches.insert c.owner c.replace f.size c.chain).2 := by
  unfold call insert
  dsimp only
  split <;> rfl

theorem related_call (hR : Relator.BiUnique R) {f : Forest α} {f' : Forest β}
    (h : f.Related R S f') {c : Call α} {c' : Call β} (hc : c.Related R S c') :
    (f.call c).2.Related R S (f'.call c').2 := by
  have hsize : f.size = f'.size := Branches.Related.size_eq h
  unfold Related
  rw [branches_call, branches_call, hc.replace, hsize]
  exact Branches.related_insert hR hc.owner c'.replace f'.size h hc.chain

/-- **Every run.** -/
theorem related_after (hR : Relator.BiUnique R) {f : Forest α} {f' : Forest β}
    (h : f.Related R S f') {calls : List (Call α)} {calls' : List (Call β)}
    (hc : List.Forall₂ (Call.Related R S) calls calls') :
    (f.after calls).Related R S (f'.after calls') := by
  induction hc generalizing f f' with
  | nil => exact h
  | cons hc _ ih => exact ih (related_call hR h hc)

end InstructionSet.Forest
