import Mathlib.Data.List.Forall2
import Mathlib.Data.List.Induction
import Mathlib.Data.List.Nodup

/-!
# Searching lists

A description is a list of named things, and what a name stands for is the first thing
that bears it. Where no two share a name that is the only one (`find?_key`), so that the
order of the list does not matter (`find?_perm`). Where they may, `List.eraseDups` lists
the names in the order in which they first appear.
-/

namespace InstructionSet

variable {α β κ : Type} [DecidableEq κ]

/-- Where a key occurs once, looking for it finds what has it. -/
theorem find?_key (key : α → κ) {l : List α} (h : (l.map key).Nodup) {a : α} (ha : a ∈ l) :
    l.find? (fun b => key b = key a) = some a := by
  cases hfind : l.find? (fun b => key b = key a) with
  | none => exact absurd (decide_eq_true rfl) (List.find?_eq_none.mp hfind a ha)
  | some b =>
    have hkey : key b = key a := by simpa using List.find?_some hfind
    rw [List.inj_on_of_nodup_map h (List.mem_of_find?_eq_some hfind) ha hkey]

/-- Where no key occurs twice, what is found does not depend on the order. -/
theorem find?_perm (key : α → κ) {l l' : List α} (h : (l.map key).Nodup) (hperm : l.Perm l')
    (k : κ) : l.find? (fun a => key a = k) = l'.find? (fun a => key a = k) := by
  cases hfind : l.find? (fun a => key a = k) with
  | none =>
    refine (List.find?_eq_none.mpr fun a ha => ?_).symm
    exact List.find?_eq_none.mp hfind a (hperm.mem_iff.mpr ha)
  | some a =>
    obtain rfl : key a = k := by simpa using List.find?_some hfind
    have ha := hperm.mem_iff.mp (List.mem_of_find?_eq_some hfind)
    rw [find?_key key ((hperm.map key).nodup_iff.mp h) ha]

/-- In a list that is in order, whatever might have been found stands behind what is found. -/
theorem eq_or_rel_of_find? {R : α → α → Prop} {p : α → Bool} {l : List α} (hl : l.Pairwise R)
    {a b : α} (hfind : l.find? p = some a) (hb : b ∈ l) (hp : p b = true) : b = a ∨ R a b := by
  obtain ⟨-, before, after, rfl, hnone⟩ := List.find?_eq_some_iff_append.mp hfind
  rcases List.mem_append.mp hb with hb | hb
  · exact absurd hp (by simpa using hnone b hb)
  · rcases List.mem_cons.mp hb with rfl | hb
    · exact .inl rfl
    · exact .inr ((List.pairwise_cons.mp (List.pairwise_append.mp hl).2.1).1 b hb)

/-- Searches of related lists that agree on what is related find something related. -/
theorem rel_map_find? {γ δ : Type} {Q : α → β → Prop} {P : γ → δ → Prop} {p : α → Bool}
    {p' : β → Bool} {f : α → γ} {f' : β → δ} {l : List α} {l' : List β}
    (h : List.Forall₂ Q l l') (hp : ∀ x ∈ l, ∀ x' ∈ l', Q x x' → p x = p' x')
    (hf : ∀ x ∈ l, ∀ x' ∈ l', Q x x' → P (f x) (f' x')) :
    Option.Rel P ((l.find? p).map f) ((l'.find? p').map f') := by
  induction h with
  | nil => exact .none
  | @cons x x' rest rest' hx _ ih =>
    have hrest := ih
      (fun y hy y' hy' => hp y (List.mem_cons_of_mem x hy) y' (List.mem_cons_of_mem x' hy'))
      (fun y hy y' hy' => hf y (List.mem_cons_of_mem x hy) y' (List.mem_cons_of_mem x' hy'))
    rw [List.find?_cons, List.find?_cons, ← hp x List.mem_cons_self x' List.mem_cons_self hx]
    cases p x with
    | true => exact .some (hf x List.mem_cons_self x' List.mem_cons_self hx)
    | false => exact hrest

/-! ## The first of each -/

theorem eraseDups_concat (l : List κ) (k : κ) :
    (l ++ [k]).eraseDups = if k ∈ l then l.eraseDups else l.eraseDups ++ [k] := by
  rw [List.eraseDups_append, List.removeAll]
  split <;> rename_i h <;> simp [h, List.eraseDups_cons]

theorem nodup_eraseDups (l : List κ) : l.eraseDups.Nodup := by
  induction l using List.reverseRecOn with
  | nil => exact List.nodup_nil
  | append_singleton l k ih =>
    rw [eraseDups_concat]
    split
    · exact ih
    · rename_i hnew
      refine ih.append (List.nodup_singleton k) ?_
      intro a ha hk
      rw [List.mem_singleton.mp hk] at ha
      exact hnew (List.mem_eraseDups.mp ha)

end InstructionSet
