import InstructionSet.Proofs.FieldTable.Lawful
import Mathlib.Data.List.Perm.Subperm

/-!
# When fields can be brought together

There are as many numbers as 32 bits have, less one. A table of fields has one
entry for each name (`Collected`), so as long as no more names occur than there
are numbers, every list of formats has a table (`unify_total`). That table
reports a conflict exactly if two fields of one name lie differently somewhere,
whichever of them was declared first.
-/

namespace InstructionSet

theorem FieldId.exists_ofIndex? {index : Nat} (h : index + 1 < UInt32.size) :
    ∃ id, ofIndex? index = some id := by
  have hi : (UInt32.ofNat index).toNat = index := UInt32.toNat_ofNat_of_lt' (by omega)
  have hsum : (UInt32.ofNat index + 1).toNat = index + 1 := by
    rw [UInt32.toNat_add, hi]
    exact Nat.mod_eq_of_lt h
  have hne : UInt32.ofNat index + 1 ≠ 0 := by
    intro h0
    rw [h0] at hsum
    exact absurd hsum.symm (Nat.succ_ne_zero _)
  exact ⟨⟨_, hne⟩, dif_pos hne⟩

namespace FieldTable

/-- The names of the fields of the formats, each once. -/
def fieldNames (formats : List Format) : List String :=
  ((formats.flatMap Format.fields).map Field.name).eraseDups

/-- Fields of one name have one layout, in whatever formats they occur. -/
def Agree (formats : List Format) : Prop :=
  ∀ g ∈ formats.flatMap Format.fields, ∀ g' ∈ formats.flatMap Format.fields,
    g.name = g'.name → g.layout = g'.layout

/-! ## Collecting -/

/-- The table was collected from `fields`: its entries are among them, and each of them has an
entry. -/
structure Collected (t : FieldTable) (fields : List Field) : Prop where
  lawful : t.Lawful
  declared : ∀ e ∈ t.entries, e.declared ∈ fields
  named : ∀ g ∈ fields, ∃ e, t.entry? g.name = some e

theorem collected_empty : Collected {} [] where
  lawful := lawful_empty
  declared := by simp
  named := by simp

/-- A table has no more entries than there are names, and still fewer if one of them is new. -/
theorem Collected.size_lt_of_new {t : FieldTable} {before : List Field} (h : t.Collected before)
    {f : Field} (hnew : t.entry? f.name = none) {names : List String}
    (hnames : ∀ g ∈ before ++ [f], g.name ∈ names) : t.size < names.length := by
  have hnodup : (f.name :: t.entries.map fun e => e.declared.name).Nodup :=
    List.nodup_cons.mpr ⟨entry?_eq_none.mp hnew, h.lawful.names⟩
  have hsub : f.name :: (t.entries.map fun e => e.declared.name) ⊆ names := by
    intro name hn
    rcases List.mem_cons.mp hn with rfl | hn
    · exact hnames f (List.mem_append_right _ (List.mem_singleton_self _))
    · obtain ⟨e, he, rfl⟩ := List.mem_map.mp hn
      exact hnames e.declared (List.mem_append_left _ (h.declared e he))
  have hle := (List.subperm_of_subset hnodup hsub).length_le
  rw [List.length_cons, List.length_map] at hle
  exact hle

/-- An entry that is there is found under the same name in a longer table. -/
theorem entry?_append {t : FieldTable} {name : String} {e : Entry} (h : t.entry? name = some e)
    (later : List Entry) : entry? ⟨t.entries ++ later⟩ name = some e := by
  unfold entry? at h ⊢
  rw [List.find?_append, h]
  rfl

/-- A new entry is found under its name. -/
theorem entry?_concat {t : FieldTable} {name : String} (h : t.entry? name = none) {e : Entry}
    (he : e.declared.name = name) : entry? ⟨t.entries ++ [e]⟩ name = some e := by
  unfold entry? at h ⊢
  rw [List.find?_append, h]
  simp [he]

section Collect

variable {names : List String} (hlt : names.length < UInt32.size)
include hlt

theorem collected_insert {t : FieldTable} {before : List Field} (h : t.Collected before)
    (origin : String) {f : Field} (hnames : ∀ g ∈ before ++ [f], g.name ∈ names) :
    ∃ t', t.insert origin f = .ok t' ∧ t'.Collected (before ++ [f]) := by
  cases he : t.entry? f.name with
  | some e =>
    refine ⟨t, by rw [insert, he], h.lawful, ?_, ?_⟩
    · exact fun e he => List.mem_append_left _ (h.declared e he)
    · intro g hg
      rcases List.mem_append.mp hg with hg | hg
      · exact h.named g hg
      · exact ⟨e, by rw [List.mem_singleton.mp hg, he]⟩
  | none =>
    have hsize : t.size + 1 < UInt32.size := by
      have := h.size_lt_of_new he hnames
      omega
    obtain ⟨id, hid⟩ := FieldId.exists_ofIndex? hsize
    have hi : t.insert origin f = .ok ⟨t.entries ++ [{ id, declared := f, origin }]⟩ := by
      rw [insert, he]
      dsimp only
      rw [hid]
    refine ⟨_, hi, lawful_insert h.lawful hi, ?_, ?_⟩
    · intro e he
      rcases List.mem_append.mp he with he | he
      · exact List.mem_append_left _ (h.declared e he)
      · rw [List.mem_singleton.mp he]
        exact List.mem_append_right _ (List.mem_singleton_self _)
    · intro g hg
      rcases List.mem_append.mp hg with hg | hg
      · obtain ⟨e, he'⟩ := h.named g hg
        exact ⟨e, entry?_append he' _⟩
      · rw [List.mem_singleton.mp hg]
        exact ⟨{ id, declared := f, origin }, entry?_concat he rfl⟩

theorem collected_insertAll {t : FieldTable} {before : List Field} (h : t.Collected before)
    (origin : String) {fields : List Field}
    (hnames : ∀ g ∈ before ++ fields, g.name ∈ names) :
    ∃ t', t.insertAll origin fields = .ok t' ∧ t'.Collected (before ++ fields) := by
  induction fields generalizing t before with
  | nil => exact ⟨t, rfl, by rwa [List.append_nil]⟩
  | cons f rest ih =>
    have hassoc : before ++ f :: rest = (before ++ [f]) ++ rest := by simp
    rw [hassoc] at hnames ⊢
    obtain ⟨t₁, h₁, hc₁⟩ := collected_insert hlt h origin fun g hg =>
      hnames g (List.mem_append_left _ hg)
    obtain ⟨t', ht', hc'⟩ := ih hc₁ hnames
    refine ⟨t', ?_, hc'⟩
    rw [insertAll, h₁]
    exact ht'

theorem collected_collect {t : FieldTable} {before : List Field} (h : t.Collected before)
    {formats : List Format}
    (hnames : ∀ g ∈ before ++ formats.flatMap Format.fields, g.name ∈ names) :
    ∃ t', t.collect formats = .ok t'
      ∧ t'.Collected (before ++ formats.flatMap Format.fields) := by
  induction formats generalizing t before with
  | nil => exact ⟨t, rfl, by rwa [List.flatMap_nil, List.append_nil]⟩
  | cons f rest ih =>
    rw [List.flatMap_cons, ← List.append_assoc] at hnames ⊢
    obtain ⟨t₁, h₁, hc₁⟩ := collected_insertAll hlt h f.name fun g hg =>
      hnames g (List.mem_append_left _ hg)
    obtain ⟨t', ht', hc'⟩ := ih hc₁ hnames
    refine ⟨t', ?_, hc'⟩
    rw [collect, h₁]
    exact ht'

end Collect

/-! ## Conflicts -/

theorem conflicts_of_layout {e : Entry} {g : Field} (format : String)
    (h : e.declared.layout = g.layout) : e.conflicts format g = [] := by
  unfold Entry.conflicts
  rw [h]
  simp

/-- Fields that the table speaks for agree. -/
theorem SpeaksFor.agree {t : FieldTable} {formats : List Format} (h : t.SpeaksFor formats) :
    Agree formats := by
  intro g hg g' hg' hname
  obtain ⟨f, hf, hgf⟩ := List.mem_flatMap.mp hg
  obtain ⟨f', hf', hgf'⟩ := List.mem_flatMap.mp hg'
  obtain ⟨e, he, hlay⟩ := h f hf g hgf
  obtain ⟨e', he', hlay'⟩ := h f' hf' g' hgf'
  rw [hname, he'] at he
  rw [← hlay, ← hlay', Option.some.inj he]

/-- A table that was collected from the fields of formats speaks for them if they agree, and only
then. -/
theorem Collected.speaksFor_iff {t : FieldTable} {formats : List Format}
    (h : t.Collected (formats.flatMap Format.fields)) : t.SpeaksFor formats ↔ Agree formats := by
  refine ⟨SpeaksFor.agree, ?_⟩
  intro ha f hf g hg
  have hmem : g ∈ formats.flatMap Format.fields := List.mem_flatMap.mpr ⟨f, hf, hg⟩
  obtain ⟨e, he⟩ := h.named g hmem
  have hdeclared := h.declared e (List.mem_of_find?_eq_some he)
  have hname := name_of_entry? he
  exact ⟨e, he, ha _ hdeclared g hmem hname⟩

theorem conflicts_eq_nil_iff {t : FieldTable} {formats : List Format} :
    (formats.flatMap fun f => t.conflicts f.name f.fields) = [] ↔ t.SpeaksFor formats := by
  refine ⟨speaksFor_of_conflicts, ?_⟩
  intro hs
  rw [List.flatMap_eq_nil_iff]
  intro f hf
  rw [conflicts, List.flatMap_eq_nil_iff]
  intro g hg
  obtain ⟨e, he, hlay⟩ := hs f hf g hg
  rw [fieldConflicts, he]
  exact conflicts_of_layout f.name hlay

/-- **Formats with no more names than there are numbers can be brought together, and there is a
conflict unless their fields agree.** -/
theorem unify_total {formats : List Format} (hlt : (fieldNames formats).length < UInt32.size) :
    ∃ u, unify formats = .ok u ∧ (u.conflicts = [] ↔ Agree formats) := by
  have hnames : ∀ g ∈ [] ++ formats.flatMap Format.fields, g.name ∈ fieldNames formats := by
    intro g hg
    exact List.mem_eraseDups.mpr (List.mem_map_of_mem hg)
  obtain ⟨t, ht, hc⟩ := collected_collect hlt collected_empty hnames
  refine ⟨_, by rw [unify, ht], ?_⟩
  rw [List.nil_append] at hc
  rw [← hc.speaksFor_iff]
  exact conflicts_eq_nil_iff

end FieldTable

end InstructionSet
