import InstructionSet.FieldTable.Basic
import InstructionSet.Proofs.Lists

/-!
# Tables in which a number is a place

A table of fields is made by entering one field after the other, and a field
whose name is there already leaves it as it is. So no name occurs twice, and the
number of a name says where it stands (`Lawful`). If the fields of the formats
agree, the table speaks for each of them (`SpeaksFor`): whoever has the name of a
field finds, under its number, a field that lies where this one does.
-/

namespace InstructionSet

namespace FieldId

theorem index_of_ofIndex? {index : Nat} {id : FieldId} (h : ofIndex? index = some id)
    (hi : index < UInt32.size) : id.index = index ∧ index + 1 < UInt32.size := by
  unfold ofIndex? ofNumber? at h
  split at h
  · rename_i hne
    injection h with h
    rw [← h, FieldId.index]
    have hsum : (UInt32.ofNat index + 1).toNat = (index + 1) % UInt32.size := by
      rw [UInt32.toNat_add, UInt32.toNat_ofNat_of_lt' hi]
      rfl
    -- the sum of the last index wraps around to zero, which is no number
    have hlt : index + 1 < UInt32.size := by
      rcases Nat.lt_or_ge (index + 1) UInt32.size with hlt | hge
      · exact hlt
      · have he : index + 1 = UInt32.size := by omega
        rw [he, Nat.mod_self] at hsum
        exact absurd (UInt32.toNat_inj.mp hsum) hne
    dsimp only
    rw [hsum, Nat.mod_eq_of_lt hlt]
    exact ⟨by omega, hlt⟩
  · exact absurd h (by simp)

theorem index_inj {id id' : FieldId} (h : id.index = id'.index) : id = id' := by
  have hs : id.slot = id'.slot := by rw [slot_eq_index_add_one, slot_eq_index_add_one, h]
  obtain ⟨val, hne⟩ := id
  obtain ⟨val', hne'⟩ := id'
  have hv : val = val' := UInt32.toNat_inj.mp hs
  subst hv
  rfl

end FieldId

namespace FieldTable

/-- Numbers are places, and no name occurs twice. -/
structure Lawful (t : FieldTable) : Prop where
  index_eq : ∀ (k : Nat) (e : Entry), t.entries[k]? = some e → e.id.index = k
  names : (t.entries.map fun e => e.declared.name).Nodup
  /-- There are numbers for all names. -/
  size_lt : t.size < UInt32.size

/-! ## Entering fields -/

theorem lawful_empty : Lawful {} where
  index_eq := by simp
  names := List.nodup_nil
  size_lt := by decide

theorem entry?_eq_none {t : FieldTable} {name : String} :
    t.entry? name = none ↔ name ∉ t.entries.map fun e => e.declared.name := by
  unfold entry?
  rw [List.find?_eq_none]
  simp

/-- A field of a known name changes nothing; one of a new name gets the next number. -/
theorem insert_cases {t t' : FieldTable} {origin : String} {f : Field}
    (hi : t.insert origin f = .ok t') :
    (t' = t ∧ ∃ e, t.entry? f.name = some e)
      ∨ (t.entry? f.name = none ∧ ∃ id, FieldId.ofIndex? t.size = some id
        ∧ t' = ⟨t.entries ++ [{ id, declared := f, origin }]⟩) := by
  unfold insert at hi
  split at hi
  · rename_i e he
    exact .inl ⟨(Except.ok.inj hi).symm, e, he⟩
  · rename_i hnew
    split at hi
    · exact absurd hi (by simp)
    · rename_i id hid
      exact .inr ⟨hnew, id, hid, (Except.ok.inj hi).symm⟩

theorem lawful_insert {t t' : FieldTable} (h : t.Lawful) {origin : String} {f : Field}
    (hi : t.insert origin f = .ok t') : t'.Lawful := by
  obtain ⟨rfl, -⟩ | ⟨hname, id, hid, rfl⟩ := insert_cases hi
  · exact h
  · obtain ⟨hindex, hlt⟩ := FieldId.index_of_ofIndex? hid h.size_lt
    refine ⟨?_, ?_, ?_⟩
    · intro k e he
      rcases Nat.lt_trichotomy k t.entries.length with hk | hk | hk
      · rw [List.getElem?_append_left hk] at he
        exact h.index_eq k e he
      · subst hk
        rw [List.getElem?_append_right (Nat.le_refl _), Nat.sub_self] at he
        injection he with he
        rw [← he]
        exact hindex
      · have hlen := (List.getElem?_eq_some_iff.mp he).1
        rw [List.length_append, List.length_singleton] at hlen
        omega
    · rw [List.map_append, List.nodup_append]
      refine ⟨h.names, by simp, ?_⟩
      intro a ha b hb
      rw [List.map_singleton, List.mem_singleton] at hb
      rw [hb]
      exact fun he => entry?_eq_none.mp hname (he ▸ ha)
    · rw [size, List.length_append, List.length_singleton]
      exact hlt

theorem lawful_insertAll {t t' : FieldTable} (h : t.Lawful) {origin : String} {fields : List Field}
    (hi : t.insertAll origin fields = .ok t') : t'.Lawful := by
  induction fields generalizing t with
  | nil =>
    injection hi with hi
    exact hi ▸ h
  | cons f rest ih =>
    unfold insertAll at hi
    split at hi
    · exact absurd hi (by simp)
    · rename_i t₁ h₁
      exact ih (lawful_insert h h₁) hi

theorem lawful_collect {t t' : FieldTable} (h : t.Lawful) {formats : List Format}
    (hc : t.collect formats = .ok t') : t'.Lawful := by
  induction formats generalizing t with
  | nil =>
    injection hc with hc
    exact hc ▸ h
  | cons f rest ih =>
    unfold collect at hc
    split at hc
    · exact absurd hc (by simp)
    · rename_i t₁ h₁
      exact ih (lawful_insertAll h h₁) hc

/-! ## Looking up -/

section Lawful

variable {t : FieldTable} {name name' : String} {e : Entry} {id : FieldId}

theorem name_of_entry? (he : t.entry? name = some e) : e.declared.name = name := by
  simpa using List.find?_some he

theorem Lawful.getElem?_of_entry? (h : t.Lawful) (he : t.entry? name = some e) :
    t.entries[e.id.index]? = some e := by
  obtain ⟨k, hk⟩ := List.getElem?_of_mem (List.mem_of_find?_eq_some he)
  rw [h.index_eq k e hk]
  exact hk

/-- A name leads to its number, and the number to what the name stands for. -/
theorem Lawful.get?_of_entry? (h : t.Lawful) (he : t.entry? name = some e) :
    t.get? e.id = some e.field := by
  rw [get?, h.getElem?_of_entry? he, Option.map_some]

theorem Lawful.entry?_of_getElem? (h : t.Lawful) {k : Nat} (hk : t.entries[k]? = some e) :
    t.entry? e.declared.name = some e :=
  find?_key (fun e : Entry => e.declared.name) h.names (List.mem_of_getElem? hk)

theorem idOf?_eq_some : t.idOf? name = some id ↔ ∃ e, t.entry? name = some e ∧ e.id = id := by
  rw [idOf?, Option.map_eq_some_iff]

/-- A number is the number of one name. -/
theorem Lawful.name_inj (h : t.Lawful) (hi : t.idOf? name = some id)
    (hi' : t.idOf? name' = some id) : name = name' := by
  obtain ⟨e, he, hid⟩ := idOf?_eq_some.mp hi
  obtain ⟨e', he', hid'⟩ := idOf?_eq_some.mp hi'
  have hk := h.getElem?_of_entry? he
  have hk' := h.getElem?_of_entry? he'
  rw [hid] at hk
  rw [hid', hk] at hk'
  injection hk' with hee
  rw [← name_of_entry? he, ← name_of_entry? he', hee]

end Lawful

/-! ## Numbering formats -/

/-- The format with its fields numbered. -/
def number (t : FieldTable) (f : Format) : Format := { f with fields := t.assign f.fields }

section Number

variable (t : FieldTable)

@[simp] theorem name_assignField (g : Field) : (t.assignField g).name = g.name := by
  unfold assignField
  split <;> rfl

@[simp] theorem layout_assignField (g : Field) : (t.assignField g).layout = g.layout := by
  unfold assignField
  split <;> rfl

@[simp] theorem constant_assignField (g : Field) : (t.assignField g).constant = g.constant := by
  unfold assignField
  split <;> rfl

theorem id_assignField {g : Field} {id : FieldId} (h : t.idOf? g.name = some id) :
    (t.assignField g).id = some id := by
  rw [assignField, h]

/-- A numbered format has the fields that it had. -/
theorem field?_number (f : Format) (name : String) :
    (t.number f).field? name = (f.field? name).map t.assignField := by
  unfold Format.field? number assign
  rw [List.find?_map]
  congr 2
  funext g
  rw [Function.comp_apply, name_assignField]

end Number

/-! ## Unification -/

/-- Each field of the formats lies where the table says that fields of its name do. -/
def SpeaksFor (t : FieldTable) (formats : List Format) : Prop :=
  ∀ f ∈ formats, ∀ g ∈ f.fields, ∃ e, t.entry? g.name = some e ∧ e.declared.layout = g.layout

theorem layout_of_conflicts {e : Entry} {format : String} {g : Field}
    (h : e.conflicts format g = []) : e.declared.layout = g.layout := by
  rw [Entry.conflicts, List.append_eq_nil_iff, List.append_eq_nil_iff] at h
  obtain ⟨⟨hsize, hfirst⟩, hsigned⟩ := h
  have h₁ : e.declared.layout.size = g.layout.size := by simpa using hsize
  have h₂ : e.declared.layout.firstBit = g.layout.firstBit := by simpa using hfirst
  have h₃ : e.declared.layout.signed = g.layout.signed := by simpa using hsigned
  exact Layout.ext h₂ h₁ h₃

theorem speaksFor_of_conflicts {t : FieldTable} {formats : List Format}
    (h : (formats.flatMap fun f => t.conflicts f.name f.fields) = []) : t.SpeaksFor formats := by
  intro f hf g hg
  have hfg : t.fieldConflicts f.name g = [] :=
    List.flatMap_eq_nil_iff.mp (List.flatMap_eq_nil_iff.mp h f hf) g hg
  unfold fieldConflicts at hfg
  split at hfg
  · exact absurd hfg (by simp)
  · rename_i e he
    exact ⟨e, he, layout_of_conflicts hfg⟩

section Verdict

variable {α : Type} {conflicts : List Conflict} {a : α}

theorem verdict_eq_ok {b : α} : verdict conflicts a = .ok b ↔ conflicts = [] ∧ a = b := by
  unfold verdict
  cases conflicts <;> simp

theorem verdict_eq_error {err : Error} :
    verdict conflicts a = .error err
      ↔ conflicts ≠ [] ∧ .diagnostics .unification (conflicts.map Conflict.diagnostic) = err := by
  unfold verdict
  cases conflicts <;> simp

end Verdict

/-- What unification answers is a matter of the table that it collects. -/
theorem unify_eq_ok {formats : List Format} {u : Unified} :
    unify formats = .ok u ↔ ∃ t, FieldTable.collect {} formats = .ok t ∧ u = {
      table := t
      formats := formats.map t.number
      conflicts := formats.flatMap fun f => t.conflicts f.name f.fields } := by
  rw [unify]
  cases FieldTable.collect {} formats with
  | error fault => simp
  | ok t =>
    show Except.ok _ = Except.ok u ↔ _
    simp only [Except.ok.injEq, exists_eq_left', eq_comm (a := u)]
    rfl

/-- **Formats whose fields agree have a lawful table that speaks for them.** -/
theorem unify_verdict {formats : List Format} {u : Unified} {t : FieldTable}
    (hu : unify formats = .ok u) (hv : u.verdict = .ok t) :
    t.Lawful ∧ t.SpeaksFor formats ∧ u.formats = formats.map t.number := by
  obtain ⟨table, hc, rfl⟩ := unify_eq_ok.mp hu
  obtain ⟨hnil, rfl⟩ := verdict_eq_ok.mp hv
  exact ⟨lawful_collect lawful_empty hc, speaksFor_of_conflicts hnil, rfl⟩

end FieldTable

end InstructionSet
