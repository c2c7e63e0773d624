import InstructionSet.Proofs.FieldTable.Occurrences
import Mathlib.Data.List.Forall2

/-!
# What bringing fields together comes to

All of it can be said of the formats alone, without a table (`unify_exact`). A field
is measured by the first one of its name, and what it differs in is reported, in the
order in which the fields are read (`discrepancies`). Names are numbered in the order
in which they first appear, and each field bears the number of its name, whatever
number it had before (`NumberedFormat`). If nothing is reported, the table consists of
the first occurrences (`Canonical`), its look-ups agree (`Consistent`), and the
numbered formats have this same table again (`Same`).
-/

namespace InstructionSet.FieldTable

/-! ## The report -/

/-- What fields of one name have to agree in. -/
inductive Aspect where
  | size
  | position
  | sign

namespace Aspect

def all : List Aspect := [size, position, sign]

def differs (first other : Layout) : Aspect → Bool
  | size => first.size ≠ other.size
  | position => first.firstBit ≠ other.firstBit
  | sign => first.signed ≠ other.signed

def conflict (first other : Occurrence) : Aspect → Conflict
  | size => .size other.field.name first.origin other.origin first.field.layout.size
      other.field.layout.size
  | position => .position other.field.name first.origin other.origin first.field.layout.firstBit
      other.field.layout.firstBit
  | sign => .sign other.field.name first.origin other.origin

end Aspect

/-- In what an occurrence differs from the first one of its name. -/
def differences (first other : Occurrence) : List Conflict :=
  (Aspect.all.filter (Aspect.differs first.field.layout other.field.layout)).map
    (Aspect.conflict first other)

/-- In what the fields of the formats differ from the first ones of their names. -/
def discrepancies (formats : List Format) : List Conflict :=
  (occurrences formats).flatMap fun other =>
    (first? (occurrences formats) other.field.name).elim [] (differences · other)

theorem Entry.conflicts_eq (e : Entry) (o : Occurrence) :
    e.conflicts o.origin o.field = differences e.occurrence o := by
  unfold Entry.conflicts differences Aspect.all
  rw [List.filter_cons, List.filter_cons, List.filter_cons, List.filter_nil]
  dsimp only [Aspect.differs, Entry.occurrence]
  by_cases h₁ : e.declared.layout.size = o.field.layout.size <;>
    by_cases h₂ : e.declared.layout.firstBit = o.field.layout.firstBit <;>
      by_cases h₃ : e.declared.layout.signed = o.field.layout.signed <;>
        simp [h₁, h₂, h₃, Aspect.conflict]

/-- **A table that lists the first occurrences reports the discrepancies.** -/
theorem Lists.conflicts_eq {t : FieldTable} {formats : List Format}
    (h : t.Lists (occurrences formats)) :
    (formats.flatMap fun f => t.conflicts f.name f.fields) = discrepancies formats := by
  have hflat : (formats.flatMap fun f => t.conflicts f.name f.fields)
      = (occurrences formats).flatMap fun o => t.fieldConflicts o.origin o.field := by
    unfold occurrences
    rw [List.flatMap_assoc]
    refine List.flatMap_congr fun f _ => ?_
    rw [List.flatMap_map]
    rfl
  rw [hflat, discrepancies]
  refine List.flatMap_congr fun o ho => ?_
  obtain ⟨e, he⟩ := h.mem_names.mp (List.mem_map_of_mem ho)
  rw [← h.first, fieldConflicts, he]
  exact e.conflicts_eq o

/-! ## The numbers -/

/-- The second field is the first one with the number of its name. Names are numbered from 1, in
the order of the list. -/
def NumberedField (names : List String) (g g' : Field) : Prop :=
  ∃ k id, names[k]? = some g.name ∧ id.val.toNat = k + 1 ∧ g' = { g with id := some id }

/-- The second format is the first one with its fields numbered. -/
structure NumberedFormat (names : List String) (f f' : Format) : Prop where
  name : f'.name = f.name
  bits : f'.bits = f.bits
  fields : List.Forall₂ (NumberedField names) f.fields f'.fields

theorem FieldId.val_eq {id : FieldId} {k : Nat} (h : id.index = k) : id.val.toNat = k + 1 := by
  rw [← h]
  exact id.slot_eq_index_add_one

/-- The number of a name is its place among the names of the table. -/
theorem Lawful.idOf?_eq_some {t : FieldTable} (h : t.Lawful) {name : String} {id : FieldId} :
    t.idOf? name = some id ↔ (t.entries.map fun e => e.declared.name)[id.index]? = some name := by
  rw [FieldTable.idOf?_eq_some, List.getElem?_map, Option.map_eq_some_iff]
  constructor
  · intro hid
    obtain ⟨e, he, rfl⟩ := hid
    exact ⟨e, h.getElem?_of_entry? he, name_of_entry? he⟩
  · intro hname
    obtain ⟨e, he, rfl⟩ := hname
    exact ⟨e, h.entry?_of_getElem? he, FieldId.index_inj (h.index_eq _ e he)⟩

/-- **A table that lists the first occurrences numbers the formats in the order of their
names.** -/
theorem Lists.numbered {t : FieldTable} (hlawful : t.Lawful) {formats : List Format}
    (h : t.Lists (occurrences formats)) :
    List.Forall₂ (NumberedFormat (fieldNames formats)) formats (formats.map t.number) := by
  rw [List.forall₂_map_right_iff, List.forall₂_same]
  intro f hf
  refine ⟨rfl, rfl, ?_⟩
  show List.Forall₂ _ f.fields (f.fields.map t.assignField)
  rw [List.forall₂_map_right_iff, List.forall₂_same]
  intro g hg
  obtain ⟨e, he⟩ := h.mem_names.mp (List.mem_map_of_mem (mem_occurrences hf hg))
  have hid : t.idOf? g.name = some e.id := FieldTable.idOf?_eq_some.mpr ⟨e, he, rfl⟩
  refine ⟨e.id.index, e.id, ?_, FieldId.val_eq rfl, ?_⟩
  · rw [fieldNames_eq, ← h.names]
    exact hlawful.idOf?_eq_some.mp hid
  · rw [assignField, hid]

/-! ## The table -/

/-- The entry at place `k` is the first occurrence of the name at place `k`, and has the number
`k + 1`. -/
structure Canonical (t : FieldTable) (formats : List Format) : Prop where
  size : t.size = (fieldNames formats).length
  entry : ∀ k name, (fieldNames formats)[k]? = some name →
    ∃ e, t.entries[k]? = some e ∧ first? (occurrences formats) name = some ⟨e.origin, e.declared⟩
      ∧ e.id.val.toNat = k + 1

/-- Names, numbers and fields lead to each other. -/
structure Consistent (t : FieldTable) : Prop where
  lookup : ∀ name, t.lookup? name = (t.idOf? name).bind t.get?
  number : ∀ id g, t.get? id = some g → g.id = some id ∧ t.idOf? g.name = some id
  name : ∀ name id, t.idOf? name = some id → ∃ g, t.get? id = some g ∧ g.name = name

/-- Under the number of each field stands a field of its name and layout. -/
def Describes (t : FieldTable) (formats : List Format) : Prop :=
  ∀ f ∈ formats, ∀ g ∈ f.fields, ∃ id first, g.id = some id ∧ t.get? id = some first
    ∧ first.name = g.name ∧ first.layout = g.layout

/-- The tables have the same fields from the same formats, and the same numbers for names. -/
structure Same (t t' : FieldTable) : Prop where
  fields : t.fields = t'.fields
  origins : t.entries.map Entry.origin = t'.entries.map Entry.origin
  numbers : ∀ name, t.idOf? name = t'.idOf? name

theorem Lists.canonical {t : FieldTable} (hlawful : t.Lawful) {formats : List Format}
    (h : t.Lists (occurrences formats)) : t.Canonical formats where
  size := by rw [fieldNames_eq, ← h.names, List.length_map, FieldTable.size]
  entry := by
    intro k name hk
    rw [fieldNames_eq, ← h.names, List.getElem?_map, Option.map_eq_some_iff] at hk
    obtain ⟨e, he, rfl⟩ := hk
    refine ⟨e, he, ?_, FieldId.val_eq (hlawful.index_eq k e he)⟩
    rw [← h.first, hlawful.entry?_of_getElem? he]
    rfl

theorem Lawful.consistent {t : FieldTable} (h : t.Lawful) : t.Consistent where
  lookup := by
    intro name
    rw [lookup?, idOf?]
    cases he : t.entry? name with
    | none => rfl
    | some e => exact (h.get?_of_entry? he).symm
  number := by
    intro id g hg
    rw [get?, Option.map_eq_some_iff] at hg
    obtain ⟨e, he, rfl⟩ := hg
    have hid : e.id = id := FieldId.index_inj (h.index_eq _ e he)
    exact ⟨congrArg some hid, FieldTable.idOf?_eq_some.mpr ⟨e, h.entry?_of_getElem? he, hid⟩⟩
  name := by
    intro name id hid
    obtain ⟨e, he, rfl⟩ := FieldTable.idOf?_eq_some.mp hid
    exact ⟨e.field, h.get?_of_entry? he, name_of_entry? he⟩

theorem Lawful.describes {t : FieldTable} (h : t.Lawful) {formats : List Format}
    (hs : t.SpeaksFor formats) : t.Describes (formats.map t.number) := by
  intro f' hf' g' hg'
  obtain ⟨f, hf, rfl⟩ := List.mem_map.mp hf'
  obtain ⟨g, hg, rfl⟩ := List.mem_map.mp hg'
  obtain ⟨e, he, hlayout⟩ := hs f hf g hg
  refine ⟨e.id, e.field, t.id_assignField (FieldTable.idOf?_eq_some.mpr ⟨e, he, rfl⟩),
    h.get?_of_entry? he, ?_, ?_⟩
  · rw [name_assignField]
    exact name_of_entry? he
  · rw [layout_assignField]
    exact hlayout

/-! ## Once more -/

section Again

variable (t : FieldTable) (formats : List Format)

theorem occurrences_number :
    occurrences (formats.map t.number)
      = (occurrences formats).map fun o => ⟨o.origin, t.assignField o.field⟩ := by
  unfold occurrences
  rw [List.flatMap_map, List.map_flatMap]
  refine List.flatMap_congr fun f _ => ?_
  show (f.fields.map t.assignField).map (Occurrence.mk f.name) = _
  rw [List.map_map, List.map_map]
  rfl

theorem fieldNames_number : fieldNames (formats.map t.number) = fieldNames formats := by
  rw [fieldNames_eq, fieldNames_eq, occurrences_number, List.map_map]
  congr 2
  funext o
  exact t.name_assignField o.field

theorem first?_number (name : String) :
    first? (occurrences (formats.map t.number)) name
      = (first? (occurrences formats) name).map fun o => ⟨o.origin, t.assignField o.field⟩ := by
  rw [occurrences_number, first?, List.find?_map]
  congr 2
  funext o
  rw [Function.comp_apply, name_assignField]

theorem agree_number (h : Agree formats) : Agree (formats.map t.number) := by
  have hmem : ∀ g ∈ (formats.map t.number).flatMap Format.fields,
      ∃ g' ∈ formats.flatMap Format.fields, t.assignField g' = g := by
    intro g hg
    obtain ⟨f', hf', hg⟩ := List.mem_flatMap.mp hg
    obtain ⟨f, hf, rfl⟩ := List.mem_map.mp hf'
    obtain ⟨g', hg', rfl⟩ := List.mem_map.mp hg
    exact ⟨g', List.mem_flatMap.mpr ⟨f, hf, hg'⟩, rfl⟩
  intro g₁ h₁ g₂ h₂ hname
  obtain ⟨g₁', h₁', rfl⟩ := hmem g₁ h₁
  obtain ⟨g₂', h₂', rfl⟩ := hmem g₂ h₂
  rw [name_assignField, name_assignField] at hname
  rw [layout_assignField, layout_assignField]
  exact h g₁' h₁' g₂' h₂' hname

end Again

/-- A number that a field has got does not show once it gets another one. -/
theorem renumber_assignField (t : FieldTable) (g : Field) (id : Option FieldId) :
    { t.assignField g with id } = { g with id } := by
  unfold assignField
  split <;> rfl

theorem Same.number_number {t t' : FieldTable} (h : t'.Same t) (f : Format) :
    t'.number (t.number f) = t.number f := by
  have hfield : ∀ g, t'.assignField (t.assignField g) = t.assignField g := by
    intro g
    rw [assignField, name_assignField, h.numbers]
    unfold assignField
    cases t.idOf? g.name <;> rfl
  unfold number assign
  rw [List.map_map]
  congr 1
  exact List.map_congr_left fun g _ => hfield g

section Tables

variable {t t' : FieldTable} {formats : List Format} (h : t.Lists (occurrences formats))
  (h' : t'.Lists (occurrences (formats.map t.number)))
include h h'

theorem Lists.names_number :
    (t'.entries.map fun e => e.declared.name) = t.entries.map fun e => e.declared.name := by
  rw [h.names, h'.names, ← fieldNames_eq, ← fieldNames_eq, fieldNames_number]

variable (hlawful : t.Lawful) (hlawful' : t'.Lawful)
include hlawful hlawful'

/-- The table of the numbered formats has the entries of the first one, with numbered fields. -/
theorem Lists.entries_number :
    t'.entries = t.entries.map fun e => { e with declared := t.assignField e.declared } := by
  have hnames := h.names_number h'
  refine List.ext_getElem? fun k => ?_
  have hk : (t'.entries.map fun e => e.declared.name)[k]?
      = (t.entries.map fun e => e.declared.name)[k]? := by rw [hnames]
  rw [List.getElem?_map, List.getElem?_map] at hk
  rw [List.getElem?_map]
  cases he : t.entries[k]? with
  | none =>
    rw [he, Option.map_none, Option.map_eq_none_iff] at hk
    rw [hk, Option.map_none]
  | some e =>
    rw [he, Option.map_some, Option.map_eq_some_iff] at hk
    obtain ⟨e', he', hname⟩ := hk
    rw [he', Option.map_some]
    have hid : e'.id = e.id :=
      FieldId.index_inj ((hlawful'.index_eq k e' he').trans (hlawful.index_eq k e he).symm)
    have hfirst := h'.first e.declared.name
    rw [first?_number, ← h.first, hlawful.entry?_of_getElem? he, ← hname,
      hlawful'.entry?_of_getElem? he'] at hfirst
    have hocc : (⟨e'.origin, e'.declared⟩ : Occurrence) = ⟨e.origin, t.assignField e.declared⟩ :=
      Option.some.inj hfirst
    obtain ⟨horigin, hdeclared⟩ := Occurrence.mk.inj hocc
    obtain ⟨id, declared, origin⟩ := e'
    rw [show id = e.id from hid, show origin = e.origin from horigin,
      show declared = _ from hdeclared]

/-- **Numbered formats have the table that they were numbered with.** -/
theorem Lists.same : t'.Same t := by
  have hentries := h.entries_number h' hlawful hlawful'
  refine ⟨?_, ?_, ?_⟩
  · rw [fields, hentries, List.map_map]
    exact List.map_congr_left fun e _ => t.renumber_assignField e.declared (some e.id)
  · rw [hentries, List.map_map]
    rfl
  · intro name
    refine Option.ext fun id => ?_
    rw [hlawful.idOf?_eq_some, hlawful'.idOf?_eq_some, h.names_number h']

end Tables

/-! ## Unification -/

theorem Unified.verdict_eq_ok {u : Unified} {t : FieldTable} :
    u.verdict = .ok t ↔ u.conflicts = [] ∧ u.table = t := FieldTable.verdict_eq_ok

theorem Unified.verdict_of_ne_nil {u : Unified} (h : u.conflicts ≠ []) :
    u.verdict = .error (.diagnostics .unification (u.conflicts.map Conflict.diagnostic)) :=
  FieldTable.verdict_eq_error.mpr ⟨h, rfl⟩

/-- What bringing formats together leaves behind. -/
structure Unifies (formats : List Format) (u : Unified) : Prop where
  lawful : u.table.Lawful
  lists : u.table.Lists (occurrences formats)
  formats_eq : u.formats = formats.map u.table.number
  conflicts_eq : u.conflicts = discrepancies formats
  agree : u.conflicts = [] ↔ Agree formats

theorem Lists.collected {t : FieldTable} {formats : List Format}
    (h : t.Lists (occurrences formats)) (hlawful : t.Lawful) :
    t.Collected (formats.flatMap Format.fields) where
  lawful := hlawful
  declared := by
    intro e he
    obtain ⟨k, hk⟩ := List.getElem?_of_mem he
    have hfirst := h.first e.declared.name
    rw [hlawful.entry?_of_getElem? hk] at hfirst
    rw [← map_field_occurrences]
    exact List.mem_map.mpr ⟨e.occurrence, List.mem_of_find?_eq_some hfirst.symm, rfl⟩
  named := by
    intro g hg
    rw [← map_field_occurrences] at hg
    obtain ⟨o, ho, rfl⟩ := List.mem_map.mp hg
    exact h.mem_names.mp (List.mem_map_of_mem ho)

theorem unifies_of_unify {formats : List Format} {u : Unified} (hu : unify formats = .ok u) :
    Unifies formats u := by
  obtain ⟨t, hc, rfl⟩ := unify_eq_ok.mp hu
  have hlawful := lawful_collect lawful_empty hc
  have hlists := lists_collect hc
  refine ⟨hlawful, hlists, rfl, hlists.conflicts_eq, ?_⟩
  rw [← (hlists.collected hlawful).speaksFor_iff]
  exact conflicts_eq_nil_iff

/-- Numbered formats that agree come out of another unification as they are. -/
theorem Unifies.again {formats : List Format} {u : Unified} (h : Unifies formats u)
    (hlt : (fieldNames formats).length < UInt32.size) (hagree : Agree formats) :
    ∃ u' t', unify u.formats = .ok u' ∧ u'.verdict = .ok t' ∧ u'.formats = u.formats
      ∧ t'.Same u.table := by
  have hnumbered : Agree u.formats := by
    rw [h.formats_eq]
    exact agree_number u.table formats hagree
  have hlt' : (fieldNames u.formats).length < UInt32.size := by
    rwa [h.formats_eq, fieldNames_number]
  obtain ⟨u', hu', -⟩ := unify_total hlt'
  have h' := unifies_of_unify hu'
  have hlists := h'.lists
  rw [h.formats_eq] at hlists
  have hsame : u'.table.Same u.table := h.lists.same hlists h.lawful h'.lawful
  refine ⟨u', u'.table, hu', Unified.verdict_eq_ok.mpr ⟨h'.agree.mpr hnumbered, rfl⟩, ?_, hsame⟩
  rw [h'.formats_eq, h.formats_eq, List.map_map]
  exact List.map_congr_left fun f _ => hsame.number_number f

/--
**Fields are brought together exactly if they agree.** As long as there are numbers
enough, all fields get the number of their name, and what is reported is everything
in which a field differs from the first one of its name. If that is nothing, the table
consists of these first fields, and the formats, now that they are numbered, have it
again.
-/
theorem unify_exact {formats : List Format} (hlt : (fieldNames formats).length < UInt32.size) :
    ∃ u, unify formats = .ok u
      ∧ List.Forall₂ (NumberedFormat (fieldNames formats)) formats u.formats
      ∧ ((∃ t, u.verdict = .ok t) ↔ Agree formats)
      ∧ (∀ err, u.verdict = .error err →
        err = .diagnostics .unification ((discrepancies formats).map Conflict.diagnostic))
      ∧ ∀ t, u.verdict = .ok t → t.Canonical formats ∧ t.Consistent ∧ t.Describes u.formats
        ∧ ∃ u' t', unify u.formats = .ok u' ∧ u'.verdict = .ok t' ∧ u'.formats = u.formats
          ∧ t'.Same t := by
  obtain ⟨u, hu, -⟩ := unify_total hlt
  have h := unifies_of_unify hu
  refine ⟨u, hu, ?_, ?_, ?_, ?_⟩
  · rw [h.formats_eq]
    exact h.lists.numbered h.lawful
  · rw [← h.agree]
    constructor
    · intro hok
      obtain ⟨t, ht⟩ := hok
      exact (Unified.verdict_eq_ok.mp ht).1
    · exact fun hnil => ⟨u.table, Unified.verdict_eq_ok.mpr ⟨hnil, rfl⟩⟩
  · intro err herr
    have hne : u.conflicts ≠ [] := by
      intro hnil
      rw [Unified.verdict_eq_ok.mpr ⟨hnil, rfl⟩] at herr
      exact absurd herr (by simp)
    rw [Unified.verdict_of_ne_nil hne, h.conflicts_eq] at herr
    exact (Except.error.inj herr).symm
  · intro t ht
    obtain ⟨hnil, rfl⟩ := Unified.verdict_eq_ok.mp ht
    have hspeaks : u.table.SpeaksFor formats := by
      rw [← conflicts_eq_nil_iff, h.lists.conflicts_eq, ← h.conflicts_eq]
      exact hnil
    refine ⟨h.lists.canonical h.lawful, h.lawful.consistent, ?_, h.again hlt (h.agree.mp hnil)⟩
    rw [h.formats_eq]
    exact h.lawful.describes hspeaks

/-- Two formats that disagree on both of their fields, on one of them twice. -/
def clashingFormats : List Format :=
  [{ name := "R", bits := 16,
      fields := [⟨"op", ⟨0, 4, false⟩, none, none⟩, ⟨"rs", ⟨4, 4, false⟩, none, none⟩] },
    { name := "I", bits := 16,
      fields := [⟨"op", ⟨0, 6, false⟩, none, none⟩, ⟨"rs", ⟨6, 4, true⟩, none, none⟩] }]

theorem unify_exact_clashing :
    ∃ u, unify clashingFormats = .ok u
      ∧ u.verdict = .error (.diagnostics .unification
        ([.size "op" "R" "I" 4 6, .position "rs" "R" "I" 4 6, .sign "rs" "R" "I"].map
          Conflict.diagnostic)) := by
  have hlt : (fieldNames clashingFormats).length < UInt32.size := by decide
  obtain ⟨u, hu, -, hok, herr, -⟩ := unify_exact hlt
  refine ⟨u, hu, ?_⟩
  cases hv : u.verdict with
  | ok t =>
    have hagree : Agree clashingFormats := hok.mp ⟨t, hv⟩
    have hlayout := hagree ⟨"op", ⟨0, 4, false⟩, none, none⟩ (by decide)
      ⟨"op", ⟨0, 6, false⟩, none, none⟩ (by decide) rfl
    exact absurd hlayout (by decide)
  | error err =>
    have hall : discrepancies clashingFormats
        = [.size "op" "R" "I" 4 6, .position "rs" "R" "I" 4 6, .sign "rs" "R" "I"] := by decide
    rw [herr err hv, hall]

/-- A field that is declared twice has one number, and a number that was set before is gone. -/
def sharingFormats : List Format :=
  [{ name := "R", bits := 8,
      fields := [⟨"op", ⟨0, 4, false⟩, none, none⟩, ⟨"rs", ⟨4, 4, false⟩, none, none⟩,
        ⟨"op", ⟨0, 4, false⟩, none, none⟩] },
    { name := "I", bits := 16,
      fields := [⟨"rs", ⟨4, 4, false⟩, none, FieldId.ofIndex? 6⟩,
        ⟨"imm", ⟨8, 8, true⟩, none, none⟩] }]

example : (unify sharingFormats).map (fun u =>
      (u.verdict.isOk, u.formats.map fun f => f.fields.map fun g => g.id.map FieldId.slot))
    = .ok (true, [[some 1, some 2, some 1], [some 2, some 3]]) := by decide

end InstructionSet.FieldTable
