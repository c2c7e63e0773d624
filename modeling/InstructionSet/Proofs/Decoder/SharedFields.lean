import InstructionSet.Proofs.Decoder.Consistent
import InstructionSet.Proofs.FieldTable.Projection

/-!
# The fields that all formats share

They are the projection that everybody can have of a decoder: the entries of the table
whose names occur in every format, in the order of the first format. A projection of a
table's own entries is always accepted, and gets back the numbers that it had
(`restored_of_lookup`).
-/

namespace InstructionSet

namespace FieldTable

/-- The field without its number. -/
def cleared (fields : List Field) : List Field := fields.map fun g => { g with id := none }

/-- **Entries of the table are accepted without their numbers**, and get them back. -/
theorem restored_of_lookup {t : FieldTable} {fields : List Field}
    (h : ∀ g ∈ fields, t.lookup? g.name = some g) :
    t.checkProjection (cleared fields) = .ok () ∧ t.assign (cleared fields) = fields := by
  have hentry : ∀ g ∈ fields, ∃ e, t.entry? g.name = some e ∧ e.field = g := fun g hg =>
    Option.map_eq_some_iff.mp (h g hg)
  constructor
  · refine verdict_eq_ok.mpr ⟨List.flatMap_eq_nil_iff.mpr fun g' hg' => ?_, rfl⟩
    obtain ⟨g, hg, rfl⟩ := List.mem_map.mp hg'
    obtain ⟨e, he, hfield⟩ := hentry g hg
    have hlayout : e.declared.layout = g.layout := by rw [← hfield, Entry.field]
    rw [fieldConflicts, show t.entry? _ = some e from he]
    exact conflicts_of_layout _ hlayout
  · rw [assign, cleared, List.map_map]
    refine (List.map_congr_left fun g hg => ?_).trans (List.map_id fields)
    obtain ⟨e, he, hfield⟩ := hentry g hg
    have hid : t.idOf? g.name = some e.id := idOf?_eq_some.mpr ⟨e, he, rfl⟩
    rw [Function.comp_apply, assignField, show t.idOf? _ = some e.id from hid, ← hfield]
    rfl

end FieldTable

namespace Decoder

/-- The shared fields are the entries of the table whose names all formats have. -/
structure SharesExactly (d : Decoder) (formats : List Format) : Prop where
  mem_iff : ∀ g, g ∈ d.sharedFields
    ↔ d.table.lookup? g.name = some g ∧ ∀ f ∈ formats, f.contains g.name = true
  /-- They come in the order of the first format. -/
  order : ∀ first rest, formats = first :: rest →
    (d.sharedFields.map Field.name).Sublist (first.fields.map Field.name)
  nodup : (d.sharedFields.map Field.name).Nodup
  /-- Without their numbers they are accepted as a projection, and get them back. -/
  restored : d.table.checkProjection (FieldTable.cleared d.sharedFields) = .ok ()
    ∧ d.table.assign (FieldTable.cleared d.sharedFields) = d.sharedFields

theorem contains_number (t : FieldTable) (f : Format) (name : String) :
    (t.number f).contains name = f.contains name := by
  rw [Format.contains, FieldTable.field?_number, Option.isSome_map, Format.contains]

theorem contains_iff {f : Format} {name : String} :
    f.contains name = true ↔ ∃ g ∈ f.fields, g.name = name := by
  rw [Format.contains, Format.field?, List.find?_isSome]
  simp

variable {d : Decoder} {first : Format} {rest : List Format}

section Formats

variable (hformats : d.formats = (first :: rest).map d.table.number)
include hformats

/-- Numbers make no difference to which fields are shared. -/
theorem sharedFields_cons : d.sharedFields
    = (first.fields.filter fun g => rest.all (·.contains g.name)).filterMap fun g =>
      d.table.lookup? g.name := by
  unfold sharedFields
  rw [hformats]
  show ((first.fields.map d.table.assignField).filter _).filterMap _ = _
  rw [List.filter_map, List.filterMap_map]
  have hname : ∀ g, (d.table.assignField g).name = g.name := d.table.name_assignField
  simp only [Function.comp_def, hname, List.all_map, contains_number]

theorem mem_sharedFields {g : Field} : g ∈ d.sharedFields
    ↔ d.table.lookup? g.name = some g ∧ ∀ f ∈ first :: rest, f.contains g.name = true := by
  rw [sharedFields_cons hformats, List.mem_filterMap, List.forall_mem_cons, contains_iff]
  constructor
  · rintro ⟨g', hg', hlookup⟩
    obtain ⟨hmem, hall⟩ := List.mem_filter.mp hg'
    obtain ⟨e, he, rfl⟩ := Option.map_eq_some_iff.mp hlookup
    have hname : e.field.name = g'.name := FieldTable.name_of_entry? he
    rw [hname]
    exact ⟨hlookup, ⟨g', hmem, rfl⟩, List.all_eq_true.mp hall⟩
  · rintro ⟨hlookup, ⟨g', hmem, hname⟩, hrest⟩
    rw [← hname] at hlookup hrest
    exact ⟨g', List.mem_filter.mpr ⟨hmem, List.all_eq_true.mpr hrest⟩, hlookup⟩

end Formats

variable {formats : List Format} {instructions : List Instruction}

/-- **What the shared fields of a decoder are.** -/
theorem Built.sharesExactly (hb : Built formats instructions d)
    (hs : Validation.Sound formats instructions)
    (hl : d.table.Lists (FieldTable.occurrences formats)) : d.SharesExactly formats := by
  cases formats with
  | nil =>
    have hnone : d.sharedFields = [] := by
      unfold sharedFields
      rw [hb.formats_eq]
      rfl
    have hempty : ∀ name, d.table.lookup? name = none := by
      intro name
      have hentry : d.table.entry? name = none :=
        hb.entry?_eq_none hl (by rw [hb.formats_eq]; simp)
      rw [FieldTable.lookup?, hentry, Option.map_none]
    refine ⟨fun g => ?_, fun first rest h => absurd h (by simp), ?_, ?_⟩
    · rw [hnone, hempty]
      simp
    · rw [hnone]
      exact .nil
    · rw [hnone]
      exact ⟨rfl, rfl⟩
  | cons first rest =>
    have hmem : ∀ g, g ∈ d.sharedFields ↔ d.table.lookup? g.name = some g
        ∧ ∀ f ∈ first :: rest, f.contains g.name = true := fun g => mem_sharedFields hb.formats_eq
    have horder : (d.sharedFields.map Field.name).Sublist (first.fields.map Field.name) := by
      have hnames : (d.table.number first).fields.map Field.name = first.fields.map Field.name := by
        show (first.fields.map d.table.assignField).map Field.name = _
        rw [List.map_map]
        exact List.map_congr_left fun g _ => d.table.name_assignField g
      rw [(hb.fielded hs).shared _ _ hb.formats_eq, ← hnames]
      exact List.filter_sublist.map Field.name
    refine ⟨hmem, ?_, horder.nodup (hs.format first List.mem_cons_self).names, ?_⟩
    · rintro _ _ h
      obtain ⟨rfl, rfl⟩ := List.cons.inj h
      exact horder
    · exact FieldTable.restored_of_lookup fun g hg => ((hmem g).mp hg).1

/-- **A projection is brought in line with a table as one more format would be**, with the
difference that a field of an unknown name is reported and left alone. The projection of what all
formats of a decoder share consists of entries of its table, and gets back the numbers that it
had. -/
theorem projection_exact :
    (∀ formats u t, FieldTable.unify formats = .ok u → u.verdict = .ok t →
        ∀ fields, t.Backfills formats fields)
      ∧ ∀ formats instructions options d, build formats instructions options = .ok d →
        d.SharesExactly formats := by
  refine ⟨fun formats u t hu hv fields => FieldTable.backfills hu hv fields, ?_⟩
  intro formats instructions options d h
  obtain ⟨-, hb⟩ := built_of_build h
  obtain ⟨_, _, -, hunify, -⟩ := build_ok h
  exact hb.sharesExactly (sound_of_build h) (lists_of_unify hunify)

/-- A field that agrees with that of the format, one of an unknown name that was numbered before,
and one that is too wide. -/
def mixedProjection : List Field :=
  [⟨"low", ⟨4, 4, false⟩, none, none⟩, ⟨"nope", ⟨0, 1, false⟩, none, FieldId.ofIndex? 6⟩,
    ⟨"high", ⟨0, 5, false⟩, none, none⟩]

theorem projection_exact_mixed :
    ∃ u t d, FieldTable.unify [byteFormat] = .ok u ∧ u.verdict = .ok t
      ∧ build [byteFormat] byteInstructions {} = .ok d
      ∧ (t.assign mixedProjection).map (fun g => g.id.map FieldId.slot) = [some 2, some 7, some 1]
      ∧ t.checkProjection mixedProjection = .error (.diagnostics .unification
          ([.unknown "nope", .size "high" "byte" "<projection>" 4 5].map
            FieldTable.Conflict.diagnostic))
      ∧ (∃ u', FieldTable.unify ([byteFormat] ++ [⟨"<projection>", 8, byteFormat.fields⟩]) = .ok u'
          ∧ u'.formats.getLast? = some ⟨"<projection>", 8, t.assign byteFormat.fields⟩)
      ∧ d.table.assign (FieldTable.cleared d.sharedFields) = d.sharedFields := by
  obtain ⟨hprojection, hshared⟩ := projection_exact
  obtain ⟨d, hd⟩ : ∃ d, build [byteFormat] byteInstructions {} = .ok d := ⟨_, rfl⟩
  refine ⟨_, _, d, rfl, rfl, hd, ?_, ?_, ?_, (hshared _ _ _ d hd).restored.2⟩
  · rw [(hprojection [byteFormat] _ _ rfl rfl mixedProjection).numbers]
    decide
  · have hrefused := (hprojection [byteFormat] _ _ rfl rfl mixedProjection).refused _ rfl
    exact congrArg Except.error hrefused
  · obtain ⟨u', hu', hlast, -⟩ :=
      (hprojection [byteFormat] _ _ rfl rfl byteFormat.fields).known (by decide) 8
    exact ⟨u', hu', hlast⟩

end Decoder

end InstructionSet
