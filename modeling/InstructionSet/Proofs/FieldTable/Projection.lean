import InstructionSet.Proofs.FieldTable.Scan

/-!
# Fields that are held on the side

A list of fields that belongs to no format, a projection, is brought in line with a table
in a pass of its own (`Scan.backfill`). The pass numbers and compares as unification does,
but it enters nothing, and so has something to say that unification has not: that no
format has a field of that name.

Where it does not say so the two come to the same. A format after the others whose names
are all in the table leaves the table as it is, and adds to the conflicts what the pass
finds (`unify_known`). A new name on the other hand makes the table longer
(`insertAll_grows`). So the projection is accepted exactly if it could be one more format
and the table would be no longer for it (`backfills`).
-/

namespace InstructionSet.FieldTable

/-- What is reported as the format of fields that are held on the side. -/
abbrev onTheSide : String := "<projection>"

/-- The table knows the names of the fields. -/
def Knows (t : FieldTable) (fields : List Field) : Prop :=
  ∀ g ∈ fields, ∃ e, t.entry? g.name = some e

/-! ## One more format -/

section Insert

variable {t t' : FieldTable} {origin : String} {fields : List Field}

/-- Fields of known names leave the table as it is. -/
theorem insertAll_known (h : t.Knows fields) : t.insertAll origin fields = .ok t := by
  induction fields with
  | nil => rfl
  | cons g rest ih =>
    obtain ⟨⟨e, he⟩, hrest⟩ := List.forall_mem_cons.mp h
    rw [insertAll, insert, he]
    exact ih hrest

theorem insertAll_cons {g : Field} {rest : List Field} :
    t.insertAll origin (g :: rest) = .ok t'
      ↔ ∃ t₁, t.insert origin g = .ok t₁ ∧ t₁.insertAll origin rest = .ok t' := by
  rw [insertAll]
  cases t.insert origin g with
  | error fault => simp
  | ok t₁ => simp

/-- **A new name makes the table longer**, and nothing makes it shorter. -/
theorem insertAll_grows (hi : t.insertAll origin fields = .ok t') : t' = t ∨ t.size < t'.size := by
  induction fields generalizing t with
  | nil => exact .inl (Except.ok.inj hi).symm
  | cons g rest ih =>
    obtain ⟨t₁, h₁, hrest⟩ := insertAll_cons.mp hi
    obtain ⟨rfl, -⟩ | ⟨-, id, -, rfl⟩ := insert_cases h₁
    · exact ih hrest
    · have hone : t.size < size ⟨t.entries ++ [{ id, declared := g, origin }]⟩ := by
        rw [size, size, List.length_append, List.length_singleton]
        omega
      rcases ih hrest with rfl | hlt
      · exact .inr hone
      · exact .inr (Nat.lt_trans hone hlt)

theorem knows_of_size_eq (hi : t.insertAll origin fields = .ok t') (hsize : t'.size = t.size) :
    t.Knows fields := by
  rcases insertAll_grows hi with rfl | hlt
  · exact exists_entry?_of_insertAll hi
  · omega

end Insert

section OneMore

variable {formats : List Format} {u : Unified} (hu : unify formats = .ok u) {f : Format}
include hu

/-- One more format is entered into the table of those before it. -/
theorem collect_concat :
    FieldTable.collect {} (formats ++ [f]) = u.table.insertAll f.name f.fields := by
  obtain ⟨t, ht, rfl⟩ := unify_eq_ok.mp hu
  have hsplit : occurrences (formats ++ [f])
      = occurrences formats ++ f.fields.map (Occurrence.mk f.name) := by
    rw [occurrences, List.flatMap_append, List.flatMap_singleton]
    rfl
  rw [collect_eq_enter] at ht
  rw [collect_eq_enter, hsplit, enter_append, ht, insertAll_eq_enter]
  rfl

/-- **A format of known names adds its own conflicts**, and leaves the table as it is. -/
theorem unify_known (hk : u.table.Knows f.fields) : unify (formats ++ [f]) = .ok {
    table := u.table
    formats := u.formats ++ [u.table.number f]
    conflicts := u.conflicts ++ u.table.conflicts f.name f.fields } := by
  have hcollect := collect_concat hu (f := f)
  rw [insertAll_known hk] at hcollect
  obtain ⟨t, ht, rfl⟩ := unify_eq_ok.mp hu
  refine unify_eq_ok.mpr ⟨t, hcollect, ?_⟩
  rw [List.map_append, List.flatMap_append, List.flatMap_singleton]
  rfl

/-- If the table does not get longer by a format, it knows the names in it. -/
theorem knows_of_unify {u' : Unified} (hu' : unify (formats ++ [f]) = .ok u')
    (hsize : u'.table.size = u.table.size) : u.table.Knows f.fields := by
  obtain ⟨t', ht', rfl⟩ := unify_eq_ok.mp hu'
  rw [collect_concat hu] at ht'
  exact knows_of_size_eq ht' hsize

end OneMore

/-! ## The pass over a projection -/

namespace Scan

/-- Numbers the field `g` and compares it with the first field of its name. A name without a number
is reported, and the field is left as it is. There is no answer if a number leads nowhere. -/
def amend (s : Scan) (g : Field) : Option (Field × List Conflict) :=
  match s.idOf? g.name with
  | none => some (g, [.unknown g.name])
  | some id => do
    let first ← s.fields[id.index]?
    let origin ← s.origins[id.index]?
    pure ({ g with id := some id }, differences ⟨origin, first⟩ ⟨onTheSide, g⟩)

/-- The pass over the fields. Answers them with their numbers, and what was found. -/
def backfill (s : Scan) : List Field → Option (List Field × List Conflict)
  | [] => some ([], [])
  | g :: rest => do
    let (g, found) ← s.amend g
    let (rest, more) ← s.backfill rest
    pure (g :: rest, found ++ more)

/-- A field is numbered and compared as with the table. -/
theorem amend_ofTable {t : FieldTable} (h : t.Lawful) (g : Field) :
    (ofTable t).amend g = some (t.assignField g, t.fieldConflicts onTheSide g) := by
  rw [amend, idOf?_ofTable]
  cases he : t.entry? g.name with
  | none =>
    have hid : t.idOf? g.name = none := by rw [FieldTable.idOf?, he, Option.map_none]
    rw [assignField, fieldConflicts, he, hid]
  | some e =>
    have hid : t.idOf? g.name = some e.id := idOf?_eq_some.mpr ⟨e, he, rfl⟩
    have hc : t.fieldConflicts onTheSide g = differences ⟨e.origin, e.field⟩ ⟨onTheSide, g⟩ := by
      rw [fieldConflicts, he]
      exact e.conflicts_eq ⟨onTheSide, g⟩
    rw [assignField, hid, hc]
    dsimp only
    rw [field_ofTable h he, origin_ofTable h he]
    rfl

/-- **The pass numbers and compares every field as with the table**, whatever is found on the
way. -/
theorem backfill_ofTable {t : FieldTable} (h : t.Lawful) (fields : List Field) :
    (ofTable t).backfill fields = some (t.assign fields, t.conflicts onTheSide fields) := by
  induction fields with
  | nil => rfl
  | cons g rest ih =>
    rw [backfill, amend_ofTable h, ih]
    rfl

end Scan

/-! ## The projection as a format -/

/-- A conflict that says that a name is unknown. -/
def Conflict.isUnknown (c : Conflict) : Bool := c.code = "unify.unknown-field"

theorem filter_fieldConflicts (t : FieldTable) (format : String) (g : Field) :
    (t.fieldConflicts format g).filter Conflict.isUnknown
      = if (t.idOf? g.name).isNone then [.unknown g.name] else [] := by
  rw [fieldConflicts, idOf?]
  cases t.entry? g.name with
  | none => rfl
  | some e =>
    rw [Option.map_some, Option.isNone_some, if_neg Bool.false_ne_true, List.filter_eq_nil_iff]
    intro c hc
    replace hc : c ∈ differences e.occurrence ⟨format, g⟩ := e.conflicts_eq ⟨format, g⟩ ▸ hc
    obtain ⟨aspect, -, rfl⟩ := List.mem_map.mp hc
    cases aspect <;> simp [Conflict.isUnknown, Aspect.conflict, Conflict.code]

theorem filter_conflicts (t : FieldTable) (format : String) (fields : List Field) :
    (t.conflicts format fields).filter Conflict.isUnknown
      = (fields.filter fun g => (t.idOf? g.name).isNone).map fun g => .unknown g.name := by
  induction fields with
  | nil => rfl
  | cons g rest ih =>
    rw [conflicts, List.flatMap_cons, List.filter_append, filter_fieldConflicts, ← conflicts, ih,
      List.filter_cons]
    cases (t.idOf? g.name).isNone <;> rfl

/-- **What becomes of a projection of the formats that the table was made of.** -/
structure Backfills (t : FieldTable) (formats : List Format) (fields : List Field) : Prop where
  /-- The pass over the three lists is a matter of the table. -/
  pass : (Scan.ofTable t).backfill fields = some (t.assign fields, t.conflicts onTheSide fields)
  /-- A field of a known name gets the number of the name, and any other one is left alone. -/
  numbers : t.assign fields = fields.map fun g =>
    (t.idOf? g.name).elim g fun id => { g with id := some id }
  /-- The fields of unknown names are reported as such, each once, and no others are. -/
  unknown : (t.conflicts onTheSide fields).filter Conflict.isUnknown
    = (fields.filter fun g => (t.idOf? g.name).isNone).map fun g => .unknown g.name
  /-- The report is all that the pass finds. -/
  refused : ∀ err, t.checkProjection fields = .error err → err
    = .diagnostics .unification ((t.conflicts onTheSide fields).map Conflict.diagnostic)
  /-- The projection is accepted if it could be one more format, and the table would be the same
  length. -/
  accepted : ∀ bits, t.checkProjection fields = .ok () ↔
    ∃ u t', unify (formats ++ [⟨onTheSide, bits, fields⟩]) = .ok u ∧ u.verdict = .ok t'
      ∧ t'.size = t.size
  /-- If all names are known, this one more format would get the same numbers and the same
  report. -/
  known : (∀ g ∈ fields, (t.idOf? g.name).isSome) → ∀ bits,
    ∃ u, unify (formats ++ [⟨onTheSide, bits, fields⟩]) = .ok u
      ∧ u.formats.getLast? = some ⟨onTheSide, bits, t.assign fields⟩
      ∧ ∀ err, t.checkProjection fields = .error err ↔ u.verdict = .error err

theorem knows_iff {t : FieldTable} {fields : List Field} :
    t.Knows fields ↔ ∀ g ∈ fields, (t.idOf? g.name).isSome := by
  refine forall₂_congr fun g _ => ?_
  rw [idOf?, Option.isSome_map, Option.isSome_iff_exists]

theorem knows_of_conflicts {t : FieldTable} {format : String} {fields : List Field}
    (h : t.conflicts format fields = []) : t.Knows fields := by
  intro g hg
  have hnone := List.flatMap_eq_nil_iff.mp h g hg
  rw [fieldConflicts] at hnone
  cases he : t.entry? g.name with
  | none =>
    rw [he] at hnone
    exact absurd hnone (by simp)
  | some e => exact ⟨e, rfl⟩

/-- **A projection fares as one more format would.** -/
theorem backfills {formats : List Format} {u : Unified} {t : FieldTable}
    (hu : unify formats = .ok u) (hv : u.verdict = .ok t) (fields : List Field) :
    t.Backfills formats fields := by
  obtain ⟨hlawful, -, -⟩ := unify_verdict hu hv
  obtain ⟨hnil, rfl⟩ := Unified.verdict_eq_ok.mp hv
  refine ⟨Scan.backfill_ofTable hlawful fields, ?_, filter_conflicts .., ?_, ?_, ?_⟩
  · refine List.map_congr_left fun g _ => ?_
    rw [assignField]
    cases u.table.idOf? g.name <;> rfl
  · intro err herr
    exact (verdict_eq_error.mp herr).2.symm
  · intro bits
    rw [checkProjection, verdict_eq_ok, and_iff_left rfl]
    constructor
    · intro hc
      refine ⟨_, u.table, unify_known hu (knows_of_conflicts hc), ?_, rfl⟩
      exact Unified.verdict_eq_ok.mpr ⟨by rw [hnil, hc, List.append_nil], rfl⟩
    · rintro ⟨u', t', hu', hv', hsize⟩
      obtain ⟨hnil', rfl⟩ := Unified.verdict_eq_ok.mp hv'
      have hk := knows_of_unify hu hu' hsize
      rw [unify_known hu hk] at hu'
      obtain rfl := Except.ok.inj hu'
      exact (List.append_eq_nil_iff.mp hnil').2
  · intro hk bits
    refine ⟨_, unify_known hu (knows_iff.mpr hk), ?_, ?_⟩
    · rw [List.getLast?_append, List.getLast?_singleton]
      rfl
    · intro err
      rw [checkProjection, Unified.verdict, verdict_eq_error, verdict_eq_error, hnil,
        List.nil_append]

end InstructionSet.FieldTable
