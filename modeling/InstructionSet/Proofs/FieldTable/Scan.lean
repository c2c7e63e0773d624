import InstructionSet.Proofs.FieldTable.Unification

/-!
# Everything in one pass

`FieldTable.unify` collects the table first, and then numbers and compares the fields.
It can be done in one pass as well, in which each field is numbered and compared when
it is met, with what has been collected by then, and in which the fields, the formats
that they come from and the numbers of names are kept in three lists beside each other
(`Scan`). The passes come to the same (`run_eq_unify`). There are two reasons for it.
The lists never get out of step, so that the number of a name leads to its field and
to its format, and what is entered under a name is never replaced, so that it makes no
difference whether a field is compared early or late.
-/

namespace InstructionSet.FieldTable

/-- What has been collected of the fields. -/
structure Scan where
  /-- The first fields of their names, with their numbers. -/
  fields : List Field := []
  /-- The formats that they come from. -/
  origins : List String := []
  /-- The numbers of names. -/
  numbers : List (String × FieldId) := []

namespace Scan

def idOf? (s : Scan) (name : String) : Option FieldId :=
  (s.numbers.find? (·.1 = name)).map Prod.snd

/-- Numbers the field `g` of `format`, compares it with the first field of its name, and enters it
if it is the first one. There is no answer if numbers run out, or if a number leads nowhere. -/
def visit (s : Scan) (format : String) (g : Field) : Option (Scan × Field × List Conflict) :=
  match s.idOf? g.name with
  | some id => do
    let first ← s.fields[id.index]?
    let origin ← s.origins[id.index]?
    pure (s, { g with id := some id }, differences ⟨origin, first⟩ ⟨format, g⟩)
  | none => do
    let id ← FieldId.ofIndex? s.fields.length
    let s' : Scan := {
      fields := s.fields ++ [{ g with id := some id }]
      origins := s.origins ++ [format]
      numbers := s.numbers ++ [(g.name, id)] }
    pure (s', { g with id := some id }, [])

def visitAll (s : Scan) (format : String) :
    List Field → Option (Scan × List Field × List Conflict)
  | [] => some (s, [], [])
  | g :: rest => do
    let (s, g, found) ← s.visit format g
    let (s, rest, more) ← s.visitAll format rest
    pure (s, g :: rest, found ++ more)

/-- The pass over the formats. Answers what has been collected, the formats with their fields
numbered, and what the fields differ in. -/
def run (s : Scan) : List Format → Option (Scan × List Format × List Conflict)
  | [] => some (s, [], [])
  | f :: rest => do
    let (s, fields, found) ← s.visitAll f.name f.fields
    let (s, rest, more) ← s.run rest
    pure (s, { f with fields } :: rest, found ++ more)

/-- The three lists of a table. -/
def ofTable (t : FieldTable) : Scan where
  fields := t.fields
  origins := t.entries.map Entry.origin
  numbers := t.entries.map fun e => (e.declared.name, e.id)

theorem idOf?_ofTable (t : FieldTable) (name : String) : (ofTable t).idOf? name = t.idOf? name := by
  unfold idOf? ofTable FieldTable.idOf? entry?
  rw [List.find?_map, Option.map_map]
  rfl

end Scan

/-! ## What is entered stays -/

/-- Whatever is in the first table is in the second one under the same name. -/
def Extends (t t' : FieldTable) : Prop :=
  ∀ name e, t.entry? name = some e → t'.entry? name = some e

theorem extends_insert {t t' : FieldTable} {origin : String} {f : Field}
    (hi : t.insert origin f = .ok t') : t.Extends t' := by
  intro name e he
  obtain ⟨rfl, -⟩ | ⟨-, id, -, rfl⟩ := insert_cases hi
  · exact he
  · exact entry?_append he _

theorem extends_enter {t t' : FieldTable} {occs : List Occurrence} (he : t.enter occs = .ok t') :
    t.Extends t' := by
  induction occs generalizing t with
  | nil =>
    obtain rfl : t = t' := Except.ok.inj he
    exact fun _ _ h => h
  | cons o rest ih =>
    obtain ⟨t₁, hi, hrest⟩ := enter_cons.mp he
    exact fun name e h => ih hrest name e (extends_insert hi name e h)

theorem exists_entry?_of_insert {t t' : FieldTable} {origin : String} {f : Field}
    (hi : t.insert origin f = .ok t') : ∃ e, t'.entry? f.name = some e := by
  obtain ⟨rfl, he⟩ | ⟨hnew, id, -, rfl⟩ := insert_cases hi
  · exact he
  · exact ⟨{ id, declared := f, origin }, entry?_concat hnew rfl⟩

section Extends

variable {t t' : FieldTable} (h : t.Extends t')
include h

/-- A name that is in the table means the same later on. -/
theorem Extends.assignField_eq {g : Field} (hg : ∃ e, t.entry? g.name = some e) :
    t'.assignField g = t.assignField g := by
  obtain ⟨e, he⟩ := hg
  rw [assignField, assignField, idOf?, idOf?, he, h _ _ he]

theorem Extends.fieldConflicts_eq {g : Field} (hg : ∃ e, t.entry? g.name = some e)
    (format : String) : t'.fieldConflicts format g = t.fieldConflicts format g := by
  obtain ⟨e, he⟩ := hg
  rw [fieldConflicts, fieldConflicts, he, h _ _ he]

end Extends

theorem extends_insertAll {t t' : FieldTable} {origin : String} {fields : List Field}
    (hi : t.insertAll origin fields = .ok t') : t.Extends t' :=
  extends_enter (insertAll_eq_enter t origin fields ▸ hi)

theorem extends_collect {t t' : FieldTable} {formats : List Format}
    (hc : t.collect formats = .ok t') : t.Extends t' :=
  extends_enter (collect_eq_enter t formats ▸ hc)

theorem exists_entry?_of_insertAll {t t' : FieldTable} {origin : String} {fields : List Field}
    (hi : t.insertAll origin fields = .ok t') : ∀ g ∈ fields, ∃ e, t'.entry? g.name = some e := by
  induction fields generalizing t with
  | nil => simp
  | cons f rest ih =>
    rw [insertAll] at hi
    cases h₁ : t.insert origin f with
    | error fault =>
      rw [h₁] at hi
      exact absurd hi (by simp)
    | ok t₁ =>
      rw [h₁] at hi
      intro g hg
      rcases List.mem_cons.mp hg with rfl | hg
      · obtain ⟨e, he⟩ := exists_entry?_of_insert h₁
        exact ⟨e, extends_insertAll hi _ e he⟩
      · exact ih hi g hg

/-! ## The passes compared -/

namespace Scan

/-- A number leads to the field that was entered. -/
theorem field_ofTable {t : FieldTable} (h : t.Lawful) {name : String} {e : Entry}
    (he : t.entry? name = some e) : (ofTable t).fields[e.id.index]? = some e.field := by
  show (t.entries.map Entry.field)[e.id.index]? = _
  rw [List.getElem?_map, h.getElem?_of_entry? he, Option.map_some]

/-- And to its format. -/
theorem origin_ofTable {t : FieldTable} (h : t.Lawful) {name : String} {e : Entry}
    (he : t.entry? name = some e) : (ofTable t).origins[e.id.index]? = some e.origin := by
  show (t.entries.map Entry.origin)[e.id.index]? = _
  rw [List.getElem?_map, h.getElem?_of_entry? he, Option.map_some]

/-- A field is entered, numbered and compared as with the table. -/
theorem visit_ofTable {t : FieldTable} (h : t.Lawful) (format : String) (g : Field) :
    (ofTable t).visit format g = (t.insert format g).toOption.map fun t' =>
      (ofTable t', t'.assignField g, t'.fieldConflicts format g) := by
  rw [visit, idOf?_ofTable]
  cases he : t.entry? g.name with
  | some e =>
    have hid : t.idOf? g.name = some e.id := idOf?_eq_some.mpr ⟨e, he, rfl⟩
    have hc : t.fieldConflicts format g = differences ⟨e.origin, e.field⟩ ⟨format, g⟩ := by
      rw [fieldConflicts, he]
      exact e.conflicts_eq ⟨format, g⟩
    rw [insert, he]
    show _ = some (ofTable t, t.assignField g, t.fieldConflicts format g)
    rw [assignField, hid, hc]
    dsimp only
    rw [field_ofTable h he, origin_ofTable h he]
    rfl
  | none =>
    have hid : t.idOf? g.name = none := by rw [FieldTable.idOf?, he, Option.map_none]
    have hlen : (ofTable t).fields.length = t.size := List.length_map _
    rw [insert, he, hid]
    dsimp only
    rw [hlen]
    cases hnew : FieldId.ofIndex? t.size with
    | none => rfl
    | some id =>
      let e : Entry := { id, declared := g, origin := format }
      have he' : entry? ⟨t.entries ++ [e]⟩ g.name = some e := entry?_concat he rfl
      have ha : (⟨t.entries ++ [e]⟩ : FieldTable).assignField g = { g with id := some id } := by
        rw [assignField, FieldTable.idOf?, he', Option.map_some]
      have hc : (⟨t.entries ++ [e]⟩ : FieldTable).fieldConflicts format g = [] := by
        rw [fieldConflicts, he']
        exact conflicts_of_layout format rfl
      show _ = some (ofTable ⟨t.entries ++ [e]⟩, _, _)
      rw [ha, hc]
      simp [ofTable, FieldTable.fields, Entry.field, e]

theorem visitAll_ofTable {t : FieldTable} (h : t.Lawful) (format : String) (fields : List Field) :
    (ofTable t).visitAll format fields = (t.insertAll format fields).toOption.map fun t' =>
      (ofTable t', t'.assign fields, t'.conflicts format fields) := by
  induction fields generalizing t with
  | nil => rfl
  | cons g rest ih =>
    rw [visitAll, visit_ofTable h, insertAll]
    cases hi : t.insert format g with
    | error fault => rfl
    | ok t₁ =>
      have hrest := ih (lawful_insert h hi)
      dsimp only [Except.toOption, Option.map_some, Option.bind_eq_bind, Option.bind_some]
      rw [hrest]
      cases hall : t₁.insertAll format rest with
      | error fault => rfl
      | ok t' =>
        have hext := extends_insertAll hall
        have hg := exists_entry?_of_insert hi
        show some _ = some (ofTable t', t'.assignField g :: t'.assign rest,
          t'.fieldConflicts format g ++ t'.conflicts format rest)
        rw [hext.assignField_eq hg, hext.fieldConflicts_eq hg]

theorem run_ofTable {t : FieldTable} (h : t.Lawful) (formats : List Format) :
    (ofTable t).run formats = (t.collect formats).toOption.map fun t' =>
      (ofTable t', formats.map t'.number,
        formats.flatMap fun f => t'.conflicts f.name f.fields) := by
  induction formats generalizing t with
  | nil => rfl
  | cons f rest ih =>
    rw [run, visitAll_ofTable h, collect]
    cases hi : t.insertAll f.name f.fields with
    | error fault => rfl
    | ok t₁ =>
      have hrest := ih (lawful_insertAll h hi)
      dsimp only [Except.toOption, Option.map_some, Option.bind_eq_bind, Option.bind_some]
      rw [hrest]
      cases hall : t₁.collect rest with
      | error fault => rfl
      | ok t' =>
        have hext := extends_collect hall
        have hknown := exists_entry?_of_insertAll hi
        have ha : t'.assign f.fields = t₁.assign f.fields :=
          List.map_congr_left fun g hg => hext.assignField_eq (hknown g hg)
        have hc : t'.conflicts f.name f.fields = t₁.conflicts f.name f.fields :=
          List.flatMap_congr fun g hg => hext.fieldConflicts_eq (hknown g hg) f.name
        rw [Option.map_some, List.map_cons, List.flatMap_cons, number, ha, hc]
        rfl

/-- **One pass does what two passes do**, and has no answer exactly if they have none. -/
theorem run_eq_unify (formats : List Format) :
    run {} formats = (unify formats).toOption.map fun u =>
      (ofTable u.table, u.formats, u.conflicts) := by
  have hrun := run_ofTable lawful_empty formats
  rw [show ofTable {} = {} from rfl] at hrun
  rw [hrun, unify]
  cases FieldTable.collect {} formats with
  | error fault => rfl
  | ok t => rfl

end Scan

end InstructionSet.FieldTable
