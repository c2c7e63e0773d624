import InstructionSet.Error
import InstructionSet.FieldTable.Conflict
import InstructionSet.Format

/-!
# The table of fields

A name that occurs in several formats stands for one field. The table lists the
names in order of first occurrence; the first field of a name settles its layout,
and its place in the list settles its identifier.

`FieldTable.unify` makes the table of a list of formats. It numbers every field
whether or not the fields agree, and reports every disagreement. A list of fields
that somebody holds on the side is numbered with `FieldTable.assign` and
checked with `FieldTable.conflicts` in the same way.
-/

namespace InstructionSet

/-- A name in the table. -/
structure FieldTable.Entry where
  id : FieldId
  /-- The first field of the name, as its format declares it. -/
  declared : Field
  /-- The name of that format. -/
  origin : String
deriving DecidableEq

/-- The first field of the name, with its number. -/
def FieldTable.Entry.field (e : FieldTable.Entry) : Field := { e.declared with id := some e.id }

/-- The fields of a description, one for each name. -/
structure FieldTable where
  entries : List FieldTable.Entry := []
deriving DecidableEq

namespace FieldTable

/-! ## Looking up -/

def size (t : FieldTable) : Nat := t.entries.length

/-- The number of values in a decoded instruction: one for each name, and the instruction's. -/
def slots (t : FieldTable) : Nat := t.size + 1

/-- The fields in order of their numbers. -/
def fields (t : FieldTable) : List Field := t.entries.map Entry.field

def entry? (t : FieldTable) (name : String) : Option Entry :=
  t.entries.find? (·.declared.name = name)

def get? (t : FieldTable) (id : FieldId) : Option Field := t.entries[id.index]?.map Entry.field

/-- The number of a name. -/
def idOf? (t : FieldTable) (name : String) : Option FieldId := (t.entry? name).map Entry.id

def lookup? (t : FieldTable) (name : String) : Option Field := (t.entry? name).map Entry.field

/-! ## Comparing and numbering -/

/-- In what the field `f` of `format` differs from the first field of its name. -/
def Entry.conflicts (e : Entry) (format : String) (f : Field) : List Conflict :=
  let first := e.declared.layout
  let other := f.layout
  (if first.size = other.size then []
    else [.size f.name e.origin format first.size other.size])
  ++ (if first.firstBit = other.firstBit then []
    else [.position f.name e.origin format first.firstBit other.firstBit])
  ++ (if first.signed = other.signed then [] else [.sign f.name e.origin format])

/-- In what the field `f` of `format` differs from the table. -/
def fieldConflicts (t : FieldTable) (format : String) (f : Field) : List Conflict :=
  match t.entry? f.name with
  | none => [.unknown f.name]
  | some e => e.conflicts format f

def conflicts (t : FieldTable) (format : String) (fields : List Field) : List Conflict :=
  fields.flatMap (t.fieldConflicts format)

/-- The field with the number of its name. A name that is not in the table leaves it as it was. -/
def assignField (t : FieldTable) (f : Field) : Field :=
  match t.idOf? f.name with
  | none => f
  | some id => { f with id := some id }

def assign (t : FieldTable) (fields : List Field) : List Field := fields.map t.assignField

/-- No conflict is acceptable. -/
def verdict {α : Type} (conflicts : List Conflict) (result : α) : Except Error α :=
  if conflicts.isEmpty then .ok result
  else .error (.diagnostics .unification (conflicts.map Conflict.diagnostic))

/-! ## Collecting -/

/-- The table with the field `f` of the format `origin`, which is new if its name is. -/
def insert (t : FieldTable) (origin : String) (f : Field) : Except Fault FieldTable :=
  match t.entry? f.name with
  | some _ => .ok t
  | none =>
    match FieldId.ofIndex? t.size with
    | none => .error .identifiersExhausted
    | some id => .ok { entries := t.entries ++ [{ id, declared := f, origin }] }

def insertAll (t : FieldTable) (origin : String) : List Field → Except Fault FieldTable
  | [] => .ok t
  | f :: rest =>
    match t.insert origin f with
    | .error fault => .error fault
    | .ok t => t.insertAll origin rest

def collect (t : FieldTable) : List Format → Except Fault FieldTable
  | [] => .ok t
  | f :: rest =>
    match t.insertAll f.name f.fields with
    | .error fault => .error fault
    | .ok t => t.collect rest

/-- What becomes of a list of formats whose fields are brought together. -/
structure Unified where
  table : FieldTable
  /-- The formats, every field numbered. -/
  formats : List Format
  /-- Every disagreement, in the order of the formats and their fields. -/
  conflicts : List Conflict

/-- Whether the fields agree; if so, the table. -/
def Unified.verdict (u : Unified) : Except Error FieldTable :=
  FieldTable.verdict u.conflicts u.table

/-- Brings the fields of the formats together. -/
def unify (formats : List Format) : Except Fault Unified :=
  match FieldTable.collect {} formats with
  | .error fault => .error fault
  | .ok table => .ok {
      table
      formats := formats.map fun f => { f with fields := table.assign f.fields }
      conflicts := formats.flatMap fun f => table.conflicts f.name f.fields }

/-- Checks a list of fields that belongs to no format against the table. -/
def checkProjection (t : FieldTable) (fields : List Field) : Except Error Unit :=
  verdict (t.conflicts "<projection>" fields) ()

end FieldTable

end InstructionSet
