import InstructionSet.Proofs.FieldTable.Agreement

/-!
# First occurrences

The fields of the formats, read one format after the other, are the *occurrences* of
their names. The table has one entry for each name, in the order in which the names
first occur, and the entry is the first occurrence (`Lists`). That holds of the table
as far as it has been collected: an occurrence of a new name is entered behind the
others, and one of a known name is nothing that was first.
-/

namespace InstructionSet.FieldTable

/-- A field where it occurs. -/
structure Occurrence where
  /-- The name of the format. -/
  origin : String
  field : Field
deriving DecidableEq

/-- The fields of the formats, in the order in which they are read. -/
def occurrences (formats : List Format) : List Occurrence :=
  formats.flatMap fun f => f.fields.map (Occurrence.mk f.name)

/-- The first occurrence of a name. -/
def first? (occs : List Occurrence) (name : String) : Option Occurrence :=
  occs.find? (·.field.name = name)

/-- What was entered. -/
def Entry.occurrence (e : Entry) : Occurrence := ⟨e.origin, e.declared⟩

theorem mem_occurrences {formats : List Format} {f : Format} (hf : f ∈ formats) {g : Field}
    (hg : g ∈ f.fields) : ⟨f.name, g⟩ ∈ occurrences formats :=
  List.mem_flatMap.mpr ⟨f, hf, List.mem_map_of_mem hg⟩

theorem map_field_occurrences (formats : List Format) :
    (occurrences formats).map Occurrence.field = formats.flatMap Format.fields := by
  unfold occurrences
  rw [List.map_flatMap]
  refine List.flatMap_congr fun f _ => ?_
  rw [List.map_map]
  exact List.map_id _

theorem fieldNames_eq (formats : List Format) :
    fieldNames formats = ((occurrences formats).map (·.field.name)).eraseDups := by
  rw [fieldNames, ← map_field_occurrences, List.map_map]
  rfl

/-! ## Entering one occurrence after the other -/

/-- The table with the occurrences that are new to it. -/
def enter (t : FieldTable) (occs : List Occurrence) : Except Fault FieldTable :=
  occs.foldlM (fun t o => t.insert o.origin o.field) t

theorem enter_append (t : FieldTable) (occs occs' : List Occurrence) :
    t.enter (occs ++ occs') = t.enter occs >>= fun t => t.enter occs' := List.foldlM_append

theorem enter_cons {t t' : FieldTable} {o : Occurrence} {rest : List Occurrence} :
    t.enter (o :: rest) = .ok t'
      ↔ ∃ t₁, t.insert o.origin o.field = .ok t₁ ∧ t₁.enter rest = .ok t' := by
  rw [enter, List.foldlM_cons]
  cases t.insert o.origin o.field with
  | error fault => simp [bind, Except.bind]
  | ok t₁ => simp [bind, Except.bind, enter]

theorem insertAll_eq_enter (t : FieldTable) (origin : String) (fields : List Field) :
    t.insertAll origin fields = t.enter (fields.map (Occurrence.mk origin)) := by
  induction fields generalizing t with
  | nil => rfl
  | cons g rest ih =>
    rw [insertAll, enter, List.map_cons, List.foldlM_cons]
    cases t.insert origin g with
    | error fault => rfl
    | ok t' => exact ih t'

/-- The formats and their fields are one sequence of occurrences. -/
theorem collect_eq_enter (t : FieldTable) (formats : List Format) :
    t.collect formats = t.enter (occurrences formats) := by
  induction formats generalizing t with
  | nil => rfl
  | cons f rest ih =>
    rw [collect, insertAll_eq_enter, occurrences, List.flatMap_cons, enter_append]
    cases t.enter (f.fields.map (Occurrence.mk f.name)) with
    | error fault => rfl
    | ok t' => exact ih t'

/-! ## What is entered -/

/-- The entries are the first occurrences of their names, in the order of appearance. -/
structure Lists (t : FieldTable) (occs : List Occurrence) : Prop where
  names : (t.entries.map fun e => e.declared.name) = (occs.map (·.field.name)).eraseDups
  first : ∀ name, (t.entry? name).map Entry.occurrence = first? occs name

theorem lists_nil : Lists {} [] where
  names := rfl
  first := fun _ => rfl

theorem Lists.mem_names {t : FieldTable} {occs : List Occurrence} (h : t.Lists occs)
    {name : String} :
    name ∈ occs.map (·.field.name) ↔ ∃ e, t.entry? name = some e := by
  rw [← List.mem_eraseDups, ← h.names, ← Option.ne_none_iff_exists', Ne, entry?_eq_none, not_not]

theorem first?_concat (occs : List Occurrence) (o : Occurrence) (name : String) :
    first? (occs ++ [o]) name
      = (first? occs name).or (if o.field.name = name then some o else none) := by
  rw [first?, List.find?_append, List.find?_singleton]
  simp [first?]

/-- **What is entered is the next first occurrence.** -/
theorem Lists.insert {t t' : FieldTable} {occs : List Occurrence} (h : t.Lists occs)
    {o : Occurrence} (hi : t.insert o.origin o.field = .ok t') : t'.Lists (occs ++ [o]) := by
  obtain ⟨rfl, he⟩ | ⟨he, id, -, rfl⟩ := insert_cases hi
  · refine ⟨?_, ?_⟩
    · have hold : o.field.name ∈ occs.map (·.field.name) := h.mem_names.mpr he
      rw [h.names, List.map_append, List.map_singleton, eraseDups_concat, if_pos hold]
    · intro name
      rw [first?_concat, h.first]
      cases hname : first? occs name with
      | some _ => rfl
      | none =>
        obtain ⟨e, he⟩ := he
        rw [if_neg, Option.or_none]
        rintro rfl
        rw [← h.first, he] at hname
        exact absurd hname (by simp)
  · refine ⟨?_, ?_⟩
    · have hnew : o.field.name ∉ occs.map (·.field.name) := by
        rw [h.mem_names, he]
        simp
      rw [List.map_append, h.names, List.map_append, List.map_singleton, List.map_singleton,
        eraseDups_concat, if_neg hnew]
    · intro name
      rw [first?_concat, ← h.first, entry?, List.find?_append, List.find?_singleton, Option.map_or]
      by_cases hname : o.field.name = name
      · simp [hname, entry?, Entry.occurrence]
      · simp [hname, entry?]

theorem Lists.enter {t t' : FieldTable} {before occs : List Occurrence} (h : t.Lists before)
    (he : t.enter occs = .ok t') : t'.Lists (before ++ occs) := by
  induction occs generalizing t before with
  | nil =>
    obtain rfl : t = t' := Except.ok.inj he
    rwa [List.append_nil]
  | cons o rest ih =>
    obtain ⟨t₁, hi, hrest⟩ := enter_cons.mp he
    have hlists := ih (h.insert hi) hrest
    rwa [List.append_assoc] at hlists

/-- **The table of a list of formats lists the first occurrences of their fields.** -/
theorem lists_collect {formats : List Format} {t : FieldTable}
    (hc : FieldTable.collect {} formats = .ok t) : t.Lists (occurrences formats) := by
  rw [collect_eq_enter] at hc
  exact lists_nil.enter hc

end InstructionSet.FieldTable
