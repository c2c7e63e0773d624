import InstructionSet.Proofs.Decoder.Matching

/-!
# The values of a decoded instruction

Once an instruction was accepted, the fields of its format are read into their
slots. In a window that the format fits into no read fails, and since no two
fields of a format share a name, no slot is written twice: each name of the table
ends up with the value of its field in the format, and a name that the format
does not have with zero.
-/

namespace InstructionSet.Decoder

/-- The values of an instruction in the format `f`: its number, and a value for each name. -/
def valuesOf (t : FieldTable) (f : Format) (id : InstructionId) (buffer : Buffer) : SlotValues :=
  ⟨idValue id :: t.entries.map fun e =>
    ((f.field? e.declared.name).map fun g => buffer.value g.layout).getD 0⟩

/-- Numbering a format does not change what is in it. -/
theorem valuesOf_number (t : FieldTable) (f : Format) (id : InstructionId) (buffer : Buffer) :
    valuesOf t (t.number f) id buffer = valuesOf t f id buffer := by
  refine congrArg SlotValues.mk (congrArg (List.cons _) (List.map_congr_left fun e _ => ?_))
  rw [FieldTable.field?_number, Option.map_map]
  simp only [Function.comp_def, FieldTable.layout_assignField]

section Operands

variable {t : FieldTable} {formats : List Format} {f : Format} {buffer : Buffer}

/-- The slot of a field is the one of its name, and of no other. -/
theorem slot_eq_iff (hl : t.Lawful) {name : String} {id : FieldId} (hid : t.idOf? name = some id)
    {k : Nat} {e : FieldTable.Entry} (hk : t.entries[k]? = some e) :
    id.slot = k + 1 ↔ e.declared.name = name := by
  have he : t.idOf? e.declared.name = some e.id :=
    FieldTable.idOf?_eq_some.mpr ⟨e, hl.entry?_of_getElem? hk, rfl⟩
  have hindex : e.id.index = k := hl.index_eq k e hk
  rw [FieldId.slot_eq_index_add_one, Nat.add_right_cancel_iff, ← hindex]
  constructor
  · intro h
    rw [FieldId.index_inj h] at hid
    exact hl.name_inj he hid
  · intro he
    subst he
    rw [Option.some.inj (he.symm.trans hid)]

/-- The value under the number of a name is that of the field with this name. -/
theorem valuesOf_get (hl : t.Lawful) {name : String} {number : FieldId}
    (hid : t.idOf? name = some number) (f : Format) (id : InstructionId) (buffer : Buffer) :
    (valuesOf t f id buffer).get number
      = ((f.field? name).map fun g => buffer.value g.layout).getD 0 := by
  obtain ⟨e, he, rfl⟩ := FieldTable.idOf?_eq_some.mp hid
  rw [SlotValues.get, valuesOf, FieldId.slot_eq_index_add_one, List.getElem?_cons_succ,
    List.getElem?_map, hl.getElem?_of_entry? he, Option.map_some, Option.getD_some,
    FieldTable.name_of_entry? he]

/-- What reading `fields` makes of values: nothing goes wrong, and each field that is read has its
value in the slot of its name. -/
structure Filled (t : FieldTable) (buffer : Buffer) (fields : List Field) (before : SlotValues)
    (o : Operands Unit) : Prop where
  error : o.error = none
  length : o.values.length = before.length
  slot : ∀ (k : Nat) (e : FieldTable.Entry), t.entries[k]? = some e →
    (o.values.slots[k + 1]?).getD 0
      = ((fields.find? (·.name = e.declared.name)).map fun g => buffer.value g.layout).getD
          ((before.slots[k + 1]?).getD 0)

theorem filled_readOperands (hl : t.Lawful) (hs : f.Sound) {width : Nat} (hw : width ≤ buffer.bits)
    (hf : f.bits.toNat ≤ width) {fields : List Field} (hsub : ∀ g ∈ fields, g ∈ f.fields)
    (hnum : ∀ g ∈ fields, ∃ id, t.idOf? g.name = some id)
    (hnames : (fields.map Field.name).Nodup) (values : SlotValues)
    (hlen : values.length = t.slots) (session : Session Unit)
    (hsession : session.window.available = width) :
    Filled t buffer fields values
      (readOperands .msbFirst buffer (t.assign fields) values session) := by
  induction fields generalizing values session with
  | nil => exact ⟨rfl, rfl, fun k e _ => rfl⟩
  | cons g rest ih =>
    obtain ⟨id, hid⟩ := hnum g (List.mem_cons_self ..)
    obtain ⟨hname, hnames⟩ := List.nodup_cons.mp hnames
    have hread : buffer.answer g.layout session.window.available
        = .ok (buffer.value g.layout) := by
      rw [hsession]
      exact hs.answer_eq hw hf (hsub g (List.mem_cons_self ..))
    have hstep : readOperands .msbFirst buffer (t.assign (g :: rest)) values session
        = readOperands .msbFirst buffer (t.assign rest)
            (values.set id.slot (buffer.value g.layout))
            { session with window := session.window.mark g.layout } := by
      rw [FieldTable.assign, List.map_cons, readOperands, t.id_assignField hid]
      dsimp only
      rw [FieldTable.layout_assignField, Extractor.msbFirst_of_ok hread]
      rfl
    have hrest := ih (fun g' hg' => hsub g' (List.mem_cons_of_mem _ hg'))
      (fun g' hg' => hnum g' (List.mem_cons_of_mem _ hg')) hnames
      (values.set id.slot (buffer.value g.layout)) (by simpa using hlen)
      { session with window := session.window.mark g.layout } hsession
    rw [hstep]
    refine ⟨hrest.error, hrest.length.trans (SlotValues.length_set ..), ?_⟩
    intro k e hk
    rw [hrest.slot k e hk, List.find?_cons]
    have hslot := slot_eq_iff hl hid hk
    have hin : k + 1 < values.slots.length := by
      have : k < t.entries.length := (List.getElem?_eq_some_iff.mp hk).1
      rw [show values.slots.length = values.length from rfl, hlen]
      exact Nat.succ_lt_succ this
    by_cases he : e.declared.name = g.name
    · -- no later field has this name, so that the slot stays as it is
      have hnone : rest.find? (·.name = e.declared.name) = none := by
        rw [List.find?_eq_none]
        intro g' hg' hn
        rw [he, decide_eq_true_iff] at hn
        exact hname (hn ▸ List.mem_map_of_mem hg')
      rw [hnone, decide_eq_true he.symm, SlotValues.set, hslot.mpr he]
      simp [hin]
    · rw [decide_eq_false (Ne.symm he), SlotValues.set,
        List.getElem?_set_ne (fun hs => he (hslot.mp hs))]

/-- The values that were read, with the number of the instruction, are its values. -/
theorem set_eq_valuesOf {o : Operands Unit} (h : Filled t buffer f.fields (.zeros t.slots) o)
    (id : InstructionId) : o.values.set 0 (idValue id) = valuesOf t f id buffer := by
  have hlen : o.values.slots.length = t.entries.length + 1 :=
    h.length.trans (SlotValues.length_zeros t.slots)
  have hslot := h.slot
  unfold SlotValues.set valuesOf
  cases hv : o.values.slots with
  | nil =>
    rw [hv] at hlen
    exact absurd hlen (by simp)
  | cons first rest =>
    rw [hv] at hlen hslot
    rw [List.set_cons_zero]
    congr 2
    -- slot 0 is the number's, and the name in place `k` has the slot behind it
    apply List.ext_getElem?
    intro k
    rw [List.getElem?_map]
    cases hk : t.entries[k]? with
    | none =>
      have hge : t.entries.length ≤ k := List.getElem?_eq_none_iff.mp hk
      rw [List.getElem?_eq_none (by rw [List.length_cons] at hlen; omega)]
      rfl
    | some e =>
      have hlt : k < rest.length := by
        have := (List.getElem?_eq_some_iff.mp hk).1
        rw [List.length_cons] at hlen
        omega
      have hzero : ((SlotValues.zeros t.slots).slots[k + 1]?).getD 0 = 0 := by
        rw [SlotValues.zeros, List.getElem?_replicate]
        split <;> rfl
      have hvalue := hslot k e hk
      rw [hzero, List.getElem?_cons_succ, List.getElem?_eq_getElem hlt, Option.getD_some] at hvalue
      rw [List.getElem?_eq_getElem hlt, hvalue, Option.map_some, Format.field?]

/-- **An instruction that fits into the window is packed up whole.** -/
theorem pack_eq (hl : t.Lawful) (hspeaks : t.SpeaksFor formats) (hs : f.Sound) {e : Entry}
    {i : Instruction} (hd : e.Describes t formats i f) (session : Session Unit)
    (hw : session.window.available ≤ buffer.bits)
    (hf : f.bits.toNat ≤ session.window.available) :
    pack t.slots buffer e session
      = some {
          instruction := i.id
          size := f.bits / 8
          fields := valuesOf t f i.id buffer } := by
  have hnum : ∀ g ∈ f.fields, ∃ id, t.idOf? g.name = some id := by
    intro g hg
    obtain ⟨en, hen, -⟩ := hspeaks f (List.mem_of_find?_eq_some hd.found) g hg
    exact ⟨en.id, FieldTable.idOf?_eq_some.mpr ⟨en, hen, rfl⟩⟩
  have hfields : e.format.fields = t.assign f.fields := by
    rw [hd.format]
    rfl
  have hfilled := filled_readOperands hl hs hw hf (fun _ hg => hg) hnum hs.names
    (.zeros t.slots) (SlotValues.length_zeros t.slots) session rfl
  rw [pack, hfields, hfilled.error, hd.instruction]
  dsimp only
  rw [set_eq_valuesOf hfilled]
  rfl

end Operands

end InstructionSet.Decoder
