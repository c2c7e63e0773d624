import InstructionSet.Decoder.Basic
import InstructionSet.Proofs.FieldTable.Lawful
import Mathlib.Data.List.Forall2
import Mathlib.Data.List.Nodup

/-!
# From selectors to tests

A decoder does not know instructions by the names of their fields: each is put
together with its format, and its selectors become tests of numbered fields. With
a lawful table nothing is lost on the way. A test looks where the selector's field
lies, and two instructions have the same chain of tests if, and only if, they
have the same selectors.
-/

namespace InstructionSet.Decoder

theorem bind_eq_ok {ε α β : Type} {x : Except ε α} {f : α → Except ε β} {r : β} :
    x >>= f = .ok r ↔ ∃ a, x = .ok a ∧ f a = .ok r := by
  cases x with
  | error e =>
    constructor
    · intro h
      exact absurd h (by simp [bind, Except.bind])
    · intro hex
      obtain ⟨a, h, -⟩ := hex
      exact absurd h (by simp)
  | ok a =>
    constructor
    · intro h
      exact ⟨a, rfl, h⟩
    · intro hex
      obtain ⟨b, h, hf⟩ := hex
      injection h with h
      exact h ▸ hf

theorem forall₂_of_mapM {ε α β : Type} {f : α → Except ε β} {l : List α} {out : List β}
    (h : l.mapM f = .ok out) : List.Forall₂ (fun a b => f a = .ok b) l out := by
  induction l generalizing out with
  | nil =>
    injection h with h
    exact h ▸ .nil
  | cons a rest ih =>
    rw [List.mapM_cons, bind_eq_ok] at h
    obtain ⟨b, hb, h⟩ := h
    rw [bind_eq_ok] at h
    obtain ⟨bs, hbs, h⟩ := h
    injection h with h
    exact h ▸ .cons hb (ih hbs)

theorem map_fst_of_forall₂ {α β : Type} {P : α × β → Prop} {l : List α} {out : List (α × β)}
    (h : List.Forall₂ (fun a x => x.1 = a ∧ P x) l out) :
    out.map Prod.fst = l ∧ ∀ x ∈ out, P x := by
  induction h with
  | nil => exact ⟨rfl, by simp⟩
  | cons hx _ ih =>
    rw [List.map_cons, ih.1, hx.1]
    exact ⟨rfl, List.forall_mem_cons.mpr ⟨hx.2, ih.2⟩⟩

/-! ## Instructions with their formats -/

/-- The decoder knows the instruction `i` as `e`; its format is `f`, as it is declared. -/
structure Entry.Describes (e : Entry) (t : FieldTable) (formats : List Format) (i : Instruction)
    (f : Format) : Prop where
  found : formats.find? (·.name = i.format) = some f
  format : e.format = t.number f
  instruction : e.instruction = { i with size := f.sizeBytes }

/-- An instruction in its place is known as one entry. -/
theorem Entry.Describes.unique {e e' : Entry} {t : FieldTable} {formats : List Format}
    {i : Instruction} {f f' : Format} (hd : e.Describes t formats i f)
    (hd' : e'.Describes t formats i f') (hp : e.place = e'.place) : e = e' := by
  obtain rfl : f = f' := Option.some.inj (hd.found.symm.trans hd'.found)
  have hinstruction : e.instruction = e'.instruction := hd.instruction.trans hd'.instruction.symm
  have hformat : e.format = e'.format := hd.format.trans hd'.format.symm
  obtain ⟨_, _, _⟩ := e
  obtain ⟨_, _, _⟩ := e'
  exact congr (congr (congrArg Entry.mk hp) hinstruction) hformat

theorem find?_number (t : FieldTable) (formats : List Format) (name : String) :
    (formats.map t.number).find? (·.name = name)
      = (formats.find? (·.name = name)).map t.number := by
  rw [List.find?_map]
  rfl

theorem describes_of_ofInstruction {t : FieldTable} {formats : List Format} {place : Nat}
    {i : Instruction} {e : Entry}
    (h : Entry.ofInstruction (formats.map t.number) place i = .ok e) :
    e.place = place ∧ ∃ f, e.Describes t formats i f := by
  unfold Entry.ofInstruction at h
  rw [find?_number] at h
  cases hf : formats.find? (·.name = i.format) with
  | none =>
    rw [hf] at h
    exact absurd h (by simp)
  | some f =>
    rw [hf] at h
    injection h with h
    subst h
    exact ⟨rfl, f, hf, rfl, rfl⟩

theorem entriesFrom_cons {formats : List Format} {place : Nat} {i : Instruction}
    {rest : List Instruction} {entries : List Entry} :
    entriesFrom formats place (i :: rest) = .ok entries
      ↔ ∃ e later, Entry.ofInstruction formats place i = .ok e
        ∧ entriesFrom formats (place + 1) rest = .ok later ∧ e :: later = entries := by
  rw [entriesFrom]
  cases Entry.ofInstruction formats place i with
  | error error => simp
  | ok e =>
    cases entriesFrom formats (place + 1) rest with
    | error error => simp [Except.map]
    | ok later => simp [Except.map]

/-- Every instruction has an entry, in its own place. -/
theorem entriesFrom_ok {t : FieldTable} {formats : List Format} {place : Nat}
    {instructions : List Instruction} {entries : List Entry}
    (h : entriesFrom (formats.map t.number) place instructions = .ok entries) :
    entries.length = instructions.length
      ∧ ∀ (k : Nat) (i : Instruction), instructions[k]? = some i →
        ∃ e, entries[k]? = some e ∧ e.place = place + k ∧ ∃ f, e.Describes t formats i f := by
  induction instructions generalizing place entries with
  | nil =>
    injection h with h
    exact h ▸ ⟨rfl, by simp⟩
  | cons i rest ih =>
    obtain ⟨e, later, he, hr, rfl⟩ := entriesFrom_cons.mp h
    obtain ⟨hlen, hat⟩ := ih hr
    refine ⟨by rw [List.length_cons, List.length_cons, hlen], ?_⟩
    intro k j hj
    cases k with
    | zero =>
      injection hj with hj
      subst hj
      exact ⟨e, rfl, describes_of_ofInstruction he⟩
    | succ k =>
      obtain ⟨e', he', hp, hd⟩ := hat k j hj
      exact ⟨e', he', by rw [hp]; omega, hd⟩

theorem chain_of_map {e : Entry} {x : Entry × List Test} (h : e.chain.map (e, ·) = .ok x) :
    x.1 = e ∧ x.1.chain = .ok x.2 := by
  cases hc : e.chain with
  | error error =>
    rw [hc] at h
    exact absurd h (by simp [Except.map])
  | ok c =>
    rw [hc] at h
    injection h with h
    subst h
    exact ⟨rfl, hc⟩

/-- The chains that are brought together are those of the entries. -/
theorem resolve_ok {formats : List Format} {instructions : List Instruction}
    {chains : List (Entry × List Test)} (h : resolve formats instructions = .ok chains) :
    entriesFrom formats 0 instructions = .ok (chains.map Prod.fst)
      ∧ ∀ x ∈ chains, x.1.chain = .ok x.2 := by
  unfold resolve at h
  split at h
  · exact absurd h (by simp)
  · rename_i entries he
    have hall := (forall₂_of_mapM h).imp fun e x => chain_of_map
    obtain ⟨hfst, hchains⟩ := map_fst_of_forall₂ hall
    exact ⟨hfst ▸ he, hchains⟩

/-! ## Selectors with their tests -/

/-- A test is its field and its value. -/
theorem test_eq {x x' : Test} (hfield : x.field = x'.field) (hvalue : x.value = x'.value) :
    x = x' := by
  obtain ⟨_, _⟩ := x
  obtain ⟨_, _⟩ := x'
  exact congr (congrArg Test.mk hfield) hvalue

/-- The test `x` is what becomes of the selector `s` of an instruction in the format `f`. -/
structure Tested (t : FieldTable) (f : Format) (s : Selector) (x : Test) : Prop where
  value : x.value = s.value
  idOf? : t.idOf? s.field = some x.field
  /-- The test looks where the field of the format lies. -/
  layout : ∃ g g', f.field? s.field = some g ∧ t.get? x.field = some g' ∧ g'.layout = g.layout

section Lawful

variable {t : FieldTable} {formats : List Format}

/-- A field of a numbered format has the number of its name. -/
theorem field_of_speaksFor (hl : t.Lawful) (hs : t.SpeaksFor formats) {f : Format}
    (hf : f ∈ formats) {name : String} {g : Field} (hg : f.field? name = some g) :
    ∃ id g', t.idOf? name = some id ∧ (t.assignField g).id = some id ∧ t.get? id = some g'
      ∧ g'.layout = g.layout := by
  have hname : g.name = name := Format.name_of_field? hg
  obtain ⟨e, he, hlay⟩ := hs f hf g (Format.mem_of_field? hg)
  rw [hname] at he
  have hid : t.idOf? name = some e.id := FieldTable.idOf?_eq_some.mpr ⟨e, he, rfl⟩
  exact ⟨e.id, e.field, hid, t.id_assignField (by rw [hname, hid]), hl.get?_of_entry? he, hlay⟩

theorem tested_of_test (hl : t.Lawful) (hs : t.SpeaksFor formats) {e : Entry} {i : Instruction}
    {f : Format} (hd : e.Describes t formats i f) {s : Selector} {x : Test}
    (h : e.test s = .ok x) : Tested t f s x := by
  have hf : f ∈ formats := List.mem_of_find?_eq_some hd.found
  unfold Entry.test at h
  rw [hd.format, FieldTable.field?_number] at h
  cases hg : f.field? s.field with
  | none =>
    rw [hg] at h
    exact absurd h (by simp)
  | some g =>
    obtain ⟨id, g', hid, hga, hget, hlay⟩ := field_of_speaksFor hl hs hf hg
    rw [hg, Option.map_some, Option.bind_some, hga] at h
    injection h with h
    subst h
    exact ⟨rfl, hid, g, g', hg, hget, hlay⟩

/-- Each field of a numbered format has a slot, and no two have the same. -/
theorem slots_number (hl : t.Lawful) (hs : t.SpeaksFor formats) {f : Format} (hf : f ∈ formats)
    (hnames : (f.fields.map Field.name).Nodup) :
    ((t.number f).fields.map Field.id).Nodup
      ∧ ∀ g ∈ (t.number f).fields, ∃ id, g.id = some id ∧ 0 < id.slot ∧ id.slot < t.slots := by
  have hid : ∀ g ∈ f.fields, ∃ e, t.entry? g.name = some e
      ∧ (t.assignField g).id = some e.id := by
    intro g hg
    obtain ⟨e, he, -⟩ := hs f hf g hg
    exact ⟨e, he, t.id_assignField (FieldTable.idOf?_eq_some.mpr ⟨e, he, rfl⟩)⟩
  rw [FieldTable.number, FieldTable.assign]
  constructor
  · have hfields : f.fields.Nodup := hnames.of_map
    rw [List.map_map]
    refine hfields.map_on fun g hg g' hg' heq => ?_
    obtain ⟨e, he, hge⟩ := hid g hg
    obtain ⟨e', he', hge'⟩ := hid g' hg'
    rw [Function.comp_apply, Function.comp_apply, hge, hge', Option.some.injEq] at heq
    -- a number is the number of one name, and a name is that of one field
    have hname : g.name = g'.name := hl.name_inj (FieldTable.idOf?_eq_some.mpr ⟨e, he, heq⟩)
      (FieldTable.idOf?_eq_some.mpr ⟨e', he', rfl⟩)
    exact List.inj_on_of_nodup_map hnames hg hg' hname
  · intro g' hg'
    obtain ⟨g, hg, rfl⟩ := List.mem_map.mp hg'
    obtain ⟨e, he, hge⟩ := hid g hg
    have hlt := (List.getElem?_eq_some_iff.mp (hl.getElem?_of_entry? he)).1
    refine ⟨e.id, hge, ?_, ?_⟩
    · rw [FieldId.slot_eq_index_add_one]
      exact Nat.succ_pos _
    · rw [FieldId.slot_eq_index_add_one]
      exact Nat.succ_lt_succ hlt

/-- The chain of an entry is made of the tests of its selectors. -/
theorem tested_of_chain (hl : t.Lawful) (hs : t.SpeaksFor formats) {e : Entry} {i : Instruction}
    {f : Format} (hd : e.Describes t formats i f) {chain : List Test} (h : e.chain = .ok chain) :
    List.Forall₂ (Tested t f) i.selectors.toList chain := by
  have hall := forall₂_of_mapM h
  rw [hd.instruction] at hall
  exact hall.imp fun s x hx => tested_of_test hl hs hd hx

/-- **Chains are the same if selectors are.** The formats may differ. -/
theorem chain_eq_iff (hl : t.Lawful) {f f' : Format} {selectors selectors' : List Selector}
    {chain chain' : List Test} (h : List.Forall₂ (Tested t f) selectors chain)
    (h' : List.Forall₂ (Tested t f') selectors' chain') :
    chain = chain' ↔ selectors = selectors' := by
  induction h generalizing selectors' chain' with
  | nil =>
    cases h' with
    | nil => simp
    | cons _ _ => simp
  | @cons s x rest restChain hx _ ih =>
    cases h' with
    | nil => simp
    | @cons s' x' _ _ hx' hrest' =>
      -- a number is the number of one name, so tests of one field were asked for by one name
      have hhead : x = x' ↔ s = s' := by
        constructor
        · intro he
          subst he
          have hfield : s.field = s'.field := hl.name_inj hx.idOf? hx'.idOf?
          have hvalue : s.value = s'.value := hx.value.symm.trans hx'.value
          obtain ⟨_, _⟩ := s
          obtain ⟨_, _⟩ := s'
          exact congr (congrArg Selector.mk hfield) hvalue
        · intro he
          subst he
          have hfield : x.field = x'.field := Option.some.inj (hx.idOf?.symm.trans hx'.idOf?)
          exact test_eq hfield (hx.value.trans hx'.value.symm)
      rw [List.cons.injEq, List.cons.injEq, hhead, ih hrest']

end Lawful

end InstructionSet.Decoder
