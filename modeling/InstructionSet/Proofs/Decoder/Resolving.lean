import InstructionSet.Proofs.Decoder.Building
import InstructionSet.Proofs.Validation.Instructions

/-!
# Nothing is looked up in vain

Putting an instruction together with its format and its tests is a matter of
looking up names, and a name might lead nowhere. After a description was found
sound and its fields were brought together this cannot happen: every instruction
has an entry with a chain (`exists_resolve`), and from there on a build depends on
nothing but how the chains go together (`build_eq_assemble`).
-/

namespace InstructionSet.Decoder

theorem exists_mapM {ε α β : Type} {f : α → Except ε β} {l : List α}
    (h : ∀ a ∈ l, ∃ b, f a = .ok b) : ∃ out, l.mapM f = .ok out := by
  induction l with
  | nil => exact ⟨[], rfl⟩
  | cons a rest ih =>
    obtain ⟨b, hb⟩ := h a List.mem_cons_self
    obtain ⟨out, hout⟩ := ih fun x hx => h x (List.mem_cons_of_mem a hx)
    exact ⟨b :: out, by rw [List.mapM_cons, bind_eq_ok]; exact ⟨b, hb, by rw [hout]; rfl⟩⟩

/-- What is accepted is sound. -/
theorem sound_of_validate {formats : List Format} {instructions : List Instruction}
    {warnings : List Diagnostic} (h : validate formats instructions = .ok warnings) :
    Validation.Sound formats instructions := by
  obtain ⟨problems, last, hcheck, hsound⟩ := Validation.check_new formats instructions
  unfold validate at h
  rw [hcheck] at h
  exact hsound warnings (mapError_eq_ok h)

section Lawful

variable {t : FieldTable} {formats : List Format} {instructions : List Instruction}

theorem exists_test (hl : t.Lawful) (hs : t.SpeaksFor formats) {e : Entry} {i : Instruction}
    {f : Format} (hd : e.Describes t formats i f) {s : Selector} {g : Field}
    (hg : f.field? s.field = some g) : ∃ x, e.test s = .ok x := by
  obtain ⟨id, -, -, hga, -⟩ := field_of_speaksFor hl hs (List.mem_of_find?_eq_some hd.found) hg
  unfold Entry.test
  rw [hd.format, FieldTable.field?_number, hg, Option.map_some, Option.bind_some, hga]
  exact ⟨_, rfl⟩

/-- Instructions of known formats have entries. -/
theorem exists_entriesFrom (t : FieldTable)
    (h : ∀ i ∈ instructions, ∃ f, formats.find? (·.name = i.format) = some f) (place : Nat) :
    ∃ entries, entriesFrom (formats.map t.number) place instructions = .ok entries := by
  induction instructions generalizing place with
  | nil => exact ⟨[], rfl⟩
  | cons i rest ih =>
    obtain ⟨f, hf⟩ := h i List.mem_cons_self
    obtain ⟨later, hlater⟩ := ih (fun j hj => h j (List.mem_cons_of_mem i hj)) (place + 1)
    unfold entriesFrom Entry.ofInstruction
    rw [find?_number, hf, Option.map_some, hlater]
    exact ⟨_, rfl⟩

/-- The instruction has its chain in its place. -/
structure Resolved (t : FieldTable) (formats : List Format) (k : Nat) (i : Instruction)
    (x : Entry × List Test) (f : Format) : Prop where
  place : x.1.place = k
  describes : x.1.Describes t formats i f
  tested : List.Forall₂ (Tested t f) i.selectors.toList x.2

/-- Every instruction has its chain in its place. -/
theorem resolved_of_resolve (hl : t.Lawful) (hs : t.SpeaksFor formats)
    {chains : List (Entry × List Test)}
    (h : resolve (formats.map t.number) instructions = .ok chains) :
    chains.length = instructions.length
      ∧ ∀ (k : Nat) (i : Instruction), instructions[k]? = some i →
        ∃ x f, chains[k]? = some x ∧ Resolved t formats k i x f := by
  obtain ⟨hentries, hchains⟩ := resolve_ok h
  obtain ⟨hlen, hentry⟩ := entriesFrom_ok hentries
  rw [List.length_map] at hlen
  refine ⟨hlen, ?_⟩
  intro k i hi
  obtain ⟨e, he, hplace, f, hd⟩ := hentry k i hi
  rw [List.getElem?_map, Option.map_eq_some_iff] at he
  obtain ⟨x, hx, rfl⟩ := he
  rw [Nat.zero_add] at hplace
  exact ⟨x, f, hx, hplace, hd, tested_of_chain hl hs hd (hchains x (List.mem_of_getElem? hx))⟩

/-- Every chain is that of an instruction. -/
theorem resolved_of_chains (hl : t.Lawful) (hs : t.SpeaksFor formats)
    {chains : List (Entry × List Test)}
    (h : resolve (formats.map t.number) instructions = .ok chains) {k : Nat}
    {x : Entry × List Test} (hx : chains[k]? = some x) :
    ∃ i f, instructions[k]? = some i ∧ Resolved t formats k i x f := by
  obtain ⟨hlen, hat⟩ := resolved_of_resolve hl hs h
  have hlt : k < instructions.length := hlen ▸ (List.getElem?_eq_some_iff.mp hx).1
  have hi := List.getElem?_eq_getElem hlt
  obtain ⟨y, f, hy, hres⟩ := hat k _ hi
  obtain rfl : x = y := Option.some.inj (hx.symm.trans hy)
  exact ⟨_, f, hi, hres⟩

/-- **The chains of a sound description can be made.** -/
theorem exists_resolve (hv : Validation.Sound formats instructions) (hl : t.Lawful)
    (hs : t.SpeaksFor formats) :
    ∃ chains, resolve (formats.map t.number) instructions = .ok chains := by
  obtain ⟨entries, he⟩ := exists_entriesFrom t
    (fun i hi => (hv.find?_format hi).imp fun f hf => hf.1) 0
  obtain ⟨hlen, hentry⟩ := entriesFrom_ok he
  unfold resolve
  rw [he]
  refine exists_mapM fun e hmem => ?_
  obtain ⟨k, hk⟩ := List.mem_iff_getElem?.mp hmem
  have hlt : k < instructions.length := by
    rw [← hlen]
    exact (List.getElem?_eq_some_iff.mp hk).1
  obtain ⟨e', he', -, f, hd⟩ := hentry k _ (List.getElem?_eq_getElem hlt)
  rw [hk] at he'
  injection he' with he'
  subst he'
  have hchain : ∃ chain, e.chain = .ok chain := by
    refine exists_mapM fun s hs' => ?_
    rw [hd.instruction] at hs'
    -- the format of the entry has all the fields that its selectors look at
    obtain ⟨g, hg, -⟩ := hv.selected (List.getElem_mem hlt) hd.found s hs'
    exact exists_test hl hs hd hg
  obtain ⟨chain, hc⟩ := hchain
  exact ⟨(e, chain), by rw [hc]; rfl⟩

/-- The chain of a sound instruction tests something. -/
theorem chain_ne_nil (hv : Validation.Sound formats instructions) {k : Nat} {i : Instruction}
    {x : Entry × List Test} {f : Format} (hi : instructions[k]? = some i)
    (hx : Resolved t formats k i x f) : x.2 ≠ [] := by
  intro hnil
  have ht := hx.tested
  rw [hnil, List.forall₂_nil_right_iff] at ht
  exact (hv.instruction i (List.mem_of_getElem? hi)).selectors_ne_nil ht

end Lawful

/-- **The third stage cannot fail**: after the first two, every instruction has a chain, and none of
them is empty. -/
theorem exists_chains {formats numbered : List Format} {instructions : List Instruction}
    {warnings : List Diagnostic} {table : FieldTable}
    (hv : validate formats instructions = .ok warnings)
    (hu : unify formats = .ok (table, numbered)) :
    ∃ chains, resolve numbered instructions = .ok chains
      ∧ chains.map (·.1.name) = instructions.map Instruction.name ∧ ∀ x ∈ chains, x.2 ≠ [] := by
  obtain ⟨hl, hs, rfl⟩ := unify_ok hu
  have hsound := sound_of_validate hv
  obtain ⟨chains, hr⟩ := exists_resolve hsound hl hs
  obtain ⟨hlen, hat⟩ := resolved_of_resolve hl hs hr
  refine ⟨chains, hr, ?_, ?_⟩
  · apply List.ext_getElem?
    intro k
    rw [List.getElem?_map, List.getElem?_map]
    cases hi : instructions[k]? with
    | none =>
      rw [List.getElem?_eq_none_iff, ← hlen, ← List.getElem?_eq_none_iff] at hi
      rw [hi]
      rfl
    | some i =>
      obtain ⟨x, f, hx, hres⟩ := hat k i hi
      rw [hx, Option.map_some, Option.map_some, Entry.name, hres.describes.instruction]
  · intro x hx
    obtain ⟨k, hk⟩ := List.mem_iff_getElem?.mp hx
    obtain ⟨i, f, hi, hres⟩ := resolved_of_chains hl hs hr hk
    exact chain_ne_nil hsound hi hres

/-- **After the first two stages only the chains matter.** -/
theorem build_eq_assemble {formats numbered : List Format} {instructions : List Instruction}
    {warnings : List Diagnostic} {table : FieldTable}
    {chains : List (Entry × List Test)} (hv : validate formats instructions = .ok warnings)
    (hu : unify formats = .ok (table, numbered))
    (hr : resolve numbered instructions = .ok chains) (options : Decoder.Options) :
    build formats instructions options
      = (assemble options table numbered chains warnings).mapError Failure.refused := by
  unfold build
  rw [hv]
  change (unify formats >>= _) = _
  rw [hu]
  change ((resolve numbered instructions).mapError _ >>= _) = _
  rw [hr]
  rfl

end InstructionSet.Decoder
