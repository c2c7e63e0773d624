import InstructionSet.Decoder.Encode
import InstructionSet.Proofs.Bits.Inverse
import InstructionSet.Proofs.Decoder.Leftovers
import InstructionSet.Proofs.Decoder.Tables
import InstructionSet.Proofs.FieldTable.Unification
import InstructionSet.Proofs.Search.Numbers

/-!
# Nothing is missing from a decoder

A decoder refers to itself in many places: tests to fields, nodes to other nodes and
to instructions, instructions to formats, numbers and names to both. None of these
references is looked at while it is made, and each is relied upon later.
`Consistent` lists them, and `consistent_of_build` says that a decoder that was built
has all that it refers to. There is no question to it that comes upon a gap, for any
host and any buffer.
-/

namespace InstructionSet

/-- What is read lies in the buffer: so do the bytes from the first to the last that hold it. -/
theorem Buffer.bytes_of_extract {b : Buffer} {l : Layout} {w : Window} {x : Int64 × Window}
    (h : b.extract l w = .ok x) :
    l.firstBit.toNat / 8 ≤ (l.endBit - 1) / 8 ∧ (l.endBit - 1) / 8 < b.length := by
  unfold extract at h
  split at h
  · exact absurd h (by simp)
  · rename_i hr
    split at h
    · exact absurd h (by simp)
    · rename_i hbits
      have hsize : 0 < l.size.toNat := (Layout.readable_iff.mp (by simpa using hr)).1
      rw [Buffer.bits] at hbits
      unfold Layout.endBit at hbits ⊢
      omega

namespace Forest

variable {α : Type}

/-- A node's test is one of those that lead to it. -/
theorem Branches.test_mem_of_follow? {b : Branches α} {turns : List Turn} {path : List Test}
    {n : Node α} (h : b.follow? turns = some (path, n)) : n.test ∈ path := by
  induction b generalizing turns path with
  | nil => exact absurd h (by simp [follow?])
  | node i t o below next ihb ihn =>
    rcases follow?_cases h with ⟨-, rfl, rfl⟩ | ⟨_, q, -, rfl, hf⟩ | ⟨_, -, hf⟩
    · exact List.mem_cons_self ..
    · exact List.mem_cons_of_mem _ (ihb hf)
    · exact ihn hf

/-- What a node tests is part of a chain that was entered. -/
theorem Represents.exists_chain {f : Forest α} {made : List (Call α)} (h : f.Represents made)
    {n : Node α} (hn : n ∈ f.nodes) : ∃ c ∈ made, n.test ∈ c.chain := by
  obtain ⟨turns, path, hf⟩ := Branches.exists_follow?_of_mem (mem_nodes.mp hn)
  obtain ⟨-, c, hc, hp⟩ := (h.path_iff path).mp ⟨turns, n, by rw [route?_eq h.numbered, hf]⟩
  exact ⟨c, hc, hp.subset (Branches.test_mem_of_follow? hf)⟩

theorem mem_owners {b : Branches α} {n : Node α} (hn : n ∈ b.preorder) {a : α}
    (ha : n.owner = some a) : a ∈ b.owners := by
  induction b with
  | nil => exact absurd hn (by simp [Branches.preorder])
  | node i t o below next ihb ihn =>
    rw [Branches.owners_node, List.mem_append, List.mem_append]
    rw [Branches.preorder, List.mem_cons, List.mem_append] at hn
    rcases hn with rfl | hn | hn
    · exact .inl (.inl (Option.mem_toList.mpr ha))
    · exact .inl (.inr (ihb hn))
    · exact .inr (ihn hn)

end Forest

namespace Decoder

variable {formats : List Format} {instructions : List Instruction} {d : Decoder}

/-! ## What is to be found -/

/-- The decoder's formats and instructions are those that were declared, in the same order, with
numbers and sizes filled in. -/
structure Declares (d : Decoder) (formats : List Format) (instructions : List Instruction) :
    Prop where
  formats : d.formats = formats.map d.table.number
  instructions : List.Forall₂ (fun i j => ∃ size, j = { i with size := size }) instructions
    d.instructions

/-- The decoder has all there is to know of the instruction `i`. -/
structure Knows (d : Decoder) (i : Instruction) : Prop where
  byId : d.instruction i.id = .ok i
  /-- Its format is found in both ways, and settles its size; and it can be written. -/
  format : ∃ f, d.formatFor i.id = .ok f ∧ d.formatNamed i.format = .ok f
    ∧ i.size.toNat = f.bits.toNat / 8
    ∧ ∃ word, d.baseEncoding i.id = .ok word ∧ word.length = f.bits.toNat / 8
  /-- Its name leads to the first instruction that bears it. -/
  byName : ∃ p first, d.instructionNamed i.name = .ok first ∧ d.instructions[p]? = some first
    ∧ first.name = i.name
    ∧ ∀ (q : Nat) (j : Instruction), q < p → d.instructions[q]? = some j → j.name ≠ i.name

/-- What was not declared is answered with the error that says so. -/
structure Disowns (d : Decoder) : Prop where
  id : ∀ id, (∀ i ∈ d.instructions, i.id ≠ id) →
    d.instruction id = .error (.unknownInstruction id)
      ∧ d.formatFor id = .error (.unknownInstruction id)
      ∧ d.baseEncoding id = .error (.unknownInstruction id)
  name : ∀ name, (∀ i ∈ d.instructions, i.name ≠ name) →
    d.instructionNamed name = .error (.unknownInstructionName name)
  format : ∀ name, (∀ f ∈ d.formats, f.name ≠ name) →
    d.formatNamed name = .error (.unknownFormat name)
  field : ∀ name, (∀ f ∈ d.formats, ∀ g ∈ f.fields, g.name ≠ name) →
    d.fieldNumber name = .error (.unknownField name)

/-- The nodes of the forest refer to what is there. -/
structure Grounded (d : Decoder) : Prop where
  root : ∀ k, d.forest.root? = some k → ∃ n, d.forest.nodes[k]? = some n
  link : ∀ n ∈ d.forest.nodes, ∀ turn k, n.link turn = some k →
    ∃ m, d.forest.nodes[k]? = some m
  /-- A test looks at a field of the table. -/
  field : ∀ n ∈ d.forest.nodes,
    ∃ g, d.table.get? n.test.field = some g ∧ g.id = some n.test.field
  /-- An owner is the entry in its place. -/
  owner : ∀ n ∈ d.forest.nodes, ∀ e, n.owner = some e → d.entries[e.place]? = some e

/-- The fields of the formats are those of the table. -/
structure Fielded (d : Decoder) : Prop where
  /-- Names and numbers lead to each other. -/
  table : d.table.Consistent
  /-- The number of each field of a format leads to a field of its name and layout. -/
  formats : d.table.Describes d.formats
  slot : ∀ f ∈ d.formats, ∀ g ∈ f.fields, ∃ id, g.id = some id ∧ id.slot < d.table.slots
  /-- Each field that all formats share is found. -/
  shared : ∀ first rest, d.formats = first :: rest → d.sharedFields.map Field.name
    = (first.fields.filter fun g => rest.all (·.contains g.name)).map Field.name

/-- A decoder that has all that it refers to. -/
structure Consistent (d : Decoder) : Prop where
  grounded : d.Grounded
  fielded : d.Fielded
  /-- In tables that refer to one another by place, no place is out of range. -/
  tables : ∃ t, d.tables = .ok t ∧ t.Holds d
  knows : ∀ i ∈ d.instructions, d.Knows i
  disowns : d.Disowns
  /-- A search by number ends, and no number is out of range. -/
  search : ∀ {σ : Type} (extractor : Extractor σ) (buffer : Buffer) (session : Session σ)
    (turns : Nat), 2 * d.forest.size < turns →
    (d.search extractor buffer).walk d.forest.linked turns (Search.start d.forest.linked session)
      = some ((d.search extractor buffer).run d.forest session)
  /-- No byte that is read is out of range. -/
  bytes : ∀ (buffer : Buffer) (l : Layout) (w : Window) (x : Int64 × Window),
    buffer.extract l w = .ok x →
      l.firstBit.toNat / 8 ≤ (l.endBit - 1) / 8 ∧ (l.endBit - 1) / 8 < buffer.length
  /-- What is decoded is an instruction of the decoder, and of its size. -/
  decoded : ∀ {σ : Type} (extractor : Extractor σ) (buffer : Buffer) (bits : Nat)
    (out : SlotValues) (host : σ) (x : Decoded),
    (d.decodeInto extractor buffer bits out host).decoded? = some x →
      ∃ i ∈ d.instructions, d.instruction x.instruction = .ok i ∧ i.size = x.size
  /-- Nothing but its width keeps the forest from being put on paper. -/
  text : (∃ text, d.forestText = .ok text)
    ∨ 16384 < d.forest.maxDepth ∧ ∃ blanks, d.forestText = .error (.indentTooWide blanks)

/-! ## Nodes -/

theorem field_of_tested {t : FieldTable} {f : Format} {selectors : List Selector}
    {chain : List Test} (h : List.Forall₂ (Tested t f) selectors chain) :
    ∀ x ∈ chain, ∃ g, t.get? x.field = some g := by
  induction h with
  | nil => simp
  | cons hx _ ih =>
    obtain ⟨_, g, _, hg, _⟩ := hx.layout
    exact List.forall_mem_cons.mpr ⟨⟨g, hg⟩, ih⟩

theorem Built.grounded (hb : Built formats instructions d) : d.Grounded := by
  obtain ⟨made, hrep, hmade, hchain⟩ := hb.forest
  have hget (k : Nat) (hk : k < d.forest.nodes.length) : ∃ n, d.forest.nodes[k]? = some n :=
    ⟨_, List.getElem?_eq_getElem hk⟩
  refine ⟨?_, ?_, ?_, ?_⟩
  · intro k hk
    refine hget k ?_
    rw [Forest.length_nodes]
    exact hrep.numbered.lt (Forest.Branches.mem_indices_of_head? hk)
  · intro n hn turn k hk
    exact hget k (hrep.refines.link_lt n hn turn k hk).2
  · intro n hn
    obtain ⟨c, hc, ht⟩ := hrep.exists_chain hn
    obtain ⟨k, hk⟩ := List.getElem?_of_mem hc
    obtain ⟨i, f, -, -, -, htested⟩ := hb.of_entered hmade hchain hk
    obtain ⟨g, hg⟩ := field_of_tested htested _ ht
    exact ⟨g, hg, (hb.lawful.consistent.number _ _ hg).1⟩
  · intro n hn e he
    obtain ⟨⟨path, a⟩, ht, rfl⟩ :=
      List.mem_map.mp (Forest.mem_owners (Forest.mem_nodes.mp hn) he)
    obtain ⟨-, i, f, hi, hd, -⟩ := hb.owns_of_mem ht
    obtain ⟨e', he', hplace, f', hd'⟩ := hb.entry a.place i hi
    rw [he', hd'.unique hd hplace]

/-! ## Fields -/

theorem Built.fielded (hb : Built formats instructions d)
    (hs : Validation.Sound formats instructions) : d.Fielded := by
  have hdescribes : d.table.Describes d.formats := by
    rw [hb.formats_eq]
    exact hb.lawful.describes hb.speaksFor
  refine ⟨hb.lawful.consistent, hdescribes, ?_, ?_⟩
  · intro f' hf' g hg
    rw [hb.formats_eq] at hf'
    obtain ⟨f, hf, rfl⟩ := List.mem_map.mp hf'
    obtain ⟨id, hid, -, hlt⟩ :=
      (slots_number hb.lawful hb.speaksFor hf (hs.format f hf).names).2 g hg
    exact ⟨id, hid, hlt⟩
  · intro first rest hformats
    unfold sharedFields
    rw [hformats]
    dsimp only
    rw [List.map_filterMap, ← List.filterMap_eq_map]
    refine List.filterMap_congr fun g hg => ?_
    obtain ⟨id, c, -, hc, hname, -⟩ :=
      hdescribes first (hformats ▸ List.mem_cons_self ..) g (List.mem_of_mem_filter hg)
    have hid := (hb.lawful.consistent.number id c hc).2
    rw [hname] at hid
    rw [hb.lawful.consistent.lookup, hid, Option.bind_some, hc, Option.map_some, hname]
    rfl

/-! ## Instructions -/

theorem Built.entry_of_getElem? (hb : Built formats instructions d)
    (hs : Validation.Sound formats instructions) {e : Entry} (he : e ∈ d.entries) :
    d.entry e.instruction.id = .ok e := by
  have hfind := find?_key (fun e : Entry => e.instruction.id) (hb.ids_entries hs) he
  rw [Decoder.entry, hfind]

theorem toNat_sizeBytes (f : Format) : f.sizeBytes.toNat = f.bits.toNat / 8 :=
  UInt32.toNat_div ..

theorem instructionNamed_first {i : Instruction} (hi : i ∈ d.instructions) :
    ∃ p first, d.instructionNamed i.name = .ok first ∧ d.instructions[p]? = some first
      ∧ first.name = i.name
      ∧ ∀ (q : Nat) (j : Instruction), q < p → d.instructions[q]? = some j → j.name ≠ i.name := by
  obtain ⟨e, he, rfl⟩ := List.mem_map.mp hi
  have hsome : (d.entries.find? (·.name = e.instruction.name)).isSome :=
    List.find?_isSome.mpr ⟨e, he, by simp [Entry.name]⟩
  obtain ⟨first, hfind⟩ := Option.isSome_iff_exists.mp hsome
  obtain ⟨hname, p, hp, rfl, hbefore⟩ := List.find?_eq_some_iff_getElem.mp hfind
  refine ⟨p, d.entries[p].instruction, ?_, getElem?_instructions (List.getElem?_eq_getElem hp),
    of_decide_eq_true hname, ?_⟩
  · rw [instructionNamed, hfind]
  · intro q j hq hj
    have hq' : q < d.entries.length := hq.trans hp
    rw [getElem?_instructions (List.getElem?_eq_getElem hq')] at hj
    rw [← Option.some.inj hj]
    exact of_decide_eq_false (Bool.not_eq_true' _ |>.mp (hbefore q hq))

theorem Built.formatNamed_eq (hb : Built formats instructions d) {e : Entry}
    (he : e ∈ d.entries) : d.formatNamed e.instruction.format = .ok e.format := by
  obtain ⟨p, hp⟩ := List.getElem?_of_mem he
  rw [formatNamed, hb.find?_format hp]

theorem knows_of_build {options : Decoder.Options}
    (h : build formats instructions options = .ok d) {i : Instruction}
    (hi : i ∈ d.instructions) : d.Knows i := by
  obtain ⟨-, hb⟩ := built_of_build h
  have hs := sound_of_build h
  refine ⟨?_, ?_, instructionNamed_first hi⟩
  · obtain ⟨e, he, rfl⟩ := List.mem_map.mp hi
    rw [instruction, hb.entry_of_getElem? hs he]
    rfl
  · obtain ⟨e, he, rfl⟩ := List.mem_map.mp hi
    obtain ⟨p, hp⟩ := List.getElem?_of_mem he
    obtain ⟨j, f, hj, -, hd⟩ := hb.describes_of_getElem? hp
    obtain ⟨f', word, hf', hword⟩ := exists_assembles h (List.mem_of_getElem? hj)
    obtain rfl : f = f' := Option.some.inj (hd.found.symm.trans hf')
    have hid : e.instruction.id = j.id := by rw [hd.instruction]
    have hwidth : e.format.bits = f.bits := by rw [hd.format]; rfl
    refine ⟨e.format, ?_, hb.formatNamed_eq he, ?_, word, ?_, ?_⟩
    · rw [formatFor, hb.entry_of_getElem? hs he]
      rfl
    · rw [hd.instruction, hwidth]
      exact toNat_sizeBytes f
    · rw [hid]
      exact hword.encoded
    · rw [hwidth]
      exact hword.length

/-! ## What was not declared -/

theorem lists_of_unify {numbered : List Format} {t : FieldTable}
    (h : unify formats = .ok (t, numbered)) : t.Lists (FieldTable.occurrences formats) := by
  obtain ⟨u, hu, hv, -⟩ := exists_unified h
  obtain ⟨-, rfl⟩ := FieldTable.Unified.verdict_eq_ok.mp hv
  exact (FieldTable.unifies_of_unify hu).lists

/-- The table has no name that is not that of a field. -/
theorem Built.entry?_eq_none (hb : Built formats instructions d)
    (hl : d.table.Lists (FieldTable.occurrences formats)) {name : String}
    (h : ∀ f ∈ d.formats, ∀ g ∈ f.fields, g.name ≠ name) : d.table.entry? name = none := by
  rw [Option.eq_none_iff_forall_ne_some]
  intro e he
  obtain ⟨o, ho, rfl⟩ := List.mem_map.mp (hl.mem_names.mpr ⟨e, he⟩)
  obtain ⟨f, hf, hof⟩ := List.mem_flatMap.mp ho
  obtain ⟨g, hg, rfl⟩ := List.mem_map.mp hof
  have hf' : d.table.number f ∈ d.formats := by
    rw [hb.formats_eq]
    exact List.mem_map_of_mem hf
  exact h _ hf' _ (List.mem_map_of_mem hg) (d.table.name_assignField g)

theorem entry_of_not_mem {id : InstructionId} (h : ∀ i ∈ d.instructions, i.id ≠ id) :
    d.entry id = .error (.unknownInstruction id) := by
  have hnone : d.entries.find? (·.instruction.id = id) = none :=
    List.find?_eq_none.mpr fun e he => by simpa using h _ (List.mem_map_of_mem he)
  rw [entry, hnone]

theorem disowns_of_build {options : Decoder.Options}
    (h : build formats instructions options = .ok d) : d.Disowns where
  id id hid := by
    have he := entry_of_not_mem hid
    rw [instruction, formatFor, baseEncoding, he]
    exact ⟨rfl, rfl, rfl⟩
  name name hname := by
    have hnone : d.entries.find? (·.name = name) = none :=
      List.find?_eq_none.mpr fun e he hen =>
        hname e.instruction (List.mem_map_of_mem he) (of_decide_eq_true hen)
    rw [instructionNamed, hnone]
  format name hname := by
    have hnone : d.formats.find? (·.name = name) = none :=
      List.find?_eq_none.mpr fun f hf => by simpa using hname f hf
    rw [formatNamed, hnone]
  field name hname := by
    obtain ⟨-, hb⟩ := built_of_build h
    obtain ⟨_, _, -, hu, -⟩ := build_ok h
    rw [fieldNumber, FieldTable.idOf?, hb.entry?_eq_none (lists_of_unify hu) hname]
    rfl

/-! ## The forest on paper -/

theorem exists_of_mapM_error {ε α β : Type} {f : α → Except ε β} {l : List α} {e : ε}
    (h : l.mapM f = .error e) : ∃ a ∈ l, f a = .error e := by
  induction l with
  | nil => exact absurd h (by simp [pure, Except.pure])
  | cons a rest ih =>
    rw [List.mapM_cons] at h
    cases ha : f a with
    | error e' =>
      rw [ha] at h
      exact ⟨a, List.mem_cons_self .., by rw [ha, Except.error.inj h]⟩
    | ok b =>
      rw [ha] at h
      cases hr : rest.mapM f with
      | error e' =>
        rw [hr] at h
        obtain ⟨x, hx, he⟩ := ih (by rw [hr, Except.error.inj h])
        exact ⟨x, List.mem_cons_of_mem a hx, he⟩
      | ok out =>
        rw [hr] at h
        exact absurd h (by simp [bind, Except.bind, pure, Except.pure])

/-- Only a line that is indented too far cannot be written. -/
theorem line_error {table : FieldTable} {level : Nat} {n : Forest.Node Entry} {fault : Fault}
    (h : Forest.line table (fun e => some e.name) level n = .error fault) :
    16384 ≤ level ∧ fault = .indentTooWide (4 * level) := by
  unfold Forest.line at h
  dsimp only at h
  split at h
  · rename_i hwide
    unfold Forest.maxIndent at hwide
    exact ⟨by omega, (Except.error.inj h).symm⟩
  · split at h <;> exact absurd h (by simp)

theorem Built.forestText_cases (hb : Built formats instructions d) :
    (∃ text, d.forestText = .ok text)
      ∨ 16384 < d.forest.maxDepth ∧ ∃ blanks, d.forestText = .error (.indentTooWide blanks) := by
  obtain ⟨made, hrep, -, -⟩ := hb.forest
  rw [forestText, Forest.render]
  cases hl : d.forest.lines d.table fun e => some e.name with
  | ok lines => exact .inl ⟨_, rfl⟩
  | error fault =>
    obtain ⟨⟨level, n⟩, hn, he⟩ := exists_of_mapM_error hl
    obtain ⟨hlevel, rfl⟩ := line_error he
    have hlt := Forest.Branches.lt_height_of_mem_outline hn
    have hle := hrep.height_le
    exact .inr ⟨by omega, _, rfl⟩

/-! ## All of it -/

theorem mem_entries_of_entry {id : InstructionId} {e : Entry} (h : d.entry id = .ok e) :
    e ∈ d.entries := by
  unfold entry at h
  split at h
  · exact absurd h (by simp)
  · rename_i e' he
    rw [← Except.ok.inj h]
    exact List.mem_of_find?_eq_some he

/-- What an attempt comes to is known by its number. -/
theorem Built.known (hb : Built formats instructions d)
    (hs : Validation.Sound formats instructions) {σ : Type} (extractor : Extractor σ)
    (buffer : Buffer) (bits : Nat) (out : SlotValues) (host : σ) {x : Decoded}
    (hx : (d.decodeInto extractor buffer bits out host).decoded? = some x) :
    ∃ i ∈ d.instructions, d.instruction x.instruction = .ok i ∧ i.size = x.size := by
  rw [decodeInto_eq_decodeWith] at hx
  obtain ⟨e, he, rfl⟩ := Option.map_eq_some_iff.mp hx
  have hknown := ((hb.clean hs extractor buffer bits host).something e he).known
  refine ⟨e.instruction, List.mem_map_of_mem (mem_entries_of_entry hknown), ?_, rfl⟩
  rw [instruction, hknown]
  rfl

theorem Built.declares (hb : Built formats instructions d) : d.Declares formats instructions where
  formats := hb.formats_eq
  instructions := by
    refine List.forall₂_iff_get.mpr ⟨?_, fun p hp hp' => ?_⟩
    · rw [Decoder.instructions, List.length_map, hb.length_eq]
    · obtain ⟨e, he, -, f, hd⟩ := hb.entry p _ (List.getElem?_eq_getElem hp)
      have hj := getElem?_instructions he
      rw [List.getElem?_eq_getElem hp'] at hj
      exact ⟨f.sizeBytes, (Option.some.inj hj).trans hd.instruction⟩

/--
**A decoder has all that it refers to.** Whatever description it was built of, and
under either policy, it knows what was declared and nothing else, and no search or
question comes upon a gap.
-/
theorem consistent_of_build {options : Decoder.Options}
    (h : build formats instructions options = .ok d) :
    d.Declares formats instructions ∧ d.Consistent := by
  obtain ⟨-, hb⟩ := built_of_build h
  have hs := sound_of_build h
  obtain ⟨made, hrep, -, -⟩ := hb.forest
  exact ⟨hb.declares, {
    grounded := hb.grounded
    fielded := hb.fielded hs
    tables := hb.exists_tables hs
    knows := fun i hi => knows_of_build h hi
    disowns := disowns_of_build h
    search := fun extractor buffer session turns ht =>
      Search.walk_start hrep.numbered _ session ht
    bytes := fun buffer l w x hx => Buffer.bytes_of_extract hx
    decoded := fun extractor buffer bits out host x hx =>
      hb.known hs extractor buffer bits out host hx
    text := hb.forestText_cases }⟩

/-- The two instructions of a byte are found again, and nothing is found by the number 3. -/
theorem consistent_of_build_byte :
    ∃ d, build [byteFormat] byteInstructions { duplicates := .lastWins } = .ok d
      ∧ d.Declares [byteFormat] byteInstructions ∧ d.Consistent
      ∧ d.baseEncoding ⟨1, uint32_one_ne_zero⟩ = .ok [0x10]
      ∧ d.instruction ⟨3, uint32_three_ne_zero⟩ = .error (.unknownInstruction ⟨3, by decide⟩) := by
  obtain ⟨d, hd⟩ : ∃ d, build [byteFormat] byteInstructions { duplicates := .lastWins } = .ok d :=
    ⟨_, rfl⟩
  obtain ⟨hdeclares, hconsistent⟩ := consistent_of_build hd
  exact ⟨d, hd, hdeclares, hconsistent,
    eq_of_map_eq_ok (·.baseEncoding ⟨1, uint32_one_ne_zero⟩) hd rfl,
    eq_of_map_eq_ok (·.instruction ⟨3, uint32_three_ne_zero⟩) hd rfl⟩

end Decoder

end InstructionSet
