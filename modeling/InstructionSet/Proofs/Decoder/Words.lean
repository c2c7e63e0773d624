import InstructionSet.Decoder.Encode
import InstructionSet.Proofs.Bits.Writing
import InstructionSet.Proofs.Decoder.Resolving

/-!
# Words that are put together

A word begins as zeros, and values are written into it one after the other. Fields
may overlap, so a later value can spoil an earlier one: a bit is decided by the last
write that covers it (`bit_encodeAll`). Where no two writes disagree about a bit,
every value that was written is read back (`value_of_written`).

The base encoding of an instruction is such a word: the constants of its format are
written, and then the values that its selectors demand (`baseEncoding_eq`). Every
instruction of a decoder has one (`exists_assembles`).
-/

namespace InstructionSet

/-- No bit belongs to both runs. -/
def Layout.Apart (l l' : Layout) : Prop :=
  l.endBit ≤ l'.firstBit.toNat ∨ l'.endBit ≤ l.firstBit.toNat

instance (l l' : Layout) : Decidable (l.Apart l') := inferInstanceAs (Decidable (_ ∨ _))

theorem Layout.Apart.symm {l l' : Layout} (h : l.Apart l') : l'.Apart l := Or.symm h

theorem Layout.Apart.not_covers {l l' : Layout} (h : l.Apart l') {i : Nat} (hc : l.Covers i) :
    ¬ l'.Covers i := by
  intro hc'
  obtain ⟨hlow, hhigh⟩ := hc
  obtain ⟨hlow', hhigh'⟩ := hc'
  rcases h with h | h
  · omega
  · omega

namespace Decoder

/-! ## Writing one value after the other -/

/-- The digit that is left in bit `i` by the last write that covers it. -/
def written (writes : List (Layout × Int64)) (i : Nat) : Option Bool :=
  (writes.reverse.find? (·.1.Covers i)).map fun x => x.1.digit x.2 i

theorem written_append (before after : List (Layout × Int64)) (i : Nat) :
    written (before ++ after) i = (written after i).or (written before i) := by
  unfold written
  rw [List.reverse_append, List.find?_append]
  cases after.reverse.find? (·.1.Covers i) <;> rfl

theorem written_singleton (x : Layout × Int64) (i : Nat) :
    written [x] i = if x.1.Covers i then some (x.1.digit x.2 i) else none := by
  unfold written
  rw [List.reverse_singleton, List.find?_singleton]
  by_cases hc : x.1.Covers i <;> simp [hc]

/-- No digit is left in a bit that no write covers. -/
theorem written_eq_none {writes : List (Layout × Int64)} {i : Nat}
    (h : ∀ x ∈ writes, ¬ x.1.Covers i) : written writes i = none := by
  unfold written
  rw [Option.map_eq_none_iff, List.find?_eq_none]
  intro x hx hcov
  exact h x (List.mem_reverse.mp hx) (of_decide_eq_true hcov)

/-- The value can be written into words of `bits` bits. -/
structure Writable (bits : Nat) (x : Layout × Int64) : Prop where
  readable : x.1.readable = true
  fits : x.1.fits x.2 = true
  endBit_le : x.1.endBit ≤ bits

theorem encodeAll_append (word : Buffer) (before after : List (Layout × Int64)) :
    encodeAll word (before ++ after) = (encodeAll word before).bind (encodeAll · after) := by
  induction before generalizing word with
  | nil => rfl
  | cons x rest ih =>
    rw [List.cons_append, encodeAll, encodeAll]
    cases word.encode x.1 x.2 with
    | error e => rfl
    | ok word => exact ih word

/-- **The last write that covers a bit decides it**, and the others stay as they were. -/
theorem bit_encodeAll {word : Buffer} {writes : List (Layout × Int64)}
    (hbits : word.bits ≤ UInt32.size) (h : ∀ x ∈ writes, Writable word.bits x) :
    ∃ word', encodeAll word writes = .ok word' ∧ word'.bits = word.bits
      ∧ ∀ i, word'.bit i = (written writes i).getD (word.bit i) := by
  induction writes generalizing word with
  | nil => exact ⟨word, rfl, rfl, fun _ => rfl⟩
  | cons x rest ih =>
    obtain ⟨hx, hrest⟩ := List.forall_mem_cons.mp h
    have hend : x.1.endBit ≤ UInt32.size := Nat.le_trans hx.endBit_le hbits
    have hone := Buffer.encode_eq_ok.mpr ⟨⟨hx.readable, hx.fits, hx.endBit_le⟩, rfl⟩
    have hlen : (word.put x.1.firstBit x.1.size.toNat (x.1.digits x.2)).bits = word.bits := by
      rw [Buffer.bits, Buffer.bits, Buffer.length_encode hone hend]
    rw [← hlen] at hbits hrest
    obtain ⟨word', hok, hlen', hbit⟩ := ih hbits hrest
    refine ⟨word', by rw [encodeAll, hone]; exact hok, hlen'.trans hlen, ?_⟩
    intro i
    rw [hbit, Buffer.bit_encode hone hend, ← List.singleton_append, written_append,
      written_singleton]
    cases written rest i with
    | some on => rfl
    | none =>
      rw [Option.none_or, Option.getD_none]
      split <;> rfl

/-- No two of the writes disagree about a bit. -/
def Agreeing (writes : List (Layout × Int64)) : Prop :=
  ∀ x ∈ writes, ∀ y ∈ writes, x = y ∨ x.1.Apart y.1

theorem written_of_agreeing {writes : List (Layout × Int64)} (h : Agreeing writes)
    {x : Layout × Int64} (hx : x ∈ writes) {i : Nat} (hc : x.1.Covers i) :
    written writes i = some (x.1.digit x.2 i) := by
  unfold written
  cases hfind : writes.reverse.find? (·.1.Covers i) with
  | none =>
    have hnot := List.find?_eq_none.mp hfind x (List.mem_reverse.mpr hx)
    exact absurd (decide_eq_true hc) hnot
  | some y =>
    have hy : y ∈ writes := List.mem_reverse.mp (List.mem_of_find?_eq_some hfind)
    have hcy : y.1.Covers i := by simpa using List.find?_some hfind
    rcases h x hx y hy with rfl | hapart
    · rfl
    · exact absurd hcy (hapart.not_covers hc)

/-- **Where no two writes disagree, every value is read back**, whatever was written before them and
whatever follows the word. -/
theorem value_of_written {word : Buffer} {before writes : List (Layout × Int64)}
    (hbit : ∀ j, word.bit j = (written (before ++ writes) j).getD false)
    (h : ∀ x ∈ writes, Writable word.bits x) (hagree : Agreeing writes) {x : Layout × Int64}
    (hx : x ∈ writes) (tail : Buffer) : Buffer.value (word ++ tail) x.1 = x.2 := by
  refine Buffer.value_eq_of_digits (h x hx).readable (h x hx).fits fun i hc => ?_
  have hin : i < word.bits := Nat.lt_of_lt_of_le hc.2 (h x hx).endBit_le
  rw [Buffer.bit_append tail hin, hbit, written_append, written_of_agreeing hagree hx hc]
  rfl

/-- A field that no write touches is zero. -/
theorem value_of_not_written {word : Buffer} {writes : List (Layout × Int64)}
    (hbit : ∀ j, word.bit j = (written writes j).getD false) {l : Layout}
    (hr : l.readable = true) (hin : l.endBit ≤ word.bits) (h : ∀ x ∈ writes, x.1.Apart l)
    (tail : Buffer) : Buffer.value (word ++ tail) l = 0 := by
  refine Buffer.value_eq_zero hr fun i hc => ?_
  have hnone : written writes i = none :=
    written_eq_none fun x hx hcov => (h x hx).not_covers hcov hc
  rw [Buffer.bit_append tail (Nat.lt_of_lt_of_le hc.2 hin), hbit, hnone]
  rfl

/-! ## The base encoding -/

/-- The values that selectors demand, each with the layout that its field has in the format. -/
def selections (f : Format) (selectors : List Selector) : List (Layout × Int64) :=
  selectors.filterMap fun s => (f.field? s.field).map fun g => (g.layout, s.value)

/-- What is written to make the base encoding of an instruction in the format `f`. -/
def baseWrites (f : Format) (i : Instruction) : List (Layout × Int64) :=
  constants f.fields ++ selections f i.selectors.toList

theorem mem_constants {fields : List Field} {x : Layout × Int64} :
    x ∈ constants fields ↔ ∃ g ∈ fields, g.constant = some x.2 ∧ g.layout = x.1 := by
  rw [constants, List.mem_filterMap]
  refine exists_congr fun g => and_congr_right fun _ => ?_
  rw [Option.map_eq_some_iff]
  constructor
  · intro hex
    obtain ⟨c, hc, rfl⟩ := hex
    exact ⟨hc, rfl⟩
  · intro hand
    obtain ⟨hc, hl⟩ := hand
    exact ⟨x.2, hc, by rw [hl]⟩

theorem mem_selections {f : Format} {selectors : List Selector} {x : Layout × Int64} :
    x ∈ selections f selectors
      ↔ ∃ s ∈ selectors, ∃ g, f.field? s.field = some g ∧ (g.layout, s.value) = x := by
  rw [selections, List.mem_filterMap]
  refine exists_congr fun s => and_congr_right fun _ => ?_
  rw [Option.map_eq_some_iff]

/-- Numbering fields does not move them. -/
theorem constants_number (t : FieldTable) (f : Format) :
    constants (t.number f).fields = constants f.fields := by
  unfold constants FieldTable.number FieldTable.assign
  rw [List.filterMap_map]
  congr 1
  funext g
  rw [Function.comp_apply, FieldTable.constant_assignField, FieldTable.layout_assignField]

theorem encodeSelectors_eq (t : FieldTable) {f : Format} {selectors : List Selector}
    (h : ∀ s ∈ selectors, ∃ g, f.field? s.field = some g) (word : Buffer) :
    encodeSelectors (t.number f) word selectors = encodeAll word (selections f selectors) := by
  induction selectors generalizing word with
  | nil => rfl
  | cons s rest ih =>
    obtain ⟨⟨g, hg⟩, hrest⟩ := List.forall_mem_cons.mp h
    have hsel : selections f (s :: rest) = (g.layout, s.value) :: selections f rest := by
      rw [selections, List.filterMap_cons, hg]
      rfl
    rw [encodeSelectors, FieldTable.field?_number, hg, hsel, encodeAll, Option.map_some]
    dsimp only
    rw [FieldTable.layout_assignField]
    cases word.encode g.layout s.value with
    | error e => rfl
    | ok word => exact ih hrest word

/-- **The base encoding is what is written into zeros.** -/
theorem Entry.baseEncoding_eq {t : FieldTable} {formats : List Format} {e : Entry} {i : Instruction}
    {f : Format} (hd : e.Describes t formats i f)
    (hsel : ∀ s ∈ i.selectors.toList, ∃ g, f.field? s.field = some g) :
    e.baseEncoding = encodeAll (.zeros f.sizeBytes.toNat) (baseWrites f i) := by
  have hbytes : (t.number f).sizeBytes = f.sizeBytes := rfl
  rw [Entry.baseEncoding, hd.format, hd.instruction, constants_number, hbytes, baseWrites,
    encodeAll_append]
  cases encodeAll (.zeros f.sizeBytes.toNat) (constants f.fields) with
  | error e => rfl
  | ok word => exact encodeSelectors_eq t hsel word

/-- A sound format has a word of its own width. -/
theorem bits_zeros {f : Format} (h : f.Sound) :
    (Buffer.zeros f.sizeBytes.toNat).bits = f.bits.toNat := by
  have ha := h.aligned
  unfold Validation.aligned at ha
  obtain ⟨-, hmod⟩ := of_decide_eq_true ha
  have hmod' : f.bits.toNat % 8 = 0 := by
    have := congrArg UInt32.toNat hmod
    rwa [UInt32.toNat_mod] at this
  rw [Buffer.bits, Buffer.zeros, List.length_replicate, Format.sizeBytes, UInt32.toNat_div]
  change 8 * (f.bits.toNat / 8) = _
  omega

/-- **Whatever can be written makes a word** of the width of the format. A bit that no write covers is
zero. -/
theorem exists_word {f : Format} (hf : f.Sound) {writes : List (Layout × Int64)}
    (h : ∀ x ∈ writes, Writable f.bits.toNat x) :
    ∃ word, encodeAll (.zeros f.sizeBytes.toNat) writes = .ok word ∧ word.bits = f.bits.toNat
      ∧ ∀ j, word.bit j = (written writes j).getD false := by
  have hzeros := bits_zeros hf
  have hsize : (Buffer.zeros f.sizeBytes.toNat).bits ≤ UInt32.size := by
    rw [hzeros]
    exact Nat.le_of_lt f.bits.toNat_lt
  rw [← hzeros] at h
  obtain ⟨word, hword, hbits, hbit⟩ := bit_encodeAll hsize h
  refine ⟨word, hword, hbits.trans hzeros, ?_⟩
  intro j
  rw [hbit, Buffer.bit_zeros]

/-- What is written of a sound instruction in a sound format can be written. -/
theorem writable_baseWrites {f : Format} (hf : f.Sound) {i : Instruction}
    (hsel : ∀ s ∈ i.selectors.toList, ∃ g, f.field? s.field = some g ∧ g.fits s.value = true) :
    ∀ x ∈ baseWrites f i, Writable f.bits.toNat x := by
  intro x hx
  rcases List.mem_append.mp hx with hx | hx
  · obtain ⟨g, hg, hc, hl⟩ := mem_constants.mp hx
    have hs := hf.fields g hg
    have hfits : g.layout.fits x.2 = true := hs.constant_fits x.2 hc
    exact ⟨hl ▸ hs.readable, hl ▸ hfits, hl ▸ hs.endBit_le⟩
  · obtain ⟨s, hs, g, hg, rfl⟩ := mem_selections.mp hx
    obtain ⟨g', hg', hfits⟩ := hsel s hs
    obtain rfl : g' = g := Option.some.inj (hg'.symm.trans hg)
    have hsound := hf.fields g' (Format.mem_of_field? hg)
    exact ⟨hsound.readable, hfits, hsound.endBit_le⟩

section Built

variable {formats : List Format} {instructions : List Instruction} {options : Decoder.Options}
  {d : Decoder}

theorem sound_of_build (h : build formats instructions options = .ok d) :
    Validation.Sound formats instructions := by
  obtain ⟨_, _, hv, -⟩ := build_ok h
  exact sound_of_validate hv

/-- The entries have the numbers of the instructions. -/
theorem Built.map_id_entries (hb : Built formats instructions d) :
    d.entries.map (fun e => e.instruction.id) = instructions.map Instruction.id := by
  refine List.ext_getElem? fun k => ?_
  rw [List.getElem?_map, List.getElem?_map]
  cases hi : instructions[k]? with
  | none =>
    rw [List.getElem?_eq_none_iff, ← hb.length_eq, ← List.getElem?_eq_none_iff] at hi
    rw [hi]
    rfl
  | some i =>
    obtain ⟨e, he, -, f, hd⟩ := hb.entry k i hi
    rw [he, Option.map_some, Option.map_some, hd.instruction]

/-- An instruction of a sound description is found by its number. -/
theorem Built.entry_eq (hb : Built formats instructions d)
    (hs : Validation.Sound formats instructions) {p : Nat} {i : Instruction}
    (hi : instructions[p]? = some i) :
    ∃ e f, d.entry i.id = .ok e ∧ e.place = p ∧ e.Describes d.table formats i f := by
  obtain ⟨e, he, hplace, f, hd⟩ := hb.entry p i hi
  have hids : (d.entries.map fun e => e.instruction.id).Nodup := by
    rw [hb.map_id_entries]
    exact hs.ids
  have hfind := find?_key (fun e : Entry => e.instruction.id) hids (List.mem_of_getElem? he)
  have hid : e.instruction.id = i.id := by rw [hd.instruction]
  rw [hid] at hfind
  exact ⟨e, f, by rw [Decoder.entry, hfind], hplace, hd⟩

/-- A number that no instruction has is unknown. -/
theorem Built.entry_eq_error (hb : Built formats instructions d) {id : InstructionId}
    (h : ∀ i ∈ instructions, i.id ≠ id) : d.entry id = .error (.unknownInstruction id) := by
  have hnone : d.entries.find? (·.instruction.id = id) = none := by
    rw [List.find?_eq_none]
    intro e he hid
    have hmem : e.instruction.id ∈ instructions.map Instruction.id := by
      rw [← hb.map_id_entries]
      exact List.mem_map_of_mem he
    obtain ⟨i, hi, hii⟩ := List.mem_map.mp hmem
    exact h i hi (hii.trans (of_decide_eq_true hid))
  rw [Decoder.entry, hnone]

/-- **The base encoding of an instruction is put together in its format**, and nothing can go wrong
with it. -/
theorem baseEncoding_eq (h : build formats instructions options = .ok d) {p : Nat}
    {i : Instruction} (hi : instructions[p]? = some i) :
    ∃ f, formats.find? (·.name = i.format) = some f ∧ f.Sound
      ∧ d.baseEncoding i.id = encodeAll (.zeros f.sizeBytes.toNat) (baseWrites f i)
      ∧ ∀ x ∈ baseWrites f i, Writable f.bits.toNat x := by
  obtain ⟨-, hb⟩ := built_of_build h
  have hs := sound_of_build h
  obtain ⟨e, f, he, -, hd⟩ := hb.entry_eq hs hi
  have hf := hs.format f (List.mem_of_find?_eq_some hd.found)
  have hsel := hs.selected (List.mem_of_getElem? hi) hd.found
  refine ⟨f, hd.found, hf, ?_, writable_baseWrites hf hsel⟩
  rw [baseEncoding, he]
  exact Entry.baseEncoding_eq hd fun s hs' => (hsel s hs').imp fun g hg => hg.1

/-- The word is the base encoding of the instruction, as it is written in the format `f`. -/
structure Assembles (d : Decoder) (i : Instruction) (f : Format) (word : Buffer) : Prop where
  sound : f.Sound
  writable : ∀ x ∈ baseWrites f i, Writable f.bits.toNat x
  encoded : d.baseEncoding i.id = .ok word
  bits : word.bits = f.bits.toNat
  bit : ∀ j, word.bit j = (written (baseWrites f i) j).getD false

theorem Assembles.length {i : Instruction} {f : Format} {word : Buffer}
    (h : d.Assembles i f word) : word.length = f.bits.toNat / 8 := by
  rw [← h.bits, Buffer.bits, Nat.mul_div_cancel_left _ (by omega)]

/-- **Every instruction has a base encoding.** -/
theorem exists_assembles (h : build formats instructions options = .ok d) {i : Instruction}
    (hi : i ∈ instructions) :
    ∃ f word, formats.find? (·.name = i.format) = some f ∧ d.Assembles i f word := by
  obtain ⟨p, hp⟩ := List.getElem?_of_mem hi
  obtain ⟨f, hf, hsound, hbase, hwritable⟩ := baseEncoding_eq h hp
  obtain ⟨word, hword, hbits, hbit⟩ := exists_word hsound hwritable
  exact ⟨f, word, hf, hsound, hwritable, hbase.trans hword, hbits, hbit⟩

end Built

end Decoder

end InstructionSet
