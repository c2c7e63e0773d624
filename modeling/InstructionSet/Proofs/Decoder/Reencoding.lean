import InstructionSet.Proofs.Bits.Inverse
import InstructionSet.Proofs.Decoder.Leftovers
import InstructionSet.Proofs.Decoder.RoundTrip

/-!
# Writing back what was decoded

A decoded instruction has the values of all fields of its format. Written into zeros,
field by field, they make up the bits of the buffer again, as far as some field covers
them (`decode_reencode`). Nothing can go wrong with that, since a value that was read
fits where it was read.

Fields may overlap, so a bit may be written several times. It does not matter: each of
these writes has a value that was read from the same bits, and writes the bit as it was
(`written_fieldReads`).
-/

namespace InstructionSet.Decoder

/-- The fields of a format with the values that stand in their slots, in the order of their
declaration. -/
def slotWrites (f : Format) (values : SlotValues) : List (Layout × Int64) :=
  f.fields.filterMap fun g => g.id.map fun id => (g.layout, values.get id)

/-- The fields of a format with the values that they have in a buffer. -/
def fieldReads (f : Format) (buffer : Buffer) : List (Layout × Int64) :=
  f.fields.map fun g => (g.layout, buffer.value g.layout)

section Reads

variable {f : Format} (hs : f.Sound) (buffer : Buffer)
include hs

/-- What was read can be written. -/
theorem writable_fieldReads : ∀ x ∈ fieldReads f buffer, Writable f.bits.toNat x := by
  intro x hx
  obtain ⟨g, hg, rfl⟩ := List.mem_map.mp hx
  have hg := hs.fields g hg
  exact ⟨hg.readable, Buffer.fits_value hg.readable buffer, hg.endBit_le⟩

/-- **Whichever field writes a bit, it writes it as it was.** -/
theorem written_fieldReads (i : Nat) :
    written (fieldReads f buffer) i
      = if ∃ g ∈ f.fields, g.layout.Covers i then some (buffer.bit i) else none := by
  unfold written
  cases hfind : (fieldReads f buffer).reverse.find? (·.1.Covers i) with
  | none =>
    rw [if_neg, Option.map_none]
    intro hex
    obtain ⟨g, hg, hcov⟩ := hex
    have hmem : (g.layout, buffer.value g.layout) ∈ (fieldReads f buffer).reverse :=
      List.mem_reverse.mpr (List.mem_map_of_mem hg)
    exact absurd (decide_eq_true hcov) (List.find?_eq_none.mp hfind _ hmem)
  | some x =>
    obtain ⟨g, hg, rfl⟩ := List.mem_map.mp (List.mem_reverse.mp (List.mem_of_find?_eq_some hfind))
    have hcov : g.layout.Covers i := by simpa using List.find?_some hfind
    rw [if_pos ⟨g, hg, hcov⟩, Option.map_some,
      Buffer.digit_value (hs.fields g hg).readable buffer hcov]

end Reads

theorem fieldNumber_eq_ok {d : Decoder} {name : String} {id : FieldId} :
    d.fieldNumber name = .ok id ↔ d.table.idOf? name = some id := by
  unfold fieldNumber
  cases d.table.idOf? name with
  | none => simp
  | some id' => simp

section Built

variable {formats : List Format} {instructions : List Instruction} {d : Decoder}

/-- The slots of an instruction's fields hold what was read. -/
theorem Built.slotWrites_valuesOf (hb : Built formats instructions d) {f : Format}
    (hf : f ∈ formats) (hsound : f.Sound) (id : InstructionId) (buffer : Buffer) :
    slotWrites (d.table.number f) (valuesOf d.table f id buffer) = fieldReads f buffer := by
  unfold slotWrites FieldTable.number FieldTable.assign fieldReads
  rw [List.filterMap_map, ← List.filterMap_eq_map]
  refine List.filterMap_congr fun g hg => ?_
  obtain ⟨number, hnumber, hget⟩ := hb.get_valuesOf hf hsound hg id buffer
  rw [Function.comp_apply, d.table.id_assignField (fieldNumber_eq_ok.mp hnumber), Option.map_some,
    FieldTable.layout_assignField, hget]
  rfl

/-- What is decoded is an instruction of the decoder, with the values of its format's fields. -/
theorem Built.decoded_of_decode (hb : Built formats instructions d)
    (hs : Validation.Sound formats instructions) {buffer : Buffer} {bits : Nat} {x : Decoded}
    (hx : d.decode buffer bits = some x) :
    ∃ f ∈ formats, d.formatFor x.instruction = .ok (d.table.number f)
      ∧ x.fields = valuesOf d.table f x.instruction buffer := by
  rw [hb.decode_eq_find, Option.map_eq_some_iff] at hx
  obtain ⟨⟨path, e⟩, hfind, rfl⟩ := hx
  have hmem := List.mem_of_find?_eq_some hfind
  obtain ⟨-, i, f, -, hd, -⟩ := hb.owns_of_mem hmem
  refine ⟨f, List.mem_of_find?_eq_some hd.found, ?_, ?_⟩
  · have hentry : d.entry (e.decoded d.table buffer).instruction = .ok e := hb.entry_of_mem hs hmem
    rw [formatFor, hentry, ← hd.format]
    rfl
  · rw [hd.decoded_eq]

end Built

/--
**What was decoded can be written back.** The values of a decoded instruction, each
written where its field lies, make a word of the width of the instruction's format. It
is the buffer on every bit that some field covers, and zero on the others.
-/
theorem decode_reencode {formats : List Format} {instructions : List Instruction}
    {options : Decoder.Options} {d : Decoder} (h : build formats instructions options = .ok d)
    {buffer : Buffer} {bits : Nat} {x : Decoded} (hx : d.decode buffer bits = some x) :
    ∃ f word, d.formatFor x.instruction = .ok f ∧ (∀ g ∈ f.fields, ∃ id, g.id = some id)
      ∧ encodeAll (.zeros f.sizeBytes.toNat) (slotWrites f x.fields) = .ok word
      ∧ word.bits = f.bits.toNat
      ∧ (∀ g ∈ f.fields, ∀ i, g.layout.Covers i → word.bit i = buffer.bit i)
      ∧ ∀ i, (∀ g ∈ f.fields, ¬ g.layout.Covers i) → word.bit i = false := by
  obtain ⟨-, hb⟩ := built_of_build h
  have hs := sound_of_build h
  obtain ⟨f, hf, hformat, hvalues⟩ := hb.decoded_of_decode hs hx
  have hsound := hs.format f hf
  obtain ⟨word, hword, hbits, hbit⟩ := exists_word hsound (writable_fieldReads hsound buffer)
  have hwrites := hb.slotWrites_valuesOf hf hsound x.instruction buffer
  rw [← hvalues] at hwrites
  -- numbering a format moves none of its fields
  have hlayout : ∀ g ∈ (d.table.number f).fields, ∃ g' ∈ f.fields, g'.layout = g.layout := by
    intro g hg
    obtain ⟨g', hg', rfl⟩ := List.mem_map.mp hg
    exact ⟨g', hg', (d.table.layout_assignField g').symm⟩
  refine ⟨d.table.number f, word, hformat, ?_, ?_, hbits, ?_, ?_⟩
  · intro g hg
    obtain ⟨id, hid, -⟩ := (slots_number hb.lawful hb.speaksFor hf hsound.names).2 g hg
    exact ⟨id, hid⟩
  · rw [hwrites]
    exact hword
  · intro g hg i hcov
    obtain ⟨g', hg', hl⟩ := hlayout g hg
    rw [hbit, written_fieldReads hsound, if_pos ⟨g', hg', hl ▸ hcov⟩, Option.getD_some]
  · intro i hnone
    rw [hbit, written_fieldReads hsound, if_neg, Option.getD_none]
    intro hex
    obtain ⟨g, hg, hcov⟩ := hex
    refine hnone (d.table.assignField g) (List.mem_map_of_mem hg) ?_
    rwa [FieldTable.layout_assignField]

/-- Half a word is an offset, and a nibble of it the scale. The last nibble belongs to no field. -/
def offsetFormat : Format where
  name := "offset"
  bits := 16
  fields := [⟨"op", ⟨0, 4, false⟩, none, none⟩, ⟨"offset", ⟨4, 8, true⟩, none, none⟩,
    ⟨"scale", ⟨8, 4, false⟩, none, none⟩]

def offsetInstructions : List Instruction :=
  [{ id := ⟨1, uint32_one_ne_zero⟩, name := "jump", format := "offset",
      selectors := ⟨[⟨"op", 1⟩]⟩ }]

/-- A jump by -6 with the scale 10. -/
def offsetJump : Decoded := ⟨⟨1, uint32_one_ne_zero⟩, 2, ⟨[1, 1, -6, 10]⟩⟩

/-- The jump is written back, all but the nibble behind it. -/
theorem decode_reencode_offset :
    ∃ d f word, build [offsetFormat] offsetInstructions {} = .ok d
      ∧ d.decode [0x1f, 0xab, 0xff] 24 = some offsetJump
      ∧ d.formatFor offsetJump.instruction = .ok f
      ∧ encodeAll (.zeros f.sizeBytes.toNat) (slotWrites f offsetJump.fields) = .ok word
      ∧ word = [0x1f, 0xa0] := by
  obtain ⟨d, hd⟩ : ∃ d, build [offsetFormat] offsetInstructions {} = .ok d := ⟨_, rfl⟩
  have hx : d.decode [0x1f, 0xab, 0xff] 24 = some offsetJump :=
    eq_of_map_eq_ok (·.decode [0x1f, 0xab, 0xff] 24) hd (by decide +kernel)
  have hencode : (d.formatFor offsetJump.instruction).map (fun f =>
      encodeAll (.zeros f.sizeBytes.toNat) (slotWrites f offsetJump.fields))
        = .ok (.ok [0x1f, 0xa0]) :=
    eq_of_map_eq_ok (fun d => (d.formatFor offsetJump.instruction).map fun f =>
      encodeAll (.zeros f.sizeBytes.toNat) (slotWrites f offsetJump.fields)) hd rfl
  obtain ⟨f, word, hf, -, hword, -⟩ := decode_reencode hd hx
  rw [hf] at hencode
  have hw : encodeAll (.zeros f.sizeBytes.toNat) (slotWrites f offsetJump.fields)
      = .ok [0x1f, 0xa0] := Except.ok.inj hencode
  exact ⟨d, f, word, hd, hx, hf, hword, Except.ok.inj (hword.symm.trans hw)⟩

end InstructionSet.Decoder
