import InstructionSet.Proofs.Decoder.Exact
import InstructionSet.Proofs.Decoder.Words
import Mathlib.Data.List.Pairwise

/-!
# From operands to a word and back

An instruction is assembled by writing operands over its base encoding, and a
decoder should find the instruction and the operands again. That takes three
things, and none of them is checked when a decoder is built:

* the instruction can be told from every other, because some field that both
  select on has different values (`Instruction.Excludes`),
* its format does not let fields overlap, and its own demands do not contradict
  one another (`Instruction.Clear`),
* the operands are fields that are free to choose (`Instruction.Takes`).

Then each field of the format gets at most one value (`Assigned`), whether as a
constant, a selector or an operand. No two writes disagree, in whatever order they
are made, and decoding finds all of these values (`decode_encodeAll`).
-/

namespace InstructionSet

/-- No word is both instructions: they select on one field with different values. -/
def Instruction.Excludes (i j : Instruction) : Prop :=
  ∃ s ∈ i.selectors.toList, ∃ t ∈ j.selectors.toList, s.field = t.field ∧ s.value ≠ t.value

theorem Instruction.Excludes.symm {i j : Instruction} (h : i.Excludes j) : j.Excludes i := by
  obtain ⟨s, hs, t, ht, hfield, hvalue⟩ := h
  exact ⟨t, ht, s, hs, hfield.symm, hvalue.symm⟩

/-- An instruction that a word is does not demand two values of one field. -/
theorem Instruction.Matches.single {i : Instruction} {f : Format} {checkConstants : Bool}
    {buffer : Buffer} {width : Nat} (hm : i.Matches f checkConstants buffer width) :
    ∀ s ∈ i.selectors.toList, ∀ t ∈ i.selectors.toList, s.field = t.field → s.value = t.value := by
  intro s hs t ht hfield
  obtain ⟨g, hg, hv⟩ := hm.selectors s hs
  obtain ⟨g', hg', hv'⟩ := hm.selectors t ht
  rw [hfield, hg'] at hg
  rw [← hv, ← hv', Option.some.inj hg]

/-- What is written of the instruction, whose format is `f`, does not contradict itself. -/
structure Instruction.Clear (i : Instruction) (f : Format) : Prop where
  /-- No two fields of the format have a bit in common. -/
  apart : f.fields.Pairwise fun g g' => g.layout.Apart g'.layout
  /-- No field is selected on with two values. -/
  single : ∀ s ∈ i.selectors.toList, ∀ t ∈ i.selectors.toList, s.field = t.field →
    s.value = t.value
  /-- A constant field is selected on, if at all, with its constant. -/
  constant : ∀ s ∈ i.selectors.toList, ∀ g, f.field? s.field = some g → ∀ c ∈ g.constant,
    s.value = c

/-- The operands are values for fields of the format that are neither constant nor selected on. -/
structure Instruction.Takes (i : Instruction) (f : Format) (operands : List (Field × Int64)) :
    Prop where
  field : ∀ x ∈ operands, x.1 ∈ f.fields
  names : (operands.map fun x => x.1.name).Nodup
  constant : ∀ x ∈ operands, x.1.constant = none
  selector : ∀ x ∈ operands, ∀ s ∈ i.selectors.toList, s.field ≠ x.1.name
  fits : ∀ x ∈ operands, x.1.fits x.2 = true

namespace Decoder

/-- The field of the format `f` has the value in the word of an instruction with its operands. -/
inductive Assigned (f : Format) (i : Instruction) (operands : List (Field × Int64)) :
    Field → Int64 → Prop where
  | constant {g : Field} {c : Int64} : g ∈ f.fields → g.constant = some c →
      Assigned f i operands g c
  | selector {s : Selector} {g : Field} : s ∈ i.selectors.toList → f.field? s.field = some g →
      Assigned f i operands g s.value
  | operand {g : Field} {v : Int64} : (g, v) ∈ operands → Assigned f i operands g v

/-- What is written of operands. -/
def operandWrites (operands : List (Field × Int64)) : List (Layout × Int64) :=
  operands.map fun x => (x.1.layout, x.2)

section Assigned

variable {f : Format} {i : Instruction} {operands : List (Field × Int64)} {g g' : Field}
  {v v' : Int64}

/-- In a sound format a field is found by its name. -/
theorem field?_name (hf : f.Sound) (hg : g ∈ f.fields) : f.field? g.name = some g :=
  find?_key Field.name hf.names hg

theorem Assigned.mem_fields (ho : i.Takes f operands) (h : Assigned f i operands g v) :
    g ∈ f.fields := by
  cases h with
  | constant hg _ => exact hg
  | selector _ hg => exact Format.mem_of_field? hg
  | operand hx => exact ho.field _ hx

/-- **A field is assigned one value.** -/
theorem Assigned.unique (hc : i.Clear f) (ho : i.Takes f operands)
    (h : Assigned f i operands g v) (h' : Assigned f i operands g v') : v = v' := by
  cases h with
  | constant _ hcon =>
    cases h' with
    | constant _ hcon' => exact Option.some.inj (hcon.symm.trans hcon')
    | selector hs hg => exact (hc.constant _ hs g hg v hcon).symm
    | operand hx =>
      rw [ho.constant _ hx] at hcon
      exact absurd hcon (by simp)
  | @selector s _ hs hg =>
    cases h' with
    | constant _ hcon => exact hc.constant s hs g hg v' hcon
    | @selector t _ ht hg' =>
      have hfield : s.field = t.field :=
        (Format.name_of_field? hg).symm.trans (Format.name_of_field? hg')
      exact hc.single s hs t ht hfield
    | operand hx => exact absurd (Format.name_of_field? hg).symm (ho.selector _ hx s hs)
  | operand hx =>
    cases h' with
    | constant _ hcon =>
      rw [ho.constant _ hx] at hcon
      exact absurd hcon (by simp)
    | @selector s _ hs hg =>
      exact absurd (Format.name_of_field? hg).symm (ho.selector _ hx s hs)
    | operand hx' =>
      have he := List.inj_on_of_nodup_map ho.names hx hx' rfl
      exact (Prod.mk.inj he).2

/-- What is written are the assigned values. -/
theorem mem_writes {x : Layout × Int64} :
    x ∈ baseWrites f i ++ operandWrites operands
      ↔ ∃ g, Assigned f i operands g x.2 ∧ g.layout = x.1 := by
  rw [List.mem_append, baseWrites, List.mem_append, mem_constants, mem_selections, operandWrites,
    List.mem_map]
  constructor
  · intro hor
    rcases hor with (⟨g, hg, hc, hl⟩ | ⟨s, hs, g, hg, rfl⟩) | ⟨y, hy, rfl⟩
    · exact ⟨g, .constant hg hc, hl⟩
    · exact ⟨g, .selector hs hg, rfl⟩
    · exact ⟨y.1, .operand hy, rfl⟩
  · intro hex
    obtain ⟨l, v⟩ := x
    obtain ⟨g, hassigned, rfl⟩ := hex
    cases hassigned with
    | constant hg hc => exact .inl (.inl ⟨g, hg, hc, rfl⟩)
    | @selector s _ hs hg => exact .inl (.inr ⟨s, hs, g, hg, rfl⟩)
    | operand hx => exact .inr ⟨(g, v), hx, rfl⟩

/-- Different fields of a clear format are apart. -/
theorem apart_of_ne (hc : i.Clear f) (hg : g ∈ f.fields) (hg' : g' ∈ f.fields) (hne : g ≠ g') :
    g.layout.Apart g'.layout := by
  have hsymm : Std.Symm fun g g' : Field => g.layout.Apart g'.layout := ⟨fun _ _ h => h.symm⟩
  exact hc.apart.forall hg hg' hne

/-- **No two writes disagree**, in whatever order the operands come. -/
theorem agreeing_writes (hc : i.Clear f) (ho : i.Takes f operands) :
    Agreeing (baseWrites f i ++ operandWrites operands) := by
  intro x hx y hy
  obtain ⟨g, hassigned, hl⟩ := mem_writes.mp hx
  obtain ⟨g', hassigned', hl'⟩ := mem_writes.mp hy
  by_cases hgg : g = g'
  · subst hgg
    refine .inl (Prod.ext (hl.symm.trans hl') (hassigned.unique hc ho hassigned'))
  · rw [← hl, ← hl']
    exact .inr (apart_of_ne hc (hassigned.mem_fields ho) (hassigned'.mem_fields ho) hgg)

/-- Operands can be written. -/
theorem writable_operandWrites (hf : f.Sound) (ho : i.Takes f operands) :
    ∀ x ∈ operandWrites operands, Writable f.bits.toNat x := by
  intro x hx
  obtain ⟨y, hy, rfl⟩ := List.mem_map.mp hx
  have hs := hf.fields y.1 (ho.field y hy)
  exact ⟨hs.readable, ho.fits y hy, hs.endBit_le⟩

end Assigned

/-! ## What is read back -/

/-- The word has the value of every field: what the field is assigned, or else zero. -/
structure Spells (f : Format) (i : Instruction) (operands : List (Field × Int64))
    (buffer : Buffer) : Prop where
  assigned : ∀ (g : Field) (v : Int64), Assigned f i operands g v → buffer.value g.layout = v
  unassigned : ∀ g ∈ f.fields, (∀ v, ¬ Assigned f i operands g v) → buffer.value g.layout = 0

section Word

variable {f : Format} {i : Instruction} {operands : List (Field × Int64)}

/-- **Operands can be written over the base encoding, and spell what was meant.** -/
theorem exists_spelling (hf : f.Sound) (hw : ∀ x ∈ baseWrites f i, Writable f.bits.toNat x)
    (hc : i.Clear f) (ho : i.Takes f operands) :
    ∃ base word, encodeAll (.zeros f.sizeBytes.toNat) (baseWrites f i) = .ok base
      ∧ encodeAll base (operandWrites operands) = .ok word ∧ word.bits = f.bits.toNat
      ∧ ∀ tail, Spells f i operands (word ++ tail) := by
  have hall : ∀ x ∈ baseWrites f i ++ operandWrites operands, Writable f.bits.toNat x :=
    List.forall_mem_append.mpr ⟨hw, writable_operandWrites hf ho⟩
  obtain ⟨base, hbase, -, -⟩ := exists_word hf hw
  obtain ⟨word, hword, hbits, hbit⟩ := exists_word hf hall
  rw [encodeAll_append, hbase] at hword
  have hagree := agreeing_writes hc ho
  have hall' : ∀ x ∈ baseWrites f i ++ operandWrites operands, Writable word.bits x := by
    rw [hbits]
    exact hall
  refine ⟨base, word, hbase, hword, hbits, fun tail => ⟨?_, ?_⟩⟩
  · intro g v hassigned
    have hmem : (g.layout, v) ∈ baseWrites f i ++ operandWrites operands :=
      mem_writes.mpr ⟨g, hassigned, rfl⟩
    have hbit' : ∀ j, word.bit j
        = (written ([] ++ (baseWrites f i ++ operandWrites operands)) j).getD false := hbit
    exact value_of_written hbit' hall' hagree hmem tail
  · intro g hg hnone
    have hs := hf.fields g hg
    have hin : g.layout.endBit ≤ word.bits := by rw [hbits]; exact hs.endBit_le
    refine value_of_not_written hbit hs.readable hin (fun x hx => ?_) tail
    obtain ⟨g', hassigned, hl⟩ := mem_writes.mp hx
    have hne : g' ≠ g := fun he => hnone x.2 (he ▸ hassigned)
    rw [← hl]
    exact apart_of_ne hc (hassigned.mem_fields ho) hg hne

/-- The word is its instruction. -/
theorem Spells.matches {buffer : Buffer} (h : Spells f i operands buffer)
    (hsel : ∀ s ∈ i.selectors.toList, ∃ g, f.field? s.field = some g) (checkConstants : Bool)
    {width : Nat} (hw : f.bits.toNat ≤ width) : i.Matches f checkConstants buffer width where
  selectors := by
    intro s hs
    obtain ⟨g, hg⟩ := hsel s hs
    exact ⟨g, hg, h.assigned g s.value (.selector hs hg)⟩
  bits_le := hw
  constants := fun _ g hg c hc => h.assigned g c (.constant hg hc)

end Word

theorem excludes_of_ne {instructions : List Instruction}
    (hex : instructions.Pairwise Instruction.Excludes) {p q : Nat} {i j : Instruction}
    (hi : instructions[p]? = some i) (hj : instructions[q]? = some j) (hne : p ≠ q) :
    i.Excludes j := by
  obtain ⟨hp, rfl⟩ := List.getElem?_eq_some_iff.mp hi
  obtain ⟨hq, rfl⟩ := List.getElem?_eq_some_iff.mp hj
  rcases Nat.lt_or_gt_of_ne hne with hlt | hgt
  · exact List.pairwise_iff_getElem.mp hex p q hp hq hlt
  · exact (List.pairwise_iff_getElem.mp hex q p hq hp hgt).symm

section Built

variable {formats : List Format} {instructions : List Instruction} {d : Decoder}

/-- Two instructions that exclude each other do not match together. -/
theorem Built.not_matches_of_excludes (hb : Built formats instructions d) {i j : Instruction}
    {f f' : Format} {checkConstants checkConstants' : Bool} {buffer : Buffer} {width width' : Nat}
    (hf : formats.find? (·.name = i.format) = some f)
    (hf' : formats.find? (·.name = j.format) = some f') (h : i.Excludes j)
    (hi : i.Matches f checkConstants buffer width) :
    ¬ j.Matches f' checkConstants' buffer width' := by
  intro hj
  obtain ⟨s, hs, t, ht, hfield, hvalue⟩ := h
  obtain ⟨g, hg, hv⟩ := hi.selectors s hs
  obtain ⟨g', hg', hv'⟩ := hj.selectors t ht
  -- fields of one name lie in one place
  obtain ⟨e, he, hlay⟩ :=
    hb.speaksFor f (List.mem_of_find?_eq_some hf) g (Format.mem_of_field? hg)
  obtain ⟨e', he', hlay'⟩ :=
    hb.speaksFor f' (List.mem_of_find?_eq_some hf') g' (Format.mem_of_field? hg')
  rw [Format.name_of_field? hg, hfield, ← Format.name_of_field? hg', he'] at he
  rw [← hlay, ← Option.some.inj he, hlay', hv'] at hv
  exact hvalue hv.symm

/-- The slot of a field shows the value that it has in the format of the instruction. -/
theorem Built.get_valuesOf (hb : Built formats instructions d) {f : Format} (hf : f ∈ formats)
    (hsound : f.Sound) {g : Field} (hg : g ∈ f.fields) (id : InstructionId) (buffer : Buffer) :
    ∃ number, d.fieldNumber g.name = .ok number
      ∧ (valuesOf d.table f id buffer).get number = buffer.value g.layout := by
  obtain ⟨e, he, -⟩ := hb.speaksFor f hf g hg
  have hid : d.table.idOf? g.name = some e.id := FieldTable.idOf?_eq_some.mpr ⟨e, he, rfl⟩
  refine ⟨e.id, by rw [fieldNumber, hid], ?_⟩
  rw [valuesOf_get hb.lawful hid, field?_name hsound hg]
  rfl

/-- Where every two instructions exclude each other, the one that matches is decoded. -/
theorem Built.decode_of_excludes (hb : Built formats instructions d)
    (hex : instructions.Pairwise Instruction.Excludes) {p : Nat} {i : Instruction} {f : Format}
    (hi : instructions[p]? = some i) (hf : formats.find? (·.name = i.format) = some f)
    {buffer : Buffer} {bits : Nat}
    (hm : i.Matches f d.options.checkConstants buffer (min bits buffer.bits)) :
    d.decode buffer bits = some {
      instruction := i.id
      size := f.bits / 8
      fields := valuesOf d.table f i.id buffer } := by
  have howns : Owns instructions p := by
    refine ⟨i, hi, ?_⟩
    intro q j hq hj hsame
    obtain ⟨s, hs, t, ht, hfield, hvalue⟩ := excludes_of_ne hex hi hj (Nat.ne_of_lt hq)
    rw [hsame] at ht
    exact hvalue (hm.single s hs t ht hfield)
  obtain ⟨before, after, horder⟩ := List.append_of_mem ((hb.order_eq.2 p).mpr howns)
  refine hb.decode_of_first horder ?_ hi hf hm
  intro q hq hmatch
  obtain ⟨j, f', hj, hf', hm'⟩ := hmatch
  have hne : p ≠ q := (hb.ne_of_mem_before horder hq).symm
  exact hb.not_matches_of_excludes hf hf' (excludes_of_ne hex hi hj hne) hm hm'

end Built

/-! ## The round trip -/

/-- Two instructions that one nibble tells apart, the other being free. -/
def opcodeInstructions : List Instruction :=
  [{ id := ⟨1, uint32_one_ne_zero⟩, name := "load", format := "byte",
      selectors := ⟨[⟨"high", 1⟩]⟩ },
    { id := ⟨2, uint32_two_ne_zero⟩, name := "store", format := "byte",
      selectors := ⟨[⟨"high", 2⟩]⟩ }]

/-- The decoded values show the value in the slot of the field. -/
def Shows (d : Decoder) (x : Decoded) (name : String) (v : Int64) : Prop :=
  ∃ id, d.fieldNumber name = .ok id ∧ x.fields.get id = v

/--
**What is assembled is decoded.** If every two instructions exclude each other, a
clear instruction can be assembled with any operands that it takes, written in any
order, and from any buffer that begins with this word, in any window that has room
for it, the instruction is decoded with the values of all its fields.
-/
theorem decode_encodeAll {formats : List Format} {instructions : List Instruction}
    {options : Decoder.Options} {d : Decoder} (h : build formats instructions options = .ok d)
    (hex : instructions.Pairwise Instruction.Excludes) {i : Instruction} (hi : i ∈ instructions)
    {f : Format} (hf : formats.find? (·.name = i.format) = some f) (hc : i.Clear f)
    {operands : List (Field × Int64)} (ho : i.Takes f operands) :
    ∃ base word, d.baseEncoding i.id = .ok base
      ∧ encodeAll base (operandWrites operands) = .ok word
      ∧ ∀ (tail : Buffer) (bits : Nat), f.bits.toNat ≤ bits →
        ∃ x, d.decode (word ++ tail) bits = some x ∧ x.instruction = i.id
          ∧ (∀ g v, Assigned f i operands g v → Shows d x g.name v)
          ∧ ∀ g ∈ f.fields, (∀ v, ¬ Assigned f i operands g v) → Shows d x g.name 0 := by
  obtain ⟨p, hp⟩ := List.mem_iff_getElem?.mp hi
  obtain ⟨-, hb⟩ := built_of_build h
  obtain ⟨f', hf', hsound, hbase, hwritable⟩ := baseEncoding_eq h hp
  obtain rfl : f = f' := Option.some.inj (hf.symm.trans hf')
  obtain ⟨base, word, hencode, hword, hbits, hspells⟩ := exists_spelling hsound hwritable hc ho
  refine ⟨base, word, hbase.trans hencode, hword, ?_⟩
  intro tail bits hle
  have hroom : f.bits.toNat ≤ min bits (Buffer.bits (word ++ tail)) := by
    rw [Nat.le_min, Buffer.bits, List.length_append]
    rw [Buffer.bits] at hbits
    omega
  have hsel : ∀ s ∈ i.selectors.toList, ∃ g, f.field? s.field = some g := fun s hs =>
    ((sound_of_build h).selected hi hf s hs).imp fun g hg => hg.1
  have hm := (hspells tail).matches hsel d.options.checkConstants hroom
  have hmem : f ∈ formats := List.mem_of_find?_eq_some hf
  refine ⟨_, hb.decode_of_excludes hex hp hf hm, rfl, ?_, ?_⟩
  · intro g v hassigned
    obtain ⟨number, hnumber, hget⟩ :=
      hb.get_valuesOf hmem hsound (hassigned.mem_fields ho) i.id (word ++ tail)
    exact ⟨number, hnumber, hget.trans ((hspells tail).assigned g v hassigned)⟩
  · intro g hg hnone
    obtain ⟨number, hnumber, hget⟩ := hb.get_valuesOf hmem hsound hg i.id (word ++ tail)
    exact ⟨number, hnumber, hget.trans ((hspells tail).unassigned g hg hnone)⟩

theorem decode_encodeAll_byte :
    ∃ d base word x, build [byteFormat] opcodeInstructions {} = .ok d
      ∧ d.baseEncoding ⟨2, by decide⟩ = .ok base
      ∧ encodeAll base (operandWrites [(⟨"low", ⟨4, 4, false⟩, none, none⟩, 5)]) = .ok word
      ∧ d.decode (word ++ [0xff]) 16 = some x ∧ x.instruction = ⟨2, by decide⟩
      ∧ Shows d x "high" 2 ∧ Shows d x "low" 5 := by
  obtain ⟨d, hd⟩ : ∃ d, build [byteFormat] opcodeInstructions {} = .ok d := ⟨_, rfl⟩
  have hex : opcodeInstructions.Pairwise Instruction.Excludes := by
    unfold Instruction.Excludes
    decide
  have hfree : ∀ g ∈ byteFormat.fields, g.constant = none := by decide
  have hc : (opcodeInstructions[1]).Clear byteFormat := by
    refine ⟨by decide, by decide, ?_⟩
    intro s _ g hg c hcon
    rw [hfree g (List.mem_of_find?_eq_some hg)] at hcon
    exact absurd hcon (by simp)
  have ho : (opcodeInstructions[1]).Takes byteFormat [(⟨"low", ⟨4, 4, false⟩, none, none⟩, 5)] :=
    ⟨by decide, by decide, by decide, by decide, by decide⟩
  obtain ⟨base, word, hbase, hword, hdecode⟩ :=
    decode_encodeAll hd hex (List.getElem_mem (by decide)) rfl hc ho
  obtain ⟨x, hx, hid, hshows, -⟩ := hdecode [0xff] 16 (by decide)
  have hhigh : Assigned byteFormat opcodeInstructions[1] [(⟨"low", ⟨4, 4, false⟩, none, none⟩, 5)]
      ⟨"high", ⟨0, 4, false⟩, none, none⟩ 2 :=
    .selector (s := ⟨"high", 2⟩) (List.mem_singleton_self _) rfl
  exact ⟨d, base, word, x, hd, hbase, hword, hx, hid, hshows _ _ hhigh,
    hshows _ _ (.operand (List.mem_singleton_self _))⟩

end Decoder

end InstructionSet
