import InstructionSet.Proofs.Decoder.Acceptance
import InstructionSet.Proofs.Decoder.RoundTrip
import InstructionSet.Proofs.FieldTable.Unification
import InstructionSet.Proofs.Forest.Renaming
import InstructionSet.Proofs.Validation.Complete

/-!
# The order of the formats

Formats that are declared in another order number the fields in another order, and the
first field of a name may be that of another format. So there is another table, the
chains are made of other tests, and the slots of a decoded instruction are other slots.
All of that is a matter of numbers (`decode_formats_perm`).

Two tests are the same (`SameTest`) if they ask for one value of one name, whatever the
number of the name. Instructions have the same tests in both decoders, one by one, so
the two forests have one shape and list the owners in the same order. What they look
for depends on the formats only through their names. So the same owner is found, and
its fields are read from the same format, if into other slots.
-/

namespace InstructionSet.Decoder

variable {formats formats' : List Format} {instructions : List Instruction}
  {options : Decoder.Options} {d d' : Decoder}

/-! ## Whether there is a decoder -/

/-- There are numbers for all names of fields that a decoder knows. -/
theorem fieldNames_lt_of_build (h : build formats instructions options = .ok d) :
    (FieldTable.fieldNames formats).length < UInt32.size := by
  obtain ⟨_, _, -, hu, -⟩ := build_ok h
  unfold unify at hu
  split at hu
  · exact absurd hu (by simp)
  · rename_i u huni
    have hunifies := FieldTable.unifies_of_unify huni
    rw [← (hunifies.lists.canonical hunifies.lawful).size]
    exact hunifies.lawful.size_lt

/-- The same fields have the same names. -/
theorem fieldNames_perm (hperm : formats.Perm formats') :
    (FieldTable.fieldNames formats).Perm (FieldTable.fieldNames formats') := by
  refine (List.perm_ext_iff_of_nodup (nodup_eraseDups _) (nodup_eraseDups _)).mpr fun name => ?_
  rw [List.mem_eraseDups, List.mem_eraseDups]
  exact ((hperm.flatMap_right Format.fields).map Field.name).mem_iff

/-- **Formats make a decoder in any order, or in none.** -/
theorem exists_build_of_formats_perm (h : build formats instructions options = .ok d)
    (hperm : formats.Perm formats') : ∃ d', build formats' instructions options = .ok d' := by
  have hlt : (FieldTable.fieldNames formats').length < UInt32.size := by
    rw [← (fieldNames_perm hperm).length_eq]
    exact fieldNames_lt_of_build h
  obtain ⟨-, hb⟩ := built_of_build h
  have hfields := hperm.flatMap_right Format.fields
  have hagree : FieldTable.Agree formats' := fun g hg g' hg' =>
    hb.speaksFor.agree g (hfields.mem_iff.mpr hg) g' (hfields.mem_iff.mpr hg')
  refine exists_build hlt (Validation.check_of_sound ((sound_of_build h).perm_formats hperm))
    hagree ?_
  cases ho : options.duplicates with
  | lastWins => exact .inl rfl
  | reject => exact .inr (separate_of_build h ho)

/-! ## The same tests -/

/-- The tests ask for one value of one name, which is numbered by two tables. -/
structure SameTest (t t' : FieldTable) (x x' : Test) : Prop where
  value : x.value = x'.value
  name : ∃ name, t.idOf? name = some x.field ∧ t'.idOf? name = some x'.field

/-- A test is the same as one other. -/
theorem biUnique_sameTest {t t' : FieldTable} (hl : t.Lawful) (hl' : t'.Lawful) :
    Relator.BiUnique (SameTest t t') := by
  constructor
  · intro x y z hx hy
    obtain ⟨name, hid, hid'⟩ := hx.name
    obtain ⟨name', hidy, hidy'⟩ := hy.name
    rw [hl'.name_inj hid' hidy', hidy] at hid
    exact test_eq (Option.some.inj hid).symm (hx.value.trans hy.value.symm)
  · intro x y z hy hz
    obtain ⟨name, hid, hid'⟩ := hy.name
    obtain ⟨name', hidz, hidz'⟩ := hz.name
    rw [hl.name_inj hid hidz, hidz'] at hid'
    exact test_eq (Option.some.inj hid').symm (hy.value.symm.trans hz.value)

/-- The selectors of an instruction become the same tests. -/
theorem sameTest_of_tested {t t' : FieldTable} {f f' : Format} {selectors : List Selector}
    {chain chain' : List Test} (h : List.Forall₂ (Tested t f) selectors chain)
    (h' : List.Forall₂ (Tested t' f') selectors chain') :
    List.Forall₂ (SameTest t t') chain chain' := by
  induction h generalizing chain' with
  | nil =>
    cases h'
    exact .nil
  | @cons s _ _ _ hx _ ih =>
    cases h' with
    | cons hx' hrest' =>
      exact .cons ⟨hx.value.trans hx'.value.symm, s.field, hx.idOf?, hx'.idOf?⟩ (ih hrest')

/-! ## Forests of one shape -/

theorem forest_of_build (h : build formats instructions options = .ok d) :
    ∃ chains, resolve (formats.map d.table.number) instructions = .ok chains
      ∧ d.forest = ({} : Forest Entry).after (calls options.duplicates chains) := by
  obtain ⟨_, chains, -, hu, hresolve, hassemble⟩ := build_ok h
  obtain ⟨-, -, -, -, hforest, -⟩ := assemble_ok hassemble
  rw [(unify_ok hu).2.2] at hresolve
  exact ⟨chains, hresolve, hforest⟩

/-- **The forests of one list of instructions have one shape**, whatever the formats. -/
theorem related_forest (h : build formats instructions options = .ok d)
    (h' : build formats' instructions options = .ok d') :
    d.forest.Related (SameTest d.table d'.table) (fun e e' => e.place = e'.place) d'.forest := by
  obtain ⟨-, hb⟩ := built_of_build h
  obtain ⟨-, hb'⟩ := built_of_build h'
  obtain ⟨chains, hr, hforest⟩ := forest_of_build h
  obtain ⟨chains', hr', hforest'⟩ := forest_of_build h'
  obtain ⟨hlen, -⟩ := resolved_of_resolve hb.lawful hb.speaksFor hr
  obtain ⟨hlen', hat'⟩ := resolved_of_resolve hb'.lawful hb'.speaksFor hr'
  rw [hforest, hforest']
  refine Forest.related_after (biUnique_sameTest hb.lawful hb'.lawful) Forest.related_empty ?_
  unfold calls
  rw [List.forall₂_map_left_iff, List.forall₂_map_right_iff, List.forall₂_iff_get]
  refine ⟨hlen.trans hlen'.symm, ?_⟩
  intro k hk hk'
  obtain ⟨i, f, hi, hres⟩ := resolved_of_chains hb.lawful hb.speaksFor hr
    (List.getElem?_eq_getElem hk)
  obtain ⟨x', f', hx', hres'⟩ := hat' k i hi
  obtain rfl : chains'[k] = x' := Option.some.inj ((List.getElem?_eq_getElem hk').symm.trans hx')
  exact ⟨hres.place.trans hres'.place.symm, sameTest_of_tested hres.tested hres'.tested, rfl⟩

/-! ## What is decoded -/

/-- In two decoders that were made of the formats, the same instruction. Each field has one value
in both, under the number that it has in either. -/
structure SameDecoded (formats : List Format) (d d' : Decoder) (x x' : Decoded) : Prop where
  instruction : x.instruction = x'.instruction
  size : x.size = x'.size
  values : ∀ name ∈ FieldTable.fieldNames formats, ∃ v, Shows d x name v ∧ Shows d' x' name v

theorem Built.exists_idOf? (hb : Built formats instructions d) {name : String}
    (hname : name ∈ FieldTable.fieldNames formats) : ∃ id, d.table.idOf? name = some id := by
  obtain ⟨g, hg, rfl⟩ := List.mem_map.mp (List.mem_eraseDups.mp hname)
  obtain ⟨f, hf, hg⟩ := List.mem_flatMap.mp hg
  obtain ⟨e, he, -⟩ := hb.speaksFor f hf g hg
  exact ⟨e.id, FieldTable.idOf?_eq_some.mpr ⟨e, he, rfl⟩⟩

theorem Built.shows_decoded (hb : Built formats instructions d) {name : String}
    (hname : name ∈ FieldTable.fieldNames formats) {e : Entry} {i : Instruction} {f : Format}
    (hd : e.Describes d.table formats' i f) (buffer : Buffer) :
    Shows d (e.decoded d.table buffer) name
      (((f.field? name).map fun g => buffer.value g.layout).getD 0) := by
  obtain ⟨number, hid⟩ := hb.exists_idOf? hname
  refine ⟨number, by rw [fieldNumber, hid], ?_⟩
  rw [hd.decoded_eq]
  exact valuesOf_get hb.lawful hid f i.id buffer

section Decode

variable (hb : Built formats instructions d) (hb' : Built formats' instructions d')
  (hfind : ∀ name, formats.find? (·.name = name) = formats'.find? (·.name = name))
include hb hb' hfind

/-- Instructions in one place are the same, and so are their formats. -/
theorem Built.sameDecoded (hperm : formats.Perm formats') {x x' : List Test × Entry}
    (hx : x ∈ d.forest.terminals) (hx' : x' ∈ d'.forest.terminals)
    (hplace : x.2.place = x'.2.place) (buffer : Buffer) :
    SameDecoded formats d d' (x.2.decoded d.table buffer) (x'.2.decoded d'.table buffer) := by
  obtain ⟨-, i, f, hi, hd, -⟩ := hb.owns_of_mem hx
  obtain ⟨-, i', f', hi', hd', -⟩ := hb'.owns_of_mem hx'
  obtain rfl : i = i' := by
    rw [hplace, hi'] at hi
    exact (Option.some.inj hi).symm
  obtain rfl : f = f' := by
    have hfound := hd.found
    rw [hfind, hd'.found] at hfound
    exact (Option.some.inj hfound).symm
  refine ⟨?_, ?_, ?_⟩
  · rw [hd.decoded_eq, hd'.decoded_eq]
  · rw [hd.decoded_eq, hd'.decoded_eq]
  · intro name hname
    have hname' := (fieldNames_perm hperm).mem_iff.mp hname
    exact ⟨_, hb.shows_decoded hname hd buffer, hb'.shows_decoded hname' hd' buffer⟩

/-- The two forests are searched for the same. -/
theorem Built.wanted_eq_wanted (hoptions : d.options = d'.options) {x x' : List Test × Entry}
    (hx : x ∈ d.forest.terminals) (hx' : x' ∈ d'.forest.terminals)
    (hplace : x.2.place = x'.2.place) {buffer : Buffer} {width : Nat} (hw : width ≤ buffer.bits) :
    wanted d buffer width x = wanted d' buffer width x' := by
  rw [Bool.eq_iff_iff, hb.wanted_iff hw hx, hb'.wanted_iff hw hx', ← hplace, ← hoptions]
  unfold MatchesAt
  simp only [hfind]

end Decode

/-- **Decoders of the same formats in another order decode the same.** -/
theorem decode_rel (h : build formats instructions options = .ok d)
    (h' : build formats' instructions options = .ok d') (hperm : formats.Perm formats')
    (buffer : Buffer) (bits : Nat) :
    Option.Rel (SameDecoded formats d d') (d.decode buffer bits) (d'.decode buffer bits) := by
  obtain ⟨hoptions, hb⟩ := built_of_build h
  obtain ⟨hoptions', hb'⟩ := built_of_build h'
  have hfind := find?_perm Format.name (sound_of_build h).names hperm
  have hw : min bits buffer.bits ≤ buffer.bits := Nat.min_le_right ..
  rw [hb.decode_eq_find, hb'.decode_eq_find]
  refine rel_map_find? (related_forest h h').terminals ?_ ?_
  · intro x hx x' hx' hxx
    exact hb.wanted_eq_wanted hb' hfind (hoptions.trans hoptions'.symm) hx hx' hxx.2 hw
  · intro x hx x' hx' hxx
    exact hb.sameDecoded hb' hfind hperm hx hx' hxx.2 buffer

/-! ## Base encodings -/

theorem baseEncoding_formats_perm (h : build formats instructions options = .ok d)
    (h' : build formats' instructions options = .ok d') (hperm : formats.Perm formats')
    (id : InstructionId) : d.baseEncoding id = d'.baseEncoding id := by
  obtain ⟨-, hb⟩ := built_of_build h
  obtain ⟨-, hb'⟩ := built_of_build h'
  by_cases hid : ∃ i ∈ instructions, i.id = id
  · obtain ⟨i, hi, rfl⟩ := hid
    obtain ⟨p, hp⟩ := List.mem_iff_getElem?.mp hi
    obtain ⟨f, hf, -, hbase, -⟩ := baseEncoding_eq h hp
    obtain ⟨f', hf', -, hbase', -⟩ := baseEncoding_eq h' hp
    obtain rfl : f = f' := by
      rw [find?_perm Format.name (sound_of_build h).names hperm, hf'] at hf
      exact (Option.some.inj hf).symm
    rw [hbase, hbase']
  · have hnot : ∀ i ∈ instructions, i.id ≠ id := fun i hi he => hid ⟨i, hi, he⟩
    rw [baseEncoding, baseEncoding, hb.entry_eq_error hnot, hb'.entry_eq_error hnot]

/--
**The order of the formats does not matter**, but for the numbers of the fields. Formats
make a decoder in the one order exactly if they do in the other. Both decode the same
instruction of every buffer, with the same value for every name, and both encode
instructions alike.
-/
theorem decode_formats_perm {formats formats' : List Format} (hperm : formats.Perm formats')
    (instructions : List Instruction) (options : Decoder.Options) :
    ((∃ d, build formats instructions options = .ok d)
        ↔ ∃ d', build formats' instructions options = .ok d')
      ∧ ∀ d d', build formats instructions options = .ok d →
        build formats' instructions options = .ok d' →
        (∀ (buffer : Buffer) (bits : Nat),
          Option.Rel (SameDecoded formats d d') (d.decode buffer bits) (d'.decode buffer bits))
        ∧ ∀ id, d.baseEncoding id = d'.baseEncoding id := by
  refine ⟨⟨?_, ?_⟩, ?_⟩
  · intro hbuilt
    obtain ⟨d, hd⟩ := hbuilt
    exact exists_build_of_formats_perm hd hperm
  · intro hbuilt
    obtain ⟨d', hd'⟩ := hbuilt
    exact exists_build_of_formats_perm hd' hperm.symm
  · intro d d' hd hd'
    exact ⟨decode_rel hd hd' hperm, baseEncoding_formats_perm hd hd' hperm⟩

/-- A format for a register and one for a number, which share the opcode. -/
def mixedFormats : List Format :=
  [{ name := "register", bits := 8,
      fields := [⟨"op", ⟨0, 4, false⟩, none, none⟩, ⟨"reg", ⟨4, 4, false⟩, none, none⟩] },
    { name := "number", bits := 16,
      fields := [⟨"op", ⟨0, 4, false⟩, none, none⟩, ⟨"imm", ⟨8, 8, true⟩, none, none⟩] }]

def mixedInstructions : List Instruction :=
  [{ id := ⟨1, uint32_one_ne_zero⟩, name := "push", format := "register",
      selectors := ⟨[⟨"op", 1⟩]⟩ },
    { id := ⟨2, uint32_two_ne_zero⟩, name := "load", format := "number",
      selectors := ⟨[⟨"op", 2⟩]⟩ }]

/-- With the formats in reverse, the register has the last slot instead of the second. -/
theorem decode_formats_perm_reverse :
    ∃ d d' x x', build mixedFormats mixedInstructions {} = .ok d
      ∧ build mixedFormats.reverse mixedInstructions {} = .ok d'
      ∧ d.decode [0x15] 8 = some x ∧ x.fields.slots = [1, 1, 5, 0]
      ∧ d'.decode [0x15] 8 = some x' ∧ x'.fields.slots = [1, 1, 0, 5]
      ∧ SameDecoded mixedFormats d d' x x' := by
  have hperm : mixedFormats.Perm mixedFormats.reverse := (List.reverse_perm mixedFormats).symm
  obtain ⟨d, hd⟩ : ∃ d, build mixedFormats mixedInstructions {} = .ok d := ⟨_, rfl⟩
  obtain ⟨hbuilt, hsame⟩ := decode_formats_perm hperm mixedInstructions {}
  obtain ⟨d', hd'⟩ := hbuilt.mp ⟨d, hd⟩
  have hx : d.decode [0x15] 8 = some ⟨⟨1, uint32_one_ne_zero⟩, 1, ⟨[1, 1, 5, 0]⟩⟩ :=
    eq_of_map_eq_ok (·.decode [0x15] 8) hd (by decide +kernel)
  have hx' : d'.decode [0x15] 8 = some ⟨⟨1, uint32_one_ne_zero⟩, 1, ⟨[1, 1, 0, 5]⟩⟩ :=
    eq_of_map_eq_ok (·.decode [0x15] 8) hd' (by decide +kernel)
  have hrel := (hsame d d' hd hd').1 [0x15] 8
  rw [hx, hx'] at hrel
  cases hrel with
  | some hsame => exact ⟨d, d', _, _, hd, hd', hx, rfl, hx', rfl, hsame⟩

end InstructionSet.Decoder
