import InstructionSet.Proofs.Decoder.Exact
import InstructionSet.Proofs.Decoder.Words
import InstructionSet.Proofs.Search.Offers

/-!
# Nothing is left over

A caller may hand in the same values for one decoding after the other, of whatever
length and with whatever in them. They are given up before anything is read, so no
attempt depends on them. What stands in them afterwards is the attempt's own: zeros
if nothing was decoded, even if some fields had been read by then, and otherwise
the number of the instruction, the fields of its format, and zeros for all others
(`Attempt.Clean`).

None of this is for the host to spoil. It may answer reads as it likes; all it
settles is which instruction of the forest is found and what is in the slots of its
fields.
-/

namespace InstructionSet

/-- The slot of a numbered field. -/
def Field.slot? (g : Field) : Option Nat := g.id.map FieldId.slot

namespace SlotValues

theorem instructionId?_zeros (slots : Nat) : (zeros slots).instructionId? = none := by
  cases slots with
  | zero => rfl
  | succ slots =>
    rw [zeros, List.replicate_succ]
    rfl

/-- The number that is put into slot 0 is read back. -/
theorem instructionId?_set {v : SlotValues} (h : 0 < v.length) (id : InstructionId) :
    (v.set 0 (Decoder.idValue id)).instructionId? = some id := by
  obtain ⟨slots⟩ := v
  obtain ⟨first, rest, rfl⟩ := List.exists_cons_of_length_pos h
  have hlt : id.val.toNat < UInt32.size := id.val.toNat_lt
  have hint : (Decoder.idValue id).toInt = id.val.toNat :=
    Int64.toInt_ofNat_of_lt (Nat.lt_trans hlt (by decide))
  rw [set, List.set_cons_zero, instructionId?]
  dsimp only
  rw [hint, if_pos ⟨Int.natCast_nonneg _, Int.ofNat_lt.mpr hlt⟩, Int.toNat_natCast,
    UInt32.ofNat_toNat, InstructionId.ofNumber?, dif_pos id.val_ne_zero]

end SlotValues

namespace Decoder

variable {σ : Type}

/-! ## Reading, whatever the answers -/

theorem length_readOperands (extractor : Extractor σ) (buffer : Buffer) (fields : List Field)
    (values : SlotValues) (session : Session σ) :
    (readOperands extractor buffer fields values session).values.length = values.length := by
  induction fields generalizing values session with
  | nil => rfl
  | cons g rest ih =>
    unfold readOperands
    split
    · exact ih values session
    · split
      · rw [ih, SlotValues.length_set]
      · rfl

/-- A slot that belongs to none of the fields keeps what it held. -/
theorem getElem?_readOperands (extractor : Extractor σ) (buffer : Buffer) {fields : List Field}
    {k : Nat} (hk : some k ∉ fields.map Field.slot?) (values : SlotValues) (session : Session σ) :
    (readOperands extractor buffer fields values session).values.slots[k]? = values.slots[k]? := by
  induction fields generalizing values session with
  | nil => rfl
  | cons g rest ih =>
    rw [List.map_cons, List.mem_cons, not_or] at hk
    obtain ⟨hg, hrest⟩ := hk
    unfold readOperands
    split
    · exact ih hrest values session
    · rename_i id hid
      have hne : id.slot ≠ k := by
        intro he
        rw [Field.slot?, hid, Option.map_some, he] at hg
        exact hg rfl
      split
      · rw [ih hrest, SlotValues.set, List.getElem?_set_ne hne]
      · rfl

/-! ## Attempts -/

/-- The values are those of the instruction `e`: its number, its fields, and otherwise zeros. -/
structure Entry.Fills (d : Decoder) (e : Entry) (values : SlotValues) : Prop where
  /-- The decoder knows the instruction, and its format, by this number. -/
  known : d.entry e.instruction.id = .ok e
  number : values.instructionId? = some e.instruction.id
  /-- Each field of the format has a slot. -/
  slot : ∀ g ∈ e.format.fields, ∃ k, g.slot? = some k ∧ 0 < k ∧ k < values.length
  /-- No two fields of the format share one. -/
  apart : (e.format.fields.map Field.slot?).Nodup
  elsewhere : ∀ k, 0 < k → k < values.length → some k ∉ e.format.fields.map Field.slot? →
    values.slots[k]? = some 0

/-- **What an attempt leaves in the values is its own.** -/
structure Attempt.Clean (d : Decoder) (a : Attempt σ) : Prop where
  length : a.values.length = d.table.size + 1
  nothing : a.found = none → a.values.instructionId? = none ∧ ∀ v ∈ a.values.slots, v = 0
  something : ∀ e, a.found = some e → e.Fills d a.values

section Attempt

variable (d : Decoder) (extractor : Extractor σ) (buffer : Buffer) (bits : Nat) (host : σ)

/-- **Values that are handed in do not matter.** -/
theorem decodeInto_eq_decodeWith (out : SlotValues) :
    d.decodeInto extractor buffer bits out host = d.decodeWith extractor buffer bits host := by
  unfold decodeWith decodeInto
  simp only [SlotValues.reset_eq]

/-- An attempt ends with zeros, or with an owner of the forest whose fields were all read. -/
theorem decodeWith_cases :
    ((d.decodeWith extractor buffer bits host).found = none
        ∧ (d.decodeWith extractor buffer bits host).values = .zeros d.table.slots)
      ∨ ∃ path e session, (path, e) ∈ d.forest.terminals
        ∧ (d.decodeWith extractor buffer bits host).found = some e
        ∧ (d.decodeWith extractor buffer bits host).values
          = (readOperands extractor buffer e.format.fields (.zeros d.table.slots)
              session).values.set 0 (idValue e.instruction.id) := by
  unfold decodeWith decodeInto
  simp only [SlotValues.reset_eq]
  split
  · exact .inl ⟨rfl, rfl⟩
  · rename_i e hfound
    obtain ⟨path, hmem⟩ := Search.mem_terminals_of_found hfound
    split
    · exact .inr ⟨path, e, _, hmem, rfl, rfl⟩
    -- what had been read before the failure is given up again
    · exact .inl ⟨rfl, rfl⟩

end Attempt

section Built

variable {formats : List Format} {instructions : List Instruction} {d : Decoder}

/-- What the forest lists is what the decoder knows by its number. -/
theorem Built.entry_of_mem (hb : Built formats instructions d)
    (hs : Validation.Sound formats instructions) {path : List Test} {e : Entry}
    (h : (path, e) ∈ d.forest.terminals) : d.entry e.instruction.id = .ok e := by
  obtain ⟨-, i, f, hi, hd, -⟩ := hb.owns_of_mem h
  obtain ⟨e', f', he', hplace, hd'⟩ := hb.entry_eq hs hi
  obtain rfl : e' = e := hd'.unique hd hplace
  rw [← he', hd.instruction]

/-- An owner of the forest whose fields were read fills the values. -/
theorem Built.fills (hb : Built formats instructions d)
    (hs : Validation.Sound formats instructions) {path : List Test} {e : Entry}
    (h : (path, e) ∈ d.forest.terminals) {values : SlotValues}
    (hlen : values.length = d.table.slots)
    (hzero : ∀ k, some k ∉ e.format.fields.map Field.slot? →
      values.slots[k]? = (SlotValues.zeros d.table.slots).slots[k]?) :
    e.Fills d (values.set 0 (idValue e.instruction.id)) := by
  obtain ⟨-, i, f, hi, hd, -⟩ := hb.owns_of_mem h
  have hf : f ∈ formats := List.mem_of_find?_eq_some hd.found
  obtain ⟨hnodup, hslot⟩ := slots_number hb.lawful hb.speaksFor hf (hs.format f hf).names
  rw [← hd.format] at hnodup hslot
  refine ⟨hb.entry_of_mem hs h, ?_, ?_, ?_, ?_⟩
  · exact SlotValues.instructionId?_set (by rw [hlen]; exact Nat.succ_pos _) _
  · intro g hg
    obtain ⟨id, hid, hpos, hlt⟩ := hslot g hg
    exact ⟨id.slot, by rw [Field.slot?, hid, Option.map_some], hpos, by simpa [hlen] using hlt⟩
  · have hmap : e.format.fields.map Field.slot?
        = (e.format.fields.map Field.id).map (Option.map FieldId.slot) := by
      rw [List.map_map]
      rfl
    rw [hmap]
    refine hnodup.map (Option.map_injective fun id id' hid => ?_)
    rw [FieldId.slot_eq_index_add_one, FieldId.slot_eq_index_add_one] at hid
    exact FieldId.index_inj (Nat.succ.inj hid)
  · intro k hpos hlt hk
    rw [SlotValues.length_set, hlen] at hlt
    rw [SlotValues.set, List.getElem?_set_ne (Nat.ne_of_lt hpos), hzero k hk, SlotValues.zeros,
      List.getElem?_replicate, if_pos hlt]

/-- **Every attempt is clean**, whatever the host answers. -/
theorem Built.clean (hb : Built formats instructions d)
    (hs : Validation.Sound formats instructions) (extractor : Extractor σ) (buffer : Buffer)
    (bits : Nat) (host : σ) : (d.decodeWith extractor buffer bits host).Clean d := by
  rcases d.decodeWith_cases extractor buffer bits host with
    ⟨hfound, hvalues⟩ | ⟨path, e, session, hmem, hfound, hvalues⟩
  · refine ⟨by rw [hvalues, SlotValues.length_zeros]; rfl, fun _ => ?_, fun e he => ?_⟩
    · rw [hvalues]
      exact ⟨SlotValues.instructionId?_zeros _, fun v hv => List.eq_of_mem_replicate hv⟩
    · rw [hfound] at he
      exact absurd he (by simp)
  · have hlen := length_readOperands extractor buffer e.format.fields (.zeros d.table.slots) session
    rw [SlotValues.length_zeros] at hlen
    refine ⟨by rw [hvalues, SlotValues.length_set, hlen]; rfl, fun hnone => ?_, fun e' he' => ?_⟩
    · rw [hfound] at hnone
      exact absurd hnone (by simp)
    · obtain rfl : e = e' := Option.some.inj (hfound.symm.trans he')
      rw [hvalues]
      exact hb.fills hs hmem hlen fun k hk => getElem?_readOperands extractor buffer hk _ session

end Built

/-- Reads the bits themselves, but only as often as the host allows. -/
def limited : Extractor Nat := fun buffer layout session =>
  match session.host with
  | 0 => (.error (.shortBuffer layout.endBit 0), session)
  | reads + 1 => Extractor.msbFirst buffer layout { session with host := reads }

/--
**Values that are used again show nothing of what they held.** Whatever two callers
hand in, and however the host answers, both attempts come to the same, and to what
is decoded into values of one's own; and what is in the values then is the
attempt's own.
-/
theorem decodeInto_clean {formats : List Format} {instructions : List Instruction}
    {options : Decoder.Options} {d : Decoder} (h : build formats instructions options = .ok d)
    (extractor : Extractor σ) (buffer : Buffer) (bits : Nat) (host : σ) (out out' : SlotValues) :
    d.decodeInto extractor buffer bits out host = d.decodeInto extractor buffer bits out' host
      ∧ (d.decodeWith extractor buffer bits host).decoded?
        = ((d.decodeInto extractor buffer bits out host).found.map fun e => {
            instruction := e.instruction.id
            size := e.instruction.size
            fields := (d.decodeInto extractor buffer bits out host).values })
      ∧ (d.decodeInto extractor buffer bits out host).Clean d := by
  obtain ⟨-, hb⟩ := built_of_build h
  rw [decodeInto_eq_decodeWith, decodeInto_eq_decodeWith]
  exact ⟨rfl, rfl, hb.clean (sound_of_build h) extractor buffer bits host⟩

/-- A jump is found, but the host has no read left for its second nibble: the first one is taken back
out of the values. With one more read both are there. -/
theorem decodeInto_clean_limited :
    ∃ d, build [byteFormat] byteInstructions {} = .ok d
      ∧ (d.decodeInto limited [0x15] 8 ⟨[7, 7, 7, 7]⟩ 2).Clean d
      ∧ (d.decodeInto limited [0x15] 8 ⟨[7, 7, 7, 7]⟩ 2).values = ⟨[0, 0, 0]⟩
      ∧ (d.decodeInto limited [0x15] 8 ⟨[7]⟩ 3).Clean d
      ∧ (d.decodeInto limited [0x15] 8 ⟨[7]⟩ 3).values = ⟨[1, 1, 5]⟩ := by
  obtain ⟨d, hd⟩ : ∃ d, build [byteFormat] byteInstructions {} = .ok d := ⟨_, rfl⟩
  have hshort : (d.decodeInto limited [0x15] 8 ⟨[7, 7, 7, 7]⟩ 2).values = ⟨[0, 0, 0]⟩ :=
    eq_of_map_eq_ok (fun d => (d.decodeInto limited [0x15] 8 ⟨[7, 7, 7, 7]⟩ 2).values) hd
      (by decide +kernel)
  have henough : (d.decodeInto limited [0x15] 8 ⟨[7]⟩ 3).values = ⟨[1, 1, 5]⟩ :=
    eq_of_map_eq_ok (fun d => (d.decodeInto limited [0x15] 8 ⟨[7]⟩ 3).values) hd
      (by decide +kernel)
  exact ⟨d, hd, (decodeInto_clean hd limited [0x15] 8 2 ⟨[7, 7, 7, 7]⟩ {}).2.2, hshort,
    (decodeInto_clean hd limited [0x15] 8 3 ⟨[7]⟩ {}).2.2, henough⟩

end Decoder

end InstructionSet
