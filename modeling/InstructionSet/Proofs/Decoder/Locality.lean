import InstructionSet.Proofs.Decoder.Exact
import InstructionSet.Proofs.Bits.Writing
import Mathlib.Data.List.Find
import Mathlib.Data.List.MinMax

/-!
# Decoding sees the window only

A field is fetched in whole bytes, and these may reach past the field, the format
and the window. Nothing of what is fetched in excess has a say in what is decoded.
Two things do: which formats fit into the window, and what the bits are that these
formats cover (`Built.decode_congr`). So neither what follows the window matters,
nor how much of it there is; and once every format fits, it does not matter how
wide the window is.
-/

namespace InstructionSet

/-! ## One format -/

section Format

variable {f : Format} {buffer buffer' : Buffer} (hs : f.Sound)
  (h : buffer.AgreeUpTo buffer' f.bits.toNat)
include hs h

theorem Format.Sound.value_eq {g : Field} (hg : g ∈ f.fields) :
    buffer.value g.layout = buffer'.value g.layout :=
  (h.mono (hs.fields g hg).endBit_le).value_eq

/-- Whether an instruction matches is settled by the bits of its format. -/
theorem Instruction.Matches.transfer {i : Instruction} {checkConstants : Bool} {width width' : Nat}
    (hw : f.bits.toNat ≤ width') (hm : i.Matches f checkConstants buffer width) :
    i.Matches f checkConstants buffer' width' where
  selectors := by
    intro s hsel
    obtain ⟨g, hg, hv⟩ := hm.selectors s hsel
    exact ⟨g, hg, (hs.value_eq h (Format.mem_of_field? hg)).symm.trans hv⟩
  bits_le := hw
  constants := fun hc g hg c hcon =>
    (hs.value_eq h hg).symm.trans (hm.constants hc g hg c hcon)

/-- So is what is decoded of it. -/
theorem Decoder.valuesOf_congr (t : FieldTable) (id : InstructionId) :
    valuesOf t f id buffer = valuesOf t f id buffer' := by
  refine congrArg SlotValues.mk (congrArg (List.cons _) (List.map_congr_left fun e _ => ?_))
  cases hg : f.field? e.declared.name with
  | none => rfl
  | some g => rw [Option.map_some, Option.map_some, hs.value_eq h (Format.mem_of_field? hg)]

end Format

namespace Decoder

/-! ## All formats of a decoder -/

/-- The width of the widest format. -/
def widest (d : Decoder) : Nat := (d.formats.map fun f => f.bits.toNat).foldr max 0

section Built

variable {formats : List Format} {instructions : List Instruction} {d : Decoder}

theorem Built.le_widest (hb : Built formats instructions d) {f : Format} (hf : f ∈ formats) :
    f.bits.toNat ≤ d.widest := by
  have hmem : d.table.number f ∈ d.formats := by
    rw [hb.formats_eq]
    exact List.mem_map_of_mem hf
  exact List.le_max_of_le' 0 (List.mem_map_of_mem hmem) (Nat.le_refl _)

variable {buffer buffer' : Buffer}

/-- What is looked for in one buffer is what is looked for in the other. -/
theorem Built.wanted_congr (hb : Built formats instructions d) {width width' : Nat}
    (hw : width ≤ buffer.bits) (hw' : width' ≤ buffer'.bits)
    (hfit : ∀ f ∈ formats, f.bits.toNat ≤ width ↔ f.bits.toNat ≤ width')
    (hagree : ∀ f ∈ formats, f.bits.toNat ≤ width → buffer.AgreeUpTo buffer' f.bits.toNat)
    {t : List Test × Entry} (ht : t ∈ d.forest.terminals) :
    wanted d buffer width t = wanted d buffer' width' t := by
  obtain ⟨-, i, f, hi, hd, -⟩ := hb.owns_of_mem ht
  have hf : f ∈ formats := List.mem_of_find?_eq_some hd.found
  rw [Bool.eq_iff_iff, hb.wanted_iff_matches hw ht hi hd.found,
    hb.wanted_iff_matches hw' ht hi hd.found]
  constructor
  · intro hm
    exact hm.transfer (hb.sound f hf) (hagree f hf hm.bits_le) ((hfit f hf).mp hm.bits_le)
  · intro hm
    have hle : f.bits.toNat ≤ width := (hfit f hf).mpr hm.bits_le
    exact hm.transfer (hb.sound f hf) (hagree f hf hle).symm hle

/-- **Decoding depends on which formats fit into the window, and on the bits that they cover.** -/
theorem Built.decode_congr (hb : Built formats instructions d) {bits bits' : Nat}
    (hfit : ∀ f ∈ formats,
      f.bits.toNat ≤ min bits buffer.bits ↔ f.bits.toNat ≤ min bits' buffer'.bits)
    (hagree : ∀ f ∈ formats, f.bits.toNat ≤ min bits buffer.bits →
      buffer.AgreeUpTo buffer' f.bits.toNat) :
    d.decode buffer bits = d.decode buffer' bits' := by
  have hw : min bits buffer.bits ≤ buffer.bits := Nat.min_le_right ..
  have hw' : min bits' buffer'.bits ≤ buffer'.bits := Nat.min_le_right ..
  rw [hb.decode_eq_find, hb.decode_eq_find,
    ← List.find?_congr fun t ht => hb.wanted_congr hw hw' hfit hagree ht]
  cases hfind : d.forest.terminals.find? (wanted d buffer (min bits buffer.bits)) with
  | none => rw [Option.map_none, Option.map_none]
  | some t =>
    -- what was found fits, so that the buffers agree on all of its fields
    have ht := List.mem_of_find?_eq_some hfind
    obtain ⟨-, i, f, hi, hd, -⟩ := hb.owns_of_mem ht
    have hf : f ∈ formats := List.mem_of_find?_eq_some hd.found
    have hm := (hb.wanted_iff_matches hw ht hi hd.found).mp (List.find?_some hfind)
    rw [Option.map_some, Option.map_some, hd.decoded_eq, hd.decoded_eq,
      valuesOf_congr (hb.sound f hf) (hagree f hf hm.bits_le)]

end Built

/--
**Decoding sees the window, and of the window no more than the widest format.**
Buffers that agree inside windows of one width are decoded alike; buffers that
agree on the bits of the widest format are, in any windows that have room for it.
-/
theorem decode_window {formats : List Format} {instructions : List Instruction}
    {options : Decoder.Options} {d : Decoder} (h : build formats instructions options = .ok d)
    (buffer buffer' : Buffer) (bits bits' : Nat) :
    (min bits buffer.bits = min bits' buffer'.bits →
        buffer.AgreeUpTo buffer' (min bits buffer.bits) →
        d.decode buffer bits = d.decode buffer' bits')
      ∧ (d.widest ≤ min bits buffer.bits → d.widest ≤ min bits' buffer'.bits →
        buffer.AgreeUpTo buffer' d.widest → d.decode buffer bits = d.decode buffer' bits') := by
  obtain ⟨-, hb⟩ := built_of_build h
  constructor
  · intro hwidth hagree
    refine hb.decode_congr (fun f _ => by rw [hwidth]) fun f _ hfit => hagree.mono hfit
  · intro hroom hroom' hagree
    refine hb.decode_congr (fun f hf => ?_) fun f hf _ => hagree.mono (hb.le_widest hf)
    exact iff_of_true (Nat.le_trans (hb.le_widest hf) hroom)
      (Nat.le_trans (hb.le_widest hf) hroom')

/-- A jump is decoded whatever follows it, whether or not the window has more room, and wherever in a
byte the window ends. -/
theorem decode_window_byte :
    ∃ d, build [byteFormat] byteInstructions {} = .ok d
      ∧ d.decode [0x15] 8 = some ⟨⟨1, uint32_one_ne_zero⟩, 1, ⟨[1, 1, 5]⟩⟩
      ∧ d.decode [0x15] 8 = d.decode [0x15, 0xff] 8
      ∧ d.decode [0x15] 8 = d.decode [0x15, 0xff] 12
      ∧ d.decode [0x15, 0xf0] 12 = d.decode [0x15, 0xff] 12 := by
  obtain ⟨d, hd⟩ : ∃ d, build [byteFormat] byteInstructions {} = .ok d := ⟨_, rfl⟩
  have hwidest : d.widest = 8 := eq_of_map_eq_ok widest hd rfl
  have hjump : d.decode [0x15] 8 = some ⟨⟨1, uint32_one_ne_zero⟩, 1, ⟨[1, 1, 5]⟩⟩ :=
    eq_of_map_eq_ok (·.decode [0x15] 8) hd (by decide +kernel)
  refine ⟨d, hd, hjump, ?_, ?_, ?_⟩
  · exact (decode_window hd [0x15] [0x15, 0xff] 8 8).1 (by decide) (by decide)
  · exact (decode_window hd [0x15] [0x15, 0xff] 8 12).2 (by rw [hwidest]; decide)
      (by rw [hwidest]; decide) (by rw [hwidest]; decide)
  · exact (decode_window hd [0x15, 0xf0] [0x15, 0xff] 12 12).1 (by decide) (by decide)

end Decoder

end InstructionSet
