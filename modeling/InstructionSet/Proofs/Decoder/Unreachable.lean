import InstructionSet.Proofs.Decoder.Acceptance
import InstructionSet.Proofs.Decoder.Words

/-!
# Instructions that are never found

Under `lastWins` a decoder is built although some chains begin with others, or are the
same, and warns of it. Of instructions with the same chain only the last is ever decoded.
One whose chain begins with that of another is called unreachable, or hidden if it came
first, but nobody asked whether the other is accepted wherever its tests are passed. A
window may be too narrow for the format of the other and have room for that of the one
behind it, or it may not have the other's constants, and then the one behind is decoded.
The warning can be taken literally where constants are not looked at and the other's format
is no wider: the forest lists the shorter chain first, so that whatever passes the longer
one has been found to be the other before (`decode_unreachable`).
-/

namespace InstructionSet.Decoder

/-- The instruction in place `q` is offered before the one in place `p`, and has room wherever that
one has: it owns its chain, which is the beginning of the other's, and its format is no wider. -/
def StandsBefore (formats : List Format) (instructions : List Instruction) (q p : Nat) : Prop :=
  Owns instructions q ∧ ∃ j i f g, instructions[q]? = some j ∧ instructions[p]? = some i
    ∧ j.selectors.toList <+: i.selectors.toList ∧ j.selectors ≠ i.selectors
    ∧ formats.find? (·.name = j.format) = some f ∧ formats.find? (·.name = i.format) = some g
    ∧ f.bits ≤ g.bits

section Built

variable {formats : List Format} {instructions : List Instruction} {d : Decoder}
  {buffer : Buffer} {bits : Nat}

/-- What is decoded is the instruction that the search found. -/
theorem Built.found_of_decode (hb : Built formats instructions d)
    (hids : (instructions.map Instruction.id).Nodup) {x : Decoded}
    (hx : d.decode buffer bits = some x) {p : Nat} {i : Instruction}
    (hi : instructions[p]? = some i) (hid : x.instruction = i.id) :
    ∃ t, d.forest.terminals.find? (wanted d buffer (min bits buffer.bits)) = some t
      ∧ t.2.place = p := by
  cases hfind : d.forest.terminals.find? (wanted d buffer (min bits buffer.bits)) with
  | none =>
    rw [decode_of_not_wanted hfind] at hx
    exact absurd hx (by simp)
  | some t =>
    obtain ⟨path, e⟩ := t
    obtain ⟨i', f, hi', -, -, hdecode⟩ := hb.decode_of_wanted hfind
    rw [hdecode] at hx
    obtain rfl := Option.some.inj hx
    exact ⟨(path, e), rfl, Validation.place_inj hids hi' hi hid⟩

/-- Who owns a beginning of a chain is wanted wherever the owner of the chain is, if its format is no
wider. -/
theorem wanted_of_prefix (hc : d.options.checkConstants = false) {width : Nat}
    {t t' : List Test × Entry} (hpre : t.1 <+: t'.1) (hbits : t.2.format.bits ≤ t'.2.format.bits)
    (h : wanted d buffer width t' = true) : wanted d buffer width t = true := by
  unfold wanted acceptable at h ⊢
  rw [hc, Bool.not_false, Bool.true_or, Bool.and_true, Bool.and_eq_true, List.all_eq_true,
    decide_eq_true_iff] at h ⊢
  obtain ⟨hall, hfits⟩ := h
  exact ⟨fun x hx => hall x (hpre.subset hx), Nat.le_trans (UInt32.le_iff_toNat_le.mp hbits) hfits⟩

/-- **What is found has nothing before it.** -/
theorem Built.not_standsBefore (hb : Built formats instructions d)
    (hc : d.options.checkConstants = false) {t : List Test × Entry}
    (hfind : d.forest.terminals.find? (wanted d buffer (min bits buffer.bits)) = some t) (q : Nat) :
    ¬ StandsBefore formats instructions q t.2.place := by
  intro hbefore
  obtain ⟨howns, j, i, f, g, hj, hi, hpre, hne, hf, hg, hbits⟩ := hbefore
  have ht := List.mem_of_find?_eq_some hfind
  obtain ⟨-, i', g', hi', hd, htested⟩ := hb.owns_of_mem ht
  obtain rfl : i = i' := Option.some.inj (hi.symm.trans hi')
  obtain rfl : g = g' := Option.some.inj (hg.symm.trans hd.found)
  obtain ⟨s, hs, rfl⟩ := hb.mem_of_owns howns
  obtain ⟨-, j', f', hj', hd', htested'⟩ := hb.owns_of_mem hs
  obtain rfl : j = j' := Option.some.inj (hj.symm.trans hj')
  obtain rfl : f = f' := Option.some.inj (hf.symm.trans hd'.found)
  have hchain : s.1 <+: t.1 := (chain_prefix_iff hb.lawful htested' htested).mpr hpre
  have hwanted : wanted d buffer (min bits buffer.bits) s = true := by
    refine wanted_of_prefix hc hchain ?_ (List.find?_some hfind)
    rw [hd'.format, hd.format]
    exact hbits
  -- the forest lists the shorter chain first, so it would have been found
  obtain ⟨made, hrep, -, -⟩ := hb.forest
  rcases eq_or_rel_of_find? (Forest.Branches.pairwise_terminals hrep.distinct) hfind hs hwanted with
    rfl | hlater
  · rw [hj] at hi
    exact hne (congrArg Instruction.selectors (Option.some.inj hi))
  · exact hlater hchain

end Built

/-- No buffer is decoded as the instruction numbered `id`, in no window. -/
def NeverDecoded (d : Decoder) (id : InstructionId) : Prop :=
  ∀ (buffer : Buffer) (bits : Nat) (x : Decoded), d.decode buffer bits = some x → x.instruction ≠ id

/--
**Who gave way is never decoded, and neither is who is behind another.** The first is
an instruction with the chain of a later one. The second, where constants are not
looked at, is one whose chain goes on from the chain of an instruction that owns it
and whose format is no wider, however many owners that chain has had and whenever
they came. Only under `lastWins` are there any of either sort.

An instruction behind a wider format may well be decoded, from a window that has room
for its own format only (`narrowBehindWide`).
-/
theorem decode_unreachable {formats : List Format} {instructions : List Instruction}
    {options : Decoder.Options} {d : Decoder} (h : build formats instructions options = .ok d)
    {p : Nat} {i : Instruction} (hi : instructions[p]? = some i) :
    ((∃ q j, p < q ∧ instructions[q]? = some j ∧ j.selectors = i.selectors) → d.NeverDecoded i.id)
      ∧ (options.checkConstants = false → (∃ q, StandsBefore formats instructions q p) →
        d.NeverDecoded i.id) := by
  obtain ⟨rfl, hb⟩ := built_of_build h
  have hids := (sound_of_build h).ids
  constructor
  · intro hex buffer bits x hx hid
    obtain ⟨q, j, hq, hj, hsame⟩ := hex
    obtain ⟨⟨path, e⟩, hfind, rfl⟩ := hb.found_of_decode hids hx hi hid
    obtain ⟨⟨i', hi', hlater⟩, -⟩ := hb.owns_of_mem (List.mem_of_find?_eq_some hfind)
    obtain rfl : i = i' := Option.some.inj (hi.symm.trans hi')
    exact hlater q j hq hj hsame
  · intro hc hex buffer bits x hx hid
    obtain ⟨q, hbefore⟩ := hex
    obtain ⟨t, hfind, rfl⟩ := hb.found_of_decode hids hx hi hid
    exact hb.not_standsBefore hc hfind q hbefore

/-- Of three instructions the last has taken the chain over from the first, and stands before the
second, although that was entered when the chain was the first one's. -/
theorem decode_unreachable_byte :
    ∃ d, build [byteFormat] crowdedInstructions { duplicates := .lastWins } = .ok d
      ∧ (d.decode [0x12] 8).map Decoded.instruction = some ⟨3, uint32_three_ne_zero⟩
      ∧ d.NeverDecoded ⟨1, uint32_one_ne_zero⟩ ∧ d.NeverDecoded ⟨2, uint32_two_ne_zero⟩ := by
  obtain ⟨d, hd⟩ : ∃ d, build [byteFormat] crowdedInstructions { duplicates := .lastWins } = .ok d :=
    ⟨_, rfl⟩
  have ho : d.order = [] ++ 2 :: [1] := eq_of_map_eq_ok order hd rfl
  have hjump : crowdedInstructions[0]? = some crowdedInstructions[0] := rfl
  have hcall : crowdedInstructions[1]? = some crowdedInstructions[1] := rfl
  have hhalt : crowdedInstructions[2]? = some crowdedInstructions[2] := rfl
  have howns : Owns crowdedInstructions 2 := by
    refine ⟨_, hhalt, ?_⟩
    intro q j hq hj
    rw [List.getElem?_eq_none (show crowdedInstructions.length ≤ q from hq)] at hj
    exact absurd hj (by simp)
  obtain ⟨hoptions, hb⟩ := built_of_build hd
  have hm : (crowdedInstructions[2]).Matches byteFormat d.options.checkConstants [0x12] 8 := by
    refine ⟨?_, by decide, fun hc => absurd hc (by rw [hoptions]; decide)⟩
    intro s hs
    rw [List.mem_singleton.mp hs]
    exact ⟨_, rfl, by decide⟩
  have hfound : d.decode [0x12] 8 = some _ := hb.decode_of_first ho (by simp) hhalt rfl hm
  refine ⟨d, hd, by rw [hfound]; rfl, (decode_unreachable hd hjump).1 ⟨2, _, by decide, hhalt, rfl⟩,
    (decode_unreachable hd hcall).2 rfl ⟨2, howns, _, _, byteFormat, byteFormat, hhalt, hcall, ?_⟩⟩
  decide

/-- A format of two bytes and one of a single byte, which share their first nibble. -/
def unevenFormats : List Format :=
  [⟨"wide", 16, [⟨"op", ⟨0, 4, false⟩, none, none⟩, ⟨"rest", ⟨4, 12, false⟩, none, none⟩]⟩,
    ⟨"narrow", 8, [⟨"op", ⟨0, 4, false⟩, none, none⟩, ⟨"sub", ⟨4, 4, false⟩, none, none⟩]⟩]

/-- The chain of the second instruction goes on from that of the first, whose format is wider. -/
def narrowBehindWide : List Instruction :=
  [{ id := ⟨1, uint32_one_ne_zero⟩, name := "any", format := "wide",
      selectors := ⟨[⟨"op", 1⟩]⟩ },
    { id := ⟨2, uint32_two_ne_zero⟩, name := "one", format := "narrow",
      selectors := ⟨[⟨"op", 1⟩, ⟨"sub", 2⟩]⟩ }]

/-- The second instruction is warned of, and it is decoded from a window of one byte. -/
example : (build unevenFormats narrowBehindWide { duplicates := .lastWins }).map (fun d =>
      (d.warnings.map (·.code), (d.decode [0x12] 8).map Decoded.instruction))
    = .ok (["forest.shadowed"], some ⟨2, uint32_two_ne_zero⟩) := by decide +kernel

end InstructionSet.Decoder
