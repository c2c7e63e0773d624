import InstructionSet.Proofs.Decoder.Acceptance
import InstructionSet.Proofs.Decoder.RoundTrip

/-!
# Decoding a base encoding

One would like every instruction to be decoded from its base encoding. A build does
not see to that: it compares chains test by test, and chains that begin with
different fields have nothing in common for it, though one word may pass both.
Which of the two instructions is decoded from that word is a matter of the order of
the forest (`zeroInstructions`). Nor does it mind a chain that no word passes,
because it selects on one field with two values.

What does hold is exact: the base encoding is decoded as its instruction if it
matches that instruction and none that comes before it (`decode_baseEncoding`). A match
takes a word that passes the selectors and has room for the format, so an instruction
with a wider format takes nothing away, even if the word passes all its selectors.
-/

namespace InstructionSet

/-- The selectors of the instruction, whose format is `f`, can be met together: none is contradicted
by another, on the same field or on one with which it shares bits. -/
structure Instruction.Meetable (i : Instruction) (f : Format) : Prop where
  single : ∀ s ∈ i.selectors.toList, ∀ t ∈ i.selectors.toList, s.field = t.field →
    s.value = t.value
  apart : ∀ s ∈ i.selectors.toList, ∀ t ∈ i.selectors.toList, s.field ≠ t.field →
    ∀ g g', f.field? s.field = some g → f.field? t.field = some g' → g.layout.Apart g'.layout

namespace Decoder

theorem agreeing_selections {i : Instruction} {f : Format} (h : i.Meetable f) :
    Agreeing (selections f i.selectors.toList) := by
  intro x hx y hy
  obtain ⟨s, hs, g, hg, rfl⟩ := mem_selections.mp hx
  obtain ⟨t, ht, g', hg', rfl⟩ := mem_selections.mp hy
  by_cases hfield : s.field = t.field
  · rw [hfield, hg'] at hg
    rw [Option.some.inj hg, h.single s hs t ht hfield]
    exact .inl rfl
  · exact .inr (h.apart s hs t ht hfield g g' hg hg')

variable {formats : List Format} {instructions : List Instruction} {options : Decoder.Options}
  {d : Decoder}

/-- Under `reject` every instruction owns its chain. -/
theorem owns_of_separate (hsep : Separate instructions) {p : Nat} {i : Instruction}
    (hi : instructions[p]? = some i) : Owns instructions p := by
  refine ⟨i, hi, ?_⟩
  intro q j hq hj hsame
  exact hsep p q i j (Nat.ne_of_lt hq) hi hj (by rw [hsame])

/-- **Decoding finds the first that matches.** The instruction in place `p` is decoded exactly if it
matches and nothing does that the order lists before it. -/
theorem Built.decode_iff_first (hb : Built formats instructions d)
    (hids : (instructions.map Instruction.id).Nodup) {p : Nat} {i : Instruction} {f : Format}
    (hi : instructions[p]? = some i) (hf : formats.find? (·.name = i.format) = some f)
    {before after : List Nat} (ho : d.order = before ++ p :: after) {buffer : Buffer}
    {bits : Nat} :
    (∃ x, d.decode buffer bits = some x ∧ x.instruction = i.id)
      ↔ i.Matches f d.options.checkConstants buffer (min bits buffer.bits)
        ∧ ∀ q ∈ before, ¬ MatchesAt formats instructions d.options.checkConstants buffer
          (min bits buffer.bits) q := by
  constructor
  · intro hex
    obtain ⟨x, hx, hid⟩ := hex
    classical
    cases hfind : d.order.find? fun q => decide (MatchesAt formats instructions
        d.options.checkConstants buffer (min bits buffer.bits) q) with
    | none =>
      have hnone := hb.decode_eq_none fun q hq hm =>
        List.find?_eq_none.mp hfind q hq (decide_eq_true hm)
      rw [hnone] at hx
      exact absurd hx (by simp)
    | some q =>
      obtain ⟨hq, earlier, later, ho', hearlier⟩ := List.find?_eq_some_iff_append.mp hfind
      obtain ⟨j, f', hj, hf', hm⟩ := of_decide_eq_true hq
      have hnot : ∀ q ∈ earlier, ¬ MatchesAt formats instructions d.options.checkConstants buffer
          (min bits buffer.bits) q := fun q hq => by simpa using hearlier q hq
      rw [hb.decode_of_first ho' hnot hj hf' hm] at hx
      -- the number that was decoded is that of one instruction only
      have hid' : j.id = i.id := by rw [← hid, ← Option.some.inj hx]
      obtain rfl : q = p := Validation.place_inj hids hj hi hid'
      -- a place is listed once, so that what comes before it is no matter of choice
      have hnodup := hb.order_eq.1
      rw [ho, List.nodup_middle, List.nodup_cons, List.mem_append, not_or] at hnodup
      have hbefore : earlier = before :=
        ((List.append_cons_inj_of_notMem hnodup.1.1 hnodup.1.2).mp (ho.symm.trans ho')).1.symm
      subst hbefore
      exact ⟨(matchesAt_iff hi hf).mp ⟨j, f', hj, hf', hm⟩, hnot⟩
  · intro hand
    obtain ⟨hm, hbefore⟩ := hand
    exact ⟨_, hb.decode_of_first ho hbefore hi hf hm, rfl⟩

/-- The base encoding of an instruction whose selectors can be met together matches it: constants
are written first and give way. -/
theorem Assembles.matches {i : Instruction} {f : Format} {word : Buffer}
    (hw : d.Assembles i f word) (h : i.Meetable f)
    (hsel : ∀ s ∈ i.selectors.toList, ∃ g, f.field? s.field = some g) :
    i.Matches f false word word.bits where
  selectors := by
    intro s hs
    obtain ⟨g, hg⟩ := hsel s hs
    have hmem : (g.layout, s.value) ∈ selections f i.selectors.toList :=
      mem_selections.mpr ⟨s, hs, g, hg, rfl⟩
    have hwritable : ∀ x ∈ selections f i.selectors.toList, Writable word.bits x := by
      intro x hx
      rw [hw.bits]
      exact hw.writable x (List.mem_append_right _ hx)
    have hvalue := value_of_written hw.bit hwritable (agreeing_selections h) hmem []
    rw [List.append_nil] at hvalue
    exact ⟨g, hg, hvalue⟩
  bits_le := Nat.le_of_eq hw.bits.symm
  constants := fun hc => absurd hc (by simp)

/--
**When a base encoding is decoded as its instruction.** Every instruction of a
decoder has a place in the order of the forest, and a base encoding as wide as its
format. From this word the instruction is decoded exactly if it matches the word
and no instruction before it does, where a match is a word that passes all selectors
and is no narrower than the format. That is so if its selectors can be met together
and every other instruction excludes it.
-/
theorem decode_baseEncoding (h : build formats instructions {} = .ok d) {p : Nat} {i : Instruction}
    (hi : instructions[p]? = some i) :
    ∃ f word before after, formats.find? (·.name = i.format) = some f
      ∧ d.baseEncoding i.id = .ok word ∧ word.bits = f.bits.toNat
      ∧ d.order = before ++ p :: after
      ∧ ((∃ x, d.decode word word.bits = some x ∧ x.instruction = i.id)
          ↔ i.Matches f false word word.bits
            ∧ ∀ q ∈ before, ¬ MatchesAt formats instructions false word word.bits q)
      ∧ (i.Meetable f → (∀ q j, q ≠ p → instructions[q]? = some j → i.Excludes j) →
          ∃ x, d.decode word word.bits = some x ∧ x.instruction = i.id) := by
  obtain ⟨hoptions, hb⟩ := built_of_build h
  have hs := sound_of_build h
  obtain ⟨f, word, hf, hword⟩ := exists_assembles h (List.mem_of_getElem? hi)
  have howns := owns_of_separate (separate_of_build h rfl) hi
  obtain ⟨before, after, ho⟩ := List.append_of_mem ((hb.order_eq.2 p).mpr howns)
  have hiff : (∃ x, d.decode word word.bits = some x ∧ x.instruction = i.id) ↔ _ :=
    hb.decode_iff_first hs.ids hi hf ho
  rw [hoptions, Nat.min_self] at hiff
  refine ⟨f, word, before, after, hf, hword.encoded, hword.bits, ho, hiff, ?_⟩
  intro hmeet hex
  have hsel : ∀ s ∈ i.selectors.toList, ∃ g, f.field? s.field = some g := fun s hs' =>
    (hs.selected (List.mem_of_getElem? hi) hf s hs').imp fun g hg => hg.1
  have hm := hword.matches hmeet hsel
  refine hiff.mpr ⟨hm, ?_⟩
  intro q hq hmatch
  obtain ⟨j, f', hj, hf', hm'⟩ := hmatch
  have hne : q ≠ p := hb.ne_of_mem_before ho hq
  exact hb.not_matches_of_excludes hf hf' (hex q j hne hj) hm hm'

theorem decode_baseEncoding_byte :
    ∃ d word x, build [byteFormat] opcodeInstructions {} = .ok d
      ∧ d.baseEncoding ⟨2, by decide⟩ = .ok word ∧ d.decode word word.bits = some x
      ∧ x.instruction = ⟨2, by decide⟩ := by
  obtain ⟨d, hd⟩ : ∃ d, build [byteFormat] opcodeInstructions {} = .ok d := ⟨_, rfl⟩
  have hi : opcodeInstructions[1]? = some opcodeInstructions[1] := rfl
  have hex : opcodeInstructions.Pairwise Instruction.Excludes := by
    unfold Instruction.Excludes
    decide
  obtain ⟨f, word, -, -, hf, hword, -, -, -, hdecode⟩ := decode_baseEncoding hd hi
  have hmeet : (opcodeInstructions[1]).Meetable f := by
    refine ⟨by decide, ?_⟩
    intro s hs t ht hne
    rw [List.mem_singleton.mp hs, List.mem_singleton.mp ht] at hne
    exact absurd rfl hne
  obtain ⟨x, hx, hid⟩ := hdecode hmeet fun q j hq hj => (excludes_of_ne hex hj hi hq).symm
  exact ⟨d, word, x, hd, hword, hx, hid⟩

/-- Instructions about one nibble each. As `nop` asks for a zero, it is found in the base encoding of
`halt`, which asks for the other nibble. The word of `stop` is not decoded at all, since its nibble
should have two values at once. -/
def zeroInstructions : List Instruction :=
  [{ id := ⟨1, uint32_one_ne_zero⟩, name := "nop", format := "byte", selectors := ⟨[⟨"high", 0⟩]⟩ },
    { id := ⟨2, uint32_two_ne_zero⟩, name := "halt", format := "byte",
      selectors := ⟨[⟨"low", 2⟩]⟩ },
    { id := ⟨3, uint32_three_ne_zero⟩, name := "stop", format := "byte",
      selectors := ⟨[⟨"high", 1⟩, ⟨"high", 2⟩]⟩ }]

theorem decode_baseEncoding_zero :
    ∃ d, build [byteFormat] zeroInstructions {} = .ok d
      ∧ d.baseEncoding ⟨2, by decide⟩ = .ok [0x02]
      ∧ (d.decode [0x02] 8).map Decoded.instruction = some ⟨1, by decide⟩
      ∧ d.baseEncoding ⟨3, by decide⟩ = .ok [0x20] ∧ d.decode [0x20] 8 = none := by
  obtain ⟨d, hd⟩ : ∃ d, build [byteFormat] zeroInstructions {} = .ok d := ⟨_, rfl⟩
  have hhalt : d.baseEncoding ⟨2, by decide⟩ = .ok [0x02] :=
    eq_of_map_eq_ok (·.baseEncoding ⟨2, by decide⟩) hd rfl
  have hstop : d.baseEncoding ⟨3, by decide⟩ = .ok [0x20] :=
    eq_of_map_eq_ok (·.baseEncoding ⟨3, by decide⟩) hd rfl
  obtain ⟨hoptions, hb⟩ := built_of_build hd
  refine ⟨d, hd, hhalt, ?_, hstop, ?_⟩
  · have hm : (zeroInstructions[0]).Matches byteFormat d.options.checkConstants [0x02] 8 := by
      refine ⟨?_, by decide, fun hc => absurd hc (by rw [hoptions]; decide)⟩
      intro s hs
      rw [List.mem_singleton.mp hs]
      exact ⟨_, rfl, by decide⟩
    have ho : d.order = [] ++ 0 :: [1, 2] := eq_of_map_eq_ok order hd rfl
    have hi : zeroInstructions[0]? = some zeroInstructions[0] := rfl
    have hdecode : d.decode [0x02] 8 = some _ := hb.decode_of_first ho (by simp) hi rfl hm
    rw [hdecode]
    rfl
  · have hno : ∀ i ∈ zeroInstructions, ∃ s ∈ i.selectors.toList, (byteFormat.field? s.field).all
        (fun g => Buffer.value [0x20] g.layout ≠ s.value) = true := by decide
    refine hb.decode_eq_none fun q _ hmatch => ?_
    obtain ⟨i, f, hi, hf, hm⟩ := hmatch
    obtain ⟨s, hs, hall⟩ := hno i (List.mem_of_getElem? hi)
    obtain ⟨g, hg, hv⟩ := hm.selectors s hs
    rw [List.mem_singleton.mp (List.mem_of_find?_eq_some hf)] at hg
    rw [hg, Option.all_some, decide_eq_true_iff] at hall
    exact hall hv

end Decoder

end InstructionSet
