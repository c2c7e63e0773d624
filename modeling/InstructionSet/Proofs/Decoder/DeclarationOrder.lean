import InstructionSet.Proofs.Decoder.Acceptance
import InstructionSet.Proofs.Decoder.RoundTrip
import InstructionSet.Proofs.Validation.Complete

/-!
# The order of declaration

Instructions that are declared in another order make another forest: its levels list
their tests in another order, and its nodes have other numbers. Whether there is a
forest at all does not change (`exists_build_of_perm`), because none of the conditions
for it knows of an order.

What is found may change, since of several instructions that match the first one in the
forest is found. It does not if no word is two instructions. Then there is nothing
to choose from: what matches is found, wherever in the forest it may be.
-/

namespace InstructionSet.Decoder

variable {formats : List Format} {instructions instructions' : List Instruction}
  {options : Decoder.Options} {d d' : Decoder}

/-! ## Whether there is a decoder -/

theorem separate_iff_pairwise :
    Separate instructions ↔ instructions.Pairwise fun i j =>
      ¬ i.selectors.toList <+: j.selectors.toList ∧ ¬ j.selectors.toList <+: i.selectors.toList := by
  rw [List.pairwise_iff_getElem]
  constructor
  · intro h j k hj hk hlt
    exact ⟨h j k _ _ (Nat.ne_of_lt hlt) (List.getElem?_eq_getElem hj) (List.getElem?_eq_getElem hk),
      h k j _ _ (Nat.ne_of_gt hlt) (List.getElem?_eq_getElem hk) (List.getElem?_eq_getElem hj)⟩
  · intro h j k i i' hne hi hi'
    obtain ⟨hj, rfl⟩ := List.getElem?_eq_some_iff.mp hi
    obtain ⟨hk, rfl⟩ := List.getElem?_eq_some_iff.mp hi'
    rcases Nat.lt_or_gt_of_ne hne with hlt | hgt
    · exact (h j k hj hk hlt).1
    · exact (h k j hk hj hgt).2

theorem Separate.perm (h : Separate instructions) (hperm : instructions.Perm instructions') :
    Separate instructions' := by
  rw [separate_iff_pairwise] at h ⊢
  exact (hperm.pairwise_iff fun hand => ⟨hand.2, hand.1⟩).mp h

/-- **Instructions make a decoder in any order, or in none.** -/
theorem exists_build_of_perm (h : build formats instructions options = .ok d)
    (hperm : instructions.Perm instructions') :
    ∃ d', build formats instructions' options = .ok d' := by
  obtain ⟨_, _, -, hu, -⟩ := build_ok h
  obtain ⟨_, hv⟩ := exists_validate (Validation.check_of_sound ((sound_of_build h).perm hperm))
  refine exists_build_of_separate hv hu ?_
  cases ho : options.duplicates with
  | lastWins => exact .inl rfl
  | reject => exact .inr ((separate_of_build h ho).perm hperm)

/-! ## What it decodes -/

/-- Different instructions stand in different places. -/
theorem pairwise_excludes (hids : (instructions.map Instruction.id).Nodup)
    (hex : ∀ i ∈ instructions, ∀ j ∈ instructions, i ≠ j → i.Excludes j) :
    instructions.Pairwise Instruction.Excludes :=
  hids.of_map.pairwise_of_forall_ne hex

/-- No word is two instructions. -/
theorem Built.place_unique (hb : Built formats instructions d)
    (hex : instructions.Pairwise Instruction.Excludes) {checkConstants : Bool} {buffer : Buffer}
    {width p q : Nat} (hp : MatchesAt formats instructions checkConstants buffer width p)
    (hq : MatchesAt formats instructions checkConstants buffer width q) : p = q := by
  obtain ⟨i, f, hi, hf, hm⟩ := hp
  obtain ⟨j, f', hj, hf', hm'⟩ := hq
  by_contra hne
  exact hb.not_matches_of_excludes hf hf' (excludes_of_ne hex hi hj hne) hm hm'

/-- Decoders of the same instructions, of which no two are one word, decode alike. -/
theorem decode_eq_of_perm (h : build formats instructions options = .ok d)
    (h' : build formats instructions' options = .ok d') (hperm : instructions.Perm instructions')
    (hex : instructions.Pairwise Instruction.Excludes) (buffer : Buffer) (bits : Nat) :
    d.decode buffer bits = d'.decode buffer bits := by
  obtain ⟨htable, -⟩ := table_eq_of_build h h'
  obtain ⟨rfl, hb⟩ := built_of_build h
  obtain ⟨hoptions, hb'⟩ := built_of_build h'
  have hex' : instructions'.Pairwise Instruction.Excludes :=
    (hperm.pairwise_iff Instruction.Excludes.symm).mp hex
  by_cases hany : ∃ i ∈ instructions, ∃ f, formats.find? (·.name = i.format) = some f
      ∧ i.Matches f d.options.checkConstants buffer (min bits buffer.bits)
  · obtain ⟨i, hi, f, hf, hm⟩ := hany
    obtain ⟨p, hp⟩ := List.mem_iff_getElem?.mp hi
    obtain ⟨q, hq⟩ := List.mem_iff_getElem?.mp (hperm.mem_iff.mp hi)
    rw [hb.decode_of_excludes hex hp hf hm, htable]
    rw [← hoptions] at hm
    rw [hb'.decode_of_excludes hex' hq hf hm]
  · rw [hb.decode_eq_none fun p _ hm => ?_, hb'.decode_eq_none fun p _ hm => ?_]
    · obtain ⟨i, f, hi, hf, hm⟩ := hm
      rw [hoptions] at hm
      exact hany ⟨i, hperm.mem_iff.mpr (List.mem_of_getElem? hi), f, hf, hm⟩
    · obtain ⟨i, f, hi, hf, hm⟩ := hm
      exact hany ⟨i, List.mem_of_getElem? hi, f, hf, hm⟩

/--
**The order of declaration does not matter** if every two instructions exclude each
other. They make a decoder in the one order exactly if they do in the other, both
decode alike, and no word is two of the instructions.
-/
theorem decode_perm (formats : List Format) {instructions instructions' : List Instruction}
    (hperm : instructions.Perm instructions')
    (hex : ∀ i ∈ instructions, ∀ j ∈ instructions, i ≠ j → i.Excludes j)
    (options : Decoder.Options) :
    ((∃ d, build formats instructions options = .ok d)
        ↔ ∃ d', build formats instructions' options = .ok d')
      ∧ ∀ d d', build formats instructions options = .ok d →
        build formats instructions' options = .ok d' →
        ∀ buffer : Buffer, (∀ bits, d.decode buffer bits = d'.decode buffer bits)
          ∧ ∀ width p q,
            MatchesAt formats instructions options.checkConstants buffer width p →
            MatchesAt formats instructions options.checkConstants buffer width q → p = q := by
  refine ⟨⟨?_, ?_⟩, ?_⟩
  · intro hbuilt
    obtain ⟨d, hd⟩ := hbuilt
    exact exists_build_of_perm hd hperm
  · intro hbuilt
    obtain ⟨d', hd'⟩ := hbuilt
    exact exists_build_of_perm hd' hperm.symm
  · intro d d' hd hd' buffer
    have hpairs := pairwise_excludes (sound_of_build hd).ids hex
    obtain ⟨-, hb⟩ := built_of_build hd
    exact ⟨fun bits => decode_eq_of_perm hd hd' hperm hpairs buffer bits,
      fun width p q hp hq => hb.place_unique hpairs hp hq⟩

/-- The two instructions make a decoder in reverse, and a store is decoded as before. -/
theorem decode_perm_reverse :
    ∃ d d', build [byteFormat] opcodeInstructions {} = .ok d
      ∧ build [byteFormat] opcodeInstructions.reverse {} = .ok d'
      ∧ d.decode [0x25] 8 = some ⟨⟨2, uint32_two_ne_zero⟩, 1, ⟨[2, 2, 5]⟩⟩
      ∧ d'.decode [0x25] 8 = some ⟨⟨2, uint32_two_ne_zero⟩, 1, ⟨[2, 2, 5]⟩⟩ := by
  have hperm : opcodeInstructions.Perm opcodeInstructions.reverse :=
    (List.reverse_perm opcodeInstructions).symm
  have hex : ∀ i ∈ opcodeInstructions, ∀ j ∈ opcodeInstructions, i ≠ j → i.Excludes j := by
    unfold Instruction.Excludes
    decide
  obtain ⟨d, hd⟩ : ∃ d, build [byteFormat] opcodeInstructions {} = .ok d := ⟨_, rfl⟩
  obtain ⟨hbuilt, hdecode⟩ := decode_perm [byteFormat] hperm hex {}
  obtain ⟨d', hd'⟩ := hbuilt.mp ⟨d, hd⟩
  have hstore : d.decode [0x25] 8 = some ⟨⟨2, uint32_two_ne_zero⟩, 1, ⟨[2, 2, 5]⟩⟩ :=
    eq_of_map_eq_ok (·.decode [0x25] 8) hd (by decide +kernel)
  exact ⟨d, d', hd, hd', hstore, ((hdecode d d' hd hd' [0x25]).1 8).symm.trans hstore⟩

end InstructionSet.Decoder
