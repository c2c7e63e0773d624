import InstructionSet.Proofs.Decoder.Exact
import InstructionSet.Proofs.Forest.Placements

/-!
# One more instruction

An instruction that is declared after all others is the last to be entered into the
forest, and under `reject` it takes nothing over. So the owners that were there are
listed as they were, and the newcomer is put in between somewhere
(`terminals_of_concat`). The newcomer is found if it matches and nothing that is listed
before it does; in any other case the search goes as if it were not there.
-/

namespace InstructionSet.Decoder

/-! ## The last chain -/

theorem entriesFrom_concat {formats : List Format} {place : Nat} {instructions : List Instruction}
    {i : Instruction} {entries : List Entry}
    (h : entriesFrom formats place (instructions ++ [i]) = .ok entries) :
    ∃ earlier e, entriesFrom formats place instructions = .ok earlier
      ∧ Entry.ofInstruction formats (place + instructions.length) i = .ok e
      ∧ entries = earlier ++ [e] := by
  induction instructions generalizing place entries with
  | nil =>
    obtain ⟨e, later, he, hlater, rfl⟩ := entriesFrom_cons.mp h
    injection hlater with hlater
    exact ⟨[], e, rfl, he, by rw [← hlater]; rfl⟩
  | cons j rest ih =>
    rw [List.cons_append] at h
    obtain ⟨first, later, hfirst, hlater, rfl⟩ := entriesFrom_cons.mp h
    obtain ⟨earlier, e, hearlier, he, rfl⟩ := ih hlater
    rw [Nat.add_assoc, Nat.add_comm 1] at he
    exact ⟨first :: earlier, e, entriesFrom_cons.mpr ⟨first, earlier, hfirst, hearlier, rfl⟩, he, rfl⟩

/-- The instruction in the last place has the last chain, and the others have what they had. -/
theorem resolve_concat {formats : List Format} {instructions : List Instruction} {i : Instruction}
    {chains chains' : List (Entry × List Test)} (h : resolve formats instructions = .ok chains)
    (h' : resolve formats (instructions ++ [i]) = .ok chains') :
    ∃ x, chains' = chains ++ [x]
      ∧ Entry.ofInstruction formats instructions.length i = .ok x.1 := by
  unfold resolve at h'
  split at h'
  · exact absurd h' (by simp)
  · rename_i entries hentries
    obtain ⟨earlier, e, hearlier, he, rfl⟩ := entriesFrom_concat hentries
    unfold resolve at h
    rw [hearlier] at h
    dsimp only at h
    rw [List.mapM_append, bind_eq_ok] at h'
    obtain ⟨first, hfirst, h'⟩ := h'
    obtain rfl : chains = first := Except.ok.inj (h.symm.trans hfirst)
    rw [bind_eq_ok] at h'
    obtain ⟨last, hlast, h'⟩ := h'
    injection h' with h'
    subst h'
    cases forall₂_of_mapM hlast with
    | @cons _ x _ _ hx hnil =>
      cases hnil
      rw [Nat.zero_add] at he
      exact ⟨x, rfl, by rw [he, (chain_of_map hx).1]⟩

/-- If all calls are accepted, so is the last one. -/
theorem call_ok_of_accepted {f : Forest Entry} {calls : List (Forest.Call Entry)}
    {c : Forest.Call Entry} (h : f.accepted (calls ++ [c]) = calls ++ [c]) :
    ∃ r, ((f.after calls).call c).1 = .ok r := by
  cases hc : ((f.after calls).call c).1 with
  | ok r => exact ⟨r, rfl⟩
  | error r =>
    have hle := (Forest.accepted_sublist f calls).length_le
    rw [Forest.accepted_append, Forest.accepted, hc] at h
    have hlen := congrArg List.length h
    rw [List.length_append, List.length_append, List.length_singleton] at hlen
    change (f.accepted calls).length + 0 = _ at hlen
    omega

/-! ## Two decoders -/

section Extension

variable {formats : List Format} {instructions : List Instruction} {i : Instruction}
  {options : Decoder.Options} {d d' : Decoder}

/-- **The newcomer is put into the list of owners, which otherwise stays as it was.** -/
theorem terminals_of_concat (hpolicy : options.duplicates = .reject)
    (h : build formats instructions options = .ok d)
    (h' : build formats (instructions ++ [i]) options = .ok d') :
    d.table = d'.table ∧ ∃ before after path e f, d.forest.terminals = before ++ after
      ∧ d'.forest.terminals = before ++ (path, e) :: after ∧ e.place = instructions.length
      ∧ e.Describes d'.table formats i f := by
  obtain ⟨_, chains, -, -, hr, ha⟩ := build_ok h
  obtain ⟨_, chains', -, hu', hr', ha'⟩ := build_ok h'
  obtain ⟨htable, hformats⟩ := table_eq_of_build h h'
  refine ⟨htable, ?_⟩
  rw [hformats] at hr
  obtain ⟨⟨e, path⟩, rfl, he⟩ := resolve_concat hr hr'
  obtain ⟨-, -, -, -, hforest, -⟩ := assemble_ok ha
  obtain ⟨-, -, -, -, hforest', haccepted⟩ := assemble_ok ha'
  rw [calls, List.map_append] at hforest' haccepted
  obtain ⟨r, hcall⟩ := call_ok_of_accepted haccepted
  obtain ⟨before, after, hold, hnew⟩ := Forest.terminals_call (by rw [hpolicy]; rfl) hcall
  rw [(unify_ok hu').2.2] at he
  obtain ⟨hplace, f, hd⟩ := describes_of_ofInstruction he
  refine ⟨before, after, path, e, f, ?_, ?_, hplace, hd⟩
  · rw [hforest]
    exact hold
  · rw [hforest', Forest.after_append]
    exact hnew

/-- Decoders with one table and the same options look for the same. -/
theorem wanted_eq (htable : d.table = d'.table) (hoptions : d.options = d'.options) :
    wanted d = wanted d' := by
  funext buffer width t
  unfold wanted search
  rw [htable, hoptions]

end Extension

/-- What comes of one more candidate in a list. -/
theorem find?_insert {α : Type} (p : α → Bool) (before after : List α) (x : α) :
    (before ++ x :: after).find? p
      = if p x = true ∧ before.find? p = none then some x else (before ++ after).find? p := by
  rw [List.find?_append, List.find?_append, List.find?_cons]
  cases p x with
  | false => simp
  | true =>
    cases before.find? p with
    | none => simp
    | some y => simp

/-- What the decoder `d'` makes of a buffer, if it knows the instruction `i`, of the format `f`, and
otherwise what `d` knows. -/
structure Extends (d d' : Decoder) (i : Instruction) (f : Format) (checkConstants : Bool)
    (buffer : Buffer) (bits : Nat) : Prop where
  either : d'.decode buffer bits = d.decode buffer bits
    ∨ d'.decode buffer bits = some {
        instruction := i.id
        size := f.bits / 8
        fields := valuesOf d.table f i.id buffer }
  /-- Where the newcomer does not match, nothing has changed. -/
  same : ¬ i.Matches f checkConstants buffer (min bits buffer.bits) →
    d'.decode buffer bits = d.decode buffer bits
  /-- Where it does, and nothing was found before, it is found. -/
  new : i.Matches f checkConstants buffer (min bits buffer.bits) →
    d.decode buffer bits = none →
    d'.decode buffer bits = some {
      instruction := i.id
      size := f.bits / 8
      fields := valuesOf d.table f i.id buffer }

/--
**An instruction that is declared last is a conservative extension.** If a description
makes a decoder under `reject`, with and without one more instruction at its end, the
two decode alike wherever the newcomer does not match. Elsewhere the one that knows
it may find it, and does so if the other finds nothing.
-/
theorem decode_concat {formats : List Format} {instructions : List Instruction} {i : Instruction}
    {options : Decoder.Options} {d d' : Decoder} (hpolicy : options.duplicates = .reject)
    (h : build formats instructions options = .ok d)
    (h' : build formats (instructions ++ [i]) options = .ok d') :
    ∃ f, formats.find? (·.name = i.format) = some f
      ∧ ∀ buffer bits, Extends d d' i f options.checkConstants buffer bits := by
  obtain ⟨htable, before, after, path, e, f, hold, hnew, hplace, hd⟩ :=
    terminals_of_concat hpolicy h h'
  obtain ⟨hoptions, hb⟩ := built_of_build h
  obtain ⟨hoptions', hb'⟩ := built_of_build h'
  refine ⟨f, hd.found, fun buffer bits => ?_⟩
  have hi : (instructions ++ [i])[e.place]? = some i := by
    rw [hplace, List.getElem?_concat_length]
  have hmem : (path, e) ∈ d'.forest.terminals := by
    rw [hnew]
    exact List.mem_append_right _ List.mem_cons_self
  have hwanted := hb'.wanted_iff_matches (Nat.min_le_right bits buffer.bits) hmem hi hd.found
  rw [hoptions'] at hwanted
  -- the two searches differ in the newcomer alone
  have hdecode := hb.decode_eq_find buffer bits
  have hdecode' := hb'.decode_eq_find buffer bits
  rw [hold, wanted_eq htable (hoptions.trans hoptions'.symm), htable] at hdecode
  rw [hnew, find?_insert] at hdecode'
  rw [← htable] at hd
  split at hdecode'
  · rename_i hfound
    rw [Option.map_some, ← htable, hd.decoded_eq] at hdecode'
    exact ⟨.inr hdecode', fun hm => absurd (hwanted.mp hfound.1) hm, fun _ _ => hdecode'⟩
  · rename_i hnot
    have hsame := hdecode'.trans hdecode.symm
    refine ⟨.inl hsame, fun _ => hsame, fun hm hnone => absurd ⟨hwanted.mpr hm, ?_⟩ hnot⟩
    rw [hdecode, Option.map_eq_none_iff, List.find?_append, Option.or_eq_none_iff] at hnone
    exact hnone.1

/-- A halt is declared after a jump. What is no halt is decoded as before, and a halt that was nothing
before is decoded now. -/
theorem decode_concat_byte :
    ∃ d d', build [byteFormat] [byteInstructions[0]] {} = .ok d
      ∧ build [byteFormat] ([byteInstructions[0]] ++ [byteInstructions[1]]) {} = .ok d'
      ∧ d'.decode [0x15] 8 = d.decode [0x15] 8
      ∧ d.decode [0x15] 8 = some ⟨⟨1, uint32_one_ne_zero⟩, 1, ⟨[1, 1, 5]⟩⟩
      ∧ (d'.decode [0x32] 8).map Decoded.instruction = some ⟨2, uint32_two_ne_zero⟩
      ∧ d.decode [0x32] 8 = none := by
  obtain ⟨d, hd⟩ : ∃ d, build [byteFormat] [byteInstructions[0]] {} = .ok d := ⟨_, rfl⟩
  obtain ⟨d', hd'⟩ : ∃ d', build [byteFormat] ([byteInstructions[0]] ++ [byteInstructions[1]]) {}
    = .ok d' := ⟨_, rfl⟩
  have hjump : d.decode [0x15] 8 = some ⟨⟨1, uint32_one_ne_zero⟩, 1, ⟨[1, 1, 5]⟩⟩ :=
    eq_of_map_eq_ok (·.decode [0x15] 8) hd (by decide +kernel)
  have hnone : d.decode [0x32] 8 = none :=
    eq_of_map_eq_ok (·.decode [0x32] 8) hd (by decide +kernel)
  obtain ⟨f, hf, hat⟩ := decode_concat rfl hd hd'
  obtain rfl : byteFormat = f := Option.some.inj hf
  have hlow : byteFormat.field? "low" = some ⟨"low", ⟨4, 4, false⟩, none, none⟩ := rfl
  refine ⟨d, d', hd, hd', (hat [0x15] 8).same ?_, hjump, ?_, hnone⟩
  · intro hm
    obtain ⟨g, hg, hv⟩ := hm.selectors ⟨"low", 2⟩ (List.mem_singleton_self _)
    obtain rfl := Option.some.inj (hlow.symm.trans hg)
    exact absurd hv (by decide)
  · rw [(hat [0x32] 8).new ⟨?_, by decide, fun hc => absurd hc (by decide)⟩ hnone]
    · rfl
    · intro s hs
      rw [List.mem_singleton.mp hs]
      exact ⟨_, hlow, by decide⟩

end InstructionSet.Decoder
