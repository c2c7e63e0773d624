import InstructionSet.Proofs.Decoder.Operands

/-!
# What decoding finds

A decoder finds an instruction exactly if one matches that *owns* its chain: an
instruction with the selectors of a later one is never found. Of several that
match, the one whose chain ends first in the forest is found, and it comes with
the values of all its fields.

Validation, numbering, the forest, the search and the reading of fields each have
their theorem elsewhere. What is left here is to put them together, for which the
owners that the forest lists are told apart by their places among the
instructions (`Decoder.order`).
-/

namespace InstructionSet.Decoder

/-- The places of the instructions that can be found, in the order in which the forest lists
them. -/
def order (d : Decoder) : List Nat := d.forest.terminals.map fun t => t.2.place

/-- The instruction in place `p` owns its chain: no later one has the same selectors. -/
def Owns (instructions : List Instruction) (p : Nat) : Prop :=
  ∃ i, instructions[p]? = some i ∧ ∀ (q : Nat) (j : Instruction),
    p < q → instructions[q]? = some j → j.selectors ≠ i.selectors

/-- The instruction in place `p` matches. -/
def MatchesAt (formats : List Format) (instructions : List Instruction) (checkConstants : Bool)
    (buffer : Buffer) (width p : Nat) : Prop :=
  ∃ i f, instructions[p]? = some i ∧ formats.find? (·.name = i.format) = some f
    ∧ i.Matches f checkConstants buffer width

theorem matchesAt_iff {formats : List Format} {instructions : List Instruction}
    {checkConstants : Bool} {buffer : Buffer} {width p : Nat} {i : Instruction} {f : Format}
    (hi : instructions[p]? = some i) (hf : formats.find? (·.name = i.format) = some f) :
    MatchesAt formats instructions checkConstants buffer width p
      ↔ i.Matches f checkConstants buffer width := by
  constructor
  · intro hex
    obtain ⟨i', f', hi', hf', hm⟩ := hex
    rw [hi] at hi'
    obtain rfl := Option.some.inj hi'
    rw [hf] at hf'
    obtain rfl := Option.some.inj hf'
    exact hm
  · exact fun hm => ⟨i, f, hi, hf, hm⟩

section Built

variable {formats : List Format} {instructions : List Instruction} {d : Decoder}

/-! ## The owners -/

/-- The entry in a place, with the chain under which it was entered. -/
theorem Built.entered (hb : Built formats instructions d) {made : List (Forest.Call Entry)}
    (hmade : made.map Forest.Call.owner = d.entries)
    (hchain : ∀ c ∈ made, c.owner.chain = .ok c.chain) {k : Nat} {i : Instruction}
    (hi : instructions[k]? = some i) :
    ∃ c f, made[k]? = some c ∧ c.owner.place = k ∧ c.owner.Describes d.table formats i f
      ∧ List.Forall₂ (Tested d.table f) i.selectors.toList c.chain := by
  obtain ⟨e, he, hp, f, hd⟩ := hb.entry k i hi
  rw [← hmade, List.getElem?_map, Option.map_eq_some_iff] at he
  obtain ⟨c, hc, rfl⟩ := he
  exact ⟨c, f, hc, hp, hd, tested_of_chain hb.lawful hb.speaksFor hd
    (hchain c (List.mem_of_getElem? hc))⟩

/-- Whatever was entered, it was for an instruction. -/
theorem Built.of_entered (hb : Built formats instructions d) {made : List (Forest.Call Entry)}
    (hmade : made.map Forest.Call.owner = d.entries)
    (hchain : ∀ c ∈ made, c.owner.chain = .ok c.chain) {k : Nat} {c : Forest.Call Entry}
    (hc : made[k]? = some c) :
    ∃ i f, instructions[k]? = some i ∧ c.owner.place = k
      ∧ c.owner.Describes d.table formats i f
      ∧ List.Forall₂ (Tested d.table f) i.selectors.toList c.chain := by
  have hlt : k < instructions.length := by
    rw [← hb.length_eq, ← hmade, List.length_map]
    exact (List.getElem?_eq_some_iff.mp hc).1
  have hi : instructions[k]? = some instructions[k] := List.getElem?_eq_getElem hlt
  obtain ⟨c', f, hc', hplace, hd, htested⟩ := hb.entered hmade hchain hi
  rw [hc] at hc'
  obtain rfl := Option.some.inj hc'
  exact ⟨_, f, hi, hplace, hd, htested⟩

/-- What the forest lists belongs to an instruction that owns its chain. -/
theorem Built.owns_of_mem (hb : Built formats instructions d) {path : List Test} {e : Entry}
    (h : (path, e) ∈ d.forest.terminals) :
    Owns instructions e.place ∧ ∃ i f, instructions[e.place]? = some i
      ∧ e.Describes d.table formats i f
      ∧ List.Forall₂ (Tested d.table f) i.selectors.toList path := by
  obtain ⟨made, hrep, hmade, hchain⟩ := hb.forest
  obtain ⟨k, c, hk, rfl, rfl, hlater⟩ := Forest.lastOwner_eq_some.mp (hrep.mem_terminals.mp h)
  obtain ⟨i, f, hi, hplace, hd, htested⟩ := hb.of_entered hmade hchain hk
  rw [hplace]
  refine ⟨⟨i, hi, ?_⟩, i, f, hi, hd, htested⟩
  -- a later instruction with the same selectors would have taken the chain over
  intro q j hq hj hsel
  obtain ⟨c', f', hc', -, -, htested'⟩ := hb.entered hmade hchain hj
  apply hlater q c' hq hc'
  rw [chain_eq_iff hb.lawful htested' htested, hsel]

/-- An instruction that owns its chain is listed. -/
theorem Built.mem_of_owns (hb : Built formats instructions d) {p : Nat}
    (h : Owns instructions p) : ∃ t ∈ d.forest.terminals, t.2.place = p := by
  obtain ⟨made, hrep, hmade, hchain⟩ := hb.forest
  obtain ⟨i, hi, hlater⟩ := h
  obtain ⟨c, f, hc, hplace, -, htested⟩ := hb.entered hmade hchain hi
  have hlast : ∀ (q : Nat) (c' : Forest.Call Entry), p < q → made[q]? = some c' →
      c'.chain ≠ c.chain := by
    intro q c' hq hc' he
    obtain ⟨j, f', hj, -, -, htested'⟩ := hb.of_entered hmade hchain hc'
    have hsel := (chain_eq_iff hb.lawful htested' htested).mp he
    exact hlater q j hq hj (congrArg SelectorChain.mk hsel)
  have hmem : (c.chain, c.owner) ∈ d.forest.terminals :=
    hrep.mem_terminals.mpr (Forest.lastOwner_eq_some.mpr ⟨p, c, hc, rfl, rfl, hlast⟩)
  exact ⟨(c.chain, c.owner), hmem, hplace⟩

/-- A place is listed once. -/
theorem Built.eq_of_place_eq (hb : Built formats instructions d) {t t' : List Test × Entry}
    (h : t ∈ d.forest.terminals) (h' : t' ∈ d.forest.terminals)
    (hp : t.2.place = t'.2.place) : t = t' := by
  obtain ⟨path, e⟩ := t
  obtain ⟨path', e'⟩ := t'
  obtain ⟨-, i, f, hi, hd, htested⟩ := hb.owns_of_mem h
  obtain ⟨-, i', f', hi', hd', htested'⟩ := hb.owns_of_mem h'
  dsimp only at hp
  rw [hp, hi'] at hi
  obtain rfl := Option.some.inj hi
  have hpath : path = path' := (chain_eq_iff hb.lawful htested htested').mpr rfl
  rw [hpath, hd.unique hd' hp]

/-- **The order lists the instructions that own their chains, each once.** -/
theorem Built.order_eq (hb : Built formats instructions d) :
    d.order.Nodup ∧ ∀ p, p ∈ d.order ↔ Owns instructions p := by
  constructor
  · obtain ⟨made, hrep, -, -⟩ := hb.forest
    have hpaths : (d.forest.terminals.map Prod.fst).Nodup :=
      Forest.Branches.nodup_terminals hrep.distinct
    have hpairs : d.forest.terminals.Nodup := hpaths.of_map
    exact hpairs.map_on fun t ht t' ht' hp => hb.eq_of_place_eq ht ht' hp
  · intro p
    constructor
    · intro hp
      obtain ⟨⟨path, e⟩, ht, rfl⟩ := List.mem_map.mp hp
      exact (hb.owns_of_mem ht).1
    · intro ho
      exact List.mem_map.mpr (hb.mem_of_owns ho)

/-- What is listed before a place is another place. -/
theorem Built.ne_of_mem_before (hb : Built formats instructions d) {before after : List Nat}
    {p q : Nat} (ho : d.order = before ++ p :: after) (hq : q ∈ before) : q ≠ p := by
  have hnodup := hb.order_eq.1
  rw [ho, List.nodup_append] at hnodup
  exact hnodup.2.2 q hq p List.mem_cons_self

/-! ## The search -/

variable {buffer : Buffer} {width : Nat}

/-- What a search of the forest looks for: the tests of an owner hold, and it is accepted. -/
def wanted (d : Decoder) (buffer : Buffer) (width : Nat) (t : List Test × Entry) : Bool :=
  t.1.all ((d.search (σ := Unit) .msbFirst buffer).holds Buffer.answer width)
    && acceptable d.options buffer t.2 width

/-- What is looked for is an instruction that matches. -/
theorem Built.wanted_iff (hb : Built formats instructions d) (hw : width ≤ buffer.bits)
    {t : List Test × Entry} (h : t ∈ d.forest.terminals) :
    wanted d buffer width t = true
      ↔ MatchesAt formats instructions d.options.checkConstants buffer width t.2.place := by
  obtain ⟨path, e⟩ := t
  obtain ⟨-, i, f, hi, hd, htested⟩ := hb.owns_of_mem h
  rw [matchesAt_iff hi hd.found]
  exact matches_iff (hb.sound f (List.mem_of_find?_eq_some hd.found)) hw hd htested

theorem Built.wanted_iff_matches (hb : Built formats instructions d) (hw : width ≤ buffer.bits)
    {t : List Test × Entry} (h : t ∈ d.forest.terminals) {i : Instruction} {f : Format}
    (hi : instructions[t.2.place]? = some i) (hf : formats.find? (·.name = i.format) = some f) :
    wanted d buffer width t = true ↔ i.Matches f d.options.checkConstants buffer width :=
  (hb.wanted_iff hw h).trans (matchesAt_iff hi hf)

/-- The search finds the first owner that is wanted. -/
theorem found_outcome (d : Decoder) (buffer : Buffer) (bits : Nat) :
    (d.outcome buffer bits).found
      = (d.forest.terminals.find? (wanted d buffer (min bits buffer.bits))).map Prod.snd := by
  have h := (Search.loop_pending (determined_search d buffer)
    (Search.steady_start d.forest (start buffer bits))).2
  rw [Search.pending_start] at h
  refine h.trans ?_
  rw [Search.candidates, List.find?_map, List.find?_filter]
  congr 2
  funext t
  rw [Bool.decide_and, Bool.decide_eq_true, Bool.decide_eq_true]
  rfl

theorem available_outcome (d : Decoder) (buffer : Buffer) (bits : Nat) :
    (d.outcome buffer bits).session.window.available = min bits buffer.bits :=
  Search.loop_available (determined_search d buffer)
    (Search.steady_start d.forest (start buffer bits))

/-! ## Decoding -/

/-- If nothing is wanted, nothing is decoded. -/
theorem decode_of_not_wanted {bits : Nat}
    (h : d.forest.terminals.find? (wanted d buffer (min bits buffer.bits)) = none) :
    d.decode buffer bits = none := by
  rw [decode_eq, found_outcome, h]
  rfl

/-- What is wanted first is decoded. -/
theorem Built.decode_of_wanted (hb : Built formats instructions d) {bits : Nat}
    {path : List Test} {e : Entry}
    (h : d.forest.terminals.find? (wanted d buffer (min bits buffer.bits)) = some (path, e)) :
    ∃ i f, instructions[e.place]? = some i ∧ formats.find? (·.name = i.format) = some f
      ∧ i.Matches f d.options.checkConstants buffer (min bits buffer.bits)
      ∧ d.decode buffer bits = some {
          instruction := i.id
          size := f.bits / 8
          fields := valuesOf d.table f i.id buffer } := by
  have hmem := List.mem_of_find?_eq_some h
  have hw : min bits buffer.bits ≤ buffer.bits := Nat.min_le_right ..
  obtain ⟨-, i, f, hi, hd, -⟩ := hb.owns_of_mem hmem
  have hm := (hb.wanted_iff_matches hw hmem hi hd.found).mp (List.find?_some h)
  have hav := available_outcome d buffer bits
  refine ⟨i, f, hi, hd.found, hm, ?_⟩
  rw [decode_eq, found_outcome, h, Option.map_some, Option.bind_some]
  exact pack_eq hb.lawful hb.speaksFor (hb.sound f (List.mem_of_find?_eq_some hd.found)) hd _
    (by rw [hav]; exact hw) (by rw [hav]; exact hm.bits_le)

/-- What is decoded of the instruction `e`. -/
def Entry.decoded (e : Entry) (t : FieldTable) (buffer : Buffer) : Decoded where
  instruction := e.instruction.id
  size := e.instruction.size
  fields := valuesOf t e.format e.instruction.id buffer

theorem Entry.Describes.decoded_eq {e : Entry} {t : FieldTable} {i : Instruction} {f : Format}
    (hd : e.Describes t formats i f) (buffer : Buffer) :
    e.decoded t buffer = {
      instruction := i.id
      size := f.bits / 8
      fields := valuesOf t f i.id buffer } := by
  rw [Entry.decoded, hd.instruction, hd.format, valuesOf_number]
  rfl

/-- **Decoding is choosing from the list of owners.** -/
theorem Built.decode_eq_find (hb : Built formats instructions d) (buffer : Buffer) (bits : Nat) :
    d.decode buffer bits
      = (d.forest.terminals.find? (wanted d buffer (min bits buffer.bits))).map
          fun t => t.2.decoded d.table buffer := by
  cases hf : d.forest.terminals.find? (wanted d buffer (min bits buffer.bits)) with
  | none => rw [decode_of_not_wanted hf, Option.map_none]
  | some t =>
    obtain ⟨path, e⟩ := t
    obtain ⟨i, f, hi, hfound, -, hdecode⟩ := hb.decode_of_wanted hf
    obtain ⟨-, i', f', hi', hd, -⟩ := hb.owns_of_mem (List.mem_of_find?_eq_some hf)
    obtain rfl : i = i' := Option.some.inj (hi.symm.trans hi')
    obtain rfl : f = f' := Option.some.inj (hfound.symm.trans hd.found)
    rw [hdecode, Option.map_some, hd.decoded_eq]

/-- If nothing that the order lists matches, nothing is decoded. -/
theorem Built.decode_eq_none (hb : Built formats instructions d) {bits : Nat}
    (h : ∀ p ∈ d.order, ¬MatchesAt formats instructions d.options.checkConstants buffer
      (min bits buffer.bits) p) : d.decode buffer bits = none := by
  apply decode_of_not_wanted
  rw [List.find?_eq_none]
  intro t ht hwant
  exact h t.2.place (List.mem_map_of_mem ht) ((hb.wanted_iff (Nat.min_le_right ..) ht).mp hwant)

/-- What matches is decoded, unless something that the order lists before it matches as well. -/
theorem Built.decode_of_first (hb : Built formats instructions d) {bits p : Nat}
    {before after : List Nat} (ho : d.order = before ++ p :: after)
    (hbefore : ∀ q ∈ before, ¬MatchesAt formats instructions d.options.checkConstants buffer
      (min bits buffer.bits) q) {i : Instruction} {f : Format} (hi : instructions[p]? = some i)
    (hf : formats.find? (·.name = i.format) = some f)
    (hm : i.Matches f d.options.checkConstants buffer (min bits buffer.bits)) :
    d.decode buffer bits = some {
      instruction := i.id
      size := f.bits / 8
      fields := valuesOf d.table f i.id buffer } := by
  have hw : min bits buffer.bits ≤ buffer.bits := Nat.min_le_right ..
  obtain ⟨ts, us, hlist, hts, hus⟩ := List.map_eq_append_iff.mp ho
  obtain ⟨t, us, rfl, rfl, -⟩ := List.map_eq_cons_iff.mp hus
  have hin : ∀ x ∈ ts ++ t :: us, x ∈ d.forest.terminals := fun x hx => hlist ▸ hx
  have ht : t ∈ d.forest.terminals := hin t (List.mem_append_right _ List.mem_cons_self)
  have hwanted : wanted d buffer (min bits buffer.bits) t = true :=
    (hb.wanted_iff_matches hw ht hi hf).mpr hm
  have hfirst : d.forest.terminals.find? (wanted d buffer (min bits buffer.bits)) = some t := by
    rw [List.find?_eq_some_iff_append]
    refine ⟨hwanted, ts, us, hlist, ?_⟩
    intro x hx
    rw [Bool.not_eq_true']
    refine Bool.eq_false_iff.mpr fun hwant => hbefore x.2.place ?_ ?_
    · rw [← hts]
      exact List.mem_map_of_mem hx
    · exact (hb.wanted_iff hw (hin x (List.mem_append_left _ hx))).mp hwant
  obtain ⟨i', f', hi', hf', -, hdecode⟩ := hb.decode_of_wanted hfirst
  obtain rfl : i = i' := Option.some.inj (hi.symm.trans hi')
  obtain rfl : f = f' := Option.some.inj (hf.symm.trans hf')
  exact hdecode

end Built

/-- A byte that is made of two nibbles. -/
def byteFormat : Format :=
  ⟨"byte", 8, [⟨"high", ⟨0, 4, false⟩, none, none⟩, ⟨"low", ⟨4, 4, false⟩, none, none⟩]⟩

theorem uint32_one_ne_zero : (1 : UInt32) ≠ 0 := by decide

theorem uint32_two_ne_zero : (2 : UInt32) ≠ 0 := by decide

theorem uint32_three_ne_zero : (3 : UInt32) ≠ 0 := by decide

/-- Two instructions that are told apart by different nibbles. -/
def byteInstructions : List Instruction :=
  [{ id := ⟨1, uint32_one_ne_zero⟩, name := "jump", format := "byte",
      selectors := ⟨[⟨"high", 1⟩]⟩ },
    { id := ⟨2, uint32_two_ne_zero⟩, name := "halt", format := "byte",
      selectors := ⟨[⟨"low", 2⟩]⟩ }]

/--
**Decoding is sound and complete, and goes by the order of the forest.** That
order lists the instructions that own their chains, each once. Nothing is decoded
exactly if none of them matches; otherwise the first of them that does is decoded,
with its number, its size in bytes and the values of its fields.
-/
theorem decode_exact {formats : List Format} {instructions : List Instruction}
    {options : Decoder.Options} {d : Decoder} (h : build formats instructions options = .ok d)
    (buffer : Buffer) (bits : Nat) :
    (d.order.Nodup ∧ ∀ p, p ∈ d.order ↔ Owns instructions p)
      ∧ (d.decode buffer bits = none ↔ ∀ p, Owns instructions p →
          ¬MatchesAt formats instructions options.checkConstants buffer (min bits buffer.bits) p)
      ∧ ∀ x, d.decode buffer bits = some x → ∃ before p after i f,
          d.order = before ++ p :: after
            ∧ (∀ q ∈ before, ¬MatchesAt formats instructions options.checkConstants buffer
                (min bits buffer.bits) q)
            ∧ instructions[p]? = some i ∧ formats.find? (·.name = i.format) = some f
            ∧ i.Matches f options.checkConstants buffer (min bits buffer.bits)
            ∧ x = {
                instruction := i.id
                size := f.bits / 8
                fields := valuesOf d.table f i.id buffer } := by
  obtain ⟨rfl, hb⟩ := built_of_build h
  have hw : min bits buffer.bits ≤ buffer.bits := Nat.min_le_right ..
  refine ⟨hb.order_eq, ⟨?_, ?_⟩, ?_⟩
  · intro hnone p ho hm
    cases hf : d.forest.terminals.find? (wanted d buffer (min bits buffer.bits)) with
    | some t =>
      obtain ⟨_, _, -, -, -, hsome⟩ := hb.decode_of_wanted hf
      rw [hsome] at hnone
      exact absurd hnone (by simp)
    | none =>
      obtain ⟨t, ht, rfl⟩ := hb.mem_of_owns ho
      exact List.find?_eq_none.mp hf t ht ((hb.wanted_iff hw ht).mpr hm)
  · intro hno
    apply decode_of_not_wanted
    rw [List.find?_eq_none]
    intro t ht hwant
    exact hno _ (hb.owns_of_mem ht).1 ((hb.wanted_iff hw ht).mp hwant)
  · intro x hx
    cases hf : d.forest.terminals.find? (wanted d buffer (min bits buffer.bits)) with
    | none =>
      rw [decode_of_not_wanted hf] at hx
      exact absurd hx (by simp)
    | some t =>
      obtain ⟨path, e⟩ := t
      obtain ⟨i, f, hi, hfound, hmatch, hsome⟩ := hb.decode_of_wanted hf
      -- what the forest lists before the one that is found was not wanted
      obtain ⟨-, before, after, hlist, hbefore⟩ := List.find?_eq_some_iff_append.mp hf
      have hin : ∀ t ∈ before, t ∈ d.forest.terminals := fun t ht =>
        hlist ▸ List.mem_append_left _ ht
      refine ⟨before.map fun t => t.2.place, e.place, after.map fun t => t.2.place, i, f, ?_, ?_,
        hi, hfound, hmatch, Option.some.inj (hx.symm.trans hsome)⟩
      · rw [order, hlist, List.map_append, List.map_cons]
      · intro q hq hm
        obtain ⟨t, ht, rfl⟩ := List.mem_map.mp hq
        have hwanted := (hb.wanted_iff hw (hin t ht)).mpr hm
        exact absurd hwanted (by simpa using hbefore t ht)

theorem decode_exact_byte :
    ∃ d, build [byteFormat] byteInstructions {} = .ok d
      ∧ (d.decode [0x32] 8).isSome ∧ d.decode [0x32] 7 = none := by
  obtain ⟨d, hd⟩ : ∃ d, build [byteFormat] byteInstructions {} = .ok d := ⟨_, rfl⟩
  refine ⟨d, hd, ?_, (decode_exact hd [0x32] 7).2.1.mpr ?_⟩
  · rw [Option.isSome_iff_ne_none]
    intro hnone
    have howns : Owns byteInstructions 1 := by
      refine ⟨_, rfl, ?_⟩
      intro q j hq hj
      rw [List.getElem?_eq_none (show byteInstructions.length ≤ q from hq)] at hj
      exact absurd hj (by simp)
    refine (decode_exact hd [0x32] 8).2.1.mp hnone 1 howns ⟨_, byteFormat, rfl, rfl, ?_, ?_, ?_⟩
    · intro s hs
      rw [List.mem_singleton.mp hs]
      exact ⟨_, rfl, by decide⟩
    · decide
    · exact fun hc => absurd hc (by decide)
  · intro p _ hm
    obtain ⟨i, f, hi, hf, hm⟩ := hm
    have hbits : f.bits = 8 := by
      have hmem := List.mem_of_find?_eq_some hf
      rw [List.mem_singleton.mp hmem]
      rfl
    have := hm.bits_le
    rw [hbits] at this
    exact absurd this (by decide)

end InstructionSet.Decoder
