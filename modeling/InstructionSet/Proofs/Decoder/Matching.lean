import InstructionSet.Proofs.Bits.Digits
import InstructionSet.Proofs.Decoder.Building
import InstructionSet.Proofs.Decoder.Decoding
import InstructionSet.Proofs.Search.Terminals

/-!
# When an instruction matches

`Instruction.Matches` says of an instruction, as it is declared, that the bits of
a buffer are those of the instruction: it knows of formats and selectors, but not
of tables, chains and forests. For an instruction that a decoder knows, this is
the same as what a search looks for: that all tests of the chain hold, and that
the entry is accepted.

Reads that succeed and reads that answer with the right value are told apart only
where a window is too narrow, and there neither side has a match.
-/

namespace InstructionSet

/-- The bits of the buffer, as far as a window of `width` bits goes, are those of the instruction,
whose format is `f`. -/
structure Instruction.Matches (i : Instruction) (f : Format) (checkConstants : Bool)
    (buffer : Buffer) (width : Nat) : Prop where
  /-- The fields that are selected on have the values that are demanded. -/
  selectors : ∀ s ∈ i.selectors.toList,
    ∃ g, f.field? s.field = some g ∧ buffer.value g.layout = s.value
  /-- The instruction fits into the window. -/
  bits_le : f.bits.toNat ≤ width
  /-- The constants are in place, if that is asked for. -/
  constants : checkConstants = true → ∀ g ∈ f.fields, ∀ c ∈ g.constant, buffer.value g.layout = c

/-- In a window that its format fits into, every field of a sound format can be read. -/
theorem Format.Sound.answer_eq {f : Format} (hs : f.Sound) {buffer : Buffer} {width : Nat}
    (hw : width ≤ buffer.bits) (hf : f.bits.toNat ≤ width) {g : Field} (hg : g ∈ f.fields) :
    buffer.answer g.layout width = .ok (buffer.value g.layout) := by
  have hend : g.layout.endBit ≤ width := Nat.le_trans (hs.fields g hg).endBit_le hf
  exact Buffer.answer_eq_ok.mpr
    ⟨(hs.fields g hg).readable, Nat.le_trans hend hw, hend, rfl⟩

namespace Decoder

/-! ## What a decoder accepts -/

/-- Whether the constants among `fields` can be read in a window and are in place. -/
def constantsRead (buffer : Buffer) (fields : List Field) (width : Nat) : Bool :=
  fields.all fun g => g.constant.all fun c => (buffer.answer g.layout width).toOption = some c

/-- Whether an entry is accepted in a window. -/
def acceptable (options : Decoder.Options) (buffer : Buffer) (e : Entry) (width : Nat) : Bool :=
  decide (e.format.bits.toNat ≤ width)
    && (!options.checkConstants || constantsRead buffer e.format.fields width)

theorem constantsHold_eq (buffer : Buffer) (fields : List Field) (session : Session Unit) :
    (constantsHold .msbFirst buffer fields session).1
      = constantsRead buffer fields session.window.available := by
  induction fields generalizing session with
  | nil => rfl
  | cons g rest ih =>
    change _ = (g.constant.all _ && constantsRead buffer rest session.window.available)
    unfold constantsHold
    cases hc : g.constant with
    | none => exact ih session
    | some c =>
      dsimp only
      rw [Option.all_some]
      cases ha : buffer.answer g.layout session.window.available with
      | error e =>
        rw [Extractor.msbFirst_of_error ha]
        simp [Except.toOption]
      | ok value =>
        rw [Extractor.msbFirst_of_ok ha]
        dsimp only
        -- a constant in place leads on, and the read has left the width as it was
        by_cases hv : value = c
        · rw [if_pos hv, ih, hv]
          simp [Except.toOption, Window.mark]
        · rw [if_neg hv]
          simp [Except.toOption, hv]

theorem accept_eq (options : Decoder.Options) (buffer : Buffer) (e : Entry)
    (session : Session Unit) :
    (accept options .msbFirst buffer e session).1
      = acceptable options buffer e session.window.available := by
  unfold accept acceptable
  by_cases hb : e.format.bits.toNat ≤ session.window.available
  · rw [if_neg (Nat.not_lt.mpr hb), decide_eq_true hb, Bool.true_and]
    cases options.checkConstants with
    | false => rfl
    | true => exact constantsHold_eq buffer e.format.fields session
  · rw [if_pos (Nat.not_le.mp hb), decide_eq_false hb, Bool.false_and]

/-- A decoder that reads the bits themselves searches by functions. -/
theorem determined_search (d : Decoder) (buffer : Buffer) :
    (d.search (σ := Unit) .msbFirst buffer).Determined Buffer.answer
      (acceptable d.options buffer) :=
  Search.determined_of_msbFirst rfl (accept_eq d.options buffer) fun e session =>
    (reaches_accept d.options buffer e session).available

/-! ## What a match is to a search -/

section Match

variable {d : Decoder} {formats : List Format} {e : Entry} {i : Instruction} {f : Format}
  {buffer : Buffer} {width : Nat}

/-- In a window that a format fits into, a field has one value, and that is read. -/
theorem toOption_answer (hs : f.Sound) (hw : width ≤ buffer.bits) (hf : f.bits.toNat ≤ width)
    {g : Field} (hg : g ∈ f.fields) :
    (buffer.answer g.layout width).toOption = some (buffer.value g.layout) := by
  rw [hs.answer_eq hw hf hg]
  rfl

/-- The test of a selector holds if its field has the value that is demanded. -/
theorem holds_iff (hs : f.Sound) (hw : width ≤ buffer.bits) (hf : f.bits.toNat ≤ width)
    {s : Selector} {x : Test} (hx : Tested d.table f s x) :
    (d.search (σ := Unit) .msbFirst buffer).holds Buffer.answer width x = true
      ↔ ∃ g, f.field? s.field = some g ∧ buffer.value g.layout = s.value := by
  obtain ⟨g, g', hg, hget, hlay⟩ := hx.layout
  have hread : (d.search (σ := Unit) .msbFirst buffer).value? Buffer.answer width x.field
      = some (buffer.value g.layout) := by
    change ((d.table.get? x.field).bind fun g' => (buffer.answer g'.layout width).toOption) = _
    rw [hget, Option.bind_some, hlay, toOption_answer hs hw hf (List.mem_of_find?_eq_some hg)]
  rw [Search.holds, hread, decide_eq_true_iff, hx.value, Option.some.injEq]
  constructor
  · exact fun hv => ⟨g, hg, hv⟩
  · intro hex
    obtain ⟨g₁, hg₁, hv⟩ := hex
    rw [hg] at hg₁
    rw [Option.some.inj hg₁, hv]

theorem chain_holds_iff (hs : f.Sound) (hw : width ≤ buffer.bits) (hf : f.bits.toNat ≤ width)
    {selectors : List Selector} {chain : List Test}
    (h : List.Forall₂ (Tested d.table f) selectors chain) :
    chain.all ((d.search (σ := Unit) .msbFirst buffer).holds Buffer.answer width) = true
      ↔ ∀ s ∈ selectors, ∃ g, f.field? s.field = some g ∧ buffer.value g.layout = s.value := by
  induction h with
  | nil => simp
  | cons hx _ ih =>
    rw [List.all_cons, Bool.and_eq_true, holds_iff hs hw hf hx, ih, List.forall_mem_cons]

/-- An entry is accepted if its format fits and its constants, where they count, are in place. -/
theorem acceptable_iff (hs : f.Sound) (hw : width ≤ buffer.bits) {options : Decoder.Options}
    (he : e.format = d.table.number f) :
    acceptable options buffer e width = true
      ↔ f.bits.toNat ≤ width ∧ (options.checkConstants = true →
          ∀ g ∈ f.fields, ∀ c ∈ g.constant, buffer.value g.layout = c) := by
  have hbits : e.format.bits = f.bits := by
    rw [he]
    rfl
  have hconst : constantsRead buffer e.format.fields width
      = constantsRead buffer f.fields width := by
    rw [he, constantsRead, constantsRead, FieldTable.number, FieldTable.assign, List.all_map]
    congr 1
    funext g
    rw [Function.comp_apply, FieldTable.constant_assignField, FieldTable.layout_assignField]
  rw [acceptable, hbits, hconst, Bool.and_eq_true, decide_eq_true_iff]
  apply and_congr_right
  intro hf
  rw [Bool.or_eq_true, Bool.not_eq_true', constantsRead, List.all_eq_true]
  cases options.checkConstants with
  | false => simp
  | true =>
    simp only [Bool.true_eq_false, false_or, true_imp_iff, Option.all_eq_true, decide_eq_true_iff]
    refine forall₂_congr fun g hg => forall₂_congr fun c _ => ?_
    rw [toOption_answer hs hw hf hg, Option.some.injEq]

/-- **A match is what a search looks for.** -/
theorem matches_iff (hs : f.Sound) (hw : width ≤ buffer.bits)
    (hd : e.Describes d.table formats i f) {chain : List Test}
    (hc : List.Forall₂ (Tested d.table f) i.selectors.toList chain) :
    (chain.all ((d.search (σ := Unit) .msbFirst buffer).holds Buffer.answer width)
        && acceptable d.options buffer e width) = true
      ↔ i.Matches f d.options.checkConstants buffer width := by
  rw [Bool.and_eq_true, acceptable_iff hs hw hd.format]
  constructor
  · intro hand
    obtain ⟨hall, hf, hconst⟩ := hand
    exact ⟨(chain_holds_iff hs hw hf hc).mp hall, hf, hconst⟩
  · intro hand
    obtain ⟨hsel, hf, hconst⟩ := hand
    exact ⟨(chain_holds_iff hs hw hf hc).mpr hsel, hf, hconst⟩

end Match

end Decoder

end InstructionSet
