import InstructionSet.Proofs.Bits.Inverse
import InstructionSet.Proofs.Decoder.RoundTrip

/-!
# Who decides a bit of a base encoding

Fields of a format may overlap, and a chain may name a field twice or one that has a
constant. So a bit of the base encoding can be written several times: by the constants in
the order of the fields, and then by the selectors in the order of the chain. The write
that comes last decides it. What it leaves there is a bit of its value in two's complement,
that of weight one in the last bit of the field, and a bit that is not written is zero
(`LeftBy`).

If no two of the fields that are written share a bit and each is given one value only, no
write can spoil another, and every value is read back.
-/

namespace InstructionSet

/-- The digit of a value in one bit of a run is a bit of its two's complement. -/
theorem Layout.digit_eq_getLsbD {l : Layout} {j : Nat} (hc : l.Covers j) (v : Int64) :
    l.digit v j = v.toBitVec.getLsbD (l.endBit - 1 - j) := by
  obtain ⟨hfirst, hend⟩ := hc
  rw [endBit] at hend
  have hweight : l.size.toNat - 1 - (j - l.firstBit.toNat) = l.endBit - 1 - j := by
    rw [endBit]
    omega
  have hlow : l.endBit - 1 - j < l.size.toNat := by
    rw [endBit]
    omega
  rw [digit, hweight, digits, twoPow_eq, Nat.testBit_mod_two_pow, decide_eq_true hlow,
    Bool.true_and]
  rfl

namespace Decoder

/-! ## The last of several writes -/

/-- The word is what the writes leave of zeros. -/
structure LeftBy (writes : List (Layout × Int64)) (word : Buffer) : Prop where
  untouched : ∀ j, (∀ x ∈ writes, ¬ x.1.Covers j) → word.bit j = false
  decided : ∀ before l v after j, writes = before ++ (l, v) :: after → l.Covers j →
    (∀ x ∈ after, ¬ x.1.Covers j) → word.bit j = v.toBitVec.getLsbD (l.endBit - 1 - j)

theorem leftBy_of_bit {writes : List (Layout × Int64)} {word : Buffer}
    (hbit : ∀ j, word.bit j = (written writes j).getD false) : LeftBy writes word where
  untouched := by
    intro j h
    rw [hbit, written_eq_none h]
    rfl
  decided := by
    rintro before l v after j rfl hc h
    rw [hbit, written_append, ← List.singleton_append, written_append, written_eq_none h,
      written_singleton, if_pos hc, Layout.digit_eq_getLsbD hc]
    rfl

/-- A base encoding is what its constants and its selectors leave of zeros. -/
theorem Assembles.leftBy {d : Decoder} {i : Instruction} {f : Format} {word : Buffer}
    (h : d.Assembles i f word) : LeftBy (baseWrites f i) word :=
  leftBy_of_bit h.bit

/-! ## The writes of an instruction -/

/-- The selectors are written in their order, each into the field that it names. -/
theorem forall₂_selections {f : Format} {selectors : List Selector}
    (h : ∀ s ∈ selectors, ∃ g, f.field? s.field = some g) :
    List.Forall₂ (fun s x => ∃ g, f.field? s.field = some g ∧ x = (g.layout, s.value)) selectors
      (selections f selectors) := by
  induction selectors with
  | nil => exact .nil
  | cons s rest ih =>
    obtain ⟨⟨g, hg⟩, hrest⟩ := List.forall_mem_cons.mp h
    have hcons : selections f (s :: rest) = (g.layout, s.value) :: selections f rest := by
      rw [selections, List.filterMap_cons, hg]
      rfl
    rw [hcons]
    exact .cons ⟨g, hg, rfl⟩ (ih hrest)

/-- No field is given two values, and none shares a bit with another one. -/
structure Undisputed (f : Format) (i : Instruction) : Prop where
  single : ∀ g v v', Assigned f i [] g v → Assigned f i [] g v' → v = v'
  apart : ∀ g g' v v', Assigned f i [] g v → Assigned f i [] g' v' → g ≠ g' →
    g.layout.Apart g'.layout

theorem Undisputed.agreeing {f : Format} {i : Instruction} (h : Undisputed f i) :
    Agreeing (baseWrites f i) := by
  rintro ⟨l, v⟩ hx ⟨l', v'⟩ hy
  have hmem : ∀ x ∈ baseWrites f i, ∃ g, Assigned f i [] g x.2 ∧ g.layout = x.1 := fun x hx =>
    mem_writes.mp (List.mem_append_left _ hx)
  obtain ⟨g, hg, rfl⟩ := hmem _ hx
  obtain ⟨g', hg', rfl⟩ := hmem _ hy
  by_cases hsame : g = g'
  · subst hsame
    obtain rfl := h.single g v v' hg hg'
    exact .inl rfl
  · exact .inr (h.apart g g' v v' hg hg' hsame)

/-- **The last write decides a bit of the base encoding.** For every instruction of a decoder there
is one, of as many bytes as its format has. It is left by the constants of the format, in the order
of the fields, and the selectors after them; if no two of these are about one bit, each value is
read back. -/
theorem baseEncoding_exact {formats : List Format} {instructions : List Instruction}
    {options : Decoder.Options} {d : Decoder} (h : build formats instructions options = .ok d)
    {i : Instruction} (hi : i ∈ instructions) :
    ∃ f selected word, formats.find? (·.name = i.format) = some f
      ∧ List.Forall₂ (fun s x => ∃ g, f.field? s.field = some g ∧ x = (g.layout, s.value))
          i.selectors.toList selected
      ∧ d.baseEncoding i.id = .ok word ∧ word.length = f.bits.toNat / 8
      ∧ LeftBy (constants f.fields ++ selected) word
      ∧ (Undisputed f i → ∀ g v, Assigned f i [] g v → ∀ w : Window,
          g.layout.endBit ≤ w.available → word.extract g.layout w = .ok (v, w.mark g.layout)) := by
  obtain ⟨f, word, hf, hword⟩ := exists_assembles h hi
  have hsel : ∀ s ∈ i.selectors.toList, ∃ g, f.field? s.field = some g := fun s hs =>
    ((sound_of_build h).selected hi hf s hs).imp fun g hg => hg.1
  refine ⟨f, selections f i.selectors.toList, word, hf, forall₂_selections hsel, hword.encoded,
    hword.length, hword.leftBy, ?_⟩
  intro hund g v hg w hw
  have hx : (g.layout, v) ∈ baseWrites f i := by
    have hmem : (g.layout, v) ∈ baseWrites f i ++ operandWrites [] :=
      mem_writes.mpr ⟨g, hg, rfl⟩
    rwa [operandWrites, List.map_nil, List.append_nil] at hmem
  have hwritable := hword.writable
  rw [← hword.bits] at hwritable
  have hone := hwritable _ hx
  have hnothing : ∀ j, word.bit j = (written ([] ++ baseWrites f i) j).getD false := hword.bit
  have hvalue := value_of_written hnothing hwritable hund.agreeing hx []
  rw [List.append_nil] at hvalue
  exact Buffer.extract_eq_ok.mpr ⟨⟨hone.readable, hone.endBit_le, hw, hvalue⟩, rfl⟩

/-- A constant of eight bits, of which four are a field of their own, and a signed byte. -/
def crossedFormat : Format :=
  ⟨"word", 16, [⟨"tag", ⟨0, 8, false⟩, some 255, none⟩, ⟨"low", ⟨4, 4, false⟩, none, none⟩,
    ⟨"rest", ⟨8, 8, true⟩, none, none⟩]⟩

/-- The first instruction names a field twice that a constant overlaps. The second spoils
nothing. -/
def crossedInstructions : List Instruction :=
  [{ id := ⟨1, uint32_one_ne_zero⟩, name := "twice", format := "word",
      selectors := ⟨[⟨"low", 1⟩, ⟨"low", 2⟩]⟩ },
    { id := ⟨2, uint32_two_ne_zero⟩, name := "apart", format := "word",
      selectors := ⟨[⟨"rest", -3⟩]⟩ }]

theorem baseEncoding_exact_crossed :
    ∃ d twice apart, build [crossedFormat] crossedInstructions {} = .ok d
      ∧ d.baseEncoding ⟨1, uint32_one_ne_zero⟩ = .ok twice
      ∧ (∀ j < 4, twice.bit j = true)
      ∧ (∀ j < 8, 4 ≤ j → twice.bit j = (2 : BitVec 64).getLsbD (7 - j))
      ∧ (∀ j, 8 ≤ j → twice.bit j = false)
      ∧ d.baseEncoding ⟨2, uint32_two_ne_zero⟩ = .ok apart
      ∧ apart.extract ⟨8, 8, true⟩ (.ofBits 16)
          = .ok (-3, (Window.ofBits 16).mark ⟨8, 8, true⟩) := by
  obtain ⟨d, hd⟩ : ∃ d, build [crossedFormat] crossedInstructions {} = .ok d := ⟨_, rfl⟩
  obtain ⟨f, selected, twice, hf, hsel, htwice, -, hleft, -⟩ :=
    baseEncoding_exact hd (i := crossedInstructions[0]) (by decide)
  obtain ⟨f', -, apart, hf', -, hapart, -, -, hread⟩ :=
    baseEncoding_exact hd (i := crossedInstructions[1]) (by decide)
  obtain rfl : crossedFormat = f := Option.some.inj hf
  obtain rfl : crossedFormat = f' := Option.some.inj hf'
  obtain ⟨_, _, ⟨g, hg, rfl⟩, hlast, rfl⟩ := List.forall₂_cons_left_iff.mp hsel
  obtain ⟨_, _, ⟨g', hg', rfl⟩, hnil, rfl⟩ := List.forall₂_cons_left_iff.mp hlast
  obtain rfl := List.forall₂_nil_left_iff.mp hnil
  obtain rfl : crossedFormat.fields[1] = g := Option.some.inj hg
  obtain rfl : crossedFormat.fields[1] = g' := Option.some.inj hg'
  have hgiven : ∀ g v, Assigned crossedFormat crossedInstructions[1] [] g v →
      g = crossedFormat.fields[0] ∧ v = 255 ∨ g = crossedFormat.fields[2] ∧ v = -3 := by
    intro g v hg
    cases hg with
    | constant hmem hc =>
      have hall : ∀ g ∈ crossedFormat.fields, g.constant = none
          ∨ g = crossedFormat.fields[0] ∧ g.constant = some 255 := by decide
      rcases hall g hmem with hnone | ⟨rfl, hsome⟩
      · rw [hnone] at hc
        exact absurd hc (by simp)
      · exact .inl ⟨rfl, Option.some.inj (hc.symm.trans hsome)⟩
    | selector hs hfield =>
      rw [List.mem_singleton.mp hs] at hfield ⊢
      exact .inr ⟨(Option.some.inj hfield).symm, rfl⟩
    | operand hx => exact absurd hx List.not_mem_nil
  have hund : Undisputed crossedFormat crossedInstructions[1] := by
    refine ⟨fun g v v' hv hv' => ?_, fun g g' v v' hv hv' hne => ?_⟩
    · rcases hgiven g v hv with ⟨rfl, rfl⟩ | ⟨rfl, rfl⟩
      · rcases hgiven _ v' hv' with ⟨-, rfl⟩ | ⟨he, -⟩
        · rfl
        · exact absurd he (by decide)
      · rcases hgiven _ v' hv' with ⟨he, -⟩ | ⟨-, rfl⟩
        · exact absurd he (by decide)
        · rfl
    · rcases hgiven g v hv with ⟨rfl, -⟩ | ⟨rfl, -⟩
      · rcases hgiven g' v' hv' with ⟨rfl, -⟩ | ⟨rfl, -⟩
        · exact absurd rfl hne
        · decide
      · rcases hgiven g' v' hv' with ⟨rfl, -⟩ | ⟨rfl, -⟩
        · decide
        · exact absurd rfl hne
  have hrest : Assigned crossedFormat crossedInstructions[1] [] crossedFormat.fields[2] (-3) :=
    .selector (s := ⟨"rest", -3⟩) List.mem_cons_self rfl
  have hfirst : ∀ j < 4, (⟨0, 8, false⟩ : Layout).Covers j ∧ ¬ (⟨4, 4, false⟩ : Layout).Covers j
      ∧ (255 : BitVec 64).getLsbD (8 - 1 - j) = true := by decide
  have hlater : ∀ j < 8, 4 ≤ j → (⟨4, 4, false⟩ : Layout).Covers j := by decide
  refine ⟨d, twice, apart, hd, htwice, fun j hj => ?_, fun j hj hlow => ?_, fun j hj => ?_, hapart,
    hread hund crossedFormat.fields[2] (-3) hrest _ (by decide)⟩
  · obtain ⟨hcovers, hnot, hone⟩ := hfirst j hj
    refine (hleft.decided [] ⟨0, 8, false⟩ 255 _ j rfl hcovers ?_).trans hone
    intro x hx
    rcases List.mem_pair.mp hx with rfl | rfl
    · exact hnot
    · exact hnot
  · exact hleft.decided [_, _] ⟨4, 4, false⟩ 2 [] j rfl (hlater j hj hlow) (by simp)
  · refine hleft.untouched j fun x hx hc => ?_
    have hend : ∀ x ∈ [(crossedFormat.fields[0].layout, (255 : Int64)),
        (crossedFormat.fields[1].layout, 1), (crossedFormat.fields[1].layout, 2)],
        x.1.endBit ≤ 8 := by decide
    have hlt := Nat.lt_of_lt_of_le hc.2 (hend x hx)
    omega

end Decoder

end InstructionSet
