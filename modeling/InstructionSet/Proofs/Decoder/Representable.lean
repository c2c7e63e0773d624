import InstructionSet.Proofs.Bits.Ranges
import InstructionSet.Proofs.Decoder.LastWriter
import InstructionSet.Proofs.Validation.Report

/-!
# Demands that can be met

A constant and a selector both ask that a field have a certain value. Validation lets
this pass if the field has room for the value, and the room is worked out apart from the
reader that will look for the value and from the writer that will put it down. It is the
same for all three (`Layout.yields_iff`, `Buffer.fits_iff_encode`), and so the verdict of
validation can be trusted in both directions. What it accepts some word has, and all of it
is written into the base encoding, where a bit of several fields is left to the last that
was written (`Validation.Sound.admitted`). What it rejects for its range no word has, of
whatever length (`Validation.Broken.neverMet`).
-/

namespace InstructionSet

/-! ## One field -/

/-- The field has room for the value in every sense or in none: by its own test, by that of a
writer, by what a writer refuses and by what a reader may answer. -/
structure Field.Judges (g : Field) (v : Int64) : Prop where
  room : g.layout.hasRoom? v = some (g.fits v)
  taken : g.layout.takes? v = some (g.fits v)
  written : ∀ (b : Buffer) (l : Layout), l.size = g.layout.size → l.signed = g.layout.signed →
    (g.fits v = true ↔ ∀ x size, b.encode l v ≠ .error (.valueTooWide x size))
  read : g.fits v = true ↔ g.layout.Yields v

theorem Field.judges {g : Field} (hr : g.layout.readable = true) (v : Int64) : g.Judges v where
  room := g.layout.hasRoom?_eq v
  taken := Layout.takes?_eq (of_decide_eq_true hr).1 v
  written := by
    intro b l hsize hsigned
    have hl : l.readable = true := by
      unfold Layout.readable at hr ⊢
      rwa [hsize]
    rw [Field.fits, ← Layout.fits_congr hsize hsigned]
    exact b.fits_iff_encode hl v
  read := by rw [Layout.yields_iff, and_iff_right hr, Field.fits]

/-- Every word of `bits` bits takes the value into the field, and one of them has it there. -/
structure Field.Admits (g : Field) (bits : Nat) (v : Int64) : Prop where
  taken : ∀ word : Buffer, word.bits = bits → ∃ word', word.encode g.layout v = .ok word'
  met : ∃ word : Buffer, word.bits = bits ∧ ∃ w : Window, w.available = bits
    ∧ word.extract g.layout w = .ok (v, w.mark g.layout)

/-- A sound format admits what its fields have room for. -/
theorem Format.Sound.admits {f : Format} (hf : f.Sound) {g : Field} (hg : g ∈ f.fields) {v : Int64}
    (hv : g.fits v = true) : g.Admits f.bits.toNat v := by
  have hs := hf.fields g hg
  have hlow : g.layout.endBit ≤ UInt32.size :=
    Nat.le_trans hs.endBit_le (Nat.le_of_lt f.bits.toNat_lt)
  have htaken : ∀ word : Buffer, word.bits = f.bits.toNat →
      ∃ word', word.encode g.layout v = .ok word' := fun word hword =>
    ⟨_, Buffer.encode_eq_ok.mpr ⟨⟨hs.readable, hv, hword ▸ hs.endBit_le⟩, rfl⟩⟩
  refine ⟨htaken, ?_⟩
  obtain ⟨word, hword⟩ := htaken _ (Decoder.bits_zeros hf)
  refine ⟨word, ?_, .ofBits f.bits.toNat, rfl, Buffer.extract_encode hlow hword hs.endBit_le⟩
  rw [Buffer.bits, Buffer.length_encode hword hlow]
  exact Decoder.bits_zeros hf

namespace Validation

/-! ## What is accepted -/

/-- Whatever a description asks of a field can be put down and found again. A base encoding is what
is left of zeros once its constants are put down, and its selectors after them. -/
structure Admitted (formats : List Format) (instructions : List Instruction) : Prop where
  constant : ∀ f ∈ formats, ∀ g ∈ f.fields, ∀ c, g.constant = some c → g.Admits f.bits.toNat c
  selector : ∀ i ∈ instructions, ∃ f, formats.find? (·.name = i.format) = some f
    ∧ ∀ s ∈ i.selectors.toList, ∃ g, f.field? s.field = some g ∧ g.Admits f.bits.toNat s.value
  base : ∀ options d, Decoder.build formats instructions options = .ok d → ∀ i ∈ instructions,
    ∃ f word, formats.find? (·.name = i.format) = some f ∧ d.baseEncoding i.id = .ok word
      ∧ word.bits = f.bits.toNat ∧ Decoder.LeftBy (Decoder.baseWrites f i) word

theorem Sound.admitted {formats : List Format} {instructions : List Instruction}
    (h : Sound formats instructions) : Admitted formats instructions where
  constant := by
    intro f hf g hg c hc
    have hsound := h.format f hf
    exact hsound.admits hg ((hsound.fields g hg).constant_fits c hc)
  selector := by
    intro i hi
    obtain ⟨f, hf, hsel⟩ := h.find?_format hi
    refine ⟨f, hf, fun s hs => ?_⟩
    obtain ⟨g, hg, hv⟩ := hsel s hs
    exact ⟨g, hg, (h.format f (List.mem_of_find?_eq_some hf)).admits (Format.mem_of_field? hg) hv⟩
  base := by
    intro options d hd i hi
    obtain ⟨f, word, hf, hword⟩ := Decoder.exists_assembles hd hi
    exact ⟨f, word, hf, hword.encoded, hword.bits, hword.leftBy⟩

/-! ## What is rejected -/

/-- The problem is that a field has no room for a value. -/
def Problem.aboutRoom : Problem → Bool
  | constantRange .. | selectorRange .. => true
  | _ => false

/-- A constant or a selector that no buffer meets: the reader never has its value for its field. -/
inductive NeverMet (formats : List Format) (instructions : List Instruction) :
    Site → Problem → Prop
  | constant {before after : List Format} {f : Format} {first rest : List Field} {g : Field}
    {c : Int64} (declared : formats = before ++ f :: after) (field : f.fields = first ++ g :: rest)
    (holds : g.constant = some c) (never : ¬ g.layout.Yields c) :
    NeverMet formats instructions (.field before.length first.length)
      (.constantRange f.name g.name g.layout.size c)
  | selector {before after : List Instruction} {i : Instruction} {f : Format} {g : Field}
    {first rest : List Selector} {s : Selector} (declared : instructions = before ++ i :: after)
    (format : last? formats i.format = some f) (selector : i.selectors.toList = first ++ s :: rest)
    (known : f.field? s.field = some g) (never : ¬ g.layout.Yields s.value) :
    NeverMet formats instructions (.selector before.length first.length)
      (.selectorRange i.name s.field s.value g.layout.size)

section Rejected

variable {formats : List Format} {instructions : List Instruction} {site : Site} {p : Problem}

/-- **What is rejected for its range is never met.** -/
theorem Broken.neverMet (h : Broken formats instructions site p) (hp : p.aboutRoom = true) :
    NeverMet formats instructions site p := by
  cases h with
  | format declared broken => cases broken <;> exact absurd hp (by simp [Problem.aboutRoom])
  | field declared field broken =>
    cases broken with
    | constant width holds wide =>
      exact .constant declared field holds fun h => wide h.expresses
    | _ => exact absurd hp (by simp [Problem.aboutRoom])
  | instruction declared broken => cases broken <;> exact absurd hp (by simp [Problem.aboutRoom])
  | selector declared format selector broken =>
    cases broken with
    | range known wide =>
      exact .selector declared format selector known fun h => wide h.expresses
    | _ => exact absurd hp (by simp [Problem.aboutRoom])

/-- **And what is never met is rejected**, if no field is of an impossible width. -/
theorem NeverMet.broken (hr : ∀ f ∈ formats, ∀ g ∈ f.fields, g.layout.readable = true)
    (h : NeverMet formats instructions site p) : Broken formats instructions site p := by
  cases h with
  | constant declared field holds never =>
    have hg := hr _ (declared ▸ List.mem_append_right _ List.mem_cons_self) _
      (field ▸ List.mem_append_right _ List.mem_cons_self)
    exact .field declared field
      (.constant (Layout.readable_iff.mp hg) holds fun h => never (h.yields hg))
  | selector declared format selector known never =>
    have hg := hr _ (mem_of_last? format).1 _ (Format.mem_of_field? known)
    exact .selector declared format selector (.range known fun h => never (h.yields hg))

end Rejected

/-- Validation comes to a report, and to its verdict on what is reported. -/
theorem exists_report (formats : List Format) (instructions : List Instruction) :
    ∃ report : Report formats instructions, Decoder.validate formats instructions
      = (verdict (report.entries.map Prod.snd)).mapError .refused := by
  obtain ⟨problems, last, hcheck, entries, rfl, hsorted, hmem⟩ := tells_check formats instructions
  refine ⟨⟨entries, hsorted, hmem⟩, ?_⟩
  rw [Decoder.validate, hcheck]

end Validation

namespace Decoder

open Validation

/-- **There is one notion of a value with a representation.** In a field of 1 to 64 bits the test
of the field, that of a writer, what a writer refuses and what a reader may answer come to the
same. So whatever an accepted description asks of its fields is met by some word, and its base
encodings are left by writing it all; and what is rejected for its range is what no buffer meets. -/
theorem representable_exact :
    (∀ (g : Field) (v : Int64), 1 ≤ g.layout.size.toNat → g.layout.size.toNat ≤ 64 → g.Judges v)
      ∧ ∀ formats instructions,
        (∀ warnings, validate formats instructions = .ok warnings → Admitted formats instructions)
        ∧ ∃ report : Report formats instructions,
          validate formats instructions = (verdict (report.entries.map Prod.snd)).mapError .refused
          ∧ (∀ site p, (site, p) ∈ report.entries → p.aboutRoom = true →
              NeverMet formats instructions site p)
          ∧ ((∀ f ∈ formats, ∀ g ∈ f.fields,
                1 ≤ g.layout.size.toNat ∧ g.layout.size.toNat ≤ 64) →
              ∀ site p, NeverMet formats instructions site p → (site, p) ∈ report.entries) := by
  refine ⟨fun g v hpos hle => Field.judges (Layout.readable_iff.mpr ⟨hpos, hle⟩) v, ?_⟩
  intro formats instructions
  refine ⟨fun warnings hv => (sound_of_validate hv).admitted, ?_⟩
  obtain ⟨report, hreport⟩ := exists_report formats instructions
  refine ⟨report, hreport, fun site p hin hp => ?_, fun hwidths site p hnever => ?_⟩
  · exact ((report.mem_iff site p).mp hin).neverMet hp
  · have hr : ∀ f ∈ formats, ∀ g ∈ f.fields, g.layout.readable = true := fun f hf g hg =>
      Layout.readable_iff.mpr (hwidths f hf g hg)
    exact (report.mem_iff site p).mpr (hnever.broken hr)

/-- A format of one byte with a constant that takes nine bits. -/
def overfullFormat : Format :=
  ⟨"over", 8, [{ name := "tag", layout := ⟨0, 8, false⟩, constant := some 256 }]⟩

theorem representable_exact_widest :
    (⟨3, 64, false⟩ : Layout).Yields (-1) ∧ ¬ (⟨3, 63, false⟩ : Layout).Yields (-1)
      ∧ (⟨3, 63, true⟩ : Layout).Yields (-4611686018427387904)
      ∧ ¬ (⟨3, 63, true⟩ : Layout).Yields 4611686018427387904
      ∧ (∃ d, build [byteFormat] byteInstructions {} = .ok d
          ∧ d.baseEncoding ⟨1, uint32_one_ne_zero⟩ = .ok [0x10]
          ∧ LeftBy [(⟨0, 4, false⟩, 1)] [0x10])
      ∧ ∃ report : Report [overfullFormat] [],
          (Site.field 0 0, .constantRange "over" "tag" 8 256) ∈ report.entries
          ∧ NeverMet [overfullFormat] [] (.field 0 0) (.constantRange "over" "tag" 8 256) := by
  obtain ⟨hfield, hdescription⟩ := representable_exact
  have hread : ∀ (l : Layout) (v : Int64), 1 ≤ l.size.toNat → l.size.toNat ≤ 64 →
      (l.fits v = true ↔ l.Yields v) := fun l v hpos hle =>
    (hfield { name := "field", layout := l } v hpos hle).read
  refine ⟨(hread _ _ (by decide) (by decide)).mp (by decide),
    fun h => absurd ((hread _ _ (by decide) (by decide)).mpr h) (by decide),
    (hread _ _ (by decide) (by decide)).mp (by decide),
    fun h => absurd ((hread _ _ (by decide) (by decide)).mpr h) (by decide), ?_, ?_⟩
  · obtain ⟨d, hd⟩ : ∃ d, build [byteFormat] byteInstructions {} = .ok d := ⟨_, rfl⟩
    have hbyte : d.baseEncoding ⟨1, uint32_one_ne_zero⟩ = .ok [0x10] :=
      eq_of_map_eq_ok (·.baseEncoding ⟨1, uint32_one_ne_zero⟩) hd rfl
    obtain ⟨hadmitted, -⟩ := hdescription [byteFormat] byteInstructions
    obtain ⟨f, word, hf, hword, -, hleft⟩ := (hadmitted [] rfl).base {} d hd _ List.mem_cons_self
    obtain rfl : byteFormat = f := Option.some.inj hf
    obtain rfl : [0x10] = word := Except.ok.inj (hbyte.symm.trans hword)
    exact ⟨d, hd, hbyte, hleft⟩
  · obtain ⟨-, report, -, -, htold⟩ := hdescription [overfullFormat] []
    have hnever : NeverMet [overfullFormat] [] (.field 0 0) (.constantRange "over" "tag" 8 256) :=
      @NeverMet.constant _ _ [] [] overfullFormat [] [] _ _ rfl rfl rfl fun h =>
        absurd ((hread _ _ (by decide) (by decide)).mpr h) (by decide)
    exact ⟨report, htold (by decide) _ _ hnever, hnever⟩

end Decoder

end InstructionSet
