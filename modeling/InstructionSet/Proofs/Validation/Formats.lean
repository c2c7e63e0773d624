import InstructionSet.Validation.Register

/-!
# Sound formats

A format is sound if it is a positive whole number of bytes wide, and each of its
fields has a name of its own, can be read, lies inside the format and has room
for its constant. Validation finds nothing wrong with a format exactly if it is
sound, and whatever it finds wrong with one refuses the description.
-/

namespace InstructionSet

/-- A field that a format of `bits` bits can hold. -/
structure Field.Sound (f : Field) (bits : UInt32) : Prop where
  readable : f.layout.readable = true
  endBit_le : f.endBit ≤ bits.toNat
  constant_fits : ∀ c ∈ f.constant, f.fits c = true

/-- A format with nothing wrong about it. -/
structure Format.Sound (f : Format) : Prop where
  aligned : Validation.aligned f = true
  fields : ∀ g ∈ f.fields, g.Sound f.bits
  names : (f.fields.map Field.name).Nodup

namespace Validation

/-! ## What is wrong with a format -/

theorem fieldProblems_eq_nil {format : Format} {before : List String} {f : Field} :
    fieldProblems format before f = [] ↔ f.name ∉ before ∧ f.Sound format.bits := by
  unfold fieldProblems
  constructor
  · intro h
    dsimp only at h
    split at h
    · exact absurd h (by simp)
    · rename_i hr
      rw [List.append_eq_nil_iff, List.append_eq_nil_iff] at h
      obtain ⟨⟨hd, hrange⟩, hc⟩ := h
      refine ⟨by simpa using hd, by simpa using hr, by simpa using hrange, ?_⟩
      intro c hm
      rw [Option.mem_def.mp hm] at hc
      simpa using hc
  · intro hand
    obtain ⟨hd, hs⟩ := hand
    dsimp only
    rw [if_neg hd, if_pos hs.endBit_le, if_neg (by rw [hs.readable]; simp)]
    cases hc : f.constant with
    | none => rfl
    | some c =>
      dsimp only
      rw [if_pos (hs.constant_fits c hc)]
      rfl

theorem fieldListProblems_eq_nil {format : Format} {before : List String} {fields : List Field} :
    fieldListProblems format before fields = []
      ↔ (∀ g ∈ fields, g.name ∉ before ∧ g.Sound format.bits)
        ∧ (fields.map Field.name).Nodup := by
  induction fields generalizing before with
  | nil => simp [fieldListProblems]
  | cons f rest ih =>
    rw [fieldListProblems, List.append_eq_nil_iff, fieldProblems_eq_nil, ih, List.map_cons,
      List.nodup_cons, List.forall_mem_cons]
    constructor
    · intro hand
      obtain ⟨hf, hrest, hn⟩ := hand
      refine ⟨⟨hf, ?_⟩, ?_, hn⟩
      · intro g hg
        exact ⟨fun hm => (hrest g hg).1 (List.mem_cons_of_mem _ hm), (hrest g hg).2⟩
      -- a field of the same name further on would have been found to repeat this one
      · intro hm
        obtain ⟨g, hg, he⟩ := List.mem_map.mp hm
        exact (hrest g hg).1 (he ▸ List.mem_cons_self ..)
    · intro hand
      obtain ⟨⟨hf, hrest⟩, hm, hn⟩ := hand
      refine ⟨hf, ?_, hn⟩
      intro g hg
      refine ⟨?_, (hrest g hg).2⟩
      intro hb
      rcases List.mem_cons.mp hb with he | hb
      · exact hm (he ▸ List.mem_map_of_mem hg)
      · exact (hrest g hg).1 hb

theorem formatProblems_eq_nil {known : Bool} {f : Format} :
    formatProblems known f = [] ↔ known = false ∧ f.Sound := by
  rw [formatProblems, List.append_eq_nil_iff, List.append_eq_nil_iff, fieldListProblems_eq_nil]
  constructor
  · intro hand
    obtain ⟨⟨hk, ha⟩, hf, hn⟩ := hand
    exact ⟨by simpa using hk, by simpa using ha, fun g hg => (hf g hg).2, hn⟩
  · intro hand
    obtain ⟨hk, hs⟩ := hand
    rw [hk, if_pos hs.aligned]
    exact ⟨⟨rfl, rfl⟩, fun g hg => ⟨by simp, hs.fields g hg⟩, hs.names⟩

/-! ## What is wrong with a format refuses it -/

theorem severity_of_mem_fieldProblems {format : Format} {before : List String} {f : Field}
    {p : Problem} (h : p ∈ fieldProblems format before f) : p.severity = .error := by
  unfold fieldProblems at h
  grind [Problem.severity]

theorem severity_of_mem_fieldListProblems {format : Format} {before : List String}
    {fields : List Field} {p : Problem} (h : p ∈ fieldListProblems format before fields) :
    p.severity = .error := by
  induction fields generalizing before with
  | nil => exact absurd h (by simp [fieldListProblems])
  | cons f rest ih =>
    rw [fieldListProblems, List.mem_append] at h
    rcases h with h | h
    · exact severity_of_mem_fieldProblems h
    · exact ih h

theorem severity_of_mem_formatProblems {known : Bool} {f : Format} {p : Problem}
    (h : p ∈ formatProblems known f) : p.severity = .error := by
  rw [formatProblems, List.mem_append, List.mem_append] at h
  rcases h with (h | h) | h
  · cases known with
    | false => exact absurd h (by simp)
    | true =>
      rw [if_pos rfl, List.mem_singleton] at h
      rw [h]
      rfl
  · split at h
    · exact absurd h (by simp)
    · rw [List.mem_singleton.mp h]
      rfl
  · exact severity_of_mem_fieldListProblems h

theorem sound_of_checkFormats {r : Register} {place : Nat} {formats : List Format}
    (h : ∀ p ∈ (r.checkFormats place formats).1, p.severity ≠ .error) :
    ∀ f ∈ formats, f.Sound := by
  induction formats generalizing r place with
  | nil => simp
  | cons f rest ih =>
    unfold Register.checkFormats at h
    rw [List.forall_mem_append] at h
    obtain ⟨hf, hrest⟩ := h
    rw [List.forall_mem_cons]
    have hnil : formatProblems (r.formats.lookup f.name).isSome f = [] :=
      List.eq_nil_iff_forall_not_mem.mpr fun p hp => hf p hp (severity_of_mem_formatProblems hp)
    exact ⟨(formatProblems_eq_nil.mp hnil).2, ih hrest⟩

/-- A verdict is favourable if nothing was found that refuses the description. -/
theorem severity_of_verdict {problems : List Problem} {found : List Diagnostic}
    (h : verdict problems = .ok found) : ∀ p ∈ problems, p.severity ≠ .error := by
  intro p hp he
  unfold verdict at h
  have hany : (problems.map Problem.diagnostic).any Diagnostic.isError = true := by
    rw [List.any_eq_true]
    refine ⟨p.diagnostic, List.mem_map_of_mem hp, ?_⟩
    simp [Diagnostic.isError, Problem.diagnostic, he]
  dsimp only at h
  rw [if_pos hany] at h
  exact absurd h (by simp)

/-- **The formats of a description that is found sound are sound.** -/
theorem sound_of_check {r last : Register} {formats : List Format}
    {instructions : List Instruction} {problems : List Problem} {found : List Diagnostic}
    (h : r.check formats instructions = .ok (problems, last)) (hv : verdict problems = .ok found) :
    ∀ f ∈ formats, f.Sound := by
  unfold Register.check at h
  dsimp only at h
  split at h
  · exact absurd h (by simp)
  · injection h with h
    injection h with hp
    have hearly : ∀ p ∈ (r.checkFormats 0 formats).1, p.severity ≠ .error := by
      intro p hm
      apply severity_of_verdict hv p
      rw [← hp]
      exact List.mem_append_left _ hm
    exact sound_of_checkFormats hearly

end Validation

end InstructionSet
