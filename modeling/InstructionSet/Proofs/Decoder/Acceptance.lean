import InstructionSet.Proofs.Decoder.Conflicts
import InstructionSet.Proofs.FieldTable.Agreement

/-!
# Which descriptions are accepted

Three conditions, one for each stage of a build: the validator has no objection,
fields of one name agree wherever they occur, and no chain stands in another's way
unless that is tolerated. A decoder is made exactly if all three hold. Otherwise
the first stage whose condition fails says so, with an error among its findings;
nothing else can go wrong.
-/

namespace InstructionSet

/-- A register that nothing was entered into finds nothing that refuses the description. -/
def Validation.Accepted (formats : List Format) (instructions : List Instruction) : Prop :=
  ∃ problems last, ({} : Register).check formats instructions = .ok (problems, last)
    ∧ ∀ p ∈ problems, p.severity ≠ .error

namespace Decoder

/-- The selectors of no instruction are the beginning of another's, or all of them. -/
def Separate (instructions : List Instruction) : Prop :=
  ∀ (j k : Nat) (i i' : Instruction), j ≠ k → instructions[j]? = some i →
    instructions[k]? = some i' → ¬ i.selectors.toList <+: i'.selectors.toList

/-- The stage `phase` refuses the description, and finds an error in it. -/
def RefusedIn (phase : Phase) (formats : List Format) (instructions : List Instruction)
    (options : Decoder.Options) : Prop :=
  ∃ found, build formats instructions options = .error (.refused (.diagnostics phase found))
    ∧ ∃ x ∈ found, x.isError = true

variable {formats : List Format} {instructions : List Instruction} {options : Decoder.Options}

/-! ## The first stage -/

theorem exists_validate (h : Validation.Accepted formats instructions) :
    ∃ warnings, validate formats instructions = .ok warnings := by
  obtain ⟨problems, last, hcheck, hok⟩ := h
  have hany : (problems.map Validation.Problem.diagnostic).any Diagnostic.isError = false := by
    rw [List.any_eq_false]
    intro x hx
    obtain ⟨p, hp, rfl⟩ := List.mem_map.mp hx
    rw [Bool.not_eq_true]
    exact decide_eq_false (hok p hp)
  unfold validate
  rw [hcheck]
  dsimp only
  unfold Validation.verdict
  dsimp only
  rw [hany]
  exact ⟨_, rfl⟩

theorem refused_of_not_accepted (h : ¬ Validation.Accepted formats instructions) :
    RefusedIn .validation formats instructions options := by
  obtain ⟨problems, last, hcheck, -⟩ := Validation.check_new formats instructions
  have hany : (problems.map Validation.Problem.diagnostic).any Diagnostic.isError = true := by
    by_cases ha : (problems.map Validation.Problem.diagnostic).any Diagnostic.isError = true
    · exact ha
    · refine absurd ⟨problems, last, hcheck, ?_⟩ h
      intro p hp he
      refine ha (List.any_eq_true.mpr ⟨_, List.mem_map_of_mem hp, ?_⟩)
      simp [Diagnostic.isError, Validation.Problem.diagnostic, he]
  have hv : validate formats instructions = .error (.refused (.diagnostics .validation
      (problems.map Validation.Problem.diagnostic))) := by
    unfold validate
    rw [hcheck]
    dsimp only
    unfold Validation.verdict
    dsimp only
    rw [hany]
    rfl
  exact ⟨_, by rw [build, hv]; rfl, List.any_eq_true.mp hany⟩

/-! ## The second stage -/

section Unify

variable (hlt : (FieldTable.fieldNames formats).length < UInt32.size)
include hlt

theorem exists_unify (h : FieldTable.Agree formats) :
    ∃ table numbered, unify formats = .ok (table, numbered) := by
  obtain ⟨u, hu, hagree⟩ := FieldTable.unify_total hlt
  refine ⟨u.table, u.formats, ?_⟩
  unfold unify
  rw [hu]
  dsimp only
  rw [FieldTable.Unified.verdict, FieldTable.verdict, hagree.mpr h]
  rfl

theorem refused_of_not_agree (ha : Validation.Accepted formats instructions)
    (h : ¬ FieldTable.Agree formats) : RefusedIn .unification formats instructions options := by
  obtain ⟨warnings, hv⟩ := exists_validate ha
  obtain ⟨u, hu, hagree⟩ := FieldTable.unify_total hlt
  have hne : u.conflicts ≠ [] := fun hnil => h (hagree.mp hnil)
  have hunify : unify formats = .error (.refused (.diagnostics .unification
      (u.conflicts.map FieldTable.Conflict.diagnostic))) := by
    unfold unify
    rw [hu]
    dsimp only
    rw [FieldTable.Unified.verdict, FieldTable.verdict, if_neg (by rwa [List.isEmpty_iff])]
  obtain ⟨c, hc⟩ := List.exists_mem_of_ne_nil _ hne
  exact ⟨_, by rw [build, hv]; change (unify formats >>= _) = _; rw [hunify]; rfl,
    c.diagnostic, List.mem_map_of_mem hc, rfl⟩

end Unify

/-! ## The last stage -/

/-- One chain begins with another if the selectors do. -/
theorem chain_prefix_iff {t : FieldTable} (hl : t.Lawful) {f f' : Format}
    {selectors selectors' : List Selector} {chain chain' : List Test}
    (h : List.Forall₂ (Tested t f) selectors chain)
    (h' : List.Forall₂ (Tested t f') selectors' chain') :
    chain <+: chain' ↔ selectors <+: selectors' := by
  rw [List.prefix_iff_eq_take, List.prefix_iff_eq_take,
    chain_eq_iff hl h (List.forall₂_take _ h'), h.length_eq]

theorem clashless_iff {t : FieldTable} (hl : t.Lawful) (hs : t.SpeaksFor formats)
    {chains : List (Entry × List Test)}
    (hr : resolve (formats.map t.number) instructions = .ok chains) :
    Clashless chains ↔ Separate instructions := by
  obtain ⟨-, hat⟩ := resolved_of_resolve hl hs hr
  constructor
  · intro hc j k i i' hne hi hi' hpre
    obtain ⟨y, f, hy, hres⟩ := hat j i hi
    obtain ⟨x, f', hx, hres'⟩ := hat k i' hi'
    have hchain := (chain_prefix_iff hl hres.tested hres'.tested).mpr hpre
    rcases Nat.lt_or_gt_of_ne hne with hlt | hgt
    · exact hc j k y x hlt hy hx (.inl hchain)
    · exact hc k j x y hgt hx hy (.inr hchain)
  · intro hsep j k y x hjk hy hx hclash
    obtain ⟨i, f, hi, hres⟩ := resolved_of_chains hl hs hr hy
    obtain ⟨i', f', hi', hres'⟩ := resolved_of_chains hl hs hr hx
    have hne : j ≠ k := Nat.ne_of_lt hjk
    rcases hclash with hpre | hpre
    · exact hsep j k i i' hne hi hi' ((chain_prefix_iff hl hres.tested hres'.tested).mp hpre)
    · exact hsep k j i' i hne.symm hi' hi ((chain_prefix_iff hl hres'.tested hres.tested).mp hpre)

/-- Under `reject` no two chains of a decoder clash. -/
theorem separate_of_build {d : Decoder} (h : build formats instructions options = .ok d)
    (ho : options.duplicates = .reject) : Separate instructions := by
  obtain ⟨_, _, hv, hu, -⟩ := build_ok h
  obtain ⟨chains, hr, -, hne⟩ := exists_chains hv hu
  by_cases hc : Clashless chains
  · obtain ⟨hl, hs, hn⟩ := unify_ok hu
    rw [hn] at hr
    exact (clashless_iff hl hs hr).mp hc
  · rw [build_of_not_clashless hv hu hr hne options ho hc] at h
    exact absurd h (by simp)

/-- After the first two stages only clashes can refuse the description. -/
theorem exists_build_of_separate {warnings : List Diagnostic} {table : FieldTable}
    {numbered : List Format} (hv : validate formats instructions = .ok warnings)
    (hu : unify formats = .ok (table, numbered))
    (hsep : options.duplicates = .lastWins ∨ Separate instructions) :
    ∃ d, build formats instructions options = .ok d := by
  obtain ⟨chains, hr, -, hne⟩ := exists_chains hv hu
  cases ho : options.duplicates with
  | lastWins =>
    rw [build_eq_assemble hv hu hr, assemble_lastWins hne ho]
    exact ⟨_, rfl⟩
  | reject =>
    have hsep' : Separate instructions := hsep.resolve_left (by rw [ho]; simp)
    have hc : Clashless chains := by
      obtain ⟨hl, hs, rfl⟩ := unify_ok hu
      exact (clashless_iff hl hs hr).mpr hsep'
    obtain ⟨d, hd, -⟩ := build_of_clashless hv hu hr hne options ho hc
    exact ⟨d, hd⟩

section Build

variable (hlt : (FieldTable.fieldNames formats).length < UInt32.size)
include hlt

theorem exists_build (ha : Validation.Accepted formats instructions)
    (hagree : FieldTable.Agree formats)
    (hsep : options.duplicates = .lastWins ∨ Separate instructions) :
    ∃ d, build formats instructions options = .ok d := by
  obtain ⟨warnings, hv⟩ := exists_validate ha
  obtain ⟨table, numbered, hu⟩ := exists_unify hlt hagree
  exact exists_build_of_separate hv hu hsep

theorem refused_of_not_separate (ha : Validation.Accepted formats instructions)
    (hagree : FieldTable.Agree formats)
    (hsep : ¬ (options.duplicates = .lastWins ∨ Separate instructions)) :
    RefusedIn .treeBuild formats instructions options := by
  obtain ⟨warnings, hv⟩ := exists_validate ha
  obtain ⟨table, numbered, hu⟩ := exists_unify hlt hagree
  obtain ⟨chains, hr, -, hne⟩ := exists_chains hv hu
  cases ho : options.duplicates with
  | lastWins => exact absurd (.inl ho) hsep
  | reject =>
    have hc : ¬ Clashless chains := by
      obtain ⟨hl, hs, rfl⟩ := unify_ok hu
      exact fun hc => hsep (.inr ((clashless_iff hl hs hr).mp hc))
    have hsome : reported .reject chains ≠ [] :=
      fun hnil => hc ((reported_eq_nil_iff hne .reject).mp hnil)
    obtain ⟨w, hw⟩ := List.exists_mem_of_ne_nil _ hsome
    obtain ⟨_, _, -, -, -, herror⟩ := mem_reported hne hw
    exact ⟨_, build_of_not_clashless hv hu hr hne options ho hc, w, hw, herror.mpr rfl⟩

end Build

/--
**A decoder is made of exactly the well-formed descriptions.** A description is
refused by the first stage whose condition it does not meet, and nothing but a
stage of the build refuses it.
-/
theorem build_exact (formats : List Format) (instructions : List Instruction)
    (options : Decoder.Options)
    (hlt : (FieldTable.fieldNames formats).length < UInt32.size) :
    ((∃ d, build formats instructions options = .ok d)
        ↔ Validation.Accepted formats instructions ∧ FieldTable.Agree formats
          ∧ (options.duplicates = .lastWins ∨ Separate instructions))
      ∧ (¬ Validation.Accepted formats instructions →
          RefusedIn .validation formats instructions options)
      ∧ (Validation.Accepted formats instructions → ¬ FieldTable.Agree formats →
          RefusedIn .unification formats instructions options)
      ∧ (Validation.Accepted formats instructions → FieldTable.Agree formats →
          ¬ (options.duplicates = .lastWins ∨ Separate instructions) →
          RefusedIn .treeBuild formats instructions options) := by
  have hrefused : ∀ phase, RefusedIn phase formats instructions options →
      ¬ ∃ d, build formats instructions options = .ok d := by
    intro phase hr hd
    obtain ⟨found, he, -⟩ := hr
    obtain ⟨d, hd⟩ := hd
    rw [he] at hd
    exact absurd hd (by simp)
  refine ⟨⟨?_, ?_⟩, refused_of_not_accepted, refused_of_not_agree hlt,
    refused_of_not_separate hlt⟩
  · intro hbuilt
    by_cases ha : Validation.Accepted formats instructions
    · by_cases hagree : FieldTable.Agree formats
      · by_cases hsep : options.duplicates = .lastWins ∨ Separate instructions
        · exact ⟨ha, hagree, hsep⟩
        · exact absurd hbuilt (hrefused _ (refused_of_not_separate hlt ha hagree hsep))
      · exact absurd hbuilt (hrefused _ (refused_of_not_agree hlt ha hagree))
    · exact absurd hbuilt (hrefused _ (refused_of_not_accepted ha))
  · intro hand
    obtain ⟨ha, hagree, hsep⟩ := hand
    exact exists_build hlt ha hagree hsep

theorem build_exact_byte :
    (FieldTable.fieldNames [byteFormat]).length < UInt32.size
      ∧ Separate byteInstructions ∧ RefusedIn .treeBuild [byteFormat] crowdedInstructions {} := by
  have hlt : (FieldTable.fieldNames [byteFormat]).length < UInt32.size := by decide
  have hagree : FieldTable.Agree [byteFormat] := by
    unfold FieldTable.Agree
    decide
  have ha : Validation.Accepted [byteFormat] crowdedInstructions := ⟨[], _, rfl, by simp⟩
  have hnot : ¬ Separate crowdedInstructions := fun h =>
    h 0 1 _ _ (by decide) rfl rfl (by decide)
  refine ⟨hlt, ?_, (build_exact _ _ {} hlt).2.2.2 ha hagree (by simp [hnot])⟩
  obtain ⟨-, -, hsep⟩ := (build_exact [byteFormat] byteInstructions {} hlt).1.mp ⟨_, rfl⟩
  exact hsep.resolve_left (by decide)

end Decoder

end InstructionSet
