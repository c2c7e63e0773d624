import InstructionSet.Proofs.Lists
import InstructionSet.Proofs.Validation.Formats

/-!
# Sound descriptions

An instruction is sound if it demands something, its format is declared, and its
format has each field that it looks at, with room for the value that it demands.
A description is sound if its formats and instructions are, and no two formats
share a name and no two instructions a number.

A register that nothing was entered into checks every instruction against the
format that bears its format's name (`Register.Knows`): so it has an answer for
every description, and accepts none that is not sound (`check_new`).
-/

namespace InstructionSet

/-- An instruction with nothing wrong about it. -/
structure Instruction.Sound (i : Instruction) (formats : List Format) : Prop where
  selectors_ne_nil : i.selectors.toList ≠ []
  format : ∃ f ∈ formats, f.name = i.format ∧ ∀ s ∈ i.selectors.toList,
    ∃ g, f.field? s.field = some g ∧ g.fits s.value = true

namespace Validation

/-- A description with nothing wrong about it. -/
structure Sound (formats : List Format) (instructions : List Instruction) : Prop where
  format : ∀ f ∈ formats, f.Sound
  names : (formats.map Format.name).Nodup
  instruction : ∀ i ∈ instructions, i.Sound formats
  ids : (instructions.map Instruction.id).Nodup

/-- The format of a sound instruction is the one that its name leads to. -/
theorem Sound.find?_format {formats : List Format} {instructions : List Instruction}
    (h : Sound formats instructions) {i : Instruction} (hi : i ∈ instructions) :
    ∃ f, formats.find? (·.name = i.format) = some f ∧ ∀ s ∈ i.selectors.toList,
      ∃ g, f.field? s.field = some g ∧ g.fits s.value = true := by
  obtain ⟨f, hf, hname, hsel⟩ := (h.instruction i hi).format
  rw [← hname]
  exact ⟨f, find?_key Format.name h.names hf, hsel⟩

/-- The format of a sound instruction has room for what the selectors demand. -/
theorem Sound.selected {formats : List Format} {instructions : List Instruction}
    (h : Sound formats instructions) {i : Instruction} (hi : i ∈ instructions) {f : Format}
    (hf : formats.find? (·.name = i.format) = some f) :
    ∀ s ∈ i.selectors.toList, ∃ g, f.field? s.field = some g ∧ g.fits s.value = true := by
  obtain ⟨f', hf', hsel⟩ := h.find?_format hi
  obtain rfl : f = f' := Option.some.inj (hf.symm.trans hf')
  exact hsel

/-- A number belongs to the instruction in one place. -/
theorem place_inj {instructions : List Instruction}
    (hids : (instructions.map Instruction.id).Nodup) {p q : Nat} {i j : Instruction}
    (hi : instructions[p]? = some i) (hj : instructions[q]? = some j) (hid : i.id = j.id) :
    p = q := by
  have hlt : p < (instructions.map Instruction.id).length := by
    rw [List.length_map]
    exact (List.getElem?_eq_some_iff.mp hi).1
  refine (List.getElem?_inj hlt hids).mp ?_
  rw [List.getElem?_map, List.getElem?_map, hi, hj, Option.map_some, Option.map_some, hid]

/-! ## What is wrong with an instruction -/

theorem fits_of_selectorProblems {instruction : String} {format : Format} {before : List String}
    {selectors : List Selector}
    (h : ∀ p ∈ selectorProblems instruction format before selectors, p.severity ≠ .error) :
    ∀ s ∈ selectors, ∃ g, format.field? s.field = some g ∧ g.fits s.value = true := by
  induction selectors generalizing before with
  | nil => simp
  | cons s rest ih =>
    unfold selectorProblems at h
    rw [List.forall_mem_cons]
    cases hg : format.field? s.field with
    | none =>
      rw [hg] at h
      exact absurd rfl (h _ (List.mem_cons_self ..))
    | some g =>
      rw [hg] at h
      dsimp only at h
      rw [List.forall_mem_append, List.forall_mem_append] at h
      obtain ⟨⟨hrange, -⟩, hrest⟩ := h
      refine ⟨⟨g, rfl, ?_⟩, ih hrest⟩
      by_cases hf : g.fits s.value = true
      · exact hf
      · rw [if_neg hf] at hrange
        exact absurd rfl (hrange _ (List.mem_singleton_self _))

theorem new_of_headProblems {previous : Option String} {i : Instruction}
    (h : ∀ p ∈ headProblems previous i, p.severity ≠ .error) :
    previous = none ∧ i.selectors.toList ≠ [] := by
  unfold headProblems at h
  rw [List.forall_mem_append] at h
  obtain ⟨hid, hchain⟩ := h
  constructor
  · cases previous with
    | none => rfl
    | some name => exact absurd rfl (hid _ (List.mem_singleton_self _))
  · intro hnil
    have hempty : i.selectors.isEmpty = true := by rw [SelectorChain.isEmpty, hnil]; rfl
    rw [if_pos hempty] at hchain
    exact absurd rfl (hchain _ (List.mem_singleton_self _))

/-! ## The formats that a register knows -/

/-- The register knows the formats of a list by their places in it, and no others. -/
structure Register.Knows (r : Register) (formats : List Format) : Prop where
  place : ∀ name k, r.formats.lookup name = some k → ∃ f, formats[k]? = some f ∧ f.name = name
  known : ∀ f ∈ formats, (r.formats.lookup f.name).isSome = true

theorem knows_empty : ({} : Register).Knows [] where
  place := by simp
  known := by simp

theorem Register.Knows.enter {r : Register} {before : List Format} (h : r.Knows before)
    (f : Format) :
    Register.Knows { r with formats := (f.name, before.length) :: r.formats } (before ++ [f]) where
  place := by
    intro name k hk
    rw [List.lookup_cons] at hk
    cases hname : name == f.name with
    | true =>
      rw [hname] at hk
      injection hk with hk
      subst hk
      exact ⟨f, List.getElem?_concat_length, (eq_of_beq hname).symm⟩
    | false =>
      rw [hname] at hk
      obtain ⟨f', hf', hn⟩ := h.place name k hk
      refine ⟨f', ?_, hn⟩
      rw [List.getElem?_append_left (List.getElem?_eq_some_iff.mp hf').1]
      exact hf'
  known := by
    intro f' hf'
    rw [List.lookup_cons]
    cases hname : f'.name == f.name with
    | true => rfl
    | false =>
      rcases List.mem_append.mp hf' with hf' | hf'
      · exact h.known f' hf'
      · rw [List.mem_singleton.mp hf', beq_self_eq_true] at hname
        exact absurd hname (by simp)

/-- What checking formats leaves behind: all of them are known, and no number is taken. -/
theorem knows_checkFormats {r : Register} {before : List Format} (h : r.Knows before)
    (formats : List Format) :
    (r.checkFormats before.length formats).2.Knows (before ++ formats)
      ∧ (r.checkFormats before.length formats).2.instructions = r.instructions := by
  induction formats generalizing r before with
  | nil =>
    rw [List.append_nil]
    exact ⟨h, rfl⟩
  | cons f rest ih =>
    have hrest := ih (h.enter f)
    rw [List.length_append, List.length_singleton, List.append_assoc] at hrest
    exact hrest

/-- Formats that no fault is found with have names of their own. -/
theorem names_of_checkFormats {r : Register} {before formats : List Format} (h : r.Knows before)
    (hb : (before.map Format.name).Nodup)
    (hok : ∀ p ∈ (r.checkFormats before.length formats).1, p.severity ≠ .error) :
    ((before ++ formats).map Format.name).Nodup := by
  induction formats generalizing r before with
  | nil => rwa [List.append_nil]
  | cons f rest ih =>
    unfold Register.checkFormats at hok
    rw [List.forall_mem_append] at hok
    obtain ⟨hf, hrest⟩ := hok
    have hnil : formatProblems (r.formats.lookup f.name).isSome f = [] :=
      List.eq_nil_iff_forall_not_mem.mpr fun p hp => hf p hp (severity_of_mem_formatProblems hp)
    have hnew : (r.formats.lookup f.name).isSome = false := (formatProblems_eq_nil.mp hnil).1
    have hnodup : ((before ++ [f]).map Format.name).Nodup := by
      rw [List.map_append, List.nodup_append]
      refine ⟨hb, by simp, ?_⟩
      intro a ha b hb' he
      obtain ⟨f', hf', rfl⟩ := List.mem_map.mp ha
      rw [List.map_singleton, List.mem_singleton] at hb'
      have hknown := h.known f' hf'
      rw [he, hb', hnew] at hknown
      exact absurd hknown (by simp)
    have hall := ih (h.enter f) hnodup (by
      rw [List.length_append, List.length_singleton]
      exact hrest)
    rwa [List.append_assoc] at hall

/-! ## The instructions -/

/-- A register that knows the formats of the present list has an answer for every instruction. -/
theorem instructionProblems_ok {r : Register} {formats : List Format} (h : r.Knows formats)
    (i : Instruction) : ∃ problems, r.instructionProblems formats i = .ok problems := by
  unfold Register.instructionProblems
  cases hp : r.formats.lookup i.format with
  | none => exact ⟨_, rfl⟩
  | some place =>
    obtain ⟨f, hf, -⟩ := h.place _ _ hp
    dsimp only
    rw [hf]
    exact ⟨_, rfl⟩

theorem sound_of_instructionProblems {r : Register} {formats : List Format} (h : r.Knows formats)
    {i : Instruction} {problems : List Problem}
    (hi : r.instructionProblems formats i = .ok problems)
    (hok : ∀ p ∈ problems, p.severity ≠ .error) :
    r.instructions.lookup i.id = none ∧ i.Sound formats := by
  unfold Register.instructionProblems at hi
  cases hp : r.formats.lookup i.format with
  | none =>
    rw [hp] at hi
    injection hi with hi
    subst hi
    exact absurd rfl (hok _ (List.mem_append_right _ (List.mem_singleton_self _)))
  | some place =>
    obtain ⟨f, hf, hname⟩ := h.place _ _ hp
    rw [hp] at hi
    dsimp only at hi
    rw [hf] at hi
    injection hi with hi
    subst hi
    rw [List.forall_mem_append] at hok
    obtain ⟨hnew, hne⟩ := new_of_headProblems hok.1
    exact ⟨hnew, hne, f, List.mem_of_getElem? hf, hname, fits_of_selectorProblems hok.2⟩

/-- What a register that knows the formats makes of instructions. -/
theorem checkInstructions_ok {r : Register} {formats : List Format} (h : r.Knows formats)
    (instructions : List Instruction) :
    ∃ problems last, r.checkInstructions formats instructions = .ok (problems, last)
      ∧ ((∀ p ∈ problems, p.severity ≠ .error) →
        (∀ i ∈ instructions, r.instructions.lookup i.id = none ∧ i.Sound formats)
          ∧ (instructions.map Instruction.id).Nodup) := by
  induction instructions generalizing r with
  | nil => exact ⟨[], r, rfl, fun _ => ⟨by simp, List.nodup_nil⟩⟩
  | cons i rest ih =>
    obtain ⟨early, hearly⟩ := instructionProblems_ok h i
    -- numbers are remembered, and the formats stay as they were
    obtain ⟨late, last, hlate, hrest⟩ :=
      ih (r := { r with instructions := (i.id, i.name) :: r.instructions }) ⟨h.place, h.known⟩
    refine ⟨early ++ late, last, ?_, ?_⟩
    · rw [Register.checkInstructions, hearly]
      dsimp only
      rw [hlate]
    · intro hok
      rw [List.forall_mem_append] at hok
      obtain ⟨hi, hsound⟩ := sound_of_instructionProblems h hearly hok.1
      obtain ⟨hall, hnodup⟩ := hrest hok.2
      have hnew : ∀ j ∈ rest, j.id ≠ i.id ∧ r.instructions.lookup j.id = none := by
        intro j hj
        have hl := (hall j hj).1
        rw [List.lookup_cons] at hl
        cases hid : j.id == i.id with
        | true =>
          rw [hid] at hl
          exact absurd hl (by simp)
        | false =>
          rw [hid] at hl
          exact ⟨ne_of_beq_false hid, hl⟩
      refine ⟨?_, ?_⟩
      · rw [List.forall_mem_cons]
        exact ⟨⟨hi, hsound⟩, fun j hj => ⟨(hnew j hj).2, (hall j hj).2⟩⟩
      · rw [List.map_cons, List.nodup_cons]
        refine ⟨?_, hnodup⟩
        intro hm
        obtain ⟨j, hj, he⟩ := List.mem_map.mp hm
        exact (hnew j hj).1 he

/-! ## Descriptions -/

/-- **A new register has an answer for every description, and accepts none that is not sound.** -/
theorem check_new (formats : List Format) (instructions : List Instruction) :
    ∃ problems last, ({} : Register).check formats instructions = .ok (problems, last)
      ∧ ∀ found, verdict problems = .ok found → Sound formats instructions := by
  have hknows := knows_checkFormats knows_empty formats
  rw [List.nil_append] at hknows
  obtain ⟨late, last, hlate, hsound⟩ := checkInstructions_ok hknows.1 instructions
  have hcheck : ({} : Register).check formats instructions
      = .ok ((({} : Register).checkFormats 0 formats).1 ++ late, last) := by
    unfold Register.check
    dsimp only
    rw [show (({} : Register).checkFormats 0 formats).2.checkInstructions formats instructions
      = .ok (late, last) from hlate]
  refine ⟨_, last, hcheck, ?_⟩
  intro found hv
  have hok := severity_of_verdict hv
  rw [List.forall_mem_append] at hok
  obtain ⟨hall, hids⟩ := hsound hok.2
  have hnames := names_of_checkFormats knows_empty List.nodup_nil hok.1
  exact ⟨sound_of_check hcheck hv, hnames, fun i hi => (hall i hi).2, hids⟩

end Validation

end InstructionSet
