import InstructionSet.Proofs.Validation.Instructions

/-!
# Nothing is held against a sound description

The converse of soundness: a new register finds no fault with the formats of a sound
description, and of its instructions it may say that one looks at a field twice, which
is bearable. Soundness knows of no order, so whether a description is accepted does not
depend on the order in which its instructions are declared.
-/

namespace InstructionSet.Validation

/-- Sound formats whose names are new pass without a word. -/
theorem checkFormats_eq_nil {r : Register} {place : Nat} {formats : List Format}
    (hs : ∀ f ∈ formats, f.Sound) (hnames : (formats.map Format.name).Nodup)
    (hnew : ∀ f ∈ formats, r.formats.lookup f.name = none) :
    (r.checkFormats place formats).1 = [] := by
  induction formats generalizing r place with
  | nil => rfl
  | cons f rest ih =>
    obtain ⟨hf, hs⟩ := List.forall_mem_cons.mp hs
    obtain ⟨hname, hnames⟩ := List.nodup_cons.mp hnames
    obtain ⟨hfnew, hnew⟩ := List.forall_mem_cons.mp hnew
    unfold Register.checkFormats
    dsimp only
    rw [List.append_eq_nil_iff]
    constructor
    · exact formatProblems_eq_nil.mpr ⟨by rw [hfnew]; rfl, hf⟩
    · refine ih hs hnames fun g hg => ?_
      have hne : (g.name == f.name) = false :=
        beq_false_of_ne fun he => hname (he ▸ List.mem_map_of_mem hg)
      rw [List.lookup_cons, hne]
      exact hnew g hg

theorem severity_of_selectorProblems {instruction : String} {format : Format}
    {before : List String} {selectors : List Selector}
    (h : ∀ s ∈ selectors, ∃ g, format.field? s.field = some g ∧ g.fits s.value = true) :
    ∀ p ∈ selectorProblems instruction format before selectors, p.severity ≠ .error := by
  induction selectors generalizing before with
  | nil => simp [selectorProblems]
  | cons s rest ih =>
    obtain ⟨⟨g, hg, hfits⟩, hrest⟩ := List.forall_mem_cons.mp h
    unfold selectorProblems
    rw [hg]
    dsimp only
    rw [if_pos hfits, List.nil_append, List.forall_mem_append]
    refine ⟨?_, ih hrest⟩
    split
    · simp [Problem.severity]
    · simp

/-- The format that a register knows by the name of a sound instruction has all that the instruction
looks at. -/
theorem severity_of_instructionProblems {r : Register} {formats : List Format}
    (h : r.Knows formats) (hnames : (formats.map Format.name).Nodup) {i : Instruction}
    (hi : i.Sound formats) (hnew : r.instructions.lookup i.id = none) {problems : List Problem}
    (hp : r.instructionProblems formats i = .ok problems) : ∀ p ∈ problems, p.severity ≠ .error := by
  obtain ⟨f, hf, hname, hsel⟩ := hi.format
  have hhead : headProblems (r.instructions.lookup i.id) i = [] := by
    rw [hnew]
    simpa [headProblems, SelectorChain.isEmpty] using hi.selectors_ne_nil
  obtain ⟨place, hplace⟩ := Option.isSome_iff_exists.mp (h.known f hf)
  obtain ⟨f', hf', hname'⟩ := h.place _ _ hplace
  obtain rfl : f' = f := List.inj_on_of_nodup_map hnames (List.mem_of_getElem? hf') hf hname'
  unfold Register.instructionProblems at hp
  rw [← hname, hplace] at hp
  dsimp only at hp
  rw [hf'] at hp
  injection hp with hp
  subst hp
  rw [hhead, List.nil_append]
  exact severity_of_selectorProblems hsel

theorem severity_of_checkInstructions {r last : Register} {formats : List Format}
    (h : r.Knows formats) (hnames : (formats.map Format.name).Nodup)
    {instructions : List Instruction} (hs : ∀ i ∈ instructions, i.Sound formats)
    (hids : (instructions.map Instruction.id).Nodup)
    (hnew : ∀ i ∈ instructions, r.instructions.lookup i.id = none) {problems : List Problem}
    (hp : r.checkInstructions formats instructions = .ok (problems, last)) :
    ∀ p ∈ problems, p.severity ≠ .error := by
  induction instructions generalizing r problems with
  | nil =>
    injection hp with hp
    obtain ⟨rfl, -⟩ := Prod.mk.inj hp
    simp
  | cons i rest ih =>
    obtain ⟨hi, hs⟩ := List.forall_mem_cons.mp hs
    obtain ⟨hid, hids⟩ := List.nodup_cons.mp hids
    obtain ⟨hinew, hnew⟩ := List.forall_mem_cons.mp hnew
    obtain ⟨early, hearly⟩ := instructionProblems_ok h i
    rw [Register.checkInstructions, hearly] at hp
    dsimp only at hp
    split at hp
    · exact absurd hp (by simp)
    · rename_i late last' hlate
      injection hp with hp
      obtain ⟨rfl, rfl⟩ := Prod.mk.inj hp
      rw [List.forall_mem_append]
      refine ⟨severity_of_instructionProblems h hnames hi hinew hearly, ?_⟩
      -- the number that was just taken is none of those to come
      refine ih (r := { r with instructions := (i.id, i.name) :: r.instructions })
        ⟨h.place, h.known⟩ hs hids (fun j hj => ?_) hlate
      have hne : (j.id == i.id) = false :=
        beq_false_of_ne fun he => hid (he ▸ List.mem_map_of_mem hj)
      rw [List.lookup_cons, hne]
      exact hnew j hj

/-- **A new register has no objection to a sound description.** -/
theorem check_of_sound {formats : List Format} {instructions : List Instruction}
    (h : Sound formats instructions) :
    ∃ problems last, ({} : Register).check formats instructions = .ok (problems, last)
      ∧ ∀ p ∈ problems, p.severity ≠ .error := by
  have hknows := knows_checkFormats knows_empty formats
  rw [List.nil_append, List.length_nil] at hknows
  obtain ⟨hknows, hinstructions⟩ := hknows
  obtain ⟨late, last, hlate, -⟩ := checkInstructions_ok hknows instructions
  have hfine := severity_of_checkInstructions hknows h.names h.instruction h.ids
    (fun i _ => by rw [hinstructions]; rfl) hlate
  refine ⟨_, last, by rw [Register.check]; dsimp only; rw [hlate], ?_⟩
  rw [checkFormats_eq_nil h.format h.names fun f _ => rfl, List.nil_append]
  exact hfine

/-- Soundness does not depend on the order of the instructions. -/
theorem Sound.perm {formats : List Format} {instructions instructions' : List Instruction}
    (h : Sound formats instructions) (hperm : instructions.Perm instructions') :
    Sound formats instructions' where
  format := h.format
  names := h.names
  instruction := fun i hi => h.instruction i (hperm.mem_iff.mpr hi)
  ids := (hperm.map Instruction.id).nodup_iff.mp h.ids

/-- Nor on that of the formats. -/
theorem Sound.perm_formats {formats formats' : List Format} {instructions : List Instruction}
    (h : Sound formats instructions) (hperm : formats.Perm formats') :
    Sound formats' instructions where
  format := fun f hf => h.format f (hperm.mem_iff.mpr hf)
  names := (hperm.map Format.name).nodup_iff.mp h.names
  instruction := by
    intro i hi
    obtain ⟨hne, f, hf, hformat⟩ := h.instruction i hi
    exact ⟨hne, f, hperm.mem_iff.mp hf, hformat⟩
  ids := h.ids

end InstructionSet.Validation
