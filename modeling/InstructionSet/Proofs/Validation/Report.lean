import InstructionSet.Decoder.Basic
import InstructionSet.Proofs.Validation.Broken
import InstructionSet.Proofs.Validation.Complete

/-!
# The report of a new register

A register goes through the formats, the fields of each, the instructions and the
selectors of each, and remembers what it has passed. Each of the four is a `pass`: what
is said of a thing depends on the things before it, through names and numbers only
(`fieldListProblems_eq`, `checkFormats_eq`, `selectorProblems_eq`,
`checkInstructions_eq`). So it is enough to know what is said of one field, one format,
one selector and one instruction, and that this is what is broken there.

Together they say that a new register tells all that is broken (`tells_check`). It
passes a description on exactly if nothing is broken but that selectors look at a field
again, which is to say if the description is sound (`Decoder.validate_exact`).
-/

namespace InstructionSet

namespace Validation

/-! ## Fields -/

theorem mem_fieldProblems {f : Format} {before : List Field} {g : Field} {p : Problem} :
    p ∈ fieldProblems f (before.map Field.name) g ↔ FieldBroken f before g p := by
  have hname : g.name ∈ before.map Field.name ↔ ∃ e ∈ before, e.name = g.name := List.mem_map
  have hwide : ∀ c, g.fits c = true ↔ g.layout.Expresses c := fun c => Layout.fits_iff_expresses
  have hend : g.endBit = g.layout.firstBit.toNat + g.layout.size.toNat := rfl
  have hwidth := Layout.readable_iff (l := g.layout)
  unfold fieldProblems
  constructor
  · intro h
    grind [FieldBroken]
  · intro h
    cases h with
    | name taken => grind
    | width odd => grind
    | range width past => grind
    | constant width holds wide => grind

theorem sorted_fieldProblems (f : Format) (names : List String) (g : Field) :
    (fieldProblems f names g).Pairwise (·.rank < ·.rank) := by
  unfold fieldProblems
  dsimp only
  repeat' split
  all_goals simp [Problem.rank, Problem.ctorIdx]

/-- What is said of a field, given the fields before it. -/
def fieldSaid (f : Format) (before : List Field) (g : Field) : List Problem :=
  fieldProblems f (before.map Field.name) g

/-- Only the names of earlier fields matter, and not the order in which they are remembered. -/
theorem fieldListProblems_eq {f : Format} {names : List String} {before fields : List Field}
    (h : ∀ n, n ∈ names ↔ n ∈ before.map Field.name) :
    fieldListProblems f names fields = pass (fieldSaid f) before fields := by
  induction fields generalizing names before with
  | nil => rfl
  | cons g rest ih =>
    have hsaid : fieldProblems f names g = fieldSaid f before g := by
      unfold fieldSaid fieldProblems
      simp only [h]
    have hrest : fieldListProblems f (g.name :: names) rest
        = pass (fieldSaid f) (before ++ [g]) rest := by
      refine ih fun n => ?_
      rw [List.mem_cons, h, List.map_append, List.mem_append, List.map_singleton,
        List.mem_singleton, or_comm]
    rw [fieldListProblems, pass, hsaid, hrest]

/-- **What is said of the fields of a format is what they break.** -/
theorem tells_fields (k : Nat) (f : Format) :
    Tells (fieldListProblems f [] f.fields) fun site p => ∃ first g rest,
      f.fields = first ++ g :: rest ∧ site = .field k first.length ∧ FieldBroken f first g p := by
  have hpass : fieldListProblems f [] f.fields = pass (fieldSaid f) [] f.fields :=
    fieldListProblems_eq fun n => Iff.rfl
  rw [hpass]
  refine Tells.pass (P := fun before g site p =>
    site = .field k before.length ∧ FieldBroken f before g p)
    (fun before g => .of_site _ (sorted_fieldProblems ..) fun p => mem_fieldProblems) ?_ [] f.fields
  rintro before before' g g' site site' p p' hlt ⟨rfl, -⟩ ⟨rfl, -⟩
  exact .inl (by simp [Site.key, List.cons_lt_cons_iff, hlt])

/-! ## Formats -/

theorem last?_eq_none {formats : List Format} {name : String} :
    last? formats name = none ↔ ∀ f ∈ formats, f.name ≠ name := by
  simp [last?]

theorem isSome_last? {formats : List Format} {name : String} :
    (last? formats name).isSome = true ↔ ∃ e ∈ formats, e.name = name := by
  simp [last?]

theorem aligned_iff {f : Format} :
    aligned f = true ↔ 0 < f.bits.toNat ∧ 8 ∣ f.bits.toNat := by
  rw [aligned, decide_eq_true_iff, Ne, ← UInt32.toNat_inj, ← UInt32.toNat_inj, UInt32.toNat_mod,
    Nat.dvd_iff_mod_eq_zero, Nat.pos_iff_ne_zero]
  rfl

/-- What is said of a format, given the formats before it. -/
def formatSaid (before : List Format) (f : Format) : List Problem :=
  formatProblems (last? before f.name).isSome f

/-- What a format breaks, and what its fields break. -/
def FormatSite (before : List Format) (f : Format) (site : Site) (p : Problem) : Prop :=
  (site = .format before.length ∧ FormatBroken before f p) ∨ ∃ first g rest,
    f.fields = first ++ g :: rest ∧ site = .field before.length first.length
      ∧ FieldBroken f first g p

/-- **What is said of a format is what it and its fields break.** -/
theorem tells_formatSaid (before : List Format) (f : Format) :
    Tells (formatSaid before f) (FormatSite before f) := by
  have hhead : ∀ p, p ∈ (if (last? before f.name).isSome then [Problem.duplicateFormat f.name]
      else []) ++ (if aligned f then [] else [.unalignedFormat f.name f.bits])
      ↔ FormatBroken before f p := by
    intro p
    have hknown : (last? before f.name).isSome = true ↔ ∃ e ∈ before, e.name = f.name :=
      isSome_last?
    have haligned := aligned_iff (f := f)
    constructor
    · intro h
      grind [FormatBroken]
    · intro h
      cases h with
      | name taken => grind
      | width odd => grind
  refine (Tells.of_site (.format before.length) ?_ hhead).append (tells_fields before.length f) ?_
  · repeat' split
    all_goals simp [Problem.rank, Problem.ctorIdx]
  · rintro site p site' p' ⟨rfl, -⟩ ⟨first, g, rest, -, rfl, -⟩
    exact .inl (by simp [Site.key])

theorem FormatSite.key {before : List Format} {f : Format} {site : Site} {p : Problem}
    (h : FormatSite before f site p) : ∃ tail, site.key = 0 :: before.length :: tail := by
  rcases h with ⟨rfl, -⟩ | ⟨first, g, rest, -, rfl, -⟩
  · exact ⟨[], rfl⟩
  · exact ⟨[first.length], rfl⟩

/-- The register knows the formats of a list, each name by the last place that has it. -/
def Register.Latest (r : Register) (formats : List Format) : Prop :=
  ∀ name, (r.formats.lookup name).map (formats[·]?) = (last? formats name).map some

theorem Register.Latest.enter {r : Register} {before : List Format} (h : r.Latest before)
    (f : Format) :
    Register.Latest { r with formats := (f.name, before.length) :: r.formats }
      (before ++ [f]) := by
  intro name
  rw [List.lookup_cons, last?, List.reverse_append, List.reverse_singleton, List.singleton_append,
    List.find?_cons]
  by_cases hname : f.name = name
  · rw [hname, beq_self_eq_true, decide_eq_true rfl]
    exact congrArg some List.getElem?_concat_length
  · rw [beq_false_of_ne (Ne.symm hname), decide_eq_false hname]
    have hold := h name
    rw [last?] at hold
    dsimp only
    rw [← hold]
    -- what is known already is in a place of the shorter list
    cases hk : r.formats.lookup name with
    | none => rfl
    | some k =>
      rw [hk] at hold
      have hsome : (before[k]?).isSome = true := by
        rw [Option.map_some] at hold
        obtain ⟨e, -, he⟩ := Option.map_eq_some_iff.mp hold.symm
        rw [← he]
        rfl
      have hlt : k < before.length := by simpa using hsome
      exact congrArg some (List.getElem?_append_left hlt)

/-- Going through the formats is a pass, and makes the last one of each name known. -/
theorem checkFormats_eq {r : Register} (before : List Format) (h : r.Latest before)
    (formats : List Format) :
    (r.checkFormats before.length formats).1 = pass formatSaid before formats
      ∧ (r.checkFormats before.length formats).2.Latest (before ++ formats)
      ∧ (r.checkFormats before.length formats).2.instructions = r.instructions := by
  induction formats generalizing r before with
  | nil =>
    rw [List.append_nil]
    exact ⟨rfl, h, rfl⟩
  | cons f rest ih =>
    have hknown : (r.formats.lookup f.name).isSome = (last? before f.name).isSome := by
      rw [← Option.isSome_map (f := (before[·]?)), h, Option.isSome_map]
    obtain ⟨hsaid, hlatest, hinstructions⟩ := ih (before ++ [f]) (h.enter f)
    rw [List.length_append, List.length_singleton] at hsaid hlatest hinstructions
    rw [List.append_assoc] at hlatest
    refine ⟨?_, hlatest, hinstructions⟩
    rw [Register.checkFormats, pass, formatSaid, ← hknown, ← hsaid]

/-! ## Selectors -/

/-- What is said of a selector, given the selectors before it. -/
def selectorSaid (name : String) (f : Format) (before : List Selector) (s : Selector) :
    List Problem :=
  match f.field? s.field with
  | none => [.unknownSelectorField name s.field f.name]
  | some g =>
    (if g.fits s.value then [] else [.selectorRange name s.field s.value g.layout.size])
      ++ (if s.field ∈ before.map Selector.field then [.repeatedSelectorField name s.field] else [])

/-- A field that the format does not have is not remembered, and not asked for again. -/
theorem selectorProblems_eq {name : String} {f : Format} {seen : List String}
    {before selectors : List Selector}
    (h : ∀ n, (f.field? n).isSome → (n ∈ seen ↔ n ∈ before.map Selector.field)) :
    selectorProblems name f seen selectors = pass (selectorSaid name f) before selectors := by
  induction selectors generalizing seen before with
  | nil => rfl
  | cons s rest ih =>
    rw [selectorProblems, pass, selectorSaid]
    cases hg : f.field? s.field with
    | none =>
      refine congrArg (_ :: ·) (ih fun n hn => ?_)
      have hne : n ≠ s.field := by
        rintro rfl
        rw [hg] at hn
        exact absurd hn Bool.false_ne_true
      rw [h n hn, List.map_append, List.mem_append, List.map_singleton, List.mem_singleton,
        or_iff_left hne]
    | some g =>
      have hrest : selectorProblems name f (s.field :: seen) rest
          = pass (selectorSaid name f) (before ++ [s]) rest := by
        refine ih fun n hn => ?_
        rw [List.mem_cons, h n hn, List.map_append, List.mem_append, List.map_singleton,
          List.mem_singleton, or_comm]
      have hseen := h s.field (by rw [hg]; rfl)
      simp only [hrest, hseen]

theorem mem_selectorSaid {name : String} {f : Format} {before : List Selector} {s : Selector}
    {p : Problem} : p ∈ selectorSaid name f before s ↔ SelectorBroken name f before s p := by
  have hname : s.field ∈ before.map Selector.field ↔ ∃ e ∈ before, e.field = s.field :=
    List.mem_map
  have hwide : ∀ g : Field, g.fits s.value = true ↔ g.layout.Expresses s.value :=
    fun g => Layout.fits_iff_expresses
  unfold selectorSaid
  constructor
  · intro h
    grind [SelectorBroken]
  · intro h
    cases h with
    | field unknown => grind
    | range known wide => grind
    | again known seen => grind

/-- **What is said of the selectors of an instruction is what they break.** -/
theorem tells_selectors (k : Nat) (f : Format) (i : Instruction) :
    Tells (selectorProblems i.name f [] i.selectors.toList) fun site p => ∃ first s rest,
      i.selectors.toList = first ++ s :: rest
        ∧ site = .selector k first.length ∧ SelectorBroken i.name f first s p := by
  have hpass : selectorProblems i.name f [] i.selectors.toList
      = pass (selectorSaid i.name f) [] i.selectors.toList :=
    selectorProblems_eq fun n _ => Iff.rfl
  rw [hpass]
  refine Tells.pass (P := fun before s site p =>
    site = .selector k before.length ∧ SelectorBroken i.name f before s p)
    (fun before s => .of_site _ ?_ fun p => mem_selectorSaid) ?_ [] i.selectors.toList
  · unfold selectorSaid
    repeat' split
    all_goals simp [Problem.rank, Problem.ctorIdx]
  · rintro before before' s s' site site' p p' hlt ⟨rfl, -⟩ ⟨rfl, -⟩
    exact .inl (by simp [Site.key, List.cons_lt_cons_iff, hlt])

/-! ## Instructions -/

/-- What is said of an instruction, given the instructions before it. -/
def instructionSaid (formats : List Format) (before : List Instruction) (i : Instruction) :
    List Problem :=
  headProblems ((before.reverse.find? (·.id = i.id)).map Instruction.name) i
    ++ match last? formats i.format with
      | none => [.unknownFormat i.name i.format]
      | some f => selectorProblems i.name f [] i.selectors.toList

/-- What an instruction breaks, and what its selectors break. -/
def InstructionSite (formats : List Format) (before : List Instruction) (i : Instruction)
    (site : Site) (p : Problem) : Prop :=
  (site = .instruction before.length ∧ InstructionBroken formats before i p)
    ∨ ∃ f, last? formats i.format = some f ∧ ∃ first s rest,
      i.selectors.toList = first ++ s :: rest
        ∧ site = .selector before.length first.length ∧ SelectorBroken i.name f first s p

theorem InstructionSite.key {formats : List Format} {before : List Instruction} {i : Instruction}
    {site : Site} {p : Problem} (h : InstructionSite formats before i site p) :
    ∃ tail, site.key = 1 :: before.length :: tail := by
  rcases h with ⟨rfl, -⟩ | ⟨f, -, first, s, rest, -, rfl, -⟩
  · exact ⟨[], rfl⟩
  · exact ⟨[first.length], rfl⟩

/-- What is said of an instruction apart from its selectors is what it breaks by itself. -/
theorem tells_head (formats : List Format) (before : List Instruction) (i : Instruction) :
    Tells (headProblems ((before.reverse.find? (·.id = i.id)).map Instruction.name) i
        ++ if (last? formats i.format).isNone then [.unknownFormat i.name i.format] else [])
      fun site p =>
        site = .instruction before.length ∧ InstructionBroken formats before i p := by
  have hchain : i.selectors.isEmpty = true ↔ i.selectors.toList = [] := List.isEmpty_iff
  have hunknown : (last? formats i.format).isNone = true ↔ ∀ f ∈ formats, f.name ≠ i.format := by
    rw [Option.isNone_iff_eq_none, last?_eq_none]
  unfold headProblems
  refine .of_site _ ?_ fun p => ⟨fun h => ?_, fun h => ?_⟩
  · repeat' split
    all_goals simp [Problem.rank, Problem.ctorIdx]
  · cases he : before.reverse.find? (·.id = i.id) <;> grind [InstructionBroken]
  · cases h with
    | number taken => simp [taken]
    | chain nothing => grind
    | format unknown => grind

/-- **What is said of an instruction is what it and its selectors break.** -/
theorem tells_instructionSaid (formats : List Format) (before : List Instruction)
    (i : Instruction) :
    Tells (instructionSaid formats before i) (InstructionSite formats before i) := by
  have hhead := tells_head formats before i
  unfold instructionSaid
  cases hf : last? formats i.format with
  | none =>
    rw [hf, Option.isNone_none, if_pos rfl] at hhead
    refine hhead.congr fun site p => ?_
    rw [InstructionSite, hf]
    simp
  | some f =>
    rw [hf, Option.isNone_some, if_neg Bool.false_ne_true, List.append_nil] at hhead
    refine (hhead.append (tells_selectors before.length f i) ?_).congr fun site p => ?_
    · rintro site p site' p' ⟨rfl, -⟩ ⟨first, s, rest, -, rfl, -⟩
      exact .inl (by simp [Site.key])
    · rw [InstructionSite, hf]
      simp

theorem lookup_instructions (before : List Instruction) (id : InstructionId) :
    (before.map fun i => (i.id, i.name)).reverse.lookup id
      = (before.reverse.find? (·.id = id)).map Instruction.name := by
  rw [← List.map_reverse]
  induction before.reverse with
  | nil => rfl
  | cons i rest ih =>
    rw [List.map_cons, List.lookup_cons, List.find?_cons]
    by_cases hid : i.id = id
    · rw [hid, beq_self_eq_true, decide_eq_true rfl]
      rfl
    · rw [beq_false_of_ne (Ne.symm hid), decide_eq_false hid]
      exact ih

theorem instructionProblems_eq {r : Register} {formats : List Format} (h : r.Latest formats)
    {before : List Instruction}
    (hr : r.instructions = (before.map fun i => (i.id, i.name)).reverse) (i : Instruction) :
    r.instructionProblems formats i = .ok (instructionSaid formats before i) := by
  have hlatest := h i.format
  rw [Register.instructionProblems, instructionSaid, hr, lookup_instructions]
  cases hk : r.formats.lookup i.format with
  | none =>
    rw [hk] at hlatest
    have hnone : last? formats i.format = none := Option.map_eq_none_iff.mp hlatest.symm
    rw [hnone]
  | some k =>
    rw [hk] at hlatest
    obtain ⟨f, hf, he⟩ := Option.map_eq_some_iff.mp hlatest.symm
    have hplace : formats[k]? = some f := he.symm
    rw [hf]
    dsimp only
    rw [hplace]

/-- Going through the instructions is a pass. -/
theorem checkInstructions_eq {r : Register} {formats : List Format} (h : r.Latest formats)
    (before : List Instruction)
    (hr : r.instructions = (before.map fun i => (i.id, i.name)).reverse)
    (instructions : List Instruction) :
    ∃ last, r.checkInstructions formats instructions
      = .ok (pass (instructionSaid formats) before instructions, last) := by
  induction instructions generalizing r before with
  | nil => exact ⟨r, rfl⟩
  | cons i rest ih =>
    obtain ⟨last, hlast⟩ := ih (r := { r with instructions := (i.id, i.name) :: r.instructions })
      h (before ++ [i]) (by rw [List.map_append, List.reverse_append, ← hr]; rfl)
    refine ⟨last, ?_⟩
    rw [Register.checkInstructions, instructionProblems_eq h hr, pass]
    dsimp only
    rw [hlast]

/-! ## Descriptions -/

theorem tells_formats (formats : List Format) :
    Tells (pass formatSaid [] formats) fun site p => ∃ before f after,
      formats = before ++ f :: after ∧ FormatSite before f site p := by
  refine .pass tells_formatSaid ?_ [] formats
  intro before before' f f' site site' p p' hlt h h'
  obtain ⟨tail, hkey⟩ := h.key
  obtain ⟨tail', hkey'⟩ := h'.key
  exact .inl (by simp [hkey, hkey', List.cons_lt_cons_iff, hlt])

theorem tells_instructions (formats : List Format) (instructions : List Instruction) :
    Tells (pass (instructionSaid formats) [] instructions) fun site p => ∃ before i after,
      instructions = before ++ i :: after ∧ InstructionSite formats before i site p := by
  refine .pass (tells_instructionSaid formats) ?_ [] instructions
  intro before before' i i' site site' p p' hlt h h'
  obtain ⟨tail, hkey⟩ := h.key
  obtain ⟨tail', hkey'⟩ := h'.key
  exact .inl (by simp [hkey, hkey', List.cons_lt_cons_iff, hlt])

theorem broken_iff {formats : List Format} {instructions : List Instruction} {site : Site}
    {p : Problem} :
    (∃ before f after, formats = before ++ f :: after ∧ FormatSite before f site p)
        ∨ (∃ before i after, instructions = before ++ i :: after
          ∧ InstructionSite formats before i site p)
      ↔ Broken formats instructions site p := by
  constructor
  · rintro (⟨before, f, after, declared, h⟩ | ⟨before, i, after, declared, h⟩)
    · rcases h with ⟨rfl, broken⟩ | ⟨first, g, rest, field, rfl, broken⟩
      · exact .format declared broken
      · exact .field declared field broken
    · rcases h with ⟨rfl, broken⟩ | ⟨f, format, first, s, rest, selector, rfl, broken⟩
      · exact .instruction declared broken
      · exact .selector declared format selector broken
  · intro h
    cases h with
    | format declared broken => exact .inl ⟨_, _, _, declared, .inl ⟨rfl, broken⟩⟩
    | field declared field broken =>
      exact .inl ⟨_, _, _, declared, .inr ⟨_, _, _, field, rfl, broken⟩⟩
    | instruction declared broken => exact .inr ⟨_, _, _, declared, .inl ⟨rfl, broken⟩⟩
    | selector declared format selector broken =>
      exact .inr ⟨_, _, _, declared, .inr ⟨_, format, _, _, _, selector, rfl, broken⟩⟩

/-- **A new register tells all that is broken in a description.** -/
theorem tells_check (formats : List Format) (instructions : List Instruction) :
    ∃ problems last, ({} : Register).check formats instructions = .ok (problems, last)
      ∧ Tells problems (Broken formats instructions) := by
  obtain ⟨hformats, hlatest, hinstructions⟩ := checkFormats_eq (r := {}) [] (fun _ => rfl) formats
  obtain ⟨last, hlast⟩ := checkInstructions_eq hlatest [] hinstructions instructions
  rw [List.length_nil] at hformats hlast
  rw [List.nil_append] at hlast
  refine ⟨pass formatSaid [] formats ++ pass (instructionSaid formats) [] instructions, last,
    ?_, ?_⟩
  · rw [Register.check]
    dsimp only
    rw [hlast, hformats]
  · refine ((tells_formats formats).append (tells_instructions formats instructions) ?_).congr
      fun site p => broken_iff
    rintro site p site' p' ⟨before, f, after, -, h⟩ ⟨before', i, after', -, h'⟩
    obtain ⟨tail, hkey⟩ := h.key
    obtain ⟨tail', hkey'⟩ := h'.key
    exact .inl (by simp [hkey, hkey', List.cons_lt_cons_iff])

/-- Of two formats with one name it is the last that has what an instruction looks at. -/
example : (({} : Register).check
      [{ name := "F", bits := 8, fields := [{ name := "op", layout := ⟨0, 8, false⟩ }] },
        { name := "F", bits := 12 }]
      [{ id := ⟨1, by decide⟩, name := "nop", format := "F",
          selectors := ⟨[⟨"op", 1⟩]⟩ }]).toOption.map Prod.fst
    = some [.duplicateFormat "F", .unalignedFormat "F" 12,
        .unknownSelectorField "nop" "op" "F"] := by
  rfl

/-- All that is broken in a description, each problem once, in the order of the sites. -/
structure Report (formats : List Format) (instructions : List Instruction) where
  entries : List (Site × Problem)
  sorted : entries.Pairwise Earlier
  mem_iff : ∀ site p, (site, p) ∈ entries ↔ Broken formats instructions site p

/-- The entries in words. -/
def Report.diagnostics {formats : List Format} {instructions : List Instruction}
    (r : Report formats instructions) : List Diagnostic :=
  r.entries.map fun x => x.2.diagnostic

/-- A selector looks at a field that an earlier selector of its chain has looked at. -/
def Repeated (instructions : List Instruction) (site : Site) (p : Problem) : Prop :=
  ∃ before i after first s rest, instructions = before ++ i :: after
    ∧ i.selectors.toList = first ++ s :: rest ∧ (∃ e ∈ first, e.field = s.field)
    ∧ site = .selector before.length first.length ∧ p = .repeatedSelectorField i.name s.field

theorem verdict_of_fine {problems : List Problem} (h : ∀ p ∈ problems, p.severity ≠ .error) :
    verdict problems = .ok (problems.map Problem.diagnostic) := by
  have hany : (problems.map Problem.diagnostic).any Diagnostic.isError = false := by
    rw [List.any_map, List.any_eq_false]
    intro p hp
    rw [Bool.not_eq_true]
    exact decide_eq_false (h p hp)
  rw [verdict, hany]
  rfl

theorem verdict_of_error {problems : List Problem} (h : ∃ p ∈ problems, p.severity = .error) :
    verdict problems = .error (.diagnostics .validation (problems.map Problem.diagnostic)) := by
  have hany : (problems.map Problem.diagnostic).any Diagnostic.isError = true := by
    obtain ⟨p, hp, hsev⟩ := h
    rw [List.any_map, List.any_eq_true]
    exact ⟨p, hp, decide_eq_true hsev⟩
  rw [verdict, hany]
  rfl

theorem mem_of_last? {formats : List Format} {name : String} {f : Format}
    (h : last? formats name = some f) : f ∈ formats ∧ f.name = name :=
  ⟨List.mem_reverse.mp (List.mem_of_find?_eq_some h), by simpa using List.find?_some h⟩

/-- A description is sound exactly if no error is told of it. -/
theorem sound_iff_of_check {formats : List Format} {instructions : List Instruction}
    {problems : List Problem} {last : Register}
    (h : ({} : Register).check formats instructions = .ok (problems, last)) :
    Sound formats instructions ↔ ∀ p ∈ problems, p.severity ≠ .error := by
  constructor
  · intro hs
    obtain ⟨problems', last', h', hfine⟩ := check_of_sound hs
    rw [h] at h'
    cases h'
    exact hfine
  · intro hfine
    obtain ⟨problems', last', h', hsound⟩ := check_new formats instructions
    rw [h] at h'
    cases h'
    exact hsound _ (verdict_of_fine hfine)

/-- **In a sound description nothing is broken but that selectors look at a field again.** -/
theorem Sound.broken_iff {formats : List Format} {instructions : List Instruction}
    (h : Sound formats instructions) {site : Site} {p : Problem} :
    Broken formats instructions site p ↔ Repeated instructions site p := by
  constructor
  · intro hb
    obtain ⟨problems, last, hcheck, htells⟩ := tells_check formats instructions
    have hwarning := (sound_iff_of_check hcheck).mp h p (htells.mem_iff.mpr ⟨site, hb⟩)
    cases hb with
    | format declared broken => cases broken <;> exact absurd rfl hwarning
    | field declared field broken => cases broken <;> exact absurd rfl hwarning
    | instruction declared broken => cases broken <;> exact absurd rfl hwarning
    | selector declared format selector broken =>
      cases broken with
      | field unknown => exact absurd rfl hwarning
      | range known wide => exact absurd rfl hwarning
      | again known seen => exact ⟨_, _, _, _, _, _, declared, selector, seen, rfl, rfl⟩
  · rintro ⟨before, i, after, first, s, rest, declared, selector, seen, rfl, rfl⟩
    have hi : i ∈ instructions := declared ▸ List.mem_append_right _ List.mem_cons_self
    obtain ⟨f, hf, hname, hsel⟩ := (h.instruction i hi).format
    obtain ⟨f', hf'⟩ := Option.isSome_iff_exists.mp (isSome_last?.mpr ⟨f, hf, hname⟩)
    obtain ⟨hmem', hname'⟩ := mem_of_last? hf'
    obtain rfl : f' = f :=
      List.inj_on_of_nodup_map h.names hmem' hf (hname'.trans hname.symm)
    obtain ⟨g, hg, -⟩ := hsel s (selector ▸ List.mem_append_right _ List.mem_cons_self)
    exact .selector declared hf' selector (.again hg seen)

end Validation

namespace Decoder

open Validation

/-- **Validation accepts the sound descriptions and no others, and hides nothing.** Whether it
accepts or refuses, it reports all that is broken; what is broken in a description that it accepts
is that selectors look at a field again. -/
theorem validate_exact (formats : List Format) (instructions : List Instruction) :
    ∃ report : Report formats instructions,
      (Sound formats instructions ∧ validate formats instructions = .ok report.diagnostics
          ∧ ∀ site p, Broken formats instructions site p ↔ Repeated instructions site p)
        ∨ (¬ Sound formats instructions
          ∧ validate formats instructions
            = .error (.refused (.diagnostics .validation report.diagnostics))
          ∧ ∃ site p, Broken formats instructions site p ∧ p.severity = .error) := by
  obtain ⟨problems, last, hcheck, htells⟩ := tells_check formats instructions
  have hbroken : ∀ p, p ∈ problems ↔ ∃ site, Broken formats instructions site p :=
    fun p => htells.mem_iff
  obtain ⟨entries, rfl, hsorted, hmem⟩ := htells
  have hvalidate : validate formats instructions
      = (verdict (entries.map Prod.snd)).mapError .refused := by rw [validate, hcheck]
  have hwords : (entries.map Prod.snd).map Problem.diagnostic
      = Report.diagnostics ⟨entries, hsorted, hmem⟩ := List.map_map
  refine ⟨⟨entries, hsorted, hmem⟩, ?_⟩
  by_cases hbad : ∃ p ∈ entries.map Prod.snd, p.severity = .error
  · refine .inr ⟨fun hs => ?_, ?_, ?_⟩
    · obtain ⟨p, hp, hsev⟩ := hbad
      exact (sound_iff_of_check hcheck).mp hs p hp hsev
    · rw [hvalidate, verdict_of_error hbad, hwords]
      rfl
    · obtain ⟨p, hp, hsev⟩ := hbad
      obtain ⟨site, hb⟩ := (hbroken p).mp hp
      exact ⟨site, p, hb, hsev⟩
  · have hok : ∀ p ∈ entries.map Prod.snd, p.severity ≠ .error :=
      fun p hp hsev => hbad ⟨p, hp, hsev⟩
    have hsound := (sound_iff_of_check hcheck).mpr hok
    refine .inl ⟨hsound, ?_, fun site p => hsound.broken_iff⟩
    rw [hvalidate, verdict_of_fine hok, hwords]
    rfl

end Decoder

end InstructionSet
