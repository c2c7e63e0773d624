import InstructionSet.Proofs.Validation.Report

/-!
# A register that is used again

A register that has checked one description may check another, and does not forget in
between. What it knows of a format is the place that it had in the list that declared
it, and that list is gone: in the present one there may be another format in this
place, or nothing.

`Remembers` says what a register remembers of the descriptions that it has checked, and
`check_reused` what comes of the next one. An instruction is held against whatever format
is in the remembered place (`held?`). That is a format of its name if the description
declares one. If it does not, but an earlier one did, the instruction may pass although
its format is not there, and a place past the end of the list leaves the description
without an answer.
-/

namespace InstructionSet.Validation

/-! ## What is remembered -/

/-- The formats of some lists, each with its place in its own. -/
def placed (lists : List (List Format)) : List (String × Nat) :=
  lists.flatMap fun formats => (formats.map Format.name).zipIdx

/-- The place that is remembered of a name: the one that was declared last. -/
def remembered? (lists : List (List Format)) (name : String) : Option Nat :=
  (placed lists).reverse.lookup name

/-- The format that an instruction is held against: whatever is in the remembered place of the list
`formats`. -/
def held? (lists : List (List Format)) (formats : List Format) (i : Instruction) : Option Format :=
  (remembered? lists i.format).bind (formats[·]?)

/-- What a register remembers, the formats having been declared in `lists`. -/
structure Register.Remembers (r : Register) (lists : List (List Format))
    (instructions : List Instruction) : Prop where
  formats : r.formats = (placed lists).reverse
  instructions : r.instructions = (instructions.map fun i => (i.id, i.name)).reverse

/-- The register has given an answer to every description of the history, one after the other. -/
inductive Register.After : List (List Format × List Instruction) → Register → Prop where
  | new : After [] {}
  | more {history : List (List Format × List Instruction)} {r next : Register}
      {formats : List Format} {instructions : List Instruction} {problems : List Problem} :
    After history r → r.check formats instructions = .ok (problems, next) →
      After (history ++ [(formats, instructions)]) next

section Lists

variable {lists : List (List Format)} {formats : List Format} {name : String}

theorem placed_concat (lists : List (List Format)) (formats : List Format) :
    placed (lists ++ [formats]) = placed lists ++ (formats.map Format.name).zipIdx := by
  rw [placed, List.flatMap_append, List.flatMap_singleton]
  rfl

theorem remembered?_concat : remembered? (lists ++ [formats]) name
    = ((formats.map Format.name).zipIdx.reverse.lookup name).or (remembered? lists name) := by
  rw [remembered?, placed_concat, List.reverse_append, List.lookup_append]
  rfl

theorem lookup_zipIdx_eq_none : (formats.map Format.name).zipIdx.reverse.lookup name = none
    ↔ ∀ f ∈ formats, f.name ≠ name := by
  rw [List.lookup_eq_none_iff]
  constructor
  · intro h f hf hname
    obtain ⟨k, hk⟩ := List.getElem?_of_mem (List.mem_map_of_mem (f := Format.name) hf)
    have hmem : (f.name, k) ∈ (formats.map Format.name).zipIdx.reverse :=
      List.mem_reverse.mpr (List.mem_zipIdx_iff_getElem?.mpr hk)
    exact absurd hname.symm (bne_iff_ne.mp (h _ hmem))
  · intro h x hx
    obtain ⟨f, hf, he⟩ := List.mem_map.mp (List.fst_mem_of_mem_zipIdx (List.mem_reverse.mp hx))
    exact bne_iff_ne.mpr fun hname => h f hf (he.trans hname.symm)

/-- Nothing is remembered of a name that was never declared. -/
theorem remembered?_eq_none :
    remembered? lists name = none ↔ ∀ formats ∈ lists, ∀ f ∈ formats, f.name ≠ name := by
  induction lists using List.reverseRecOn with
  | nil => simp [remembered?, placed]
  | append_singleton lists formats ih =>
    rw [remembered?_concat, Option.or_eq_none_iff, lookup_zipIdx_eq_none, ih,
      List.forall_mem_append, List.forall_mem_singleton, and_comm]

/-- A list that does not have the name leaves what is remembered of it. -/
theorem remembered?_of_foreign (h : ∀ f ∈ formats, f.name ≠ name) :
    remembered? (lists ++ [formats]) name = remembered? lists name := by
  rw [remembered?_concat, lookup_zipIdx_eq_none.mpr h, Option.none_or]

end Lists

/-! ## Formats -/

theorem checkFormats_snd (r : Register) (place : Nat) (formats : List Format) :
    (r.checkFormats place formats).2 = { r with
      formats := ((formats.map Format.name).zipIdx place).reverse ++ r.formats } := by
  induction formats generalizing r place with
  | nil => rfl
  | cons f rest ih =>
    rw [Register.checkFormats]
    dsimp only
    rw [ih, List.map_cons, List.zipIdx_cons, List.reverse_cons, List.append_assoc]
    rfl

/-- Of formats it matters only which names are known, and not by which places. -/
theorem checkFormats_fst {r : Register} {before : List Format}
    (h : ∀ name, (r.formats.lookup name).isSome = (last? before name).isSome) (place : Nat)
    (formats : List Format) :
    (r.checkFormats place formats).1 = pass formatSaid before formats := by
  induction formats generalizing r place before with
  | nil => rfl
  | cons f rest ih =>
    have henter : ∀ name, (List.lookup name ((f.name, place) :: r.formats)).isSome
        = (last? (before ++ [f]) name).isSome := by
      intro name
      rw [List.lookup_cons, last?, List.reverse_append, List.reverse_singleton,
        List.singleton_append, List.find?_cons]
      by_cases hname : f.name = name
      · rw [hname, beq_self_eq_true, decide_eq_true rfl]
        rfl
      · rw [beq_false_of_ne (Ne.symm hname), decide_eq_false hname]
        exact h name
    rw [Register.checkFormats, pass, formatSaid, ← h f.name]
    exact congrArg (formatProblems _ f ++ ·) (ih henter (place + 1))

section Lists

variable {lists : List (List Format)} {formats : List Format} {before : List Instruction}
  {r : Register}

theorem Register.Remembers.lookup (h : r.Remembers lists before) (name : String) :
    r.formats.lookup name = remembered? lists name := by
  rw [h.formats]
  rfl

theorem Register.Remembers.isSome_lookup (h : r.Remembers lists before) (name : String) :
    (r.formats.lookup name).isSome = (last? lists.flatten name).isSome := by
  rw [h.lookup, Bool.eq_iff_iff, ← not_iff_not, Bool.not_eq_true, Bool.not_eq_true,
    Option.isSome_eq_false_iff, Option.isSome_eq_false_iff, Option.isNone_iff_eq_none,
    Option.isNone_iff_eq_none, remembered?_eq_none, last?_eq_none]
  simp only [List.mem_flatten]
  grind

/-- **The formats of one list more are remembered,** and what is said of them is that of a pass in
which all that were declared before are known. -/
theorem Register.Remembers.checkFormats (h : r.Remembers lists before) (formats : List Format) :
    (r.checkFormats 0 formats).1 = pass formatSaid lists.flatten formats
      ∧ (r.checkFormats 0 formats).2.Remembers (lists ++ [formats]) before := by
  refine ⟨checkFormats_fst h.isSome_lookup 0 formats, ?_⟩
  rw [checkFormats_snd]
  exact ⟨by rw [placed_concat, List.reverse_append, h.formats], h.instructions⟩

/-- **A name that the present list has leads to a format of the name.** -/
theorem remembered?_of_own (lists : List (List Format)) {name : String}
    (h : ∃ f ∈ formats, f.name = name) :
    ∃ k f, remembered? (lists ++ [formats]) name = some k ∧ formats[k]? = some f
      ∧ f.name = name := by
  obtain ⟨-, hlatest, -⟩ := checkFormats_eq (r := {}) [] (fun _ => rfl) formats
  have hplaces := hlatest name
  rw [List.length_nil, checkFormats_snd, List.append_nil, List.nil_append] at hplaces
  obtain ⟨f, hf⟩ := Option.isSome_iff_exists.mp (isSome_last?.mpr h)
  rw [hf, Option.map_some, Option.map_eq_some_iff] at hplaces
  obtain ⟨k, hk, he⟩ := hplaces
  exact ⟨k, f, by rw [remembered?_concat, hk, Option.some_or], he, (mem_of_last? hf).2⟩

end Lists

/-! ## Instructions -/

/-- The place that is remembered of the instruction's format, if the list `formats` does not have so
many. -/
def lost? (lists : List (List Format)) (formats : List Format) (i : Instruction) : Option Nat :=
  (remembered? lists i.format).filter (formats.length ≤ ·)

theorem lost?_eq_some {lists : List (List Format)} {formats : List Format} {i : Instruction}
    {k : Nat} : lost? lists formats i = some k
      ↔ remembered? lists i.format = some k ∧ formats.length ≤ k := by
  rw [lost?, Option.filter_eq_some_iff, decide_eq_true_iff]

theorem lost?_eq_none {lists : List (List Format)} {formats : List Format} {i : Instruction} :
    lost? lists formats i = none
      ↔ ∀ k, remembered? lists i.format = some k → k < formats.length := by
  rw [lost?, Option.filter_eq_none_iff]
  simp only [decide_eq_true_iff, Nat.not_le]

/-- What is said of an instruction that is held against `format?`, given the instructions before
it. -/
def heldSaid (format? : Instruction → Option Format) (before : List Instruction)
    (i : Instruction) : List Problem :=
  headProblems ((before.reverse.find? (·.id = i.id)).map Instruction.name) i
    ++ match format? i with
      | none => [.unknownFormat i.name i.format]
      | some f => selectorProblems i.name f [] i.selectors.toList

section Lists

variable {lists : List (List Format)} {formats : List Format} {before : List Instruction}
  {r : Register} {i : Instruction}

theorem Register.Remembers.enter (h : r.Remembers lists before) (i : Instruction) :
    Register.Remembers { r with instructions := (i.id, i.name) :: r.instructions } lists
      (before ++ [i]) where
  formats := h.formats
  instructions := by
    rw [List.map_append, List.reverse_append, ← h.instructions]
    rfl

theorem instructionProblems_of_lost (h : r.Remembers lists before) {k : Nat}
    (hlost : lost? lists formats i = some k) :
    r.instructionProblems formats i = .error (.formatOutOfRange k) := by
  obtain ⟨hk, hle⟩ := lost?_eq_some.mp hlost
  rw [Register.instructionProblems, h.lookup, hk]
  dsimp only
  rw [List.getElem?_eq_none hle]

theorem instructionProblems_of_held (h : r.Remembers lists before)
    (hheld : lost? lists formats i = none) :
    r.instructionProblems formats i = .ok (heldSaid (held? lists formats) before i) := by
  rw [Register.instructionProblems, h.lookup, heldSaid, held?, h.instructions, lookup_instructions]
  cases hk : remembered? lists i.format with
  | none => rfl
  | some k =>
    have hlt : k < formats.length := lost?_eq_none.mp hheld k hk
    rw [Option.bind_some, List.getElem?_eq_getElem hlt]
    dsimp only
    rw [List.getElem?_eq_getElem hlt]

/-- The first instruction whose format is lost puts an end to it. -/
theorem checkInstructions_of_lost (h : r.Remembers lists before) {instructions : List Instruction}
    {k : Nat} (hlost : instructions.findSome? (lost? lists formats) = some k) :
    r.checkInstructions formats instructions = .error (.formatOutOfRange k) := by
  induction instructions generalizing r before with
  | nil => exact absurd hlost (by simp)
  | cons i rest ih =>
    rw [List.findSome?_cons] at hlost
    rw [Register.checkInstructions]
    cases hi : lost? lists formats i with
    | some k' =>
      rw [hi] at hlost
      rw [instructionProblems_of_lost h hi, Option.some.inj hlost]
    | none =>
      rw [hi] at hlost
      rw [instructionProblems_of_held h hi]
      dsimp only
      rw [ih (h.enter i) hlost]

/-- **If no format is lost, each instruction is held against what is in the remembered place.** -/
theorem checkInstructions_of_held (h : r.Remembers lists before) {instructions : List Instruction}
    (hheld : instructions.findSome? (lost? lists formats) = none) :
    ∃ last, r.checkInstructions formats instructions
        = .ok (pass (heldSaid (held? lists formats)) before instructions, last)
      ∧ last.Remembers lists (before ++ instructions) := by
  induction instructions generalizing r before with
  | nil => exact ⟨r, rfl, by rwa [List.append_nil]⟩
  | cons i rest ih =>
    rw [List.findSome?_cons] at hheld
    cases hi : lost? lists formats i with
    | some k =>
      rw [hi] at hheld
      exact absurd hheld (by simp)
    | none =>
      rw [hi] at hheld
      obtain ⟨last, hlast, hr⟩ := ih (h.enter i) hheld
      refine ⟨last, ?_, by rwa [List.append_assoc, List.singleton_append] at hr⟩
      rw [Register.checkInstructions, instructionProblems_of_held h hi, pass]
      dsimp only
      rw [hlast]

end Lists

/-! ## One description after the other -/

/-- What comes of a description that is checked behind the lists `earlier` and the instructions
`before`. -/
structure Reused (earlier : List (List Format)) (before : List Instruction)
    (formats : List Format) (instructions : List Instruction)
    (answer : Except Fault (List Problem × Register)) : Prop where
  /-- The first instruction whose format is lost leaves the description without an answer. -/
  lost : ∀ k, instructions.findSome? (lost? (earlier ++ [formats]) formats) = some k →
    answer = .error (.formatOutOfRange k)
  /-- Otherwise there is one. It tells of names and numbers that are taken as if all had been one
  description, and holds each instruction against the format in the remembered place. -/
  answered : instructions.findSome? (lost? (earlier ++ [formats]) formats) = none → ∃ next,
    answer = .ok (pass formatSaid earlier.flatten formats
      ++ pass (heldSaid (held? (earlier ++ [formats]) formats)) before instructions, next)
  /-- A format that the description declares is not lost, and the one of that name. -/
  own : ∀ i : Instruction, (∃ f ∈ formats, f.name = i.format) →
    lost? (earlier ++ [formats]) formats i = none
      ∧ ∃ f ∈ formats, f.name = i.format ∧ held? (earlier ++ [formats]) formats i = some f
  /-- One that was never declared is not lost either, and there is none. -/
  unknown : ∀ i : Instruction, (∀ l ∈ earlier ++ [formats], ∀ f ∈ l, f.name ≠ i.format) →
    lost? (earlier ++ [formats]) formats i = none
      ∧ held? (earlier ++ [formats]) formats i = none
  /-- One that only an earlier description declared is looked for in its place there. -/
  foreign : ∀ i : Instruction, (∀ f ∈ formats, f.name ≠ i.format) →
    remembered? (earlier ++ [formats]) i.format = remembered? earlier i.format

section Check

variable {lists : List (List Format)} {formats : List Format} {before : List Instruction}
  {instructions : List Instruction} {r : Register}

theorem check_of_lost (h : r.Remembers lists before) {k : Nat}
    (hlost : instructions.findSome? (lost? (lists ++ [formats]) formats) = some k) :
    r.check formats instructions = .error (.formatOutOfRange k) := by
  rw [Register.check]
  dsimp only
  rw [checkInstructions_of_lost (h.checkFormats formats).2 hlost]

theorem check_of_held (h : r.Remembers lists before)
    (hheld : instructions.findSome? (lost? (lists ++ [formats]) formats) = none) :
    ∃ next, r.check formats instructions = .ok (pass formatSaid lists.flatten formats
        ++ pass (heldSaid (held? (lists ++ [formats]) formats)) before instructions, next)
      ∧ next.Remembers (lists ++ [formats]) (before ++ instructions) := by
  obtain ⟨hsaid, hformats⟩ := h.checkFormats formats
  obtain ⟨next, hnext, hr⟩ := checkInstructions_of_held hformats hheld
  refine ⟨next, ?_, hr⟩
  rw [Register.check]
  dsimp only
  rw [hnext, hsaid]

/-- An answer makes the description part of what is remembered. -/
theorem Register.Remembers.check (h : r.Remembers lists before) {problems : List Problem}
    {next : Register} (hcheck : r.check formats instructions = .ok (problems, next)) :
    next.Remembers (lists ++ [formats]) (before ++ instructions) := by
  cases hlost : instructions.findSome? (lost? (lists ++ [formats]) formats) with
  | some k =>
    rw [check_of_lost h hlost] at hcheck
    exact absurd hcheck (by simp)
  | none =>
    obtain ⟨next', hnext, hr⟩ := check_of_held h hlost
    obtain ⟨-, rfl⟩ := Prod.mk.inj (Except.ok.inj (hcheck.symm.trans hnext))
    exact hr

/-- **What a register remembers is its history.** -/
theorem remembers_after {history : List (List Format × List Instruction)}
    (h : Register.After history r) :
    r.Remembers (history.map Prod.fst) (history.flatMap Prod.snd) := by
  induction h with
  | new => exact ⟨rfl, rfl⟩
  | more _ hcheck ih =>
    rw [List.map_append, List.map_singleton, List.flatMap_append, List.flatMap_singleton]
    exact ih.check hcheck

/--
**What comes of using a register again.** Whatever descriptions it has given answers to,
the next one is left without an answer exactly if it has an instruction whose format is
remembered to be in a place that the present list does not have. A description is safe
from that, and its instructions from being held against a format of another name, as far
as it declares their formats itself or nobody ever did.
-/
theorem check_reused {history : List (List Format × List Instruction)}
    (h : Register.After history r) (formats : List Format) (instructions : List Instruction) :
    Reused (history.map Prod.fst) (history.flatMap Prod.snd) formats instructions
      (r.check formats instructions) where
  lost := fun k => check_of_lost (remembers_after h)
  answered := by
    intro hheld
    obtain ⟨next, hnext, -⟩ := check_of_held (remembers_after h) hheld
    exact ⟨next, hnext⟩
  own := by
    intro i hown
    obtain ⟨k, f, hk, hf, hname⟩ := remembered?_of_own (history.map Prod.fst) hown
    refine ⟨lost?_eq_none.mpr fun k' hk' => ?_, f, List.mem_of_getElem? hf, hname, ?_⟩
    · obtain rfl : k = k' := Option.some.inj (hk.symm.trans hk')
      exact (List.getElem?_eq_some_iff.mp hf).1
    · rw [held?, hk, Option.bind_some, hf]
  unknown := by
    intro i hnever
    have hnone := remembered?_eq_none.mpr hnever
    exact ⟨by rw [lost?, hnone, Option.filter_none], by rw [held?, hnone, Option.bind_none]⟩
  foreign := fun i hforeign => remembered?_of_foreign hforeign

end Check

/-- A format of one byte that is one field. -/
def oneField (name field : String) : Format :=
  { name, bits := 8, fields := [{ name := field, layout := ⟨0, 8, false⟩ }] }

/-- An instruction that asks for a one in the field. -/
def askFor (id : InstructionId) (name format field : String) : Instruction :=
  { id, name, format, selectors := ⟨[⟨field, 1⟩]⟩ }

/-- The second format of the first description is missed in the next two: one has another format in
its place, and the other has none. -/
theorem check_reused_missing :
    ∃ r next, Register.After [([oneField "A" "op", oneField "B" "op"], [])] r
      ∧ r.check [oneField "C" "op", oneField "D" "code"] [askFor ⟨1, by decide⟩ "x" "B" "code"]
        = .ok ([], next)
      ∧ next.check [] [askFor ⟨2, by decide⟩ "y" "B" "op"] = .error (.formatOutOfRange 1) := by
  have hfirst : ∃ problems r, ({} : Register).check [oneField "A" "op", oneField "B" "op"] []
      = .ok (problems, r) := ⟨_, _, rfl⟩
  obtain ⟨problems, r, hr⟩ := hfirst
  have hafter : Register.After [([oneField "A" "op", oneField "B" "op"], [])] r := .more .new hr
  have hsecond := check_reused hafter [oneField "C" "op", oneField "D" "code"]
    [askFor ⟨1, by decide⟩ "x" "B" "code"]
  obtain ⟨next, hnext⟩ := hsecond.answered (by decide)
  have hthird := check_reused (.more hafter hnext) [] [askFor ⟨2, by decide⟩ "y" "B" "op"]
  exact ⟨r, next, hafter, hnext, hthird.lost 1 (by decide)⟩

end InstructionSet.Validation
