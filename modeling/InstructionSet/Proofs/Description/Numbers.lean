import InstructionSet.Proofs.Description.Layouts
import InstructionSet.Proofs.Validation.Report

/-!
# The numbers of a description

A number comes into a description in two ways: it is handed out for an instruction that is
declared, whether or not that is kept, or it comes with an instruction from elsewhere. The
next number is behind the highest that came in either way, and need not be behind one that
the description has. So a number that is handed out is above all that were used before it
(`Above`), and the instructions have numbers of their own as long as those from elsewhere
do (`numbers_exact`).

The highest number is counted without a bound (`Declaration.highest`). A run has room as
long as it stays below `2 ^ 32`, and then the 32-bit counter keeps to it (`Numbered`). A run
that ends with the last number has room as well. The counter is then 0 and not the number
behind the highest, which is no loss before another number is asked for.
-/

namespace InstructionSet

namespace Declaration

/-- Whether a number is handed out for the declaration. -/
def isNumbered : Declaration → Bool
  | instruction .. => true
  | format .. | givenFormat _ | givenInstruction _ => false

/-- The highest number that is used up after the declaration, `highest` being the one before. -/
def raise (highest : Nat) : Declaration → Nat
  | instruction .. => highest + 1
  | givenInstruction i => max highest i.id.val.toNat
  | format .. | givenFormat _ => highest

/-- The highest number that the declarations use up, and 0 if they use none. -/
def highest (decls : List Declaration) : Nat := decls.foldl raise 0

theorem highest_concat (decls : List Declaration) (x : Declaration) :
    highest (decls ++ [x]) = x.raise (highest decls) := by
  rw [highest, List.foldl_append]
  rfl

theorem le_raise (n : Nat) (x : Declaration) : n ≤ x.raise n := by
  cases x with
  | instruction => exact Nat.le_succ n
  | givenInstruction i => exact Nat.le_max_left ..
  | format => exact Nat.le_refl n
  | givenFormat => exact Nat.le_refl n

theorem highest_le_concat (decls : List Declaration) (x : Declaration) :
    highest decls ≤ highest (decls ++ [x]) := by
  rw [highest_concat]
  exact le_raise ..

theorem highest_mono {before decls : List Declaration} (h : before <+: decls) :
    highest before ≤ highest decls := by
  obtain ⟨more, rfl⟩ := h
  induction more using List.reverseRecOn with
  | nil => rw [List.append_nil]
  | append_singleton more x ih =>
    rw [← List.append_assoc]
    exact Nat.le_trans ih (highest_le_concat ..)

/-- A number that is handed out is used up behind it. -/
theorem highest_lt_take {decls : List Declaration} {k k' : Nat} {x : Declaration} (h : k < k')
    (hx : decls[k]? = some x) (hnumbered : x.isNumbered = true) :
    highest (decls.take k) < highest (decls.take k') := by
  have hnext : highest (decls.take (k + 1)) = highest (decls.take k) + 1 := by
    rw [List.take_add_one, hx, Option.toList_some, highest_concat]
    cases x with
    | instruction => rfl
    | _ => exact absurd hnumbered (by simp [isNumbered])
  have hle : highest (decls.take (k + 1)) ≤ highest (decls.take k') :=
    highest_mono (List.take_prefix_take_left h)
  omega

/-- So is one that came from elsewhere. -/
theorem le_highest_of_given {decls : List Declaration} {i : Instruction}
    (h : .givenInstruction i ∈ decls) : i.id.val.toNat ≤ highest decls := by
  obtain ⟨before, after, rfl⟩ := List.append_of_mem h
  rw [List.append_cons]
  refine Nat.le_trans ?_ (highest_mono (List.prefix_append ..))
  rw [highest_concat]
  exact Nat.le_max_right ..

end Declaration

namespace Description

open Declaration

/-- A run ends with its last declaration, and was a run before. -/
theorem declareAll_concat {d last : Description} {decls : List Declaration} {x : Declaration}
    {all : List InstructionId} :
    d.declareAll (decls ++ [x]) = .ok (all, last) ↔ ∃ ids d' id,
      d.declareAll decls = .ok (ids, d') ∧ d'.declare x = .ok (id, last)
        ∧ all = ids ++ id.toList := by
  induction decls generalizing d all with
  | nil =>
    rw [List.nil_append]
    constructor
    · intro h
      obtain ⟨id, d', later, hx, hrest, rfl⟩ := declareAll_cons h
      obtain ⟨rfl, rfl⟩ := Prod.mk.inj (Except.ok.inj hrest)
      exact ⟨[], d, id, rfl, hx, by rw [List.append_nil, List.nil_append]⟩
    · rintro ⟨ids, d', id, h, hx, rfl⟩
      obtain ⟨rfl, rfl⟩ := Prod.mk.inj (Except.ok.inj h)
      rw [declareAll, hx]
      simp [declareAll, Except.map]
  | cons y rest ih =>
    rw [List.cons_append]
    constructor
    · intro h
      obtain ⟨id', d₁, later, hy, hrest, rfl⟩ := declareAll_cons h
      obtain ⟨ids, d', id, hbefore, hx, rfl⟩ := ih.mp hrest
      refine ⟨id'.toList ++ ids, d', id, ?_, hx, by rw [List.append_assoc]⟩
      rw [declareAll, hy]
      dsimp only
      rw [hbefore]
      rfl
    · rintro ⟨ids, d', id, h, hx, rfl⟩
      obtain ⟨id', d₁, later, hy, hrest, rfl⟩ := declareAll_cons h
      rw [declareAll, hy]
      dsimp only
      rw [ih.mpr ⟨later, d', id, hrest, hx, rfl⟩, List.append_assoc]
      rfl

/-- The number is above all that were used by the declarations before it. -/
structure Above (before : List Declaration) (id : InstructionId) : Prop where
  next : id.val.toNat = highest before + 1
  given : ∀ i, .givenInstruction i ∈ before → i.id.val < id.val
  handedOut : ∀ ids d, ({} : Description).declareAll before = .ok (ids, d) →
    ∀ e ∈ ids, e.val < id.val
  present : ∀ ids d, ({} : Description).declareAll before = .ok (ids, d) →
    ∀ i ∈ d.instructions, i.id.val < id.val

/-- Whenever an instruction comes from elsewhere, the description has none of its number. -/
def GivesNew (decls : List Declaration) : Prop :=
  ∀ before i after, decls = before ++ .givenInstruction i :: after →
    ∀ ids d, ({} : Description).declareAll before = .ok (ids, d) →
      ∀ j ∈ d.instructions, j.id ≠ i.id

theorem GivesNew.of_concat {decls : List Declaration} {x : Declaration}
    (h : GivesNew (decls ++ [x])) : GivesNew decls := by
  rintro before i after rfl
  exact h before i (after ++ [x]) (by simp)

/-- What a run of declarations does with numbers. -/
structure Numbered (decls : List Declaration) (ids : List InstructionId) (d : Description) :
    Prop where
  run : ({} : Description).declareAll decls = .ok (ids, d)
  /-- As long as there is a number behind the highest, it is the next one. -/
  nextId : highest decls + 1 < UInt32.size → d.nextId.toNat = highest decls + 1
  made : MadeOf isNumbered
    (fun before x id => x.isNumbered = true ∧ id.val.toNat = highest before + 1) decls ids
  present : ∀ i ∈ d.instructions, i.id.val.toNat ≤ highest decls
  distinct : GivesNew decls → (d.instructions.map Instruction.id).Nodup

theorem numbered_new : Numbered [] [] {} where
  run := rfl
  nextId := fun _ => rfl
  made := .nil
  present := by simp
  distinct := fun _ => List.nodup_nil

/-- What is said of an instruction leaves it its number. -/
theorem id_foldl_apply (settings : List Setting) (i : Instruction) :
    (settings.foldl Instruction.apply i).id = i.id := by
  induction settings generalizing i with
  | nil => rfl
  | cons setting rest ih =>
    rw [List.foldl_cons, ih]
    cases setting <;> rfl

theorem toNat_numberAfter {id : InstructionId} (h : id.val.toNat + 1 < UInt32.size) :
    (numberAfter id).toNat = id.val.toNat + 1 := by
  have hsum : (id.val + 1).toNat = id.val.toNat + 1 := by
    rw [UInt32.toNat_add]
    exact Nat.mod_eq_of_lt h
  have hne : id.val + 1 ≠ 0 := by
    intro hzero
    rw [hzero] at hsum
    exact absurd hsum (by simp)
  rw [numberAfter, if_neg hne, hsum]

/-- Declaring an instruction uses up the next number, and the instruction has it if it is kept. -/
theorem declare_instruction (d : Description) (name format : String) (settings : List Setting)
    (kept : Bool) (hne : d.nextId ≠ 0) : ∃ last : Description,
      d.declare (.instruction name format settings kept) = .ok (some ⟨d.nextId, hne⟩, last)
        ∧ last.nextId = d.nextId + 1
        ∧ (last.instructions = d.instructions ∨ ∃ i : Instruction,
            last.instructions = d.instructions ++ [i] ∧ i.id = ⟨d.nextId, hne⟩) := by
  have hnumber : InstructionId.ofNumber? d.nextId = some ⟨d.nextId, hne⟩ := dif_pos hne
  rw [declare, allocate, hnumber]
  refine ⟨_, rfl, rfl, ?_⟩
  cases kept with
  | false => exact .inl rfl
  | true => exact .inr ⟨_, rfl, id_foldl_apply ..⟩

section Step

variable {decls : List Declaration} {ids : List InstructionId} {d : Description}

/-- Where no number is used up, all is as it was. -/
theorem Numbered.quiet (h : Numbered decls ids d) {x : Declaration} {d' : Description}
    (hx : d.declare x = .ok (none, d')) (hnumbered : x.isNumbered = false)
    (hraise : x.raise (highest decls) = highest decls) (hnext : d'.nextId = d.nextId)
    (hsame : d'.instructions = d.instructions) : Numbered (decls ++ [x]) ids d' := by
  have hhighest : highest (decls ++ [x]) = highest decls := by rw [highest_concat, hraise]
  have hrun : ({} : Description).declareAll (decls ++ [x]) = .ok (ids, d') :=
    declareAll_concat.mpr ⟨ids, d, none, h.run, hx, (List.append_nil ids).symm⟩
  refine ⟨hrun, ?_, h.made.skip hnumbered, ?_, ?_⟩
  · rw [hhighest, hnext]
    exact h.nextId
  · rw [hhighest, hsame]
    exact h.present
  · rw [hsame]
    exact fun hnew => h.distinct hnew.of_concat

/-- An instruction whose number is above the others keeps the numbers apart. -/
theorem Numbered.nodup_concat (h : Numbered decls ids d) {i : Instruction}
    (hi : ∀ j ∈ d.instructions, j.id ≠ i.id) (hnew : GivesNew decls) :
    ((d.instructions ++ [i]).map Instruction.id).Nodup := by
  rw [List.map_append, List.map_singleton, List.nodup_append]
  refine ⟨h.distinct hnew, List.nodup_singleton _, ?_⟩
  intro a ha b hb
  obtain ⟨j, hj, rfl⟩ := List.mem_map.mp ha
  rw [List.mem_singleton.mp hb]
  exact hi j hj

/-- A number that is handed out is the next one. -/
theorem Numbered.handOut (h : Numbered decls ids d) (name format : String)
    (settings : List Setting) (kept : Bool) (hroom : highest decls + 1 < UInt32.size) :
    ∃ id last, id.val.toNat = highest decls + 1
      ∧ Numbered (decls ++ [.instruction name format settings kept]) (ids ++ [id]) last := by
  have hnext := h.nextId hroom
  have hne : d.nextId ≠ 0 := by
    intro hzero
    rw [hzero] at hnext
    exact absurd hnext (by simp)
  obtain ⟨last, hx, hlast, hinstructions⟩ := declare_instruction d name format settings kept hne
  have hhighest : highest (decls ++ [.instruction name format settings kept])
      = highest decls + 1 := highest_concat ..
  refine ⟨⟨d.nextId, hne⟩, last, hnext, declareAll_concat.mpr ⟨ids, d, _, h.run, hx, rfl⟩, ?_,
    h.made.push rfl ⟨rfl, hnext⟩, ?_, ?_⟩
  · intro hmore
    rw [hhighest] at hmore
    rw [hlast, hhighest, UInt32.toNat_add, hnext]
    exact Nat.mod_eq_of_lt hmore
  · intro j hj
    rw [hhighest]
    rcases hinstructions with hsame | ⟨i, hmore, hid⟩
    · rw [hsame] at hj
      exact Nat.le_succ_of_le (h.present j hj)
    · rw [hmore] at hj
      rcases List.mem_append.mp hj with hj | hj
      · exact Nat.le_succ_of_le (h.present j hj)
      · rw [List.mem_singleton.mp hj, hid, hnext]
  · intro hnew
    rcases hinstructions with hsame | ⟨i, hmore, hid⟩
    · rw [hsame]
      exact h.distinct hnew.of_concat
    · rw [hmore]
      refine h.nodup_concat ?_ hnew.of_concat
      -- the number is above all that are there
      intro j hj he
      have hle := h.present j hj
      rw [he, hid, hnext] at hle
      omega

/-- A number from elsewhere moves the next one behind it, if it was not yet. -/
theorem Numbered.give (h : Numbered decls ids d) (i : Instruction) :
    ∃ last, Numbered (decls ++ [.givenInstruction i]) ids last := by
  have hhighest : highest (decls ++ [.givenInstruction i])
      = max (highest decls) i.id.val.toNat := highest_concat ..
  have hx : d.declare (.givenInstruction i) = .ok (none, { d with
      instructions := d.instructions ++ [i]
      nextId := max d.nextId (numberAfter i.id) }) := rfl
  refine ⟨_, declareAll_concat.mpr ⟨ids, d, none, h.run, hx, (List.append_nil ids).symm⟩, ?_,
    h.made.skip rfl, ?_, ?_⟩
  · intro hmore
    rw [hhighest] at hmore ⊢
    have hnext := h.nextId (by omega)
    have hafter : (numberAfter i.id).toNat = i.id.val.toNat + 1 := toNat_numberAfter (by omega)
    rw [UInt32.toNat_max, hnext, hafter]
    omega
  · intro j hj
    rw [hhighest]
    rcases List.mem_append.mp hj with hj | hj
    · exact Nat.le_trans (h.present j hj) (Nat.le_max_left ..)
    · rw [List.mem_singleton.mp hj]
      exact Nat.le_max_right ..
  · intro hnew
    exact h.nodup_concat (hnew decls i [] rfl ids d h.run) hnew.of_concat

/-- **One declaration more uses the number behind the highest, or none.** -/
theorem Numbered.declare (h : Numbered decls ids d) {x : Declaration}
    (hroom : highest (decls ++ [x]) < UInt32.size) :
    ∃ ids' last, Numbered (decls ++ [x]) ids' last := by
  cases x with
  | format name items kept =>
    exact ⟨ids, _, h.quiet (x := .format name items kept) rfl rfl rfl rfl rfl⟩
  | givenFormat f => exact ⟨ids, _, h.quiet (x := .givenFormat f) rfl rfl rfl rfl rfl⟩
  | givenInstruction i =>
    obtain ⟨last, hlast⟩ := h.give i
    exact ⟨ids, last, hlast⟩
  | instruction name format settings kept =>
    rw [highest_concat] at hroom
    obtain ⟨id, last, -, hlast⟩ := h.handOut name format settings kept hroom
    exact ⟨ids ++ [id], last, hlast⟩

end Step

/-- **A run that has room is answered, and its counter keeps to the highest number.** -/
theorem exists_numbered {decls : List Declaration} (hroom : highest decls < UInt32.size) :
    ∃ ids d, Numbered decls ids d := by
  induction decls using List.reverseRecOn with
  | nil => exact ⟨[], {}, numbered_new⟩
  | append_singleton decls x ih =>
    obtain ⟨ids, d, h⟩ := ih (Nat.lt_of_le_of_lt (highest_le_concat decls x) hroom)
    exact h.declare hroom

/-! ## Numbers that are handed out -/

section Run

variable {decls : List Declaration} {ids : List InstructionId} {d : Description}

/-- What is handed out is not above what is used up. -/
theorem Numbered.le_highest (h : Numbered decls ids d) {id : InstructionId} (hid : id ∈ ids) :
    id.val.toNat ≤ highest decls := by
  obtain ⟨n, hn⟩ := List.getElem?_of_mem hid
  obtain ⟨k, x, hx, -, hnumbered, hvalue⟩ := h.made.source n id hn
  have hk : k < decls.length := (List.getElem?_eq_some_iff.mp hx).1
  have hlt := highest_lt_take hk hx hnumbered
  rw [List.take_length] at hlt
  omega

/-- The number behind the highest is above all that were used. -/
theorem Numbered.above (h : Numbered decls ids d) {id : InstructionId}
    (hid : id.val.toNat = highest decls + 1) : Above decls id where
  next := hid
  given := by
    intro i hi
    have hle := le_highest_of_given hi
    rw [UInt32.lt_iff_toNat_lt]
    omega
  handedOut := by
    intro ids' d' hrun e he
    obtain ⟨rfl, rfl⟩ := Prod.mk.inj (Except.ok.inj (h.run.symm.trans hrun))
    have hle := h.le_highest he
    rw [UInt32.lt_iff_toNat_lt]
    omega
  present := by
    intro ids' d' hrun i hi
    obtain ⟨rfl, rfl⟩ := Prod.mk.inj (Except.ok.inj (h.run.symm.trans hrun))
    have hle := h.present i hi
    rw [UInt32.lt_iff_toNat_lt]
    omega

theorem Numbered.pairwise (h : Numbered decls ids d) : ids.Pairwise (·.val < ·.val) := by
  refine h.made.pairwise fun k k' x x' id id' hlt hx _ hid hid' => ?_
  have hless := highest_lt_take hlt hx hid.1
  rw [UInt32.lt_iff_toNat_lt, hid.2, hid'.2]
  omega

/-- Where nothing comes from elsewhere, numbers are used in order. -/
theorem highest_eq_countP (h : ∀ i, .givenInstruction i ∉ decls) :
    highest decls = decls.countP isNumbered := by
  induction decls using List.reverseRecOn with
  | nil => rfl
  | append_singleton decls x ih =>
    have hbefore := ih fun i hi => h i (List.mem_append_left _ hi)
    rw [highest_concat, hbefore, List.countP_append, List.countP_singleton]
    cases x with
    | givenInstruction i => exact absurd (List.mem_append_right _ (List.mem_singleton_self _)) (h i)
    | _ => rfl

theorem Numbered.consecutive (h : Numbered decls ids d) (hown : ∀ i, .givenInstruction i ∉ decls) :
    ids.map (·.val.toNat) = List.range' 1 ids.length := by
  refine List.ext_getElem (by simp) fun n hn _ => ?_
  rw [List.length_map] at hn
  obtain ⟨k, x, -, hcount, -, hvalue⟩ := h.made.source n ids[n] (List.getElem?_eq_getElem hn)
  have hbefore : highest (decls.take k) = (decls.take k).countP isNumbered :=
    highest_eq_countP fun i hi => hown i (List.mem_of_mem_take hi)
  rw [List.getElem_map, List.getElem_range', hvalue, hbefore, hcount]
  omega

end Run

end Description

/-! ## Numbers that are taken -/

namespace Validation

/-- Only a number that is taken is reported by this code. -/
theorem Problem.eq_of_code {p : Problem} (h : p.code = "validation.duplicate-instruction-id") :
    ∃ id previous instruction, p = .duplicateInstructionId id previous instruction := by
  cases p with
  | duplicateInstructionId id previous instruction => exact ⟨id, previous, instruction, rfl⟩
  | _ => exact absurd h (by simp [code])

/-- **Of instructions with numbers of their own no number is reported to be taken.** -/
theorem exists_check_of_nodup (formats : List Format) {instructions : List Instruction}
    (h : (instructions.map Instruction.id).Nodup) :
    ∃ problems last, ({} : Register).check formats instructions = .ok (problems, last)
      ∧ ∀ p ∈ problems, p.code ≠ "validation.duplicate-instruction-id" := by
  obtain ⟨problems, last, hcheck, htells⟩ := tells_check formats instructions
  refine ⟨problems, last, hcheck, fun p hp hcode => ?_⟩
  obtain ⟨id, previous, name, rfl⟩ := Problem.eq_of_code hcode
  obtain ⟨site, hbroken⟩ := htells.mem_iff.mp hp
  cases hbroken with
  | format declared broken => cases broken
  | field declared field broken => cases broken
  | selector declared format selector broken => cases broken
  | @instruction before after i _ declared broken =>
    cases broken with
    | @number e taken =>
      -- the instruction that has the number stands before the one that takes it
      have he : e ∈ before := List.mem_reverse.mp (List.mem_of_find?_eq_some taken)
      have hid : e.id = i.id := by simpa using List.find?_some taken
      rw [declared, List.map_append, List.nodup_append] at h
      exact h.2.2 _ (List.mem_map_of_mem he) _ (List.mem_map_of_mem List.mem_cons_self) hid

end Validation

namespace Description

open Declaration

/-- **No number is handed out twice.** A run with room is answered. Every number that it hands out
is the one behind the highest that was used before, handed out or not, so that the numbers rise;
they are those from 1 on if none comes from elsewhere. If each number from elsewhere is new to
the description when it comes, the instructions have numbers of their own, and checking them
reports no number as taken.

There is room for all numbers up to `2 ^ 32 - 1`. Behind that one the counter wraps to 0, as it does
where overflow is not checked. Where it is checked, a run that hands this number out stops, and only
one with `highest decls + 1 < 2 ^ 32` is sure to be answered. -/
theorem numbers_exact {decls : List Declaration} (hroom : highest decls < UInt32.size) :
    ∃ ids d, ({} : Description).declareAll decls = .ok (ids, d)
      ∧ MadeOf isNumbered (fun before x id => x.isNumbered = true ∧ Above before id) decls ids
      ∧ ids.Pairwise (·.val < ·.val)
      ∧ ((∀ i, .givenInstruction i ∉ decls) →
          ids.map (·.val.toNat) = List.range' 1 ids.length)
      ∧ (GivesNew decls → (d.instructions.map Instruction.id).Nodup
          ∧ ∀ formats, ∃ problems last,
            ({} : Validation.Register).check formats d.instructions = .ok (problems, last)
              ∧ ∀ p ∈ problems, p.code ≠ "validation.duplicate-instruction-id") := by
  obtain ⟨ids, d, h⟩ := exists_numbered hroom
  refine ⟨ids, d, h.run, ?_, h.pairwise, h.consecutive, fun hnew => ?_⟩
  · refine h.made.imp fun k x id hx hid => ?_
    -- what is before a declaration is a run of its own
    have hbefore : highest (decls.take k) < UInt32.size :=
      Nat.lt_of_le_of_lt (highest_mono (List.take_prefix k decls)) hroom
    obtain ⟨ids', d', h'⟩ := exists_numbered hbefore
    exact ⟨hid.1, h'.above hid.2⟩
  · have hids := h.distinct hnew
    exact ⟨hids, fun formats => Validation.exists_check_of_nodup formats hids⟩

/-- An instruction that is abandoned, one from elsewhere, and one that is kept. -/
def threeNumbers : List Declaration :=
  [.instruction "b" "F" [] false,
    .givenInstruction { id := ⟨7, by decide⟩, name := "a", format := "F" },
    .instruction "c" "F" [.select "op" 3] true]

theorem numbers_exact_skipped :
    ∃ ids d, ({} : Description).declareAll threeNumbers = .ok (ids, d)
      ∧ ids.map InstructionId.val = [1, 8] ∧ ids.Pairwise (·.val < ·.val)
      ∧ d.instructions.map (·.id.val) = [7, 8] ∧ (d.instructions.map Instruction.id).Nodup := by
  have hrun : ({} : Description).declareAll threeNumbers = .ok (_, _) := rfl
  have hnew : GivesNew threeNumbers := by
    intro before i after h ids d hbefore j hj
    match before, h with
    | [_], h =>
      obtain ⟨rfl, -⟩ := List.cons.inj h
      obtain ⟨-, rfl⟩ := Prod.mk.inj (Except.ok.inj hbefore)
      exact absurd hj (by simp)
    | _ :: _ :: [], h => exact absurd h (by simp [threeNumbers])
    | _ :: _ :: _ :: rest, h => exact absurd h (by simp [threeNumbers])
  have hroom : highest threeNumbers < UInt32.size := by decide
  obtain ⟨ids, d, h, -, hrise, -, hown⟩ := numbers_exact hroom
  obtain ⟨rfl, rfl⟩ := Prod.mk.inj (Except.ok.inj (hrun.symm.trans h))
  exact ⟨_, _, hrun, by decide, hrise, by decide, (hown hnew).1⟩

end Description

end InstructionSet
