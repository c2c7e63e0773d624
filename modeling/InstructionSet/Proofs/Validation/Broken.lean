import InstructionSet.Proofs.Bits.Inverse
import InstructionSet.Validation.Register

/-!
# What is broken, and where

The rules that a description must keep, apart from any order in which they are checked.
A rule is broken at a `Site`: by a format or one of its fields, or by an instruction or
one of its selectors. Whether it is broken there is a matter of what is declared at the
site and before it, and for an instruction of the last format that has the name it asks
for. No rule looks at whether another one is kept, with the exceptions that the
constructors name: the width of a field comes before its range and its constant, and the
format of an instruction before its selectors.

`Tells` compares a list of problems with such rules. A list tells what is broken if it
has all of it, each problem once, in the order of the sites.
-/

namespace InstructionSet

namespace Validation

/-! ## Sites and their order -/

/-- Where a rule may be broken. Places count from zero, in the order of declaration. -/
inductive Site where
  | format (place : Nat)
  | field (format place : Nat)
  | instruction (place : Nat)
  | selector (instruction place : Nat)
deriving DecidableEq

/-- Sites come in the order of these lists: formats before instructions, and either before what it
consists of. -/
def Site.key : Site → List Nat
  | format k => [0, k]
  | field k j => [0, k, j]
  | instruction k => [1, k]
  | selector k j => [1, k, j]

/-- The rules that one site may break come in the order in which `Problem` has them. -/
def Problem.rank (p : Problem) : Nat := p.ctorIdx

/-- One problem is told before another. -/
def Earlier (x y : Site × Problem) : Prop :=
  x.1.key < y.1.key ∨ x.1 = y.1 ∧ x.2.rank < y.2.rank

/-! ## The rules -/

/-- What a format breaks, `before` being the formats before it. -/
inductive FormatBroken (before : List Format) (f : Format) : Problem → Prop
  | name (taken : ∃ e ∈ before, e.name = f.name) : FormatBroken before f (.duplicateFormat f.name)
  | width (odd : ¬(0 < f.bits.toNat ∧ 8 ∣ f.bits.toNat)) :
    FormatBroken before f (.unalignedFormat f.name f.bits)

/-- What a field of the format breaks, `before` being the fields before it. -/
inductive FieldBroken (f : Format) (before : List Field) (g : Field) : Problem → Prop
  | name (taken : ∃ e ∈ before, e.name = g.name) :
    FieldBroken f before g (.duplicateField f.name g.name)
  | width (odd : ¬(1 ≤ g.layout.size.toNat ∧ g.layout.size.toNat ≤ 64)) :
    FieldBroken f before g (.fieldWidth f.name g.name g.layout.size)
  | range (width : 1 ≤ g.layout.size.toNat ∧ g.layout.size.toNat ≤ 64)
    (past : f.bits.toNat < g.layout.firstBit.toNat + g.layout.size.toNat) :
    FieldBroken f before g (.fieldRange f.name g.name g.layout f.bits)
  | constant {c : Int64} (width : 1 ≤ g.layout.size.toNat ∧ g.layout.size.toNat ≤ 64)
    (holds : g.constant = some c) (wide : ¬ g.layout.Expresses c) :
    FieldBroken f before g (.constantRange f.name g.name g.layout.size c)

/-- The last format of a name. -/
def last? (formats : List Format) (name : String) : Option Format :=
  formats.reverse.find? (·.name = name)

/-- What an instruction breaks by itself, `before` being the instructions before it. Of those that
have its number, the last one is held against it. -/
inductive InstructionBroken (formats : List Format) (before : List Instruction) (i : Instruction) :
    Problem → Prop
  | number {e : Instruction} (taken : before.reverse.find? (·.id = i.id) = some e) :
    InstructionBroken formats before i (.duplicateInstructionId i.id e.name i.name)
  | chain (nothing : i.selectors.toList = []) :
    InstructionBroken formats before i (.emptySelectors i.name)
  | format (unknown : ∀ f ∈ formats, f.name ≠ i.format) :
    InstructionBroken formats before i (.unknownFormat i.name i.format)

/-- What a selector of the instruction called `name` breaks, `f` being the format of the
instruction and `before` the selectors before it. -/
inductive SelectorBroken (name : String) (f : Format) (before : List Selector) (s : Selector) :
    Problem → Prop
  | field (unknown : f.field? s.field = none) :
    SelectorBroken name f before s (.unknownSelectorField name s.field f.name)
  | range {g : Field} (known : f.field? s.field = some g) (wide : ¬ g.layout.Expresses s.value) :
    SelectorBroken name f before s (.selectorRange name s.field s.value g.layout.size)
  | again {g : Field} (known : f.field? s.field = some g) (seen : ∃ e ∈ before, e.field = s.field) :
    SelectorBroken name f before s (.repeatedSelectorField name s.field)

/-- What is broken at a site of a description. -/
inductive Broken (formats : List Format) (instructions : List Instruction) : Site → Problem → Prop
  | format {before after : List Format} {f : Format} {p : Problem}
    (declared : formats = before ++ f :: after) (broken : FormatBroken before f p) :
    Broken formats instructions (.format before.length) p
  | field {before after : List Format} {f : Format} {first rest : List Field} {g : Field}
    {p : Problem} (declared : formats = before ++ f :: after)
    (field : f.fields = first ++ g :: rest) (broken : FieldBroken f first g p) :
    Broken formats instructions (.field before.length first.length) p
  | instruction {before after : List Instruction} {i : Instruction} {p : Problem}
    (declared : instructions = before ++ i :: after)
    (broken : InstructionBroken formats before i p) :
    Broken formats instructions (.instruction before.length) p
  | selector {before after : List Instruction} {i : Instruction} {f : Format}
    {first rest : List Selector} {s : Selector} {p : Problem}
    (declared : instructions = before ++ i :: after) (format : last? formats i.format = some f)
    (selector : i.selectors.toList = first ++ s :: rest)
    (broken : SelectorBroken i.name f first s p) :
    Broken formats instructions (.selector before.length first.length) p

/-! ## Lists that tell what is broken -/

/-- The problems are those of which `P` holds, each once, in the order of the sites. -/
def Tells (problems : List Problem) (P : Site → Problem → Prop) : Prop :=
  ∃ report : List (Site × Problem), report.map Prod.snd = problems ∧ report.Pairwise Earlier
    ∧ ∀ site p, (site, p) ∈ report ↔ P site p

namespace Tells

variable {ps qs : List Problem} {P Q : Site → Problem → Prop}

theorem congr (h : Tells ps P) (hiff : ∀ site p, P site p ↔ Q site p) : Tells ps Q := by
  obtain ⟨report, hmap, hsorted, hmem⟩ := h
  exact ⟨report, hmap, hsorted, fun site p => (hmem site p).trans (hiff site p)⟩

theorem nil (h : ∀ site p, ¬ P site p) : Tells [] P :=
  ⟨[], rfl, .nil, fun site p => iff_of_false List.not_mem_nil (h site p)⟩

theorem append (hp : Tells ps P) (hq : Tells qs Q)
    (h : ∀ {site p site' p'}, P site p → Q site' p' → Earlier (site, p) (site', p')) :
    Tells (ps ++ qs) fun site p => P site p ∨ Q site p := by
  obtain ⟨report, rfl, hsorted, hmem⟩ := hp
  obtain ⟨report', rfl, hsorted', hmem'⟩ := hq
  refine ⟨report ++ report', List.map_append, ?_, fun site p => ?_⟩
  · rw [List.pairwise_append]
    exact ⟨hsorted, hsorted', fun x hx y hy => h ((hmem _ _).mp hx) ((hmem' _ _).mp hy)⟩
  · rw [List.mem_append, hmem, hmem']

/-- What is told of one site is told in the order of the rules. -/
theorem of_site {B : Problem → Prop} (site : Site) (hsorted : ps.Pairwise (·.rank < ·.rank))
    (hmem : ∀ p, p ∈ ps ↔ B p) : Tells ps fun site' p => site' = site ∧ B p := by
  refine ⟨ps.map (site, ·), ?_, ?_, fun site' p => ?_⟩
  · rw [List.map_map]
    exact List.map_id ps
  · rw [List.pairwise_map]
    exact hsorted.imp fun h => .inr ⟨rfl, h⟩
  · constructor
    · intro h
      obtain ⟨q, hq, he⟩ := List.mem_map.mp h
      obtain ⟨rfl, rfl⟩ := Prod.mk.inj he
      exact ⟨rfl, (hmem q).mp hq⟩
    · rintro ⟨rfl, hp⟩
      exact List.mem_map_of_mem ((hmem p).mpr hp)

/-- The problems that are told are those that are broken somewhere. -/
theorem mem_iff (h : Tells ps P) {p : Problem} : p ∈ ps ↔ ∃ site, P site p := by
  obtain ⟨report, rfl, -, hmem⟩ := h
  constructor
  · intro hp
    obtain ⟨⟨site, q⟩, hq, rfl⟩ := List.mem_map.mp hp
    exact ⟨site, (hmem _ _).mp hq⟩
  · rintro ⟨site, hp⟩
    exact List.mem_map.mpr ⟨_, (hmem _ _).mpr hp, rfl⟩

end Tells

/-! ## Going through a list -/

section Pass

variable {α : Type}

/-- What is said of each thing in a list, given those before it. -/
def pass (said : List α → α → List Problem) : List α → List α → List Problem
  | _, [] => []
  | before, x :: rest => said before x ++ pass said (before ++ [x]) rest

/-- **A pass that tells of each thing what is broken there tells what is broken anywhere**, if
things further on have later sites. -/
theorem Tells.pass {said : List α → α → List Problem} {P : List α → α → Site → Problem → Prop}
    (hsaid : ∀ before x, Tells (said before x) (P before x))
    (horder : ∀ {before before' x x' site site' p p'}, before.length < before'.length →
      P before x site p → P before' x' site' p' → Earlier (site, p) (site', p'))
    (before list : List α) :
    Tells (pass said before list) fun site p =>
      ∃ first x rest, list = first ++ x :: rest ∧ P (before ++ first) x site p := by
  induction list generalizing before with
  | nil =>
    refine .nil fun site p h => ?_
    obtain ⟨first, x, rest, he, -⟩ := h
    exact absurd he (by simp)
  | cons x rest ih =>
    refine ((hsaid before x).append (ih (before ++ [x])) ?_).congr fun site p => ?_
    · rintro site p site' p' hx ⟨first, y, rest', -, hy⟩
      exact horder (by simp) hx hy
    · constructor
      · rintro (hx | ⟨first, y, rest', rfl, hy⟩)
        · exact ⟨[], x, rest, rfl, by rwa [List.append_nil]⟩
        · exact ⟨x :: first, y, rest', rfl, by rwa [List.append_assoc] at hy⟩
      · rintro ⟨first, y, rest', he, hy⟩
        cases first with
        | nil =>
          obtain ⟨rfl, rfl⟩ := List.cons.inj he
          rw [List.append_nil] at hy
          exact .inl hy
        | cons x' first =>
          obtain ⟨rfl, rfl⟩ := List.cons.inj he
          exact .inr ⟨first, y, rest', rfl, by rwa [List.append_assoc]⟩

end Pass

end Validation

end InstructionSet
