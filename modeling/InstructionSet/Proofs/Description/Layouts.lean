import InstructionSet.Proofs.Description.Drafts

/-!
# The formats of a description

A description is written in one run of declarations (`declareAll`). What is said of a
draft is said of the run in turn: the literals of all drafts that were begun, kept or not,
are numbered on from one another, and each format that was kept is the one that its parts
make up from the number at which it was begun (`Written`). So no two literals of a run have
the same name, and the fields of every format lie one behind the other
(`layouts_exact`).
-/

namespace InstructionSet

namespace Declaration

/-- Whether a format comes of the declaration. -/
def addsFormat : Declaration → Bool
  | format _ _ kept => kept
  | givenFormat _ => true
  | instruction .. | givenInstruction _ => false

/-- The number of literals in the declaration, whether or not it is kept. -/
def literals : Declaration → Nat
  | format _ items _ => items.countP LayoutItem.isLiteral
  | _ => 0

/-- The draft that is begun with the declaration. -/
def draft? (d : Description) : Declaration → Option FormatDraft
  | format _ items _ => some (items.foldl FormatDraft.add { nextConstant := d.nextConstant })
  | _ => none

/-- The format that comes of the declaration if literals are numbered from there on. -/
inductive Adds (number : Nat) : Declaration → Format → Prop
  | given (f : Format) : Adds number (.givenFormat f) f
  | laidOut (name : String) (items : List LayoutItem) : Adds number (.format name items true)
      ((items.foldl FormatDraft.add { nextConstant := number }).finish name)

/-- The number of literals in the declarations. -/
def literalCount : List Declaration → Nat
  | [] => 0
  | x :: rest => x.literals + literalCount rest

theorem literalCount_concat (decls : List Declaration) (x : Declaration) :
    literalCount (decls ++ [x]) = literalCount decls + x.literals := by
  induction decls with
  | nil => exact Nat.add_comm ..
  | cons y rest ih => rw [List.cons_append, literalCount, ih, literalCount, Nat.add_assoc]

end Declaration

namespace Description

open Declaration

/-- Carries declarations out, one after the other. Answers the numbers that were handed out. -/
def declareAll (d : Description) :
    List Declaration → Except Fault (List InstructionId × Description)
  | [] => .ok ([], d)
  | x :: rest =>
    match d.declare x with
    | .error fault => .error fault
    | .ok (id, d) => (d.declareAll rest).map fun (ids, d) => (id.toList ++ ids, d)

/-- The drafts that are begun in the run, those that are abandoned as well. -/
def drafts (d : Description) : List Declaration → List FormatDraft
  | [] => []
  | x :: rest =>
    match d.declare x with
    | .error _ => []
    | .ok (_, later) => (x.draft? d).toList ++ later.drafts rest

/-- A run begins with its first declaration, and is a run from there. -/
theorem declareAll_cons {d last : Description} {x : Declaration} {rest : List Declaration}
    {ids : List InstructionId} (h : d.declareAll (x :: rest) = .ok (ids, last)) :
    ∃ id d' later, d.declare x = .ok (id, d') ∧ d'.declareAll rest = .ok (later, last)
      ∧ ids = id.toList ++ later := by
  rw [declareAll] at h
  split at h
  · exact absurd h (by simp)
  · rename_i id d' hx
    cases hrest : d'.declareAll rest with
    | error fault =>
      rw [hrest] at h
      exact absurd h (by simp [Except.map])
    | ok y =>
      rw [hrest] at h
      obtain ⟨rfl, rfl⟩ := Prod.mk.inj (Except.ok.inj h)
      exact ⟨id, d', y.1, hx, hrest, rfl⟩

/-- What one declaration does to the formats and the number of the next literal. -/
theorem declare_formats {d d' : Description} {x : Declaration} {id : Option InstructionId}
    (h : d.declare x = .ok (id, d')) :
    d'.nextConstant = d.nextConstant + x.literals
      ∧ ((x.addsFormat = false ∧ d'.formats = d.formats)
        ∨ x.addsFormat = true ∧ ∃ f, d'.formats = d.formats ++ [f] ∧ x.Adds d.nextConstant f) := by
  cases x with
  | format name items kept =>
    obtain ⟨-, rfl⟩ := Prod.mk.inj (Except.ok.inj h)
    refine ⟨(FormatDraft.drafted_foldl d.nextConstant items).nextConstant, ?_⟩
    cases kept with
    | false => exact .inl ⟨rfl, rfl⟩
    | true => exact .inr ⟨rfl, _, rfl, .laidOut name items⟩
  | givenFormat f =>
    obtain ⟨-, rfl⟩ := Prod.mk.inj (Except.ok.inj h)
    exact ⟨rfl, .inr ⟨rfl, f, rfl, .given f⟩⟩
  | givenInstruction i =>
    obtain ⟨-, rfl⟩ := Prod.mk.inj (Except.ok.inj h)
    exact ⟨rfl, .inl ⟨rfl, rfl⟩⟩
  | instruction name format settings kept =>
    unfold declare allocate at h
    cases hid : InstructionId.ofNumber? d.nextId with
    | none =>
      rw [hid] at h
      exact absurd h (by simp)
    | some id =>
      rw [hid] at h
      obtain ⟨-, rfl⟩ := Prod.mk.inj (Except.ok.inj h)
      exact ⟨rfl, .inl ⟨rfl, rfl⟩⟩

/-- What the formats of a description are after the declarations. -/
structure Written (decls : List Declaration) (d : Description) : Prop where
  nextConstant : d.nextConstant = literalCount decls
  formats : MadeOf addsFormat (fun before x f => x.Adds (literalCount before) f) decls d.formats

theorem Written.declare {decls : List Declaration} {d d' : Description} (h : Written decls d)
    {x : Declaration} {id : Option InstructionId} (hx : d.declare x = .ok (id, d')) :
    Written (decls ++ [x]) d' := by
  obtain ⟨hnext, hformats⟩ := declare_formats hx
  refine ⟨by rw [hnext, h.nextConstant, literalCount_concat], ?_⟩
  rcases hformats with ⟨hadds, hsame⟩ | ⟨hadds, f, hmore, hf⟩
  · rw [hsame]
    exact h.formats.skip hadds
  · rw [hmore]
    exact h.formats.push hadds (h.nextConstant ▸ hf)

/-- **What a run leaves of the formats that were declared in it.** -/
theorem Written.declareAll {decls before : List Declaration} {d last : Description}
    (h : Written before d) {ids : List InstructionId}
    (hrun : d.declareAll decls = .ok (ids, last)) : Written (before ++ decls) last := by
  induction decls generalizing before d ids with
  | nil =>
    obtain ⟨-, rfl⟩ := Prod.mk.inj (Except.ok.inj hrun)
    rwa [List.append_nil]
  | cons x rest ih =>
    obtain ⟨id, d', later, hx, hrest, -⟩ := declareAll_cons hrun
    have hlast := ih (h.declare hx) hrest
    rwa [List.append_assoc] at hlast

/-- **The literals of a run are numbered on from one another.** -/
theorem literalNames_drafts {decls : List Declaration} {d last : Description}
    {ids : List InstructionId} (hrun : d.declareAll decls = .ok (ids, last)) :
    (d.drafts decls).flatMap FormatDraft.literalNames
      = (List.range' d.nextConstant (literalCount decls)).map literalName := by
  induction decls generalizing d ids with
  | nil => rfl
  | cons x rest ih =>
    obtain ⟨id, d', later, hx, hrest, -⟩ := declareAll_cons hrun
    obtain ⟨hnext, -⟩ := declare_formats hx
    have hfirst : (x.draft? d).toList.flatMap FormatDraft.literalNames
        = (List.range' d.nextConstant x.literals).map literalName := by
      cases x with
      | format name items kept =>
        have hdraft := FormatDraft.drafted_foldl d.nextConstant items
        exact (List.flatMap_singleton ..).trans hdraft.literalNames
      | _ => rfl
    rw [drafts, hx]
    dsimp only
    rw [List.flatMap_append, hfirst, ih hrest, hnext, literalCount, ← List.map_append,
      List.range'_append_1]

/-- **The formats of a run are laid out from their parts, and its literals are numbered through.**
Each format of the description was given as it is, or is made of the parts of a format that was
kept, and if these have room in 32 bits their fields lie one behind the other. The literals of all
drafts, those of abandoned ones as well, have the names from `CONST_0` on, in the order in which
they were declared, and so no two of them have the same name. -/
theorem layouts_exact {decls : List Declaration} {ids : List InstructionId} {d : Description}
    (h : ({} : Description).declareAll decls = .ok (ids, d)) :
    MadeOf addsFormat (fun before x f => x = .givenFormat f
        ∨ ∃ items, x = .format f.name items true
          ∧ (LayoutItem.total items < UInt32.size → f.LaidOut (literalCount before) items))
        decls d.formats
      ∧ (({} : Description).drafts decls).flatMap FormatDraft.literalNames
        = (List.range (literalCount decls)).map literalName
      ∧ ((({} : Description).drafts decls).flatMap FormatDraft.literalNames).Nodup := by
  have hnew : Written [] {} := ⟨rfl, .nil⟩
  have hnames := literalNames_drafts h
  rw [← List.range_eq_range'] at hnames
  refine ⟨(hnew.declareAll h).formats.imp fun k x f _ hadds => ?_, hnames, ?_⟩
  · cases hadds with
    | given f => exact .inl rfl
    | laidOut name items =>
      exact .inr ⟨items, rfl, fun hroom => (FormatDraft.drafted_foldl _ items).laidOut hroom name⟩
  · rw [hnames]
    exact List.nodup_range.map literalName_injective

/-- A format that is abandoned, and one that is kept. -/
def twoFormats : List Declaration :=
  [.format "A" [.constant 4 10, .field "x" 4] false,
    .format "B" [.gap 4, .constant 4 3, .signedField "y" 8] true]

theorem layouts_exact_abandoned :
    ∃ d f, ({} : Description).declareAll twoFormats = .ok ([], d) ∧ d.formats = [f]
      ∧ f.LaidOut 1 [.gap 4, .constant 4 3, .signedField "y" 8]
      ∧ f.fields.map (fun g => (g.name, g.layout.firstBit)) = [("CONST_1", 4), ("y", 8)]
      ∧ (({} : Description).drafts twoFormats).flatMap FormatDraft.literalNames
        = ["CONST_0", "CONST_1"] := by
  have hrun : ({} : Description).declareAll twoFormats = .ok ([], _) := rfl
  obtain ⟨hformats, hnames, -⟩ := layouts_exact hrun
  refine ⟨_, _, hrun, rfl, ?_, by decide, hnames⟩
  obtain ⟨k, x, hx, -, hmade⟩ := hformats.source 0 _ rfl
  match k, hx, hmade with
  | 0, hx, hmade =>
    obtain rfl := Option.some.inj hx
    rcases hmade with hgiven | ⟨items, hkept, -⟩
    · exact absurd hgiven (by simp)
    · exact absurd hkept (by simp)
  | 1, hx, hmade =>
    obtain rfl := Option.some.inj hx
    rcases hmade with hgiven | ⟨items, hkept, hlaid⟩
    · exact absurd hgiven (by simp)
    · obtain ⟨-, rfl, -⟩ := Declaration.format.inj hkept
      exact hlaid (by decide)

end Description

end InstructionSet
