import InstructionSet.Proofs.Decoder.Chains
import InstructionSet.Proofs.Forest.Runs
import InstructionSet.Proofs.Validation.Formats

/-!
# What a decoder was built of

A description that is not refused passes four stages, and each leaves something
behind that decoding can rely on: sound formats, a lawful table that speaks for
them, an entry for every instruction in its place, and a forest into which the
chains of all of them were entered. `Built` is all of this, and `built_of_build`
says that there is no decoder without it.
-/

namespace InstructionSet.Decoder

/-! ## Entering chains -/

/-- The calls by which chains are entered. -/
def calls (policy : DuplicatePolicy) (chains : List (Entry × List Test)) :
    List (Forest.Call Entry) :=
  chains.map fun x => { owner := x.1, chain := x.2, replace := policy = .lastWins }

/-- A chain that is refused is found fault with. -/
theorem error_of_refusal (policy : DuplicatePolicy) (e : Entry) (r : Forest.Refusal Entry) :
    ∃ x ∈ findings policy e (.error r), x.severity = .error := by
  cases r with
  | emptyChain => exact ⟨.emptyChain e.name, by simp [findings], rfl⟩
  | occupied existing => exact ⟨.conflict existing.name e.name, by simp [findings], rfl⟩

/-- If no fault is found, every chain is accepted. -/
theorem enter_eq {policy : DuplicatePolicy} {f : Forest Entry} {chains : List (Entry × List Test)}
    (h : ∀ x ∈ (enter policy f chains).2, x.severity ≠ .error) :
    (enter policy f chains).1 = f.after (calls policy chains)
      ∧ f.accepted (calls policy chains) = calls policy chains := by
  induction chains generalizing f with
  | nil => exact ⟨rfl, rfl⟩
  | cons x rest ih =>
    obtain ⟨e, chain⟩ := x
    have hhead : ∀ x ∈ findings policy e (f.insert e chain (policy = .lastWins)).1,
        x.severity ≠ .error := fun x hx => h x (List.mem_append_left _ hx)
    have hrest : ∀ x ∈ (enter policy (f.insert e chain (policy = .lastWins)).2 rest).2,
        x.severity ≠ .error := fun x hx => h x (List.mem_append_right _ hx)
    obtain ⟨hforest, haccepted⟩ := ih hrest
    refine ⟨hforest, ?_⟩
    rw [calls, List.map_cons, Forest.accepted]
    cases hr : (f.call ⟨e, chain, policy = .lastWins⟩).1 with
    | ok placement => exact congrArg (List.cons _) haccepted
    | error r =>
      -- a refusal would have been among the findings
      obtain ⟨x, hx, hs⟩ := error_of_refusal policy e r
      exact absurd hs (hhead x (hr ▸ hx))

theorem isError_diagnostic (x : Finding) :
    x.diagnostic.isError = decide (x.severity = .error) := rfl

/-- A decoder is made only of chains that no fault was found with. -/
theorem assemble_ok {options : Decoder.Options} {table : FieldTable} {formats : List Format}
    {chains : List (Entry × List Test)} {warnings : List Diagnostic} {d : Decoder}
    (h : assemble options table formats chains warnings = .ok d) :
    d.options = options ∧ d.table = table ∧ d.formats = formats ∧ d.entries = chains.map Prod.fst
      ∧ d.forest = ({} : Forest Entry).after (calls options.duplicates chains)
      ∧ ({} : Forest Entry).accepted (calls options.duplicates chains)
        = calls options.duplicates chains := by
  unfold assemble at h
  dsimp only at h
  split at h
  · rename_i hnone
    injection h with h
    subst h
    have hfine : ∀ x ∈ (enter options.duplicates {} chains).2, x.severity ≠ .error := by
      intro x hx hs
      have hmem : x.diagnostic ∈ ((enter options.duplicates {} chains).2.map
          Finding.diagnostic).filter Diagnostic.isError :=
        List.mem_filter.mpr ⟨List.mem_map_of_mem hx, by simp [isError_diagnostic, hs]⟩
      rw [List.isEmpty_iff.mp hnone] at hmem
      exact absurd hmem (by simp)
    exact ⟨rfl, rfl, rfl, rfl, enter_eq hfine⟩
  · exact absurd h (by simp)

/-! ## Building -/

/--
**What a decoder has of the description that it was built from.**

The entries stand in the order of the instructions, and the chains of all of them
were entered into the forest, in this order.
-/
structure Built (formats : List Format) (instructions : List Instruction) (d : Decoder) : Prop where
  sound : ∀ f ∈ formats, f.Sound
  lawful : d.table.Lawful
  speaksFor : d.table.SpeaksFor formats
  formats_eq : d.formats = formats.map d.table.number
  length_eq : d.entries.length = instructions.length
  entry : ∀ (k : Nat) (i : Instruction), instructions[k]? = some i →
    ∃ e, d.entries[k]? = some e ∧ e.place = k ∧ ∃ f, e.Describes d.table formats i f
  forest : ∃ made, d.forest.Represents made ∧ made.map Forest.Call.owner = d.entries
    ∧ ∀ c ∈ made, c.owner.chain = .ok c.chain

theorem validate_ok {formats : List Format} {instructions : List Instruction}
    {warnings : List Diagnostic} (h : validate formats instructions = .ok warnings) :
    ∀ f ∈ formats, f.Sound := by
  unfold validate at h
  split at h
  · exact absurd h (by simp)
  · rename_i problems last hc
    cases hv : Validation.verdict problems with
    | error e =>
      rw [hv] at h
      exact absurd h (by simp [Except.mapError])
    | ok found => exact Validation.sound_of_check hc hv

/-- The table and the numbered formats are those of a unification without conflicts. -/
theorem exists_unified {formats numbered : List Format} {t : FieldTable}
    (h : unify formats = .ok (t, numbered)) :
    ∃ u, FieldTable.unify formats = .ok u ∧ u.verdict = .ok t ∧ u.formats = numbered := by
  unfold unify at h
  split at h
  · exact absurd h (by simp)
  · rename_i u hu
    split at h
    · exact absurd h (by simp)
    · rename_i table hv
      obtain ⟨rfl, hn⟩ := Prod.mk.inj (Except.ok.inj h)
      exact ⟨u, hu, hv, hn⟩

theorem unify_ok {formats numbered : List Format} {t : FieldTable}
    (h : unify formats = .ok (t, numbered)) :
    t.Lawful ∧ t.SpeaksFor formats ∧ numbered = formats.map t.number := by
  obtain ⟨u, hu, hv, rfl⟩ := exists_unified h
  exact FieldTable.unify_verdict hu hv

theorem mapError_eq_ok {ε ε' α : Type} {x : Except ε α} {f : ε → ε'} {a : α}
    (h : x.mapError f = .ok a) : x = .ok a := by
  cases x with
  | error e => exact absurd h (by simp [Except.mapError])
  | ok b =>
    injection h with h
    rw [h]

/-- What is made of an answer can be worked out from where the answer comes from. -/
theorem eq_of_map_eq_ok {ε α β : Type} {x : Except ε α} {a : α} {b : β} (g : α → β)
    (hx : x = .ok a) (h : x.map g = .ok b) : g a = b := by
  rw [hx] at h
  exact Except.ok.inj h

/-- A decoder has passed every stage. -/
theorem build_ok {formats : List Format} {instructions : List Instruction}
    {options : Decoder.Options} {d : Decoder} (h : build formats instructions options = .ok d) :
    ∃ warnings chains, validate formats instructions = .ok warnings
      ∧ unify formats = .ok (d.table, d.formats) ∧ resolve d.formats instructions = .ok chains
      ∧ assemble options d.table d.formats chains warnings = .ok d := by
  unfold build at h
  rw [bind_eq_ok] at h
  obtain ⟨warnings, hvalid, h⟩ := h
  rw [bind_eq_ok] at h
  obtain ⟨⟨table, numbered⟩, hunify, h⟩ := h
  dsimp only at h
  rw [bind_eq_ok] at h
  obtain ⟨chains, hresolve, hassemble⟩ := h
  replace hassemble := mapError_eq_ok hassemble
  obtain ⟨-, rfl, rfl, -, -, -⟩ := assemble_ok hassemble
  exact ⟨warnings, chains, hvalid, hunify, mapError_eq_ok hresolve, hassemble⟩

/-- The table and the numbers of the fields are a matter of the formats alone. -/
theorem table_eq_of_build {formats : List Format} {instructions instructions' : List Instruction}
    {options options' : Decoder.Options} {d d' : Decoder}
    (h : build formats instructions options = .ok d)
    (h' : build formats instructions' options' = .ok d') :
    d.table = d'.table ∧ d.formats = d'.formats := by
  obtain ⟨_, _, -, hu, -⟩ := build_ok h
  obtain ⟨_, _, -, hu', -⟩ := build_ok h'
  exact Prod.mk.inj (Except.ok.inj (hu.symm.trans hu'))

/-- **No decoder without all that a description leaves behind.** -/
theorem built_of_build {formats : List Format} {instructions : List Instruction}
    {options : Decoder.Options} {d : Decoder} (h : build formats instructions options = .ok d) :
    d.options = options ∧ Built formats instructions d := by
  obtain ⟨warnings, chains, hvalid, hunify, hresolve, hassemble⟩ := build_ok h
  obtain ⟨hlawful, hspeaks, hformats⟩ := unify_ok hunify
  rw [hformats] at hresolve
  obtain ⟨hentries, hchains⟩ := resolve_ok hresolve
  obtain ⟨hlen, hentry⟩ := entriesFrom_ok hentries
  obtain ⟨hoptions, -, -, hfst, hforest, haccepted⟩ := assemble_ok hassemble
  rw [← hfst] at hlen hentry
  have hrun := Forest.represents_after (Forest.represents_empty (α := Entry))
    (calls options.duplicates chains)
  rw [List.nil_append, haccepted, ← hforest] at hrun
  refine ⟨hoptions, validate_ok hvalid, hlawful, hspeaks, hformats, hlen, ?_, _, hrun, ?_, ?_⟩
  · intro k i hi
    obtain ⟨e, he, hp, hd⟩ := hentry k i hi
    exact ⟨e, he, by rw [hp, Nat.zero_add], hd⟩
  · rw [calls, List.map_map, hfst]
    rfl
  · intro c hc
    obtain ⟨x, hx, rfl⟩ := List.mem_map.mp hc
    exact hchains x hx

end InstructionSet.Decoder
