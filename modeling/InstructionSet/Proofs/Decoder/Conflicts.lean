import InstructionSet.Proofs.Decoder.Clashes
import InstructionSet.Proofs.Decoder.Exact

/-!
# What a build says about clashes

The two policies differ in what they make of a clash, not in what is one. Under
`lastWins` a description that comes as far as its chains is never refused, and its
clashes are among the warnings; under `reject` it is refused exactly if there are
any. If there are none, both policies make the same decoder.

`ClashReport` says so of one description, and place by place what is said about
which chains; `clash_report` says that it is true of all of them.
-/

namespace InstructionSet

/-- Does the diagnostic tell of two chains of which one begins with the other? -/
def Diagnostic.isClash (d : Diagnostic) : Bool :=
  d.code = "forest.duplicate-terminal" ∨ d.code = "forest.shadowed"

/-- Does it tell of two chains that are the same, if both could be entered? -/
def Diagnostic.isDuplicate (d : Diagnostic) : Bool := d.code = "forest.duplicate-terminal"

namespace Decoder

theorem Finding.IsAbout.isClash {earlier later : Entry × List Test} {x : Finding}
    (h : x.IsAbout earlier later) : x.diagnostic.isClash = true := by
  cases x with
  | emptyChain instruction => exact h.elim
  | deep depth threshold => exact h.elim
  | _ => rfl

theorem Finding.IsAbout.subject {earlier later : Entry × List Test} {x : Finding}
    (h : x.IsAbout earlier later) : x.diagnostic.subject = some later.1.name := by
  cases x with
  | conflict first second => exact congrArg some h.2.1
  | emptyChain instruction => exact h.elim
  | replaced first second => exact congrArg some h.2.1
  | unreachable instruction front => exact congrArg some h.1
  | hides instruction behind => exact congrArg some h.1
  | deep depth threshold => exact h.elim

/-- Nothing that is found about a description by itself is about two chains. -/
theorem isClash_of_validate {formats : List Format} {instructions : List Instruction}
    {warnings : List Diagnostic} (h : validate formats instructions = .ok warnings) :
    ∀ w ∈ warnings, w.isClash = false := by
  unfold validate at h
  split at h
  · exact absurd h (by simp)
  · rename_i problems last _
    have hv := mapError_eq_ok h
    unfold Validation.verdict at hv
    dsimp only at hv
    split at hv
    · exact absurd hv (by simp)
    · injection hv with hv
      subst hv
      intro w hw
      obtain ⟨p, -, rfl⟩ := List.mem_map.mp hw
      cases p <;> rfl

theorem isClash_of_depth (options : Decoder.Options) (f : Forest Entry) :
    ∀ w ∈ (depthFindings options f).map Finding.diagnostic, w.isClash = false := by
  unfold depthFindings
  intro w hw
  split at hw
  · rw [List.mem_singleton.mp hw]
    rfl
  · exact absurd hw (by simp)

/-- What is reported about the chain in place `k`. -/
def reportedAt (policy : DuplicatePolicy) (chains : List (Entry × List Test)) (k : Nat) :
    List Diagnostic := (foundAt policy chains k).map Finding.diagnostic

/-- What is reported about all chains, in the order of their places. -/
def reported (policy : DuplicatePolicy) (chains : List (Entry × List Test)) : List Diagnostic :=
  (List.range chains.length).flatMap (reportedAt policy chains)

theorem map_enter_snd (policy : DuplicatePolicy) (chains : List (Entry × List Test)) :
    (enter policy {} chains).2.map Finding.diagnostic = reported policy chains := by
  rw [enter_snd, List.map_flatMap]
  rfl

section Chains

variable {chains : List (Entry × List Test)} (hne : ∀ x ∈ chains, x.2 ≠ [])
include hne

theorem mem_reported {policy : DuplicatePolicy} {w : Diagnostic} (hw : w ∈ reported policy chains) :
    ∃ (k : Nat) (x : Finding), x ∈ foundAt policy chains k ∧ x.diagnostic = w
      ∧ w.isClash = true ∧ (w.isError = true ↔ policy = .reject) := by
  obtain ⟨k, hk, hw⟩ := List.mem_flatMap.mp hw
  obtain ⟨x, hx, rfl⟩ := List.mem_map.mp hw
  obtain ⟨j, y, -, -, habout⟩ :=
    foundAt_about hne (List.getElem?_eq_getElem (List.mem_range.mp hk)) hx
  refine ⟨k, x, hx, rfl, habout.isClash, ?_⟩
  rw [isError_diagnostic, decide_eq_true_iff]
  exact severity_of_foundAt hne hx

/-- Nothing is reported exactly if no two chains clash. -/
theorem reported_eq_nil_iff (policy : DuplicatePolicy) :
    reported policy chains = [] ↔ Clashless chains := by
  rw [← map_enter_snd, List.map_eq_nil_iff, enter_eq_nil_iff hne]

/-! ## The two policies -/

/-- Under `lastWins` nothing is refused. -/
theorem assemble_lastWins {options : Decoder.Options} (ho : options.duplicates = .lastWins)
    (table : FieldTable) (formats : List Format) (warnings : List Diagnostic) :
    assemble options table formats chains warnings
      = .ok {
          options, table, formats
          forest := (enter .lastWins {} chains).1
          entries := chains.map Prod.fst
          warnings := warnings ++ reported .lastWins chains
            ++ (depthFindings options (enter .lastWins {} chains).1).map Finding.diagnostic } := by
  have hnone : (reported .lastWins chains).filter Diagnostic.isError = [] := by
    rw [List.filter_eq_nil_iff]
    intro w hw he
    obtain ⟨_, _, -, -, -, herror⟩ := mem_reported hne hw
    exact absurd (herror.mp he) (by simp)
  unfold assemble
  rw [ho]
  dsimp only
  rw [map_enter_snd, hnone]
  rfl

/-- Under `reject` every clash refuses the description, and all of them are reported. -/
theorem assemble_reject {options : Decoder.Options} (ho : options.duplicates = .reject)
    (table : FieldTable) (formats : List Format) (warnings : List Diagnostic) :
    assemble options table formats chains warnings
      = if reported .reject chains = [] then
          .ok {
            options, table, formats
            forest := (enter .reject {} chains).1
            entries := chains.map Prod.fst
            warnings := warnings
              ++ (depthFindings options (enter .reject {} chains).1).map Finding.diagnostic }
        else .error (.diagnostics .treeBuild (reported .reject chains)) := by
  have hall : (reported .reject chains).filter Diagnostic.isError = reported .reject chains := by
    rw [List.filter_eq_self]
    intro w hw
    obtain ⟨_, _, -, -, -, herror⟩ := mem_reported hne hw
    exact herror.mpr rfl
  unfold assemble
  rw [ho]
  dsimp only
  rw [map_enter_snd, hall]
  by_cases hnil : reported .reject chains = []
  · rw [hnil, if_pos rfl, List.append_nil]
    rfl
  · rw [if_neg hnil, if_neg (by rwa [List.isEmpty_iff])]

end Chains

/-- What `lastWins` has to say of a chain begins with the owner that gives way. -/
theorem findings_lastWins {f : Forest Entry} {made : List (Forest.Call Entry)}
    (h : f.Represents made) {e : Entry} {chain : List Test} (hne : chain ≠ []) :
    findings .lastWins e (f.insert e chain true).1
      = (f.branches.owner? chain).toList.map (fun other => .replaced other.name e.name)
        ++ (f.branches.front? chain).toList.map (fun other => .unreachable e.name other.name)
        ++ (f.branches.behind? chain).toList.map (fun other => .hides e.name other.name) := by
  have hins : findings .lastWins e (f.insert e chain (DuplicatePolicy.lastWins = .lastWins)).1
      = _ := findings_insert h hne
  rw [show decide (DuplicatePolicy.lastWins = .lastWins) = true from rfl,
    Forest.Branches.report_replace] at hins
  exact hins

/-- Where nothing comes to light, both policies make the same forest. -/
theorem enter_policies {f : Forest Entry} {made : List (Forest.Call Entry)} (h : f.Represents made)
    {chains : List (Entry × List Test)} (hne : ∀ x ∈ chains, x.2 ≠ [])
    (hnil : (enter .lastWins f chains).2 = []) :
    (enter .reject f chains).1 = (enter .lastWins f chains).1 := by
  induction chains generalizing f made with
  | nil => rfl
  | cons x rest ih =>
    rw [enter_snd_cons, List.append_eq_nil_iff] at hnil
    obtain ⟨hx, hrest⟩ := hnil
    have hxne : x.2 ≠ [] := hne x List.mem_cons_self
    have hfree : f.branches.owner? x.2 = none := by
      have hf := (findings_lastWins h hxne).symm.trans hx
      rw [List.append_eq_nil_iff, List.append_eq_nil_iff, List.map_eq_nil_iff,
        Option.toList_eq_nil_iff] at hf
      exact hf.1.1
    have hsame : f.insert x.1 x.2 false = f.insert x.1 x.2 true :=
      Forest.call_of_free (c := ⟨x.1, x.2, true⟩) hfree false
    have hnext : ∃ made', (f.insert x.1 x.2 true).2.Represents made' := by
      cases hc : (f.call ⟨x.1, x.2, true⟩).1 with
      | ok r => exact ⟨_, Forest.represents_call h hc⟩
      | error r => exact ⟨made, (Forest.call_of_error hc).symm ▸ h⟩
    obtain ⟨made', hmade'⟩ := hnext
    change (enter .reject (f.insert x.1 x.2 false).2 rest).1
      = (enter .lastWins (f.insert x.1 x.2 true).2 rest).1
    rw [hsame]
    exact ih hmade' (fun y hy => hne y (List.mem_cons_of_mem x hy)) hrest

/-! ## How many give way -/

theorem length_eraseDups_concat (l : List (List Test)) (x : List Test) :
    (l ++ [x]).eraseDups.length = l.eraseDups.length + if x ∈ l then 0 else 1 := by
  rw [List.eraseDups_append, List.length_append]
  by_cases h : x ∈ l <;> simp [List.removeAll, List.eraseDups_cons, h]

/-- Under `lastWins` somebody gives way to a chain exactly if it was entered before. -/
theorem countP_findings {f : Forest Entry} {made : List (Forest.Call Entry)}
    (h : f.Represents made) {e : Entry} {chain : List Test} (hne : chain ≠ []) :
    (findings .lastWins e (f.insert e chain true).1).countP (·.diagnostic.isDuplicate)
      = if ∃ c ∈ made, c.chain = chain then 1 else 0 := by
  have hother : ∀ (o : Option Entry) (make : Entry → Finding),
      (∀ x, (make x).diagnostic.isDuplicate = false) →
      (o.toList.map make).countP (·.diagnostic.isDuplicate) = 0 := by
    intro o make hmake
    cases o <;> simp [hmake]
  have hfront := hother (f.branches.front? chain) (fun x => .unreachable e.name x.name) fun _ => rfl
  have hbehind := hother (f.branches.behind? chain) (fun x => .hides e.name x.name) fun _ => rfl
  rw [findings_lastWins h hne, List.countP_append, List.countP_append, hfront, hbehind]
  by_cases hex : ∃ c ∈ made, c.chain = chain
  · obtain ⟨c, hc, rfl⟩ := hex
    obtain ⟨other, ho⟩ := h.exists_owner hc
    rw [ho, if_pos ⟨c, hc, rfl⟩]
    rfl
  · have hnone : f.branches.owner? chain = none := by
      rw [Option.eq_none_iff_forall_ne_some]
      intro other ho
      obtain ⟨c, hc, hchain, -⟩ := h.exists_call ho
      exact hex ⟨c, hc, hchain⟩
    rw [hnone, if_neg hex]
    rfl

/-- **Whoever does not give way has a chain of its own.** -/
theorem countP_reported {chains : List (Entry × List Test)} (hne : ∀ x ∈ chains, x.2 ≠ []) :
    (reported .lastWins chains).countP Diagnostic.isDuplicate
      + (chains.map Prod.snd).eraseDups.length = chains.length := by
  rw [← map_enter_snd, List.countP_map]
  induction chains using List.reverseRecOn with
  | nil => rfl
  | append_singleton chains x ih =>
    have hall : ∀ y ∈ chains, y.2 ≠ [] := fun y hy => hne y (List.mem_append_left _ hy)
    have hx : x.2 ≠ [] := hne x (List.mem_append_right _ (List.mem_singleton_self x))
    have hcalls : ∀ c ∈ calls .lastWins chains, c.chain ≠ [] := by
      intro c hc
      obtain ⟨y, hy, rfl⟩ := List.mem_map.mp hc
      exact hall y hy
    have hrep := Forest.represents_after (Forest.represents_empty (α := Entry))
      (calls .lastWins chains)
    -- a chain was entered if it was called for
    have hbefore : (∃ c ∈ [] ++ ({} : Forest Entry).accepted (calls .lastWins chains),
        c.chain = x.2) ↔ x.2 ∈ chains.map Prod.snd := by
      constructor
      · intro hex
        obtain ⟨c, hc, hchain⟩ := hex
        have hcall := (Forest.accepted_sublist _ _).subset hc
        obtain ⟨y, hy, rfl⟩ := List.mem_map.mp hcall
        exact List.mem_map.mpr ⟨y, hy, hchain⟩
      · intro hm
        obtain ⟨y, hy, hchain⟩ := List.mem_map.mp hm
        obtain ⟨c, hc, he⟩ := Forest.exists_accepted Forest.represents_empty hcalls
          (c := ⟨y.1, y.2, DuplicatePolicy.lastWins = .lastWins⟩) (List.mem_map_of_mem hy)
        exact ⟨c, hc, he.trans hchain⟩
    have hlast := countP_findings (e := x.1) hrep hx
    simp only [hbefore] at hlast
    have hlen := length_eraseDups_concat (chains.map Prod.snd) x.2
    rw [enter_concat, List.countP_append, List.map_append, List.map_singleton, hlen,
      List.length_append, List.length_singleton]
    have hrest := ih hall
    change _ + List.countP _ (findings .lastWins x.1
      ((({} : Forest Entry).after (calls .lastWins chains)).insert x.1 x.2 true).1) + _ = _
    rw [show (Diagnostic.isDuplicate ∘ Finding.diagnostic)
      = fun y : Finding => y.diagnostic.isDuplicate from rfl] at hrest ⊢
    rw [hlast]
    split
    · omega
    · omega

/-! ## Building -/

section Build

variable {formats numbered : List Format} {instructions : List Instruction}
  {warnings : List Diagnostic} {table : FieldTable} {chains : List (Entry × List Test)}
  (hv : validate formats instructions = .ok warnings)
  (hu : unify formats = .ok (table, numbered)) (hr : resolve numbered instructions = .ok chains)
  (hne : ∀ x ∈ chains, x.2 ≠ [])
include hv hu hr hne

/-- Chains that do not clash make the same forest and the same warnings under `reject` as under
`lastWins`. -/
theorem build_of_clashless (options : Decoder.Options) (ho : options.duplicates = .reject)
    (hc : Clashless chains) :
    ∃ d, build formats instructions options = .ok d ∧ d.forest = (enter .lastWins {} chains).1
      ∧ d.warnings = warnings ++ reported .lastWins chains
        ++ (depthFindings options (enter .lastWins {} chains).1).map Finding.diagnostic := by
  have hreject : reported .reject chains = [] := (reported_eq_nil_iff hne .reject).mpr hc
  have hlast : reported .lastWins chains = [] := (reported_eq_nil_iff hne .lastWins).mpr hc
  have henter : (enter .lastWins {} chains).2 = [] := (enter_eq_nil_iff hne .lastWins).mpr hc
  have hforest : (enter .reject {} chains).1 = (enter .lastWins {} chains).1 :=
    enter_policies Forest.represents_empty hne henter
  rw [build_eq_assemble hv hu hr, assemble_reject hne ho, if_pos hreject, hforest, hlast,
    List.append_nil]
  exact ⟨_, rfl, rfl, rfl⟩

/-- Chains that clash are refused under `reject`, with all that is reported about them. -/
theorem build_of_not_clashless (options : Decoder.Options) (ho : options.duplicates = .reject)
    (hc : ¬ Clashless chains) :
    build formats instructions options
      = .error (.refused (.diagnostics .treeBuild (reported .reject chains))) := by
  have hreject : reported .reject chains ≠ [] :=
    fun hnil => hc ((reported_eq_nil_iff hne .reject).mp hnil)
  rw [build_eq_assemble hv hu hr, assemble_reject hne ho, if_neg hreject]
  rfl

end Build

/--
**What building says about the clashes of a description.** Its `chains` are those
of its instructions, `warnings` were found before they were entered, and `lenient`
is the decoder that `lastWins` makes of it.
-/
structure ClashReport (formats : List Format) (instructions : List Instruction)
    (options : Decoder.Options) (warnings : List Diagnostic) (chains : List (Entry × List Test))
    (lenient : Decoder) : Prop where
  /-- The chains stand in the order of the instructions. -/
  names : chains.map (·.1.name) = instructions.map Instruction.name
  /-- While a chain is entered, a clash is reported of its instruction exactly if it clashes with an
  earlier chain. -/
  reportedAt_iff : ∀ (policy : DuplicatePolicy) (k : Nat) (x : Entry × List Test),
    chains[k]? = some x →
      ((∃ w ∈ reportedAt policy chains k, w.isClash = true ∧ w.subject = some x.1.name)
        ↔ ∃ (j : Nat) (y : Entry × List Test), j < k ∧ chains[j]? = some y ∧ Clash y.2 x.2)
  /-- All that is reported then names the instruction and such an earlier one. -/
  about : ∀ (policy : DuplicatePolicy) (k : Nat) (x : Entry × List Test), chains[k]? = some x →
    ∀ w ∈ reportedAt policy chains k, ∃ (j : Nat) (y : Entry × List Test) (found : Finding),
      j < k ∧ chains[j]? = some y ∧ found.IsAbout y x ∧ w = found.diagnostic
  /-- Under `lastWins` there is a decoder, and what is reported is found among its warnings. -/
  lenient_eq : build formats instructions { options with duplicates := .lastWins } = .ok lenient
  lenient_warnings : lenient.warnings = warnings ++ reported .lastWins chains
    ++ (depthFindings options lenient.forest).map Finding.diagnostic
  /-- Under `reject` the description is refused exactly if one of these warnings tells of a
  clash. -/
  refused_iff : (∃ e, build formats instructions { options with duplicates := .reject } = .error e)
    ↔ ∃ w ∈ lenient.warnings, w.isClash = true
  /-- It is refused with all that is reported. -/
  refused_eq : ∀ e, build formats instructions { options with duplicates := .reject } = .error e →
    e = .refused (.diagnostics .treeBuild (reported .reject chains))
  /-- Otherwise the decoder has the same forest and the same warnings. -/
  strict_eq : ∀ d, build formats instructions { options with duplicates := .reject } = .ok d →
    d.forest = lenient.forest ∧ d.warnings = lenient.warnings
  /-- As many give way as there are instructions, less the chains that differ. -/
  duplicates : lenient.warnings.countP Diagnostic.isDuplicate
    + (chains.map Prod.snd).eraseDups.length = instructions.length

theorem isDuplicate_of_isClash {w : Diagnostic} (h : w.isClash = false) :
    w.isDuplicate = false := by
  unfold Diagnostic.isClash at h
  unfold Diagnostic.isDuplicate
  rw [decide_eq_false_iff_not] at h ⊢
  exact fun hcode => h (.inl hcode)

theorem reportedAt_iff {chains : List (Entry × List Test)} (hne : ∀ x ∈ chains, x.2 ≠ [])
    (policy : DuplicatePolicy) {k : Nat} {x : Entry × List Test} (hx : chains[k]? = some x) :
    (∃ w ∈ reportedAt policy chains k, w.isClash = true ∧ w.subject = some x.1.name)
      ↔ ∃ (j : Nat) (y : Entry × List Test), j < k ∧ chains[j]? = some y ∧ Clash y.2 x.2 := by
  constructor
  · intro hex
    obtain ⟨w, hw, -, -⟩ := hex
    obtain ⟨found, hf, rfl⟩ := List.mem_map.mp hw
    obtain ⟨j, y, hj, hy, habout⟩ := foundAt_about hne hx hf
    exact ⟨j, y, hj, hy, habout.clash⟩
  · intro hex
    obtain ⟨j, y, hj, hy, hclash⟩ := hex
    have hsome : foundAt policy chains k ≠ [] := foundAt_ne_nil hne hx hj hy hclash
    obtain ⟨found, hf⟩ := List.exists_mem_of_ne_nil _ hsome
    obtain ⟨_, _, -, -, habout⟩ := foundAt_about hne hx hf
    exact ⟨found.diagnostic, List.mem_map_of_mem hf, habout.isClash, habout.subject⟩

/-- Of all warnings only those about the chains tell of clashes. -/
theorem exists_isClash_iff {chains : List (Entry × List Test)} (hne : ∀ x ∈ chains, x.2 ≠ [])
    {before after : List Diagnostic} (hbefore : ∀ w ∈ before, w.isClash = false)
    (hafter : ∀ w ∈ after, w.isClash = false) (policy : DuplicatePolicy) :
    (∃ w ∈ before ++ reported policy chains ++ after, w.isClash = true) ↔ ¬ Clashless chains := by
  rw [← reported_eq_nil_iff hne policy]
  constructor
  · intro hex hnil
    obtain ⟨w, hw, hclash⟩ := hex
    rw [hnil, List.append_nil] at hw
    have hfalse : w.isClash = false := by
      rcases List.mem_append.mp hw with hw | hw
      · exact hbefore w hw
      · exact hafter w hw
    rw [hfalse] at hclash
    exact absurd hclash (by simp)
  · intro hsome
    obtain ⟨w, hw⟩ := List.exists_mem_of_ne_nil _ hsome
    obtain ⟨_, _, -, -, hclash, -⟩ := mem_reported hne hw
    exact ⟨w, List.mem_append_left _ (List.mem_append_right _ hw), hclash⟩

/-- Nor do the others tell of chains that are the same. -/
theorem countP_warnings (chains : List (Entry × List Test)) {before after : List Diagnostic}
    (hbefore : ∀ w ∈ before, w.isClash = false) (hafter : ∀ w ∈ after, w.isClash = false) :
    (before ++ reported .lastWins chains ++ after).countP Diagnostic.isDuplicate
      = (reported .lastWins chains).countP Diagnostic.isDuplicate := by
  have hzero : ∀ l : List Diagnostic, (∀ w ∈ l, w.isClash = false) →
      l.countP Diagnostic.isDuplicate = 0 := by
    intro l hl
    rw [List.countP_eq_zero]
    intro w hw
    rw [isDuplicate_of_isClash (hl w hw)]
    simp
  rw [List.countP_append, List.countP_append, hzero before hbefore, hzero after hafter,
    Nat.zero_add, Nat.add_zero]

/-- Three instructions that get in each other's way: the second has a longer chain than the first, and
the third has the same. -/
def crowdedInstructions : List Instruction :=
  [{ id := ⟨1, uint32_one_ne_zero⟩, name := "jump", format := "byte",
      selectors := ⟨[⟨"high", 1⟩]⟩ },
    { id := ⟨2, uint32_two_ne_zero⟩, name := "call", format := "byte",
      selectors := ⟨[⟨"high", 1⟩, ⟨"low", 2⟩]⟩ },
    { id := ⟨3, uint32_three_ne_zero⟩, name := "halt", format := "byte",
      selectors := ⟨[⟨"high", 1⟩]⟩ }]

/-- **Clashes are reported exactly.** -/
theorem clash_report {formats numbered : List Format} {instructions : List Instruction}
    {warnings : List Diagnostic} {table : FieldTable}
    (hv : validate formats instructions = .ok warnings)
    (hu : unify formats = .ok (table, numbered)) (options : Decoder.Options) :
    ∃ chains lenient, resolve numbered instructions = .ok chains
      ∧ ClashReport formats instructions options warnings chains lenient := by
  obtain ⟨chains, hr, hnames, hne⟩ := exists_chains hv hu
  have hlen : chains.length = instructions.length := by
    have hmap := congrArg List.length hnames
    rwa [List.length_map, List.length_map] at hmap
  have hlenient := build_eq_assemble hv hu hr { options with duplicates := .lastWins }
  rw [assemble_lastWins hne rfl] at hlenient
  have hclashless := build_of_clashless hv hu hr hne { options with duplicates := .reject } rfl
  have hclash := build_of_not_clashless hv hu hr hne { options with duplicates := .reject } rfl
  have hbefore := isClash_of_validate hv
  have hafter := isClash_of_depth options (enter .lastWins {} chains).1
  refine ⟨chains, _, hr, hnames, fun policy k x hx => reportedAt_iff hne policy hx, ?_, hlenient,
    rfl, ?_, ?_, ?_, ?_⟩
  · intro policy k x hx w hw
    obtain ⟨found, hf, rfl⟩ := List.mem_map.mp hw
    obtain ⟨j, y, hj, hy, habout⟩ := foundAt_about hne hx hf
    exact ⟨j, y, found, hj, hy, habout, rfl⟩
  · refine Iff.trans ?_ (exists_isClash_iff hne hbefore hafter .lastWins).symm
    by_cases hc : Clashless chains
    · obtain ⟨d, hd, -⟩ := hclashless hc
      refine iff_of_false ?_ (fun h => h hc)
      intro hex
      obtain ⟨e, he⟩ := hex
      rw [hd] at he
      exact absurd he (by simp)
    · exact iff_of_true ⟨_, hclash hc⟩ hc
  · intro e he
    by_cases hc : Clashless chains
    · obtain ⟨d, hd, -⟩ := hclashless hc
      rw [hd] at he
      exact absurd he (by simp)
    · rw [hclash hc] at he
      exact (Except.error.inj he).symm
  · intro d hd
    by_cases hc : Clashless chains
    · obtain ⟨d', hd', hforest, hwarnings⟩ := hclashless hc
      obtain rfl : d' = d := Except.ok.inj (hd'.symm.trans hd)
      exact ⟨hforest, hwarnings⟩
    · rw [hclash hc] at hd
      exact absurd hd (by simp)
  · have hcount := countP_warnings chains hbefore hafter
    rw [← hlen, ← countP_reported hne, ← hcount]
    rfl

theorem clash_report_byte :
    ∃ table numbered chains lenient, validate [byteFormat] crowdedInstructions = .ok []
      ∧ unify [byteFormat] = .ok (table, numbered)
      ∧ resolve numbered crowdedInstructions = .ok chains
      ∧ ClashReport [byteFormat] crowdedInstructions {} [] chains lenient
      ∧ lenient.warnings.map Diagnostic.code
        = ["forest.shadowed", "forest.duplicate-terminal", "forest.shadowed"] := by
  have hv : validate [byteFormat] crowdedInstructions = .ok [] := rfl
  obtain ⟨⟨table, numbered⟩, hu⟩ : ∃ p, unify [byteFormat] = .ok p := ⟨_, rfl⟩
  obtain ⟨chains, lenient, hr, h⟩ := clash_report hv hu {}
  exact ⟨table, numbered, chains, lenient, hv, hu, hr, h,
    eq_of_map_eq_ok (·.warnings.map Diagnostic.code) h.lenient_eq rfl⟩

end Decoder

end InstructionSet
