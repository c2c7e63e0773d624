import InstructionSet.Proofs.Decoder.Resolving
import InstructionSet.Proofs.Forest.Placements

/-!
# Chains that get in each other's way

Two chains clash if one begins with the other, or both are the same. As chains are
entered one by one, each is compared with the owners that the forest has by then,
and these are not all that were declared: some were refused, others gave way. What
comes to light is nevertheless exact. Whatever is found names an owner whose chain
clashes (`findings_about`), and whenever a chain clashes with an earlier one, there
is an owner to find (`findings_ne_nil`).
-/

namespace InstructionSet.Decoder

/-- One of the chains begins with the other, or they are the same. -/
def Clash (a b : List Test) : Prop := a <+: b ∨ b <+: a

instance (a b : List Test) : Decidable (Clash a b) := inferInstanceAs (Decidable (_ ∨ _))

/-- What a finding says about an earlier and a later chain: it names their instructions, and tells
which chain begins with which. -/
def Finding.IsAbout (earlier later : Entry × List Test) : Finding → Prop
  | .conflict first second =>
    first = earlier.1.name ∧ second = later.1.name ∧ Clash earlier.2 later.2
  | .replaced first second =>
    first = earlier.1.name ∧ second = later.1.name ∧ earlier.2 = later.2
  | .unreachable instruction front =>
    instruction = later.1.name ∧ front = earlier.1.name ∧ earlier.2 <+: later.2
      ∧ earlier.2 ≠ later.2
  | .hides instruction behind =>
    instruction = later.1.name ∧ behind = earlier.1.name ∧ later.2 <+: earlier.2
      ∧ later.2 ≠ earlier.2
  | .emptyChain _ => False
  | .deep .. => False

theorem Finding.IsAbout.clash {earlier later : Entry × List Test} {x : Finding}
    (h : x.IsAbout earlier later) : Clash earlier.2 later.2 := by
  cases x with
  | conflict first second => exact h.2.2
  | emptyChain instruction => exact h.elim
  | replaced first second => exact .inl (by rw [h.2.2])
  | unreachable instruction front => exact .inl h.2.2.1
  | hides instruction behind => exact .inr h.2.2.1
  | deep depth threshold => exact h.elim

/-! ## One chain -/

section Chain

variable {f : Forest Entry} {made : List (Forest.Call Entry)} {policy : DuplicatePolicy}
  {e : Entry} {chain : List Test}

/-- What comes to light is what the report of the insertion says. -/
theorem findings_insert (h : f.Represents made) (hne : chain ≠ []) :
    findings policy e (f.insert e chain (policy = .lastWins)).1
      = findings policy e (f.branches.report (policy = .lastWins) chain) :=
  congrArg (findings policy e)
    (Forest.call_eq_report h.distinct (c := ⟨e, chain, policy = .lastWins⟩) hne)

/-- **Whatever is found is about an owner whose chain clashes.** -/
theorem findings_about (h : f.Represents made) (hne : chain ≠ []) :
    ∀ x ∈ findings policy e (f.insert e chain (policy = .lastWins)).1,
      ∃ c ∈ made, x.IsAbout (c.owner, c.chain) (e, chain) := by
  rw [findings_insert h hne]
  unfold Forest.Branches.report
  split
  · rename_i existing ho _
    obtain ⟨c, hc, hchain, howner⟩ := h.exists_call ho
    intro x hx
    rw [List.mem_singleton.mp hx]
    exact ⟨c, hc, by rw [howner], rfl, .inl (by rw [hchain])⟩
  · intro x hx
    unfold findings at hx
    dsimp only at hx
    rcases List.mem_append.mp hx with hx | hbehind
    rcases List.mem_append.mp hx with hreplaced | hfront
    · obtain ⟨other, ho, rfl⟩ := List.mem_map.mp hreplaced
      obtain ⟨c, hc, hchain, howner⟩ := h.exists_call (Option.mem_toList.mp ho)
      exact ⟨c, hc, by rw [howner], rfl, hchain⟩
    · obtain ⟨other, ho, rfl⟩ := List.mem_map.mp hfront
      obtain ⟨p, hp, hpre, hpne⟩ := Forest.Branches.owner?_of_front? (Option.mem_toList.mp ho)
      obtain ⟨c, hc, rfl, rfl⟩ := h.exists_call hp
      cases policy with
      | reject => exact ⟨c, hc, rfl, rfl, .inl hpre⟩
      | lastWins => exact ⟨c, hc, rfl, rfl, hpre, hpne⟩
    · obtain ⟨other, ho, rfl⟩ := List.mem_map.mp hbehind
      obtain ⟨p, hp, hpre, hpne⟩ :=
        Forest.Branches.owner?_of_behind? h.distinct (Option.mem_toList.mp ho)
      obtain ⟨c, hc, rfl, rfl⟩ := h.exists_call hp
      cases policy with
      | reject => exact ⟨c, hc, rfl, rfl, .inr hpre⟩
      | lastWins => exact ⟨c, hc, rfl, rfl, hpre, hpne⟩

/-- **Something is found if a chain that was entered clashes.** -/
theorem findings_ne_nil (h : f.Represents made) (hne : chain ≠ []) {c : Forest.Call Entry}
    (hc : c ∈ made) (hclash : Clash c.chain chain) :
    findings policy e (f.insert e chain (policy = .lastWins)).1 ≠ [] := by
  obtain ⟨owner, ho⟩ := h.exists_owner hc
  rw [findings_insert h hne]
  unfold Forest.Branches.report
  split
  · exact List.cons_ne_nil _ _
  · intro hnil
    unfold findings at hnil
    dsimp only at hnil
    rw [List.append_eq_nil_iff, List.append_eq_nil_iff, List.map_eq_nil_iff, List.map_eq_nil_iff,
      List.map_eq_nil_iff, Option.toList_eq_nil_iff, Option.toList_eq_nil_iff,
      Option.toList_eq_nil_iff] at hnil
    obtain ⟨⟨hnone, hfront⟩, hbehind⟩ := hnil
    by_cases he : c.chain = chain
    · rw [← he, ho] at hnone
      exact absurd hnone (by simp)
    rcases hclash with hpre | hpre
    · have hs := Forest.Branches.isSome_front? ho hpre he
      rw [hfront] at hs
      exact absurd hs (by simp)
    · have hs := Forest.Branches.isSome_behind? h.distinct ho hpre (Ne.symm he)
      rw [hbehind] at hs
      exact absurd hs (by simp)

/-- Whether a clash is an error is for the policy to say. -/
theorem severity_of_findings (h : f.Represents made) (hne : chain ≠ []) :
    ∀ x ∈ findings policy e (f.insert e chain (policy = .lastWins)).1,
      x.severity = .error ↔ policy = .reject := by
  rw [findings_insert h hne]
  intro x hx
  cases policy with
  | reject =>
    rw [show decide (DuplicatePolicy.reject = .lastWins) = false from rfl,
      Forest.Branches.report_keep] at hx
    split at hx
    · rw [List.mem_singleton.mp hx]
      exact iff_of_true rfl rfl
    -- nobody gave way, so only the ways in front and behind are left
    · rcases List.mem_append.mp hx with hx | hx
      · obtain ⟨other, -, rfl⟩ := List.mem_map.mp hx
        exact iff_of_true rfl rfl
      · obtain ⟨other, -, rfl⟩ := List.mem_map.mp hx
        exact iff_of_true rfl rfl
  | lastWins =>
    rw [show decide (DuplicatePolicy.lastWins = .lastWins) = true from rfl,
      Forest.Branches.report_replace] at hx
    have hwarn : x.severity = .warning := by
      rcases List.mem_append.mp hx with hx | hx
      rcases List.mem_append.mp hx with hx | hx
      · obtain ⟨other, -, rfl⟩ := List.mem_map.mp hx
        rfl
      · obtain ⟨other, -, rfl⟩ := List.mem_map.mp hx
        rfl
      · obtain ⟨other, -, rfl⟩ := List.mem_map.mp hx
        rfl
    rw [hwarn]
    exact iff_of_false (by simp) (by simp)

end Chain

/-! ## One chain after the other -/

theorem enter_snd_cons (policy : DuplicatePolicy) (f : Forest Entry) (x : Entry × List Test)
    (rest : List (Entry × List Test)) :
    (enter policy f (x :: rest)).2
      = findings policy x.1 (f.insert x.1 x.2 (policy = .lastWins)).1
        ++ (enter policy (f.insert x.1 x.2 (policy = .lastWins)).2 rest).2 := rfl

theorem enter_concat (policy : DuplicatePolicy) (f : Forest Entry)
    (chains : List (Entry × List Test)) (x : Entry × List Test) :
    (enter policy f (chains ++ [x])).2
      = (enter policy f chains).2
        ++ findings policy x.1
          ((f.after (calls policy chains)).insert x.1 x.2 (policy = .lastWins)).1 := by
  induction chains generalizing f with
  | nil => exact List.append_nil _
  | cons y rest ih =>
    rw [List.cons_append, enter_snd_cons, ih, enter_snd_cons, List.append_assoc]
    rfl

/-- What comes to light about the chain in place `k`, those before it having been entered. -/
def foundAt (policy : DuplicatePolicy) (chains : List (Entry × List Test)) (k : Nat) :
    List Finding :=
  match chains[k]? with
  | none => []
  | some x =>
    findings policy x.1 (((({} : Forest Entry).after (calls policy (chains.take k))).insert x.1 x.2
      (policy = .lastWins)).1)

theorem foundAt_append (policy : DuplicatePolicy) (chains later : List (Entry × List Test)) {k : Nat}
    (hk : k < chains.length) : foundAt policy (chains ++ later) k = foundAt policy chains k := by
  unfold foundAt
  rw [List.getElem?_append_left hk, List.take_append_of_le_length (Nat.le_of_lt hk)]

/-- All that comes to light comes to light in some place, and in the order of the places. -/
theorem enter_snd (policy : DuplicatePolicy) (chains : List (Entry × List Test)) :
    (enter policy {} chains).2 = (List.range chains.length).flatMap (foundAt policy chains) := by
  induction chains using List.reverseRecOn with
  | nil => rfl
  | append_singleton chains x ih =>
    have hlast : foundAt policy (chains ++ [x]) chains.length
        = findings policy x.1 (((({} : Forest Entry).after (calls policy chains)).insert x.1 x.2
          (policy = .lastWins)).1) := by
      unfold foundAt
      rw [List.getElem?_concat_length, List.take_left]
    have hfirst : (List.range chains.length).flatMap (foundAt policy (chains ++ [x]))
        = (List.range chains.length).flatMap (foundAt policy chains) := by
      refine List.flatMap_congr fun k hk => ?_
      exact foundAt_append policy chains [x] (List.mem_range.mp hk)
    rw [enter_concat, ih, List.length_append, List.length_singleton, List.range_succ,
      List.flatMap_append, List.flatMap_singleton, hlast, hfirst]

section Chains

variable {policy : DuplicatePolicy} {chains : List (Entry × List Test)}

/-- The forest that a chain is entered into has chains from earlier places only. -/
theorem represents_take (policy : DuplicatePolicy) (chains : List (Entry × List Test)) (k : Nat) :
    (({} : Forest Entry).after (calls policy (chains.take k))).Represents
      (({} : Forest Entry).accepted (calls policy (chains.take k))) :=
  Forest.represents_after Forest.represents_empty _

theorem mem_accepted_take {k : Nat} {c : Forest.Call Entry}
    (hc : c ∈ ({} : Forest Entry).accepted (calls policy (chains.take k))) :
    ∃ (j : Nat) (y : Entry × List Test), j < k ∧ chains[j]? = some y ∧ (c.owner, c.chain) = y := by
  have hcall := (Forest.accepted_sublist _ _).subset hc
  obtain ⟨y, hy, rfl⟩ := List.mem_map.mp hcall
  obtain ⟨j, hj⟩ := List.mem_iff_getElem?.mp hy
  have hlt : j < k := by
    have hlen := (List.getElem?_eq_some_iff.mp hj).1
    rw [List.length_take] at hlen
    omega
  rw [List.getElem?_take_of_lt hlt] at hj
  exact ⟨j, y, hlt, hj, rfl⟩

/-- **Every finding names the instruction that it came to light with, and an earlier one.** -/
theorem foundAt_about (hne : ∀ x ∈ chains, x.2 ≠ []) {k : Nat} {x : Entry × List Test}
    (hx : chains[k]? = some x) {found : Finding} (hf : found ∈ foundAt policy chains k) :
    ∃ (j : Nat) (y : Entry × List Test), j < k ∧ chains[j]? = some y ∧ found.IsAbout y x := by
  unfold foundAt at hf
  rw [hx] at hf
  obtain ⟨c, hc, habout⟩ := findings_about (represents_take policy chains k)
    (hne x (List.mem_of_getElem? hx)) found hf
  obtain ⟨j, y, hj, hy, rfl⟩ := mem_accepted_take hc
  exact ⟨j, _, hj, hy, habout⟩

/-- **Every clash comes to light** with the later of the two chains, whatever became of the earlier
one. -/
theorem foundAt_ne_nil (hne : ∀ x ∈ chains, x.2 ≠ []) {j k : Nat} {x y : Entry × List Test}
    (hx : chains[k]? = some x) (hj : j < k) (hy : chains[j]? = some y) (hclash : Clash y.2 x.2) :
    foundAt policy chains k ≠ [] := by
  have hmem : y ∈ chains.take k := by
    have hk : (chains.take k)[j]? = some y := by rw [List.getElem?_take_of_lt hj, hy]
    exact List.mem_of_getElem? hk
  have hcall : (⟨y.1, y.2, policy = .lastWins⟩ : Forest.Call Entry)
      ∈ [] ++ calls policy (chains.take k) := List.mem_map_of_mem hmem
  have hcalls : ∀ c ∈ calls policy (chains.take k), c.chain ≠ [] := by
    intro c hc
    obtain ⟨z, hz, rfl⟩ := List.mem_map.mp hc
    exact hne z (List.mem_of_mem_take hz)
  obtain ⟨c, hc, hchain⟩ := Forest.exists_accepted Forest.represents_empty hcalls hcall
  unfold foundAt
  rw [hx]
  refine findings_ne_nil (represents_take policy chains k) (hne x (List.mem_of_getElem? hx)) hc ?_
  rw [hchain]
  exact hclash

theorem severity_of_foundAt (hne : ∀ x ∈ chains, x.2 ≠ []) {k : Nat} {found : Finding}
    (hf : found ∈ foundAt policy chains k) : found.severity = .error ↔ policy = .reject := by
  unfold foundAt at hf
  split at hf
  · exact absurd hf (by simp)
  · rename_i x hx
    exact severity_of_findings (represents_take policy chains k)
      (hne x (List.mem_of_getElem? hx)) found hf

/-- No two of the chains clash. -/
def Clashless (chains : List (Entry × List Test)) : Prop :=
  ∀ (j k : Nat) (y x : Entry × List Test), j < k → chains[j]? = some y → chains[k]? = some x →
    ¬ Clash y.2 x.2

/-- **Nothing comes to light exactly if no two chains clash**, under either policy. -/
theorem enter_eq_nil_iff (hne : ∀ x ∈ chains, x.2 ≠ []) (policy : DuplicatePolicy) :
    (enter policy {} chains).2 = [] ↔ Clashless chains := by
  rw [enter_snd, List.flatMap_eq_nil_iff]
  constructor
  · intro hnil j k y x hj hy hx hclash
    have hk : k < chains.length := (List.getElem?_eq_some_iff.mp hx).1
    exact foundAt_ne_nil hne hx hj hy hclash (hnil k (List.mem_range.mpr hk))
  · intro hnone k hk
    have hx := List.getElem?_eq_getElem (List.mem_range.mp hk)
    rw [List.eq_nil_iff_forall_not_mem]
    intro found hf
    obtain ⟨j, y, hj, hy, habout⟩ := foundAt_about hne hx hf
    exact hnone j k y _ hj hy hx habout.clash

end Chains

end InstructionSet.Decoder
