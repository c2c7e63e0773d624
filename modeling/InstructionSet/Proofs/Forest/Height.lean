import InstructionSet.Proofs.Forest.Refinement

/-!
# How deep a forest is

The depth that a forest keeps is the length of the longest chain that was entered.
Nothing of that looks at the nodes, but it is as many levels as there are: where
the nodes are deepest, the tests that lead there are the beginning of a chain.
-/

namespace InstructionSet.Forest

variable {α : Type}

namespace Branches

/-- The number of levels. -/
def height : Branches α → Nat
  | nil => 0
  | node _ _ _ below next => max (below.height + 1) next.height

section Height

variable (i : Nat) (t : Test) (o : Option α) (below next : Branches α)

theorem height_below_lt : below.height < (node i t o below next).height :=
  Nat.lt_of_lt_of_le (Nat.lt_succ_self _) (Nat.le_max_left ..)

theorem height_next_le : next.height ≤ (node i t o below next).height := Nat.le_max_right ..

end Height

/-- Some node is as deep as that. -/
theorem exists_follow?_height {b : Branches α} (h : b.height ≠ 0) :
    ∃ turns path n, b.follow? turns = some (path, n) ∧ path.length = b.height := by
  induction b with
  | nil => exact absurd rfl h
  | node i t o below next ihb ihn =>
    rw [height]
    rcases Nat.le_total next.height (below.height + 1) with hle | hle
    · rw [Nat.max_eq_left hle]
      by_cases hb : below.height = 0
      · exact ⟨[], [t], _, rfl, by rw [hb]; rfl⟩
      · obtain ⟨turns, path, n, hf, hl⟩ := ihb hb
        exact ⟨.down :: turns, t :: path, n, by rw [follow?, hf]; rfl, congrArg (· + 1) hl⟩
    · rw [Nat.max_eq_right hle]
      obtain ⟨turns, path, n, hf, hl⟩ := ihn (by omega)
      exact ⟨.across :: turns, path, n, hf, hl⟩

/-- Nodes are listed no deeper than there are levels. -/
theorem lt_height_of_mem_outline {b : Branches α} {level depth : Nat} {n : Node α}
    (h : (depth, n) ∈ b.outline level) : depth < level + b.height := by
  induction b generalizing level with
  | nil => exact absurd h (by simp [outline])
  | node i t o below next ihb ihn =>
    have hb := height_below_lt i t o below next
    have hn := height_next_le i t o below next
    rw [outline, List.mem_cons, List.mem_append, Prod.mk.injEq] at h
    rcases h with ⟨rfl, -⟩ | h | h
    · omega
    · have := ihb h
      omega
    · have := ihn h
      omega

end Branches

/-- **There are no more levels than the longest chain has tests.** -/
theorem Represents.height_le {f : Forest α} {made : List (Call α)} (h : f.Represents made) :
    f.branches.height ≤ f.maxDepth := by
  by_cases hz : f.branches.height = 0
  · rw [hz]
    exact Nat.zero_le _
  · obtain ⟨turns, path, n, hf, hl⟩ := Branches.exists_follow?_height hz
    rw [← route?_eq h.numbered] at hf
    exact hl ▸ h.length_le hf

end InstructionSet.Forest
