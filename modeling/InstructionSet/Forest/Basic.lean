import InstructionSet.Identifier

/-!
# The decode forest

The selector chains of all instructions, brought together: a node is one test
(this field holds that value), chains that begin alike share the nodes of what
they have in common, and the node of a chain's last test is *owned* by the
instruction that the chain belongs to.

The tests that may follow one another's failure form a list, in the order in
which they were first asked for. `Branches` is such a list together with all that
hangs below it. Nodes are numbered in the order in which they came into being,
and `Forest.nodes` lists them in that order.
-/

namespace InstructionSet

/-- Does the field hold the value? -/
structure Test where
  field : FieldId
  value : Int64
deriving DecidableEq

/-- The alternatives at one level of a forest, the first one first, with the levels below them. The
owners are of type `α`. -/
inductive Forest.Branches (α : Type) where
  | nil
  /-- A numbered test, the owner of the chain that ends with it, what is to be tested if it holds,
  and the alternatives to it. -/
  | node (index : Nat) (test : Test) (owner : Option α) (below next : Forest.Branches α)

/-- A node with the numbers of its neighbours. -/
structure Forest.Node (α : Type) where
  index : Nat
  test : Test
  owner : Option α
  /-- The first test of the level below. -/
  child : Option Nat
  /-- The next test of the same level. -/
  sibling : Option Nat

namespace Forest.Branches

variable {α : Type}

def size : Branches α → Nat
  | nil => 0
  | node _ _ _ below next => below.size + next.size + 1

def isNil : Branches α → Bool
  | nil => true
  | node .. => false

/-- The number of the first alternative. -/
def head? : Branches α → Option Nat
  | nil => none
  | node index .. => some index

/-- The first owner, a node coming before what is below it and that before the node's
alternatives. -/
def firstOwner? : Branches α → Option α
  | nil => none
  | node _ _ owner below next => owner <|> below.firstOwner? <|> next.firstOwner?

/-- The nodes in the same order, each with its level, the first level being `level`. -/
def outline (level : Nat) : Branches α → List (Nat × Node α)
  | nil => []
  | node index test owner below next =>
    (level, { index, test, owner, child := below.head?, sibling := next.head? })
      :: (below.outline (level + 1) ++ next.outline level)

theorem length_outline (b : Branches α) (level : Nat) : (b.outline level).length = b.size := by
  induction b generalizing level with
  | nil => rfl
  | node _ _ _ _ _ below next => simp [outline, size, below, next]

end Forest.Branches

/-- A decode forest. -/
structure Forest (α : Type) where
  branches : Forest.Branches α := .nil
  /-- The length of the longest chain that was entered. -/
  maxDepth : Nat := 0

namespace Forest

variable {α : Type}

def size (f : Forest α) : Nat := f.branches.size

/-- The number of the node that is tested first. -/
def root? (f : Forest α) : Option Nat := f.branches.head?

/-- The nodes in order of their numbers. -/
def nodes (f : Forest α) : List (Node α) :=
  ((f.branches.outline 0).map Prod.snd).mergeSort fun a b => a.index ≤ b.index

theorem length_nodes (f : Forest α) : f.nodes.length = f.size := by
  simp [nodes, size, Branches.length_outline]

end Forest

end InstructionSet
