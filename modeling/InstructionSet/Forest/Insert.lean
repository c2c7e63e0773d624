import InstructionSet.Forest.Basic

/-!
# Entering chains

`Forest.insert` walks down a chain, making the nodes that are missing, and hands
the last one to the chain's owner. It reports what the newcomer does to others:
whether it takes a node over, whether an owner on its way comes before it, and
whether it comes before owners further down. Whether any of that is acceptable is for the caller
to say, except that an owned node is given up only on demand.
-/

namespace InstructionSet.Forest

variable {α : Type}

/-- What entering a chain did to others. -/
structure Placement (α : Type) where
  /-- The previous owner of the chain's last node. -/
  replaced : Option α := none
  /-- The first owner that is met before the chain's last node. Who looks for the newcomer comes to
  it first, and goes on only if it will not do. -/
  shadowedBy : Option α := none
  /-- The first owner below the chain's last node. It stands behind the newcomer in the same way. -/
  shadows : Option α := none
deriving DecidableEq

/-- The placement as seen from above a node on the way to it. -/
def Placement.behind (owner : Option α) (p : Placement α) : Placement α :=
  { p with shadowedBy := owner <|> p.shadowedBy }

/-- Why a chain cannot be entered. -/
inductive Refusal (α : Type) where
  /-- A chain has to test something. -/
  | emptyChain
  /-- The chain's last node has an owner. -/
  | occupied (existing : α)
deriving DecidableEq

namespace Branches

/-- A chain on its own: one node below the other, numbered from `index` on. -/
def spine (owner : α) (index : Nat) (test : Test) : List Test → Branches α
  | [] => node index test (some owner) nil nil
  | following :: rest => node index test none (spine owner (index + 1) following rest) nil

/-- Gives a node to `owner`, unless it has an owner and is not to be taken over. -/
def occupy (owner : α) (replace : Bool) (index : Nat) (test : Test) (present : Option α)
    (below next : Branches α) : Except (Refusal α) (Placement α) × Branches α :=
  match present, replace with
  | some existing, false =>
    (.error (.occupied existing), node index test (some existing) below next)
  | _, _ =>
    (.ok { replaced := present, shadows := below.firstOwner? },
      node index test (some owner) below next)

/-- Enters a chain. New alternatives come last in their level, and new nodes are numbered from
`index` on. -/
def insert (owner : α) (replace : Bool) (index : Nat) :
    Branches α → List Test → Except (Refusal α) (Placement α) × Branches α
  | b, [] => (.error .emptyChain, b)
  | nil, test :: rest => (.ok {}, spine owner index test rest)
  | node i t present below next, test :: rest =>
    if t = test then
      match rest with
      | [] => occupy owner replace i t present below next
      | following :: rest =>
        let (result, below) := below.insert owner replace index (following :: rest)
        (result.map (Placement.behind present), node i t present below next)
    else
      let (result, next) := next.insert owner replace index (test :: rest)
      (result, node i t present below next)

end Branches

/-- Enters `chain` for `owner`. Answers what that did to others, or why it was refused, with the
forest as it is afterwards. -/
def insert (f : Forest α) (owner : α) (chain : List Test) (replace : Bool) :
    Except (Refusal α) (Placement α) × Forest α :=
  let (result, branches) := f.branches.insert owner replace f.size chain
  match result with
  | .error refusal => (.error refusal, { f with branches })
  | .ok placement =>
    (.ok placement, { branches, maxDepth := max f.maxDepth chain.length })

end InstructionSet.Forest
