import InstructionSet.Bits.Window
import InstructionSet.Identifier

/-!
# The course of a search

A search through a forest is recorded move by move. What is counted of it, and
what is told of it, is read off the record.
-/

namespace InstructionSet.Search

/-- How a test came by the value of its field. -/
inductive Reading where
  /-- The value was still at hand from the test before. -/
  | held (value : Int64)
  /-- The field was read. -/
  | fresh (result : Except AccessError Int64)
  /-- The table of fields does not have the field, so nothing was read. -/
  | undeclared

def Reading.value? : Reading → Option Int64
  | held value => some value
  | fresh (.ok value) => some value
  | fresh (.error _) => none
  | undeclared => none

/-- Whether the value had to be asked for. -/
def Reading.isFresh : Reading → Bool
  | held _ => false
  | _ => true

/-- A step of a search through a forest with owners of type `α`. -/
inductive Move (α : Type) where
  /-- The test of the node numbered `index` was made. -/
  | test (index : Nat) (field : FieldId) (reading : Reading)
  /-- The test held, and its node's owner was put forward. -/
  | offer (owner : α) (accepted : Bool)
  /-- The search went down to the level below the last test. -/
  | descend
  /-- The level was exhausted, and the search went back up; `depth` levels are left above it. -/
  | backtrack (depth : Nat)

namespace Move

variable {α : Type}

def isTest : Move α → Bool
  | test .. => true
  | _ => false

/-- Whether a value was asked for. -/
def isExtraction : Move α → Bool
  | test _ _ reading => reading.isFresh
  | _ => false

def isBacktrack : Move α → Bool
  | backtrack _ => true
  | _ => false

/-- The owner that was put forward. -/
def offered? : Move α → Option α
  | offer owner _ => some owner
  | _ => none

end Move

/-- The effort that a search took. -/
structure Effort where
  tests : Nat := 0
  /-- Tests for which the value was not at hand. -/
  extractions : Nat := 0
  backtracks : Nat := 0
deriving DecidableEq

def effort {α : Type} (moves : List (Move α)) : Effort where
  tests := moves.countP Move.isTest
  extractions := moves.countP Move.isExtraction
  backtracks := moves.countP Move.isBacktrack

def offered {α : Type} (moves : List (Move α)) : List α := moves.filterMap Move.offered?

end InstructionSet.Search
