import InstructionSet.Search.Basic

/-!
# Choices in building a decoder
-/

namespace InstructionSet

/-- What to do about instructions that stand in each other's way: their chains are the same, or one
begins with the other. -/
inductive DuplicatePolicy where
  /-- Refuse the description. -/
  | reject
  /-- Warn. Of two instructions with the same chain the later one keeps it. -/
  | lastWins
deriving DecidableEq

def DuplicatePolicy.text : DuplicatePolicy → String
  | reject => "Reject"
  | lastWins => "LastWins"

/-- What a decoder is asked to do. -/
structure Decoder.Options where
  cache : CachePolicy := .acrossSiblings
  duplicates : DuplicatePolicy := .reject
  /-- Warn of a forest with more levels than this. -/
  depthWarning : Nat := 64
  /-- Accept an instruction only if the constant fields of its format hold their constants. -/
  checkConstants : Bool := false
deriving DecidableEq

end InstructionSet
