/-!
# Faults

A description that breaks a rule is *refused*, with a list of diagnostics. A
`Fault` is rarer: the request passed a bound of the implementation, or referred
to something that is not there, and has no answer at all.
-/

namespace InstructionSet

/-- Why a request has no answer. -/
inductive Fault where
  /-- Identifiers are positive 32-bit numbers, and none is left. -/
  | identifiersExhausted
  /-- A remembered place of a format lies past the end of the present list. -/
  | formatOutOfRange (place : Nat)
  /-- A node is owned by an instruction that has no name in the present list. -/
  | unnamedOwner
  /-- A line would be indented by more blanks than a line can be. -/
  | indentTooWide (blanks : Nat)
deriving DecidableEq

end InstructionSet
