import InstructionSet.Diagnostic

/-!
# Conflicts between fields of one name

Fields of one name have to agree in width, place and sign. A `Conflict` says in
which of the three a field differs from the first field of its name, or that no
format has a field of that name.
-/

namespace InstructionSet.FieldTable

/-- How the field called `field` of `format` differs from the one in `origin`, the first format
with a field of that name. -/
inductive Conflict where
  | size (field origin format : String) (first other : UInt32)
  | position (field origin format : String) (first other : UInt32)
  | sign (field origin format : String)
  /-- No format has a field of that name. -/
  | unknown (field : String)
deriving DecidableEq

namespace Conflict

def code : Conflict → String
  | size .. => "unify.size-mismatch"
  | position .. => "unify.position-mismatch"
  | sign .. => "unify.sign-mismatch"
  | unknown .. => "unify.unknown-field"

def message : Conflict → String
  | size field origin format first other =>
    s!"field '{field}' is {first} bits in format '{origin}' " ++
      s!"but {other} bits in format '{format}'"
  | position field origin format first other =>
    s!"field '{field}' starts at bit {first} in format '{origin}' " ++
      s!"but at bit {other} in format '{format}'"
  | sign field origin format =>
    s!"field '{field}' signedness differs between formats '{origin}' and '{format}'"
  | unknown field => s!"field '{field}' does not appear in any format"

/-- The name of the field in conflict. -/
def field : Conflict → String
  | size field .. => field
  | position field .. => field
  | sign field .. => field
  | unknown field => field

def diagnostic (c : Conflict) : Diagnostic := .error .unification c.code c.message c.field

end Conflict

end InstructionSet.FieldTable
