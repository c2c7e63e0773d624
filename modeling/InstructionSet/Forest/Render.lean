import InstructionSet.Fault
import InstructionSet.FieldTable.Basic
import InstructionSet.Forest.Basic

/-!
# A forest on paper

One line for each node, a node before what is below it and that before the node's
alternatives; each level is indented by four more blanks.
-/

namespace InstructionSet.Forest

variable {α : Type}

/-- The most blanks that a line can be indented by. -/
def maxIndent : Nat := 65535

/-- The line of a node. A field that the table does not have is shown as a question mark, and an
owner by its `name`. -/
def line (table : FieldTable) (name : α → Option String) (level : Nat) (node : Node α) :
    Except Fault String :=
  let blanks := 4 * level
  if maxIndent < blanks then .error (.indentTooWide blanks)
  else
    let field := match table.get? node.test.field with
      | some f => f.name
      | none => "?"
    let test := s!"{field} == {node.test.value}"
    let indent := "".pushn ' ' blanks
    match node.owner with
    | none => .ok s!"{indent}{test}\n"
    | some owner =>
      match name owner with
      | none => .error .unnamedOwner
      | some name => .ok s!"{indent}{test} -> {name}\n"

/-- The lines of all nodes. -/
def lines (f : Forest α) (table : FieldTable) (name : α → Option String) :
    Except Fault (List String) :=
  (f.branches.outline 0).mapM fun (level, node) => line table name level node

def render (f : Forest α) (table : FieldTable) (name : α → Option String) : Except Fault String :=
  (f.lines table name).map String.join

end InstructionSet.Forest
