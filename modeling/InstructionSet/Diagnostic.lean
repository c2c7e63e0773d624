/-!
# Diagnostics

What a description does wrong, or merely unwisely, is reported as a list of
diagnostics. Each carries a code for tools and a sentence for people, and says
which stage of the build noticed.
-/

namespace InstructionSet

/-- The stage of a build that reports. -/
inductive Phase where
  /-- Formats and instructions are checked one by one. -/
  | validation
  /-- Fields of one name are brought together. -/
  | unification
  /-- Selector chains are brought together. -/
  | treeBuild
deriving DecidableEq

def Phase.text : Phase → String
  | validation => "Validation"
  | unification => "Unification"
  | treeBuild => "TreeBuild"

/-- How bad it is. -/
inductive Severity where
  /-- The description is refused. -/
  | error
  /-- The description is accepted all the same. -/
  | warning
deriving DecidableEq

def Severity.text : Severity → String
  | error => "Error"
  | warning => "Warning"

/-- One finding about a description. -/
structure Diagnostic where
  phase : Phase
  severity : Severity
  code : String
  message : String
  /-- The format, field or instruction that the finding is about. -/
  subject : Option String
deriving DecidableEq

namespace Diagnostic

def error (phase : Phase) (code message subject : String) : Diagnostic :=
  { phase, severity := .error, code, message, subject := some subject }

def warning (phase : Phase) (code message subject : String) : Diagnostic :=
  { phase, severity := .warning, code, message, subject := some subject }

/-- Whether the finding refuses the description. -/
def isError (d : Diagnostic) : Bool := d.severity = .error

/-- The finding on one line. -/
def text (d : Diagnostic) : String :=
  let subject := d.subject.getD "<unknown>"
  s!"{d.severity.text} {d.code}: {d.message} @ {subject}"

end Diagnostic

end InstructionSet
