import InstructionSet.Bits.Window
import InstructionSet.Diagnostic
import InstructionSet.Search.Trace

/-!
# What is told while a decoder works

Building a decoder and decoding with it tell of what they do, in events that a
host may show or drop. An event has a level and a message, and named details as
text.
-/

namespace InstructionSet

/-- The part of the library that tells of an event. -/
inductive Component where
  | decoder
  | search
deriving DecidableEq

/-- How much attention an event asks for. -/
inductive LogLevel where
  | trace
  | debug
  | warn
deriving DecidableEq

def LogLevel.text : LogLevel → String
  | trace => "TRACE"
  | debug => "DEBUG"
  | warn => "WARN"

/-- Something that happened. -/
inductive Event where
  /-- A decoder was built in spite of this. -/
  | warning (diagnostic : Diagnostic)
  /-- A decoder was built. -/
  | built (formats fields instructions nodes depth : Nat)
  /-- A search for the instruction in a buffer is over. -/
  | searched (effort : Search.Effort) (found : Bool)
  /-- An instruction was found, but one of its fields could not be read. -/
  | operandUnavailable (instruction : String) (error : AccessError)
  /-- A search went back up to where `depth` levels are above it. -/
  | levelExhausted (depth : Nat)
  /-- A field could not be read for a test. -/
  | fieldUnavailable (field : String) (error : AccessError)
deriving DecidableEq

namespace Event

def component : Event → Component
  | levelExhausted .. => .search
  | fieldUnavailable .. => .search
  | _ => .decoder

def level : Event → LogLevel
  | warning .. => .warn
  | built .. => .debug
  | searched .. => .trace
  | operandUnavailable .. => .warn
  | levelExhausted .. => .trace
  | fieldUnavailable .. => .trace

def message : Event → String
  | warning diagnostic => diagnostic.text
  | built .. => "decoder built"
  | searched .. => "decode search finished"
  | operandUnavailable .. => "operand extraction failed after match"
  | levelExhausted .. => "decode level exhausted, backtracking"
  | fieldUnavailable .. => "field unavailable, treating test as a miss"

def details : Event → List (String × String)
  | warning _ => []
  | built formats fields instructions nodes depth =>
    [("formats", toString formats), ("fields", toString fields),
      ("instructions", toString instructions), ("nodes", toString nodes),
      ("depth", toString depth)]
  | searched effort found =>
    [("tests", toString effort.tests), ("extractions", toString effort.extractions),
      ("backtracks", toString effort.backtracks), ("found", toString found)]
  | operandUnavailable instruction error =>
    [("instruction", instruction), ("err", error.message)]
  | levelExhausted depth => [("depth", toString depth)]
  | fieldUnavailable field error => [("field", field), ("err", error.message)]

end Event

end InstructionSet
