import InstructionSet.Diagnostic

/-!
# What comes to light when chains are brought together

An instruction whose chain is that of another, or begins with it, stands in the
other's way. Whether that refuses the description or is merely reported depends
on the options of the decoder, and so there are two findings for it.
-/

namespace InstructionSet.Decoder

/-- Something that came to light when the chain of an instruction was entered. -/
inductive Finding where
  /-- Two instructions have the same chain, or that of one begins with that of the other. -/
  | conflict (earlier later : String)
  /-- The chain of the instruction tests nothing. -/
  | emptyChain (instruction : String)
  /-- An earlier instruction with the same chain gave way. -/
  | replaced (earlier later : String)
  /-- The chain of the instruction goes on from that of the one in front, which is offered first. The
  finding does not look at formats and constants: where the one in front is turned down for its own,
  the instruction can still be decoded. -/
  | unreachable (instruction front : String)
  /-- The instruction is offered before one with a longer chain. -/
  | hides (instruction behind : String)
  /-- The forest has many levels. -/
  | deep (depth threshold : Nat)
deriving DecidableEq

namespace Finding

/-- Whether the description is refused. -/
def severity : Finding → Severity
  | conflict .. => .error
  | emptyChain .. => .error
  | _ => .warning

def code : Finding → String
  | conflict .. => "forest.duplicate-terminal"
  | emptyChain .. => "forest.empty-chain"
  | replaced .. => "forest.duplicate-terminal"
  | unreachable .. => "forest.shadowed"
  | hides .. => "forest.shadowed"
  | deep .. => "forest.depth"

def message : Finding → String
  | conflict earlier later => s!"decoding conflict between '{earlier}' and '{later}'"
  | emptyChain instruction => s!"instruction '{instruction}' doesn't have a decode list"
  | replaced earlier later =>
    s!"decoding conflict between '{earlier}' and '{later}', keeping '{later}'"
  | unreachable instruction front =>
    s!"instruction '{instruction}' is unreachable behind '{front}'"
  | hides instruction behind =>
    s!"instruction '{instruction}' hides longer selector chains such as '{behind}'"
  | deep depth threshold =>
    s!"decode forest is {depth} levels deep (warning threshold {threshold})"

/-- The instruction that was entered. The depth is nobody's in particular. -/
def subject? : Finding → Option String
  | conflict _ later => some later
  | emptyChain instruction => some instruction
  | replaced _ later => some later
  | unreachable instruction _ => some instruction
  | hides instruction _ => some instruction
  | deep .. => none

def diagnostic (f : Finding) : Diagnostic where
  phase := .treeBuild
  severity := f.severity
  code := f.code
  message := f.message
  subject := f.subject?

end Finding

end InstructionSet.Decoder
