import InstructionSet.Decoder.Basic
import InstructionSet.Decoder.Values
import InstructionSet.Log

/-!
# Decoding

A buffer is decoded in two steps. The forest is searched for an instruction whose
selectors hold, whose format fits into the window, and, if the options ask for
it, whose constants are in place. Then the fields of its format are read, in the
order of their declaration, into their slots; if one of them cannot be read,
nothing was decoded after all.

Every read goes through the extractor that the host supplies.
-/

namespace InstructionSet

/-- A decoded instruction. -/
structure Decoded where
  instruction : InstructionId
  size : UInt32
  fields : SlotValues
deriving DecidableEq

/-- How decoding a buffer went. -/
structure Decoder.Attempt (σ : Type) where
  found : Option Decoder.Entry
  /-- Its values, or zeros. -/
  values : SlotValues
  session : Session σ
  events : List Event

namespace Decoder

variable {σ : Type}

/-! ## Finding the instruction -/

/-- Whether the constant fields among `fields` hold their constants. They are read up to the first
that does not. -/
def constantsHold (extractor : Extractor σ) (buffer : Buffer) :
    List Field → Session σ → Bool × Session σ
  | [], session => (true, session)
  | f :: rest, session =>
    match f.constant with
    | none => constantsHold extractor buffer rest session
    | some constant =>
      match extractor buffer f.layout session with
      | (.ok value, session) =>
        if value = constant then constantsHold extractor buffer rest session else (false, session)
      | (.error _, session) => (false, session)

/-- Whether an instruction whose selectors hold is what the buffer holds. -/
def accept (options : Decoder.Options) (extractor : Extractor σ) (buffer : Buffer) (e : Entry)
    (session : Session σ) : Bool × Session σ :=
  if session.window.available < e.format.bits.toNat then (false, session)
  else if options.checkConstants then constantsHold extractor buffer e.format.fields session
  else (true, session)

/-- The search for the instruction in a buffer. -/
def search (d : Decoder) (extractor : Extractor σ) (buffer : Buffer) : Search Entry σ where
  table := d.table
  policy := d.options.cache
  extractor
  buffer
  accept := accept d.options extractor buffer

/-- What there is to tell of one move of a search. -/
def moveEvents {α : Type} (table : FieldTable) : Search.Move α → List Event
  | .test _ field (.fresh (.error e)) =>
    (table.get? field).toList.map fun f => .fieldUnavailable f.name e
  | .backtrack depth => [.levelExhausted depth]
  | _ => []

/-- What there is to tell of a search. -/
def searchEvents {α : Type} (table : FieldTable) (moves : List (Search.Move α)) : List Event :=
  moves.flatMap (moveEvents table)

/-! ## Reading the fields -/

/-- Where the reading of fields stopped: because of an error, or at their end. -/
structure Operands (σ : Type) where
  error : Option AccessError
  values : SlotValues
  session : Session σ

/-- Reads `fields` into their slots, up to the first that cannot be read. -/
def readOperands (extractor : Extractor σ) (buffer : Buffer) :
    List Field → SlotValues → Session σ → Operands σ
  | [], values, session => { error := none, values, session }
  | f :: rest, values, session =>
    match f.id with
    | none => readOperands extractor buffer rest values session
    | some id =>
      match extractor buffer f.layout session with
      | (.ok value, session) =>
        readOperands extractor buffer rest (values.set id.slot value) session
      | (.error e, session) => { error := some e, values, session }

/-! ## Decoding -/

/-- The slot value of an instruction's number. -/
def idValue (id : InstructionId) : Int64 := Int64.ofNat id.val.toNat

/-- Decodes the first `bits` bits of a buffer, or all of it if it is shorter, into `out`. -/
def decodeInto (d : Decoder) (extractor : Extractor σ) (buffer : Buffer) (bits : Nat)
    (out : SlotValues) (host : σ) : Attempt σ :=
  let out := out.reset d.table.slots
  let session := { window := .ofBits (min bits buffer.bits), host }
  let outcome := (d.search extractor buffer).run d.forest session
  let told := searchEvents d.table outcome.moves
    ++ [.searched (Search.effort outcome.moves) outcome.found.isSome]
  match outcome.found with
  | none => { found := none, values := out, session := outcome.session, events := told }
  | some e =>
    let operands := readOperands extractor buffer e.format.fields out outcome.session
    match operands.error with
    | none => {
        found := some e
        values := operands.values.set 0 (idValue e.instruction.id)
        session := operands.session
        events := told }
    | some error => {
        found := none
        values := operands.values.reset d.table.slots
        session := operands.session
        events := told ++ [.operandUnavailable e.name error] }

/-- Decodes the first `bits` bits of a buffer into values of its own. -/
def decodeWith (d : Decoder) (extractor : Extractor σ) (buffer : Buffer) (bits : Nat) (host : σ) :
    Attempt σ :=
  d.decodeInto extractor buffer bits (.zeros d.table.slots) host

def Attempt.decoded? (a : Attempt σ) : Option Decoded :=
  a.found.map fun e =>
    { instruction := e.instruction.id, size := e.instruction.size, fields := a.values }

/-- Decodes the first `bits` bits of a buffer, read most significant first. -/
def decode (d : Decoder) (buffer : Buffer) (bits : Nat) : Option Decoded :=
  (d.decodeWith Extractor.msbFirst buffer bits ()).decoded?

/-- What there is to tell of a decoder that was built. -/
def buildEvents (d : Decoder) : List Event :=
  d.warnings.map Event.warning
    ++ [.built d.formats.length d.table.size d.entries.length d.forest.size d.forest.maxDepth]

end Decoder

end InstructionSet
