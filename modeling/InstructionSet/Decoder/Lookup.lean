import InstructionSet.Decoder.Basic
import InstructionSet.Forest.Render

/-!
# Asking a decoder

A decoder answers for the formats, instructions and fields that it was built
from. A question about something that was not declared is answered with the
error that says so.
-/

namespace InstructionSet.Decoder

def instructions (d : Decoder) : List Instruction := d.entries.map Entry.instruction

/-- What the decoder knows of the instruction numbered `id`. -/
def entry (d : Decoder) (id : InstructionId) : Except Error Entry :=
  match d.entries.find? (·.instruction.id = id) with
  | none => .error (.unknownInstruction id)
  | some e => .ok e

def instruction (d : Decoder) (id : InstructionId) : Except Error Instruction :=
  (d.entry id).map Entry.instruction

/-- The format of the instruction numbered `id`. -/
def formatFor (d : Decoder) (id : InstructionId) : Except Error Format :=
  (d.entry id).map Entry.format

/-- The first instruction called `name`. -/
def instructionNamed (d : Decoder) (name : String) : Except Error Instruction :=
  match d.entries.find? (·.name = name) with
  | none => .error (.unknownInstructionName name)
  | some e => .ok e.instruction

/-- The format called `name`. -/
def formatNamed (d : Decoder) (name : String) : Except Error Format :=
  match d.formats.find? (·.name = name) with
  | none => .error (.unknownFormat name)
  | some f => .ok f

/-- The number of the fields called `name`. -/
def fieldNumber (d : Decoder) (name : String) : Except Error FieldId :=
  match d.table.idOf? name with
  | none => .error (.unknownField name)
  | some id => .ok id

/-- The fields that every format has, in the order of the first format. -/
def sharedFields (d : Decoder) : List Field :=
  match d.formats with
  | [] => []
  | first :: rest =>
    (first.fields.filter fun f => rest.all (·.contains f.name)).filterMap fun f =>
      d.table.lookup? f.name

def forestText (d : Decoder) : Except Fault String :=
  d.forest.render d.table fun e => some e.name

end InstructionSet.Decoder
