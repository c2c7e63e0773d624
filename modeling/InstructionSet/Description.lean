import InstructionSet.Fault
import InstructionSet.Format
import InstructionSet.Instruction

/-!
# Writing a description

A description is put together from declarations. The fields of a format are laid
out one behind the other, most significant first; a literal gets a name of its
own, and instructions are numbered as they are declared.

Names of literals and numbers of instructions are used up by a declaration even
if it is abandoned, so no two literals of a description share a name, and no
instruction is given a number that was given before.
-/

namespace InstructionSet

/-- A part of a format as it is written down. -/
inductive LayoutItem where
  | field (name : String) (size : UInt32)
  | signedField (name : String) (size : UInt32)
  /-- Literal bits. -/
  | constant (size : UInt32) (value : Int64)
  /-- Bits that belong to no field. -/
  | gap (size : UInt32)
  /-- The width of the whole format, whatever its parts add up to. -/
  | width (bits : UInt32)

/-- A format of which some parts have been laid out. -/
structure FormatDraft where
  fields : List Field := []
  /-- Where the next part goes. -/
  position : UInt32 := 0
  width : Option UInt32 := none
  /-- The number in the name of the next literal. -/
  nextConstant : Nat
deriving DecidableEq

namespace FormatDraft

/-- Lays a field out behind the parts so far. -/
def place (d : FormatDraft) (name : String) (size : UInt32) (signed : Bool)
    (constant : Option Int64) : FormatDraft :=
  let field := { name, layout := { firstBit := d.position, size, signed }, constant }
  { d with fields := d.fields ++ [field], position := d.position + size }

/-- Lays the next part out. -/
def add (d : FormatDraft) : LayoutItem → FormatDraft
  | .field name size => d.place name size false none
  | .signedField name size => d.place name size true none
  | .constant size value =>
    { d.place s!"CONST_{d.nextConstant}" size false (some value) with
      nextConstant := d.nextConstant + 1 }
  | .gap size => { d with position := d.position + size }
  | .width bits => { d with width := some bits }

/-- The format that the parts make up. -/
def finish (d : FormatDraft) (name : String) : Format :=
  { name, bits := d.width.getD d.position, fields := d.fields }

end FormatDraft

/-- Something said of an instruction. -/
inductive Setting where
  | select (field : String) (value : Int64)
  | mnemonic (text : String)
  | asm (text : String)
  | cycles (count : UInt32)
  | latency (least most : UInt32)
  | controlFlow (flow : ControlFlow)

/-- The instruction of which this is said as well. -/
def Instruction.apply (i : Instruction) : Setting → Instruction
  | .select field value => i.select field value
  | .mnemonic text => { i with mnemonic := text }
  | .asm text => { i with asm := text }
  | .cycles count => { i with cycles := count }
  | .latency least most => { i with minLatency := least, maxLatency := most }
  | .controlFlow flow => { i with controlFlow := some flow }

/-- One step in writing a description. -/
inductive Declaration where
  /-- A format laid out part by part, which is kept or abandoned. -/
  | format (name : String) (items : List LayoutItem) (kept : Bool)
  /-- A format from elsewhere. -/
  | givenFormat (format : Format)
  /-- An instruction that gets the next number, and is kept or abandoned. -/
  | instruction (name format : String) (settings : List Setting) (kept : Bool)
  /-- An instruction from elsewhere, with a number of its own. -/
  | givenInstruction (instruction : Instruction)

/-- A description as far as it has been written. -/
structure Description where
  formats : List Format := []
  instructions : List Instruction := []
  /-- The number of the next instruction. -/
  nextId : UInt32 := 1
  /-- The number in the name of the next literal. -/
  nextConstant : Nat := 0

namespace Description

/-- Hands the next number out. The last one can be handed out too, and there is none behind it: the
counter wraps to 0, as it does where overflow is not checked. -/
def allocate (d : Description) : Except Fault (InstructionId × Description) :=
  match InstructionId.ofNumber? d.nextId with
  | none => .error .identifiersExhausted
  | some id => .ok (id, { d with nextId := d.nextId + 1 })

/-- The number behind `id`, or `id` itself if it is the last one. -/
def numberAfter (id : InstructionId) : UInt32 := if id.val + 1 = 0 then id.val else id.val + 1

/-- Carries a declaration out. Answers the number that it handed out. -/
def declare (d : Description) : Declaration → Except Fault (Option InstructionId × Description)
  | .format name items kept =>
    let draft := items.foldl FormatDraft.add { nextConstant := d.nextConstant }
    let formats := if kept then d.formats ++ [draft.finish name] else d.formats
    .ok (none, { d with formats, nextConstant := draft.nextConstant })
  | .givenFormat format => .ok (none, { d with formats := d.formats ++ [format] })
  | .instruction name format settings kept =>
    match d.allocate with
    | .error fault => .error fault
    | .ok (id, d) =>
      let declared := settings.foldl Instruction.apply { id, name, format }
      let instructions := if kept then d.instructions ++ [declared] else d.instructions
      .ok (some id, { d with instructions })
  | .givenInstruction i =>
    .ok (none, { d with
      instructions := d.instructions ++ [i]
      nextId := max d.nextId (numberAfter i.id) })

end Description

end InstructionSet
