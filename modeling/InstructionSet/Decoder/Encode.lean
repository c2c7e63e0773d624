import InstructionSet.Bits.Buffer
import InstructionSet.Decoder.Lookup

/-!
# Encoding

The base encoding of an instruction is the word that its selectors and the
constants of its format make up, every other bit being zero. Constants are
written first, so that a selector has the last word.
-/

namespace InstructionSet.Decoder

/-- The constant fields among `fields` with their constants. -/
def constants (fields : List Field) : List (Layout × Int64) :=
  fields.filterMap fun f => f.constant.map (f.layout, ·)

def encodeAll (word : Buffer) : List (Layout × Int64) → Except Error Buffer
  | [] => .ok word
  | (layout, value) :: rest =>
    match word.encode layout value with
    | .error e => .error (.ofAccess e)
    | .ok word => encodeAll word rest

/-- Writes the values that selectors of `format` demand. -/
def encodeSelectors (format : Format) (word : Buffer) : List Selector → Except Error Buffer
  | [] => .ok word
  | s :: rest =>
    match format.field? s.field with
    | none => .error (.unknownField s.field)
    | some f =>
      match word.encode f.layout s.value with
      | .error e => .error (.ofAccess e)
      | .ok word => encodeSelectors format word rest

/-- The word that the selectors of the instruction and the constants of its format make up. -/
def Entry.baseEncoding (e : Entry) : Except Error Buffer :=
  match encodeAll (.zeros e.format.sizeBytes.toNat) (constants e.format.fields) with
  | .error error => .error error
  | .ok word => encodeSelectors e.format word e.instruction.selectors.toList

/-- The base encoding of the instruction numbered `id`. -/
def baseEncoding (d : Decoder) (id : InstructionId) : Except Error Buffer :=
  match d.entry id with
  | .error error => .error error
  | .ok e => e.baseEncoding

end InstructionSet.Decoder
