import InstructionSet.Bits.Layout
import InstructionSet.Identifier

/-!
# Fields

A field is a named run of bits in a format. Fields of one name are one field, in
whatever formats they occur, and carry one identifier once it has been assigned.
A constant field holds literal bits.
-/

namespace InstructionSet

/-- A named run of bits. -/
structure Field where
  name : String
  layout : Layout
  /-- The literal value of a constant field. -/
  constant : Option Int64 := none
  /-- The number of the field's name, once assigned. -/
  id : Option FieldId := none
deriving DecidableEq

namespace Field

/-- Whether `value` has a representation in the field. -/
def fits (f : Field) (value : Int64) : Bool := f.layout.fits value

/-- One past the field's last bit. -/
def endBit (f : Field) : Nat := f.layout.endBit

end Field

end InstructionSet
