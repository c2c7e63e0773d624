/-!
# Where a field lies and what its bits mean

A `Layout` is a run of bits and a reading of it: unsigned, or two's complement.
`Layout.ofDigits` takes the binary digits found in the run to the value they
stand for, `Layout.digits` takes a value to its digits, and `Layout.fits` says
which values have digits of their own at that width.
-/

namespace InstructionSet

/-- Two to the power `n`: how many numbers have `n` binary digits. -/
def twoPow (n : Nat) : Nat := 1 <<< n

/-- The low `width` digits of `digits` as a two's complement number. A width of zero, or of 64 and
more, takes all 64 digits. -/
def signExtend (digits : UInt64) (width : UInt32) : Int64 :=
  if width = 0 ∨ 64 ≤ width then digits.toInt64
  else Int64.ofInt (Int.bmod digits.toNat (twoPow width.toNat))

/-- A run of bits, counted from the most significant bit of a buffer's first byte. -/
@[ext]
structure Layout where
  /-- The place of the run's most significant bit. -/
  firstBit : UInt32
  /-- The number of bits in the run. -/
  size : UInt32
  /-- Whether the run is read in two's complement. -/
  signed : Bool := false
deriving DecidableEq, Inhabited

namespace Layout

/-- One past the last bit of the run. -/
def endBit (l : Layout) : Nat := l.firstBit.toNat + l.size.toNat

/-- Whether the run can be read or written at all: 1 to 64 bits. -/
def readable (l : Layout) : Bool := l.size ≠ 0 ∧ l.size ≤ 64

/-- Whether `value` has a representation in the run. An empty run holds zero alone, and a run of 64
bits or more holds every value. -/
def fits (l : Layout) (value : Int64) : Bool :=
  if l.size = 0 then value = 0
  else if 64 ≤ l.size then true
  else if l.signed then
    -twoPow (l.size.toNat - 1) ≤ value.toInt ∧ value.toInt < twoPow (l.size.toNat - 1)
  else
    0 ≤ value.toInt ∧ value.toInt < twoPow l.size.toNat

/-- The value that the binary number `digits` stands for in a run of this layout. Sixty-four
unsigned digits keep their bit pattern, so that all ones is `-1`. -/
def ofDigits (l : Layout) (digits : Nat) : Int64 :=
  if l.signed then signExtend (UInt64.ofNat digits) l.size else Int64.ofNat digits

/-- The low digits of `value` in two's complement, as many as the run has bits. -/
def digits (l : Layout) (value : Int64) : Nat := value.toUInt64.toNat % twoPow l.size.toNat

end Layout

end InstructionSet
