import InstructionSet.Bits.Layout
import InstructionSet.Bits.Window

/-!
# Buffers addressed by the bit

Bit 0 of a buffer is the most significant bit of its first byte. `Buffer.bit` is
the view that everything here is about; `Buffer.digitsAt` reads a run of bits a
byte at a time, and `Buffer.put` writes one a bit at a time.

`Buffer.extract` and `Buffer.encode` are the checked forms: the width is looked
at first, then the value (when writing), then the end of the buffer, and last the
window (when reading).
-/

namespace InstructionSet

/-- The bytes of an instruction, or of a stretch of memory that starts with one. -/
abbrev Buffer := List UInt8

namespace Buffer

/-- The number of bits in the buffer. -/
def bits (b : Buffer) : Nat := 8 * b.length

/-- Bit `i` of the buffer, and `false` past its end. -/
def bit (b : Buffer) (i : Nat) : Bool := ((b[i / 8]?).getD 0).toNat.testBit (7 - i % 8)

/-! ## Reading -/

/-- The number whose digits in base 256 are `bytes`, most significant first. -/
def bigEndian (bytes : List UInt8) : Nat :=
  bytes.foldl (fun number byte => number * 256 + byte.toNat) 0

/-- The bytes that hold the bits from `first` up to `stop`. -/
def covering (b : Buffer) (first stop : Nat) : List UInt8 :=
  (b.drop (first / 8)).take ((stop - 1) / 8 + 1 - first / 8)

/-- The number whose binary digits are the `size` bits from `first` on: the bytes that hold them,
less what follows the last of them, less what comes before the first. -/
def digitsAt (b : Buffer) (first size : Nat) : Nat :=
  let stop := first + size
  (bigEndian (b.covering first stop) >>> (((stop - 1) / 8 + 1) * 8 - stop)) % twoPow size

/-- Reads the value laid out as `l`, and marks the window up to its end. -/
def extract (b : Buffer) (l : Layout) (w : Window) : Except AccessError (Int64 × Window) :=
  if !l.readable then .error (.invalidWidth l.size)
  else if b.bits < l.endBit then .error (.shortBuffer l.endBit b.bits)
  else
    match w.claim l.endBit with
    | .error e => .error e
    | .ok w => .ok (l.ofDigits (b.digitsAt l.firstBit.toNat l.size.toNat), w)

/-! ## Writing -/

/-- The byte with the binary digit in place `place`, counted from the right, set to `on`. -/
def setDigit (byte : UInt8) (place : Nat) (on : Bool) : UInt8 :=
  let weight := UInt8.ofNat (twoPow place)
  if on then byte ||| weight else byte &&& ~~~weight

/-- The buffer with bit `i` set to `on`; past the end nothing changes. -/
def setBit (b : Buffer) (i : Nat) (on : Bool) : Buffer :=
  b.modify (i / 8) fun byte => setDigit byte (7 - i % 8) on

/-- Where the bit `offset` places into a run that starts at `first` is written. The place is a
32-bit number, so a run across place `2 ^ 32` goes on at place 0. -/
def place (first : UInt32) (offset : Nat) : Nat := (first + UInt32.ofNat offset).toNat

/-- Writes the low `size` binary digits of `digits`, most significant first, from `first` on. -/
def put (b : Buffer) (first : UInt32) (size digits : Nat) : Buffer :=
  (List.range size).foldl
    (fun b offset => b.setBit (place first offset) (digits.testBit (size - 1 - offset))) b

/-- Writes `value` laid out as `l`. If the run ends by place `2 ^ 32`, every other bit is left alone;
what is past that is written from place 0 on. -/
def encode (b : Buffer) (l : Layout) (value : Int64) : Except AccessError Buffer :=
  if !l.readable then .error (.invalidWidth l.size)
  else if !l.fits value then .error (.valueTooWide value l.size)
  else if b.bits < l.endBit then .error (.shortBuffer l.endBit b.bits)
  else .ok (b.put l.firstBit l.size.toNat (l.digits value))

/-- A buffer of `bytes` bytes, every bit of it zero. -/
def zeros (bytes : Nat) : Buffer := List.replicate bytes 0

@[simp] theorem length_setBit (b : Buffer) (i : Nat) (on : Bool) :
    (b.setBit i on).length = b.length := by
  simp [setBit]

end Buffer

end InstructionSet
