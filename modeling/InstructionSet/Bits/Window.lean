/-!
# Read windows

A decoder may look at the first bits of a buffer only: those inside its *window*.
`Window` remembers how wide the window is and how far into it the reads so far
have reached. A read is announced with `Window.claim`, which is the only
operation that moves the mark, and which refuses a read that leaves the window.
-/

namespace InstructionSet

/-- Why a field could not be read from a buffer, or written into one. -/
inductive AccessError where
  /-- A field is 1 to 64 bits wide. -/
  | invalidWidth (size : UInt32)
  /-- The field ends at bit `needed`, past the `available` bits there are. -/
  | shortBuffer (needed available : Nat)
  /-- The value has no representation in `size` bits. -/
  | valueTooWide (value : Int64) (size : UInt32)
deriving DecidableEq

namespace AccessError

def message : AccessError → String
  | invalidWidth size => s!"field width {size} outside 1..=64"
  | shortBuffer needed available =>
    s!"field needs {needed} bits but only {available} are available"
  | valueTooWide value size => s!"value {value} does not fit within {size} bits"

end AccessError

/-- How much of a buffer may be read, and how much of it has been. -/
structure Window where
  /-- The number of bits that may be read. -/
  available : Nat
  /-- One past the furthest bit read so far. -/
  consumed : Nat
deriving DecidableEq

namespace Window

/-- An untouched window of `bits` bits. -/
def ofBits (bits : Nat) : Window := { available := bits, consumed := 0 }

/-- The bits between the furthest read and the end of the window. -/
def remaining (w : Window) : Nat := w.available - w.consumed

/-- Announces a read that ends before bit `stop`. A refusal leaves the mark where it was. -/
def claim (w : Window) (stop : Nat) : Except AccessError Window :=
  if stop ≤ w.available then
    .ok { w with consumed := max w.consumed stop }
  else
    .error (.shortBuffer stop w.available)

theorem claim_of_le {w : Window} {stop : Nat} (h : stop ≤ w.available) :
    w.claim stop = .ok { w with consumed := max w.consumed stop } := by
  simp [claim, h]

theorem claim_of_lt {w : Window} {stop : Nat} (h : w.available < stop) :
    w.claim stop = .error (.shortBuffer stop w.available) := by
  simp [claim, Nat.not_le.mpr h]

end Window

end InstructionSet
