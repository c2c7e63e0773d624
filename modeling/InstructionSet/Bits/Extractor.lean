import InstructionSet.Bits.Buffer

/-!
# Extractors

A decoder reads fields through an *extractor*, which a host may supply: it can
fetch bits in an order of its own, refuse reads, or keep a state from one read to
the next. What passes from read to read is a `Session`, the window together with
that state. `Extractor.msbFirst` is the extractor of a host that has nothing to
add.
-/

namespace InstructionSet

/-- What one read leaves for the next: the window, and the state of the host. -/
structure Session (σ : Type) where
  window : Window
  host : σ

/-- A way to read the field of a given layout out of a buffer. -/
abbrev Extractor (σ : Type) :=
  Buffer → Layout → Session σ → Except AccessError Int64 × Session σ

/-- Reads the addressed bits most significant first. A refused read leaves the session as it was. -/
def Extractor.msbFirst {σ : Type} : Extractor σ := fun buffer layout session =>
  match buffer.extract layout session.window with
  | .ok (value, window) => (.ok value, { session with window })
  | .error e => (.error e, session)

end InstructionSet
