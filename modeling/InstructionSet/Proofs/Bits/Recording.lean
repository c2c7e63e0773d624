import InstructionSet.Bits.Extractor
import Mathlib.Control.Monad.Basic

/-!
# A record of what is read

An extractor may answer as it likes, and keep a state from one read to the next, so that
what is asked of it, how often and in what order are all part of what a host relies on.
`Extractor.recorded` is the extractor that answers like another one and writes down each
read on the way. Whatever reads with it leaves the record of its reads in the session,
and nothing else of it changes.

`Asks` is the record of a list of questions that are put one after the other, until one
of them is not answered as demanded.
-/

namespace InstructionSet

/-- A read: where it was, and what was answered. -/
structure Read where
  layout : Layout
  answer : Except AccessError Int64
deriving DecidableEq

/-- The state of a host, and what has been read so far. -/
structure Recorder (σ : Type) where
  host : σ
  reads : List Read := []

variable {σ : Type}

/-- The session with a record. -/
def Session.noting (s : Session σ) (reads : List Read) : Session (Recorder σ) where
  window := s.window
  host := ⟨s.host, reads⟩

namespace Extractor

/-- Answers as `x` does, and writes the read down behind the earlier ones. -/
def recorded (x : Extractor σ) : Extractor (Recorder σ) := fun buffer layout session =>
  let (answer, last) := x buffer layout { window := session.window, host := session.host.host }
  (answer, last.noting (session.host.reads ++ [⟨layout, answer⟩]))

theorem recorded_noting {x : Extractor σ} {buffer : Buffer} {layout : Layout}
    {session last : Session σ} {answer : Except AccessError Int64}
    (h : x buffer layout session = (answer, last)) (reads : List Read) :
    x.recorded buffer layout (session.noting reads)
      = (answer, last.noting (reads ++ [⟨layout, answer⟩])) := by
  have hx : x buffer layout { window := session.window, host := session.host } = (answer, last) := h
  simp only [recorded, Session.noting, hx]

end Extractor

/-! ## Questions one after the other -/

/-- A question: what is to be read, and what it is to be, unless any value will do. -/
structure Demand where
  layout : Layout
  constant : Option Int64 := none

/-- The value is the one that is demanded. -/
def Demand.Met (d : Demand) (value : Int64) : Prop := ∀ c ∈ d.constant, value = c

/-- The reads by which `x` is asked for what is demanded, in that order, up to and including the
first that fails or is not as demanded; whether there was none such; and the session then. -/
inductive Asks (x : Extractor σ) (buffer : Buffer) :
    List Demand → Session σ → List Read → Bool → Session σ → Prop where
  | done {session : Session σ} : Asks x buffer [] session [] true session
  | met {demand : Demand} {rest : List Demand} {session next last : Session σ} {value : Int64}
      {reads : List Read} {complete : Bool}
      (answer : x buffer demand.layout session = (.ok value, next)) (met : demand.Met value)
      (later : Asks x buffer rest next reads complete last) :
    Asks x buffer (demand :: rest) session (⟨demand.layout, .ok value⟩ :: reads) complete last
  | differs {demand : Demand} {rest : List Demand} {session last : Session σ} {value : Int64}
      (answer : x buffer demand.layout session = (.ok value, last)) (differs : ¬ demand.Met value) :
    Asks x buffer (demand :: rest) session [⟨demand.layout, .ok value⟩] false last
  | failed {demand : Demand} {rest : List Demand} {session last : Session σ} {e : AccessError}
      (answer : x buffer demand.layout session = (.error e, last)) :
    Asks x buffer (demand :: rest) session [⟨demand.layout, .error e⟩] false last

end InstructionSet
