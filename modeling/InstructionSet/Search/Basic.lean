import InstructionSet.Bits.Extractor
import InstructionSet.FieldTable.Basic
import InstructionSet.Forest.Basic
import InstructionSet.Search.Trace

/-!
# Searching a forest

The tests of a level are made in order. Where one holds, the owner of its node,
if any, is put forward; if it is accepted the search is over, and otherwise it
goes on below the node. A level that is exhausted hands the search back to the
level above, where it goes on with the next alternative. A field that cannot be
read fails its test, and no more.

`Search.step` is one turn of this, and a `Search.State` all that it depends on:
what is left of the level, and of the levels above it. `Search.loop` takes turns
until the search is over. Every turn leaves less to be searched, so it is.

The value read last is *held*: under `CachePolicy.acrossSiblings` a test of the
same field uses it again. It is dropped on the way down and after a failed read,
but kept on the way up.
-/

namespace InstructionSet

/-- When a value that was read for one test serves for the next. -/
inductive CachePolicy where
  /-- As long as tests look at the same field, and the search does not go down a level. -/
  | acrossSiblings
  /-- Never: each test reads its field. -/
  | never
deriving DecidableEq

def CachePolicy.text : CachePolicy → String
  | acrossSiblings => "AcrossSiblings"
  | never => "Never"

/-- What a search through a forest with owners of type `α` is made with, and the buffer that it is
about. -/
structure Search (α σ : Type) where
  table : FieldTable
  policy : CachePolicy
  extractor : Extractor σ
  buffer : Buffer
  /-- Whether an owner whose tests hold is what is looked for. It may read the buffer, too. -/
  accept : α → Session σ → Bool × Session σ

namespace Search

/-- The last value that was read, with its field. -/
abbrev Held := Option (FieldId × Int64)

/-- Where a search stands after looking at a field. -/
structure Look (σ : Type) where
  reading : Reading
  held : Held
  session : Session σ

/-- Where a search stands. -/
structure State (α σ : Type) where
  /-- What is left of the level. -/
  current : Forest.Branches α
  /-- What is left of the levels above, the nearest one first. -/
  path : List (Forest.Branches α)
  held : Held
  session : Session σ

/-- How a search goes on after a turn. -/
inductive Next (α σ : Type) where
  | stop (found : Option α) (session : Session σ)
  | go (state : State α σ)

/-- How a search ended. -/
structure Outcome (α σ : Type) where
  found : Option α
  session : Session σ
  moves : List (Move α)

/-- The outcome with `moves` made before it. -/
def Outcome.after {α σ : Type} (moves : List (Move α)) (o : Outcome α σ) : Outcome α σ :=
  { o with moves := moves ++ o.moves }

variable {α σ : Type}

/-- The value held for a field, where the policy lets it be used. -/
def reuse? (s : Search α σ) (field : FieldId) : Held → Option Int64
  | some (id, value) => if s.policy = .acrossSiblings ∧ id = field then some value else none
  | none => none

/-- Asks for the value of a field. -/
def read (s : Search α σ) (field : FieldId) (session : Session σ) : Look σ :=
  match s.table.get? field with
  | none => { reading := .undeclared, held := none, session }
  | some f =>
    match s.extractor s.buffer f.layout session with
    | (.ok value, session) =>
      { reading := .fresh (.ok value), held := some (field, value), session }
    | (.error e, session) => { reading := .fresh (.error e), held := none, session }

/-- Looks at a field: what is held of it, or else what is read. -/
def look (s : Search α σ) (field : FieldId) (held : Held) (session : Session σ) : Look σ :=
  match s.reuse? field held with
  | some value => { reading := .held value, held, session }
  | none => s.read field session

/-- Puts the owner of a node forward, if it has one. -/
def offer (s : Search α σ) (owner : Option α) (session : Session σ) :
    Bool × Session σ × List (Move α) :=
  match owner with
  | none => (false, session, [])
  | some a =>
    let (accepted, session) := s.accept a session
    (accepted, session, [.offer a accepted])

/-- Takes a turn: leaves a level that is exhausted, or makes the next test. -/
def step (s : Search α σ) (state : State α σ) : List (Move α) × Next α σ :=
  match state.current, state.path with
  | .nil, [] => ([], .stop none state.session)
  | .nil, alternatives :: path =>
    ([.backtrack path.length], .go { state with current := alternatives, path })
  | .node index test owner below next, path =>
    let seen := s.look test.field state.held state.session
    let made := Move.test index test.field seen.reading
    if seen.reading.value? = some test.value then
      let (accepted, session, offers) := s.offer owner seen.session
      if accepted then (made :: offers, .stop owner session)
      else if below.isNil then
        (made :: offers, .go { current := next, path, held := seen.held, session })
      else
        (made :: offers ++ [.descend],
          .go { current := below, path := next :: path, held := none, session })
    else ([made], .go { current := next, path, held := seen.held, session := seen.session })

/-- How much there is to be searched: two turns at most for every node, to test it and to leave the
level below it. -/
def State.left (state : State α σ) : Nat :=
  2 * state.current.size + state.path.foldr (fun b rest => 2 * b.size + 1 + rest) 0

theorem left_lt_of_step {s : Search α σ} {state state' : State α σ} {moves : List (Move α)}
    (h : s.step state = (moves, .go state')) : state'.left < state.left := by
  obtain ⟨current, path, held, session⟩ := state
  unfold step at h
  cases current with
  | nil =>
    cases path with
    | nil => exact absurd h (by simp)
    | cons alternatives path =>
      injection h with _ h
      injection h with h
      subst h
      simp only [State.left, Forest.Branches.size, List.foldr_cons]
      omega
  | node index test owner below next =>
    dsimp only at h
    split at h
    · split at h
      · exact absurd h (by simp)
      · split at h
        · injection h with _ h
          injection h with h
          subst h
          simp only [State.left, Forest.Branches.size]
          omega
        · injection h with _ h
          injection h with h
          subst h
          simp only [State.left, Forest.Branches.size, List.foldr_cons]
          omega
    · injection h with _ h
      injection h with h
      subst h
      simp only [State.left, Forest.Branches.size]
      omega

/-- Takes turns until the search is over. -/
def loop (s : Search α σ) (state : State α σ) : Outcome α σ :=
  match _ : s.step state with
  | (moves, .stop found session) => { found, session, moves }
  | (moves, .go state') => (s.loop state').after moves
termination_by state.left
decreasing_by
  rename_i h
  exact left_lt_of_step h

/-- Searches a forest from its first test on. -/
def run (s : Search α σ) (f : Forest α) (session : Session σ) : Outcome α σ :=
  s.loop { current := f.branches, path := [], held := none, session }

end Search

end InstructionSet
