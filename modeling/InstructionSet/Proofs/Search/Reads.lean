import InstructionSet.Proofs.Bits.Recording
import InstructionSet.Proofs.Search.Visits

/-!
# What a search reads

The reads of a search follow from its moves. A test is one read, of the layout that the
table has for its field, unless it is served from what is held; an owner that is put
forward may be looked into, which takes reads of its own; and moving about takes none.
`Reads` says so, and threads the session from read to read, so that it holds of an
extractor that answers the same read differently each time as well as of any other.

That the reads are these is shown by a search that keeps a record (`Recording`): it takes
the same course, and its record is what the moves of the course amount to (`Recording.run`).
-/

namespace InstructionSet.Search

open Forest (Node)

variable {α σ : Type}

/-- The reads that moves take, and the sessions in which they begin and end. `considers` says what
reads it takes to accept an owner or to refuse it. -/
inductive Reads (s : Search α σ)
    (considers : α → Session σ → List Read → Bool → Session σ → Prop) :
    Session σ → List (Move α) → List Read → Session σ → Prop where
  | nil {session : Session σ} : Reads s considers session [] [] session
  /-- A test that is served from what is held takes no read. -/
  | held {session last : Session σ} {index : Nat} {field : FieldId} {value : Int64}
      {moves : List (Move α)} {reads : List Read}
      (rest : Reads s considers session moves reads last) :
    Reads s considers session (.test index field (.held value) :: moves) reads last
  /-- Any other test takes one. -/
  | read {session next last : Session σ} {index : Nat} {field : FieldId} {f : Field}
      {answer : Except AccessError Int64} {moves : List (Move α)} {reads : List Read}
      (unified : s.table.get? field = some f)
      (answered : s.extractor s.buffer f.layout session = (answer, next))
      (rest : Reads s considers next moves reads last) :
    Reads s considers session (.test index field (.fresh answer) :: moves)
      (⟨f.layout, answer⟩ :: reads) last
  | offer {session next last : Session σ} {a : α} {accepted : Bool} {moves : List (Move α)}
      {early reads : List Read} (considered : considers a session early accepted next)
      (rest : Reads s considers next moves reads last) :
    Reads s considers session (.offer a accepted :: moves) (early ++ reads) last
  | descend {session last : Session σ} {moves : List (Move α)} {reads : List Read}
      (rest : Reads s considers session moves reads last) :
    Reads s considers session (.descend :: moves) reads last
  | backtrack {session last : Session σ} {depth : Nat} {moves : List (Move α)}
      {reads : List Read} (rest : Reads s considers session moves reads last) :
    Reads s considers session (.backtrack depth :: moves) reads last

variable {s : Search α σ} {considers : α → Session σ → List Read → Bool → Session σ → Prop}

theorem Reads.append {session next last : Session σ} {moves moves' : List (Move α)}
    {reads reads' : List Read} (h : Reads s considers session moves reads next)
    (h' : Reads s considers next moves' reads' last) :
    Reads s considers session (moves ++ moves') (reads ++ reads') last := by
  induction h with
  | nil => exact h'
  | held _ ih => exact .held (ih h')
  | read unified answered _ ih => exact .read unified answered (ih h')
  | offer considered _ ih =>
    rw [List.append_assoc]
    exact .offer considered (ih h')
  | descend _ ih => exact .descend (ih h')
  | backtrack _ ih => exact .backtrack (ih h')

/-! ## The search that keeps a record -/

/-- The search `r` is `s`, but that it writes down what it reads. -/
structure Recording (s : Search α σ)
    (considers : α → Session σ → List Read → Bool → Session σ → Prop)
    (r : Search α (Recorder σ)) : Prop where
  table : r.table = s.table
  policy : r.policy = s.policy
  buffer : r.buffer = s.buffer
  extractor : r.extractor = s.extractor.recorded
  accept : ∀ (a : α) (session : Session σ) (reads : List Read), ∃ new,
    considers a session new (s.accept a session).1 (s.accept a session).2
      ∧ r.accept a (session.noting reads)
        = ((s.accept a session).1, (s.accept a session).2.noting (reads ++ new))

/-- The state with a record. -/
def State.noting (state : State α σ) (reads : List Read) : State α (Recorder σ) where
  current := state.current
  path := state.path
  held := state.held
  session := state.session.noting reads

/-- The session in which a turn ends. -/
def Next.session : Next α σ → Session σ
  | stop _ session => session
  | go state => state.session

def Next.noting (reads : List Read) : Next α σ → Next α (Recorder σ)
  | stop found session => .stop found (session.noting reads)
  | go state => .go (state.noting reads)

def Outcome.noting (o : Outcome α σ) (reads : List Read) : Outcome α (Recorder σ) where
  found := o.found
  session := o.session.noting reads
  moves := o.moves

variable {r : Search α (Recorder σ)}

/-- A look takes a read unless it is served. -/
theorem Recording.look (hr : Recording s considers r) {field : FieldId}
    (hdeclared : ∃ f, s.table.get? field = some f) {held : Held} {session : Session σ}
    {seen : Look σ} (h : s.look field held session = seen) (reads : List Read) :
    ∃ new, r.look field held (session.noting reads)
        = { reading := seen.reading, held := seen.held
            session := seen.session.noting (reads ++ new) }
      ∧ ∀ index, Reads s considers session [.test index field seen.reading] new seen.session := by
  subst h
  have hreuse : r.reuse? field held = s.reuse? field held := by
    cases held <;> simp only [reuse?, hr.policy]
  cases hu : s.reuse? field held with
  | some value =>
    rw [look_of_reuse hu, look_of_reuse (hreuse.trans hu)]
    exact ⟨[], by rw [List.append_nil], fun index => .held .nil⟩
  | none =>
    obtain ⟨f, hf⟩ := hdeclared
    have hf' : r.table.get? field = some f := by rw [hr.table, hf]
    rw [look_of_none hu, look_of_none (hreuse.trans hu)]
    cases hx : s.extractor s.buffer f.layout session with
    | mk answer last =>
      have hx' : r.extractor r.buffer f.layout (session.noting reads)
          = (answer, last.noting (reads ++ [⟨f.layout, answer⟩])) := by
        rw [hr.extractor, hr.buffer]
        exact Extractor.recorded_noting hx reads
      refine ⟨[⟨f.layout, answer⟩], ?_, fun index => ?_⟩
      · cases answer with
        | ok value => rw [read_ok hf hx, read_ok hf' hx']
        | error e => rw [read_error hf hx, read_error hf' hx']
      · cases answer with
        | ok value =>
          rw [read_ok hf hx]
          exact .read hf hx .nil
        | error e =>
          rw [read_error hf hx]
          exact .read hf hx .nil

/-- Putting an owner forward takes the reads that it takes to consider it. -/
theorem Recording.offer (hr : Recording s considers r) {owner : Option α}
    {session last : Session σ} {accepted : Bool} {offers : List (Move α)}
    (h : s.offer owner session = (accepted, last, offers)) (reads : List Read) :
    ∃ new, r.offer owner (session.noting reads) = (accepted, last.noting (reads ++ new), offers)
      ∧ Reads s considers session offers new last := by
  rcases offer_cases h with ⟨rfl, rfl, rfl, rfl⟩ | ⟨a, rfl, ha, rfl⟩
  · exact ⟨[], by rw [List.append_nil]; rfl, .nil⟩
  · obtain ⟨new, hconsidered, haccept⟩ := hr.accept a session reads
    rw [ha] at hconsidered haccept
    refine ⟨new, ?_, ?_⟩
    · rw [Search.offer, haccept]
    · have hoffer : Reads s considers session [.offer a accepted] (new ++ []) last :=
        .offer hconsidered .nil
      rwa [List.append_nil] at hoffer

/-- A turn takes its look and what it takes to consider the owner. -/
theorem Recording.look_offer (hr : Recording s considers r) {field : FieldId}
    (hdeclared : ∃ f, s.table.get? field = some f) {held : Held} {session last : Session σ}
    {seen : Look σ} {owner : Option α} {accepted : Bool} {offers : List (Move α)}
    (look : s.look field held session = seen)
    (offer : s.offer owner seen.session = (accepted, last, offers)) (index : Nat)
    (reads : List Read) :
    ∃ seen' new, r.look field held (session.noting reads) = seen'
      ∧ seen'.reading = seen.reading ∧ seen'.held = seen.held
      ∧ r.offer owner seen'.session = (accepted, last.noting (reads ++ new), offers)
      ∧ Reads s considers session (.test index field seen.reading :: offers) new last := by
  obtain ⟨new, hlook, hreads⟩ := hr.look hdeclared look reads
  obtain ⟨new', hoffer, hreads'⟩ := hr.offer offer (reads ++ new)
  refine ⟨_, new ++ new', hlook, rfl, rfl, ?_, ?_⟩
  · rw [hoffer, List.append_assoc]
  · exact (hreads index).append hreads'

/-- The table has the field of what is tested next. -/
theorem declared_test {index : Nat} {test : Test} {owner : Option α}
    {below next : Forest.Branches α} {path : List (Forest.Branches α)} {held : Held}
    {session : Session σ}
    (h : ∀ n ∈ State.nodes ⟨.node index test owner below next, path, held, session⟩,
      ∃ f, s.table.get? n.test.field = some f) : ∃ f, s.table.get? test.field = some f := by
  rw [State.nodes_node] at h
  exact h _ List.mem_cons_self

/-- **A turn of the search that keeps a record** is one of the other, with the reads that its moves
take written down. -/
theorem Recording.turn (hr : Recording s considers r) {state : State α σ}
    {moves : List (Move α)} {next : Next α σ} (h : s.Turn state moves next)
    (hdeclared : ∀ n ∈ state.nodes, ∃ f, s.table.get? n.test.field = some f)
    (reads : List Read) :
    ∃ new, r.Turn (state.noting reads) moves (next.noting (reads ++ new))
      ∧ Reads s considers state.session moves new next.session := by
  cases h with
  | ended => exact ⟨[], by rw [List.append_nil]; exact .ended, .nil⟩
  | up => exact ⟨[], by rw [List.append_nil]; exact .up, .backtrack .nil⟩
  | @missed index _ _ _ _ _ _ _ _ look value =>
    obtain ⟨new, hlook, hreads⟩ := hr.look (declared_test hdeclared) look reads
    exact ⟨new, .missed hlook value, hreads index⟩
  | @accepted index _ _ _ _ _ _ _ _ _ _ look value offer =>
    obtain ⟨seen', new, hlook, hreading, -, hoffer, hreads⟩ :=
      hr.look_offer (declared_test hdeclared) look offer index reads
    rw [← hreading] at value hreads ⊢
    exact ⟨new, .accepted hlook value hoffer, hreads⟩
  | @refused index _ _ _ _ _ _ _ _ _ look value offer =>
    obtain ⟨seen', new, hlook, hreading, hheld, hoffer, hreads⟩ :=
      hr.look_offer (declared_test hdeclared) look offer index reads
    rw [← hreading] at value hreads ⊢
    refine ⟨new, ?_, hreads⟩
    rw [Next.noting, State.noting, State.noting, ← hheld]
    exact .refused hlook value hoffer
  | @down index _ _ _ _ _ _ _ _ _ _ look value offer deeper =>
    obtain ⟨seen', new, hlook, hreading, -, hoffer, hreads⟩ :=
      hr.look_offer (declared_test hdeclared) look offer index reads
    rw [← hreading] at value hreads ⊢
    have hdown := hreads.append (.descend .nil)
    rw [List.append_nil] at hdown
    exact ⟨new, .down hlook value hoffer deeper, hdown⟩

/-- What a turn leaves to be searched was there before. -/
theorem Turn.nodes_go {state state' : State α σ} {moves : List (Move α)}
    (h : s.Turn state moves (.go state')) : ∀ n ∈ state'.nodes, n ∈ state.nodes := by
  intro n hn
  cases h with
  | up => exact hn
  | missed look value =>
    rw [State.nodes_node, List.flatMap_cons]
    exact List.mem_cons_of_mem _ (List.mem_append_right _ hn)
  | refused look value offer =>
    rw [State.nodes_node, List.flatMap_cons]
    exact List.mem_cons_of_mem _ hn
  | down look value offer deeper =>
    rw [State.nodes_node]
    exact List.mem_cons_of_mem _ hn

theorem Recording.loop (hr : Recording s considers r) (state : State α σ)
    (hdeclared : ∀ n ∈ state.nodes, ∃ f, s.table.get? n.test.field = some f)
    (reads : List Read) :
    ∃ new, r.loop (state.noting reads) = (s.loop state).noting (reads ++ new)
      ∧ Reads s considers state.session (s.loop state).moves new (s.loop state).session := by
  induction state using s.turn_induction generalizing reads with
  | stop state moves found session h =>
    obtain ⟨new, hturn, hreads⟩ := hr.turn h hdeclared reads
    rw [h.loop_stop]
    exact ⟨new, hturn.loop_stop, hreads⟩
  | go state moves state' h ih =>
    obtain ⟨new, hturn, hreads⟩ := hr.turn h hdeclared reads
    obtain ⟨later, hloop, hrest⟩ := ih (fun n hn => hdeclared n (h.nodes_go n hn)) (reads ++ new)
    rw [h.loop_go]
    refine ⟨new ++ later, ?_, hreads.append hrest⟩
    rw [hturn.loop_go, hloop, List.append_assoc]
    rfl

/-- **The record of a search is what its moves amount to**, and the search takes the same course. -/
theorem Recording.run (hr : Recording s considers r) {f : Forest α}
    (hdeclared : ∀ n ∈ f.nodes, ∃ f, s.table.get? n.test.field = some f) (session : Session σ) :
    ∃ new, r.run f (session.noting []) = (s.run f session).noting new
      ∧ Reads s considers session (s.run f session).moves new (s.run f session).session := by
  refine hr.loop ⟨f.branches, [], none, session⟩ (fun n hn => hdeclared n ?_) []
  rw [State.nodes, List.flatMap_singleton] at hn
  exact Forest.mem_nodes.mpr hn

end InstructionSet.Search
