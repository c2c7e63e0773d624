import InstructionSet.Proofs.Bits.Reading
import InstructionSet.Proofs.Forest.Terminals
import InstructionSet.Proofs.Search.Turns

/-!
# What a search puts forward

A search goes through a forest by turns, with values held, levels left and owners
refused. None of that shows in what it puts forward, as long as reads and
acceptance are functions: those are the owners all of whose tests hold, in the
order in which the forest lists them, up to the first that is accepted.

`Steady` is what turns keep. `pending` is what is still to be put forward in a
state: a turn that goes on puts some of it forward and leaves the rest
(`Turn.pending_go`), and the last one settles it (`Turn.pending_stop`).
-/

namespace InstructionSet

variable {α σ : Type}

/-- The owners all of whose tests hold. -/
def Forest.Branches.live (holds : Test → Bool) : Forest.Branches α → List α
  | .nil => []
  | .node _ test owner below next =>
    (if holds test then owner.toList ++ below.live holds else []) ++ next.live holds

theorem Forest.Branches.live_eq (holds : Test → Bool) (b : Forest.Branches α) :
    b.live holds = (b.terminals.filter fun t => t.1.all holds).map Prod.snd := by
  induction b with
  | nil => rfl
  | node index test owner below next ihb ihn =>
    rw [live, terminals, ihb, ihn, List.filter_append, List.filter_append, List.map_append,
      List.map_append, List.filter_map, List.filter_map, List.map_map, List.map_map]
    -- every path below the node begins with its test
    congr 1
    by_cases ht : holds test = true
    · rw [if_pos ht]
      congr 1
      · cases owner <;> simp [ht]
      · simp [Function.comp_def, ht]
    · rw [if_neg ht]
      cases owner <;> simp [Function.comp_def, ht]

namespace Search

/--
**Reads and acceptance are functions.** What a read or an owner is answered with
depends on the session only through the width of the window, and leaves that as
it is. A host may keep whatever else it likes.
-/
structure Determined (s : Search α σ)
    (read : Buffer → Layout → Nat → Except AccessError Int64) (answer : α → Nat → Bool) :
    Prop where
  read_eq : ∀ buffer layout session,
    (s.extractor buffer layout session).1 = read buffer layout session.window.available
  read_available : ∀ buffer layout session,
    (s.extractor buffer layout session).2.window.available = session.window.available
  accept_eq : ∀ a session, (s.accept a session).1 = answer a session.window.available
  accept_available : ∀ a session,
    (s.accept a session).2.window.available = session.window.available

/-- The bits themselves, read most significant first, are a function of the buffer. -/
theorem determined_of_msbFirst {s : Search α σ} {answer : α → Nat → Bool}
    (hx : s.extractor = .msbFirst)
    (ha : ∀ a session, (s.accept a session).1 = answer a session.window.available)
    (hw : ∀ a session, (s.accept a session).2.window.available = session.window.available) :
    s.Determined Buffer.answer answer where
  read_eq := by
    intro buffer layout session
    rw [hx, Extractor.msbFirst_fst]
  read_available := by
    intro buffer layout session
    rw [hx, Extractor.msbFirst_available]
  accept_eq := ha
  accept_available := hw

/-- The search of the byte `0x12`, whose nibbles are two fields, for an owner that is not 1. -/
def nibbles : Search Nat Unit where
  table := ⟨[⟨⟨1, by decide⟩, ⟨"high", ⟨0, 4, false⟩, none, none⟩, "byte"⟩,
    ⟨⟨2, by decide⟩, ⟨"low", ⟨4, 4, false⟩, none, none⟩, "byte"⟩]⟩
  policy := .acrossSiblings
  extractor := .msbFirst
  buffer := [0x12]
  accept := fun a session => (a ≠ 1, session)

/-- The owner 1 of `high=1`, the owner 2 of `high=1, low=3`, and the owner 3 of `low=2`. -/
def nibbleForest : Forest Nat :=
  ⟨.node 0 ⟨⟨1, by decide⟩, 1⟩ (some 1) (.node 1 ⟨⟨2, by decide⟩, 3⟩ (some 2) .nil .nil)
    (.node 2 ⟨⟨2, by decide⟩, 2⟩ (some 3) .nil .nil), 2⟩

section Spec

variable (s : Search α σ) (read : Buffer → Layout → Nat → Except AccessError Int64) (width : Nat)

/-- The value of a field in a window of `width` bits, if the table has the field and it can be
read. -/
def value? (field : FieldId) : Option Int64 :=
  (s.table.get? field).bind fun f => (read s.buffer f.layout width).toOption

/-- Whether the field of a test has the value that the test asks for. -/
def holds (t : Test) : Bool := s.value? read width t.field = some t.value

/-- The owners all of whose tests hold, in the order in which the forest lists them. -/
def candidates (f : Forest α) : List α :=
  (f.terminals.filter fun t => t.1.all (s.holds read width)).map Prod.snd

/-- The owners that a search from `state` on puts forward if none is accepted. -/
def pending (state : State α σ) : List α :=
  (state.current :: state.path).flatMap (Forest.Branches.live (s.holds read width))

/-- The list up to the first element that is accepted. -/
def upToFirst (accept : α → Bool) : List α → List α
  | [] => []
  | a :: rest => if accept a then [a] else a :: upToFirst accept rest

/-- The window has the width that it started with, and what is held is what would be read. -/
structure Steady (state : State α σ) : Prop where
  available : state.session.window.available = width
  held : ∀ id value, state.held = some (id, value) → s.value? read width id = some value

end Spec

section Determined

variable {s : Search α σ} {read : Buffer → Layout → Nat → Except AccessError Int64}
  {answer : α → Nat → Bool} {width : Nat}

/-! ## One turn -/

section Pending

variable {index : Nat} {test : Test} {owner : Option α} {below next : Forest.Branches α}
  {path : List (Forest.Branches α)} {held : Held} {session : Session σ}

theorem pending_of_holds (h : s.value? read width test.field = some test.value) :
    s.pending read width ⟨.node index test owner below next, path, held, session⟩
      = owner.toList
          ++ (below :: next :: path).flatMap (Forest.Branches.live (s.holds read width)) := by
  simp only [pending, List.flatMap_cons, Forest.Branches.live, holds, h, decide_true, if_true,
    List.append_assoc]

theorem pending_of_not (h : s.value? read width test.field ≠ some test.value) :
    s.pending read width ⟨.node index test owner below next, path, held, session⟩
      = (next :: path).flatMap (Forest.Branches.live (s.holds read width)) := by
  simp only [pending, List.flatMap_cons, Forest.Branches.live, holds, h, decide_false,
    Bool.false_eq_true, if_false, List.nil_append]

end Pending

/-- Whether it is held or has to be read, a field has the one value. -/
theorem Steady.look (h : s.Determined read answer) {state : State α σ}
    (hs : s.Steady read width state) {field : FieldId} {seen : Look σ}
    (hl : s.look field state.held state.session = seen) :
    seen.reading.value? = s.value? read width field
      ∧ s.Steady read width { state with held := seen.held, session := seen.session } := by
  subst hl
  cases hr : s.reuse? field state.held with
  | some value =>
    -- what is held is what would be read, which is what `Steady` is for
    have hheld : s.value? read width field = some value :=
      hs.held field value (reuse?_eq_some.mp hr).2
    rw [look_of_reuse hr]
    exact ⟨hheld.symm, hs⟩
  | none =>
    rw [look_of_none hr]
    cases hf : s.table.get? field with
    | none =>
      rw [read_undeclared hf, value?, hf]
      exact ⟨rfl, hs.available, by simp⟩
    | some f =>
      have hv : s.value? read width field = (read s.buffer f.layout width).toOption := by
        rw [value?, hf, Option.bind_some]
      have he := h.read_eq s.buffer f.layout state.session
      have ha := h.read_available s.buffer f.layout state.session
      rw [hs.available] at he ha
      cases hx : s.extractor s.buffer f.layout state.session with
      | mk result last =>
        rw [hx] at he ha
        rw [hv, ← he]
        cases result with
        | ok value =>
          rw [read_ok hf hx]
          refine ⟨rfl, ha, ?_⟩
          intro id v hh
          injection hh with hh
          injection hh with hid hh
          rw [← hid, hv, ← he, ← hh]
          rfl
        | error e =>
          rw [read_error hf hx]
          exact ⟨rfl, ha, by simp⟩

/-- An owner is put forward once, and answered as it always is. -/
theorem offer_steady (h : s.Determined read answer) {owner : Option α} {session last : Session σ}
    {accepted : Bool} {offers : List (Move α)}
    (ho : s.offer owner session = (accepted, last, offers))
    (hw : session.window.available = width) :
    offered offers = owner.toList ∧ (∀ a ∈ owner, answer a width = accepted)
      ∧ (accepted = true → owner.isSome) ∧ last.window.available = width := by
  rcases offer_cases ho with ⟨rfl, rfl, rfl, rfl⟩ | ⟨a, rfl, ha, rfl⟩
  · exact ⟨rfl, by simp, by simp, hw⟩
  · have he := h.accept_eq a session
    have hl := h.accept_available a session
    rw [ha, hw] at he hl
    refine ⟨rfl, ?_, fun _ => rfl, hl⟩
    intro b hb
    rw [← Option.some.inj hb, ← he]

/-- **A turn puts forward what comes first.** Owners that it leaves behind are refused. -/
theorem Turn.pending_go (h : s.Determined read answer) {state state' : State α σ}
    {moves : List (Move α)} (ht : s.Turn state moves (.go state'))
    (hs : s.Steady read width state) :
    s.Steady read width state'
      ∧ s.pending read width state = offered moves ++ s.pending read width state'
      ∧ ∀ a ∈ offered moves, answer a width = false := by
  cases ht with
  | up => exact ⟨⟨hs.available, hs.held⟩, rfl, by simp⟩
  | missed look value =>
    obtain ⟨hv, hs'⟩ := hs.look h look
    refine ⟨⟨hs'.available, hs'.held⟩, ?_, by simp⟩
    rw [pending_of_not (by rwa [hv] at value)]
    rfl
  | refused look value offer =>
    obtain ⟨hv, hs'⟩ := hs.look h look
    obtain ⟨ho, ha, -, hw⟩ := offer_steady h offer hs'.available
    rw [offered_test, ho]
    refine ⟨⟨hw, hs'.held⟩, ?_, ?_⟩
    · rw [pending_of_holds (by rwa [hv] at value)]
      rfl
    · intro a hm
      exact ha a (Option.mem_toList.mp hm)
  | down look value offer =>
    obtain ⟨hv, hs'⟩ := hs.look h look
    obtain ⟨ho, ha, -, hw⟩ := offer_steady h offer hs'.available
    rw [List.cons_append, offered_test, offered_append, ho, offered_descend, offered_nil,
      List.append_nil]
    -- nothing is held on the way down, so there is nothing to be kept
    refine ⟨⟨hw, by simp⟩, ?_, ?_⟩
    · rw [pending_of_holds (by rwa [hv] at value)]
      rfl
    · intro a hm
      exact ha a (Option.mem_toList.mp hm)

/-- The last turn accepts what comes first, unless there is nothing. -/
theorem Turn.pending_stop (h : s.Determined read answer) {state : State α σ} {found : Option α}
    {last : Session σ} {moves : List (Move α)} (ht : s.Turn state moves (.stop found last))
    (hs : s.Steady read width state) :
    (s.pending read width state = [] ∧ offered moves = [] ∧ found = none)
      ∨ ∃ a rest, s.pending read width state = a :: rest ∧ offered moves = [a] ∧ found = some a
          ∧ answer a width = true := by
  cases ht with
  | ended => exact .inl ⟨rfl, rfl, rfl⟩
  | accepted look value offer =>
    obtain ⟨hv, hs'⟩ := hs.look h look
    obtain ⟨ho, ha, hsome, -⟩ := offer_steady h offer hs'.available
    obtain ⟨a, rfl⟩ := Option.isSome_iff_exists.mp (hsome rfl)
    rw [hv] at value
    refine .inr ⟨a, _, pending_of_holds value, ?_, rfl, ha a rfl⟩
    rw [offered_test, ho]
    rfl

/-! ## Every run -/

theorem upToFirst_append {accept : α → Bool} {refused rest : List α}
    (h : ∀ a ∈ refused, accept a = false) :
    upToFirst accept (refused ++ rest) = refused ++ upToFirst accept rest := by
  induction refused with
  | nil => rfl
  | cons a refused ih =>
    rw [List.cons_append, upToFirst, if_neg (by rw [h a (List.mem_cons_self ..)]; simp),
      ih fun b hb => h b (List.mem_cons_of_mem _ hb), List.cons_append]

/-- **A search puts forward what is pending**, up to the first owner that is accepted. -/
theorem loop_pending (h : s.Determined read answer) {state : State α σ}
    (hs : s.Steady read width state) :
    offered (s.loop state).moves = upToFirst (answer · width) (s.pending read width state)
      ∧ (s.loop state).found = (s.pending read width state).find? (answer · width) := by
  induction state using s.turn_induction with
  | stop state moves found session ht =>
    rw [ht.loop_stop]
    rcases ht.pending_stop h hs with ⟨hp, hm, rfl⟩ | ⟨a, rest, hp, hm, rfl, ha⟩
    · rw [hp, hm]
      exact ⟨rfl, rfl⟩
    · rw [hp, hm, upToFirst, if_pos ha, List.find?_cons, ha]
      exact ⟨rfl, rfl⟩
  | go state moves state' ht ih =>
    obtain ⟨hs', hp, ha⟩ := ht.pending_go h hs
    obtain ⟨iho, ihf⟩ := ih hs'
    rw [ht.loop_go, hp]
    constructor
    · rw [Outcome.after, offered_append, iho, upToFirst_append ha]
    -- those that the turn put forward were refused, so none of them is found
    · have hn : (offered moves).find? (answer · width) = none := by
        rw [List.find?_eq_none]
        intro a hm
        rw [ha a hm]
        exact Bool.false_ne_true
      rw [List.find?_append, hn, Option.none_or]
      exact ihf

/-- A search leaves the window as wide as it was. -/
theorem loop_available (h : s.Determined read answer) {state : State α σ}
    (hs : s.Steady read width state) : (s.loop state).session.window.available = width := by
  induction state using s.turn_induction with
  | stop state moves found session ht =>
    rw [ht.loop_stop]
    cases ht with
    | ended => exact hs.available
    | accepted look value offer =>
      obtain ⟨-, hs'⟩ := hs.look h look
      exact (offer_steady h offer hs'.available).2.2.2
  | go state moves state' ht ih =>
    rw [ht.loop_go]
    exact ih (ht.pending_go h hs).1

theorem pending_start (f : Forest α) (session : Session σ) :
    s.pending read width ⟨f.branches, [], none, session⟩ = s.candidates read width f := by
  rw [pending, List.flatMap_singleton, Forest.Branches.live_eq]
  rfl

theorem steady_start (f : Forest α) (session : Session σ) :
    s.Steady read session.window.available ⟨f.branches, [], none, session⟩ :=
  ⟨rfl, by simp⟩

/--
**What a search puts forward.** Where reads and acceptance are functions, the
owners put forward are those all of whose tests hold, in the order in which the
forest lists them and each as often as it is listed, up to the first that is
accepted; and that one is found.
-/
theorem run_candidates (h : s.Determined read answer) (f : Forest α) (session : Session σ) :
    offered (s.run f session).moves
        = upToFirst (answer · session.window.available)
            (s.candidates read session.window.available f)
      ∧ (s.run f session).found
        = (s.candidates read session.window.available f).find?
            (answer · session.window.available) := by
  rw [← pending_start f session]
  exact loop_pending h (steady_start f session)

theorem run_candidates_nibbles :
    offered (nibbles.run nibbleForest ⟨.ofBits 8, ()⟩).moves = [1, 3]
      ∧ (nibbles.run nibbleForest ⟨.ofBits 8, ()⟩).found = some 3 := by
  have h : nibbles.Determined Buffer.answer fun a _ => a ≠ 1 :=
    determined_of_msbFirst rfl (fun _ _ => rfl) fun _ _ => rfl
  obtain ⟨ho, hf⟩ := run_candidates h nibbleForest ⟨.ofBits 8, ()⟩
  rw [ho, hf]
  decide

end Determined

end Search

end InstructionSet
