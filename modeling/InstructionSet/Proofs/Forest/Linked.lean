import InstructionSet.Proofs.Forest.Runs

/-!
# Entering chains in place

Whoever has only the list of linked nodes can enter chains into it: follow the
links of a level to the node with the next test, and if there is none, append one
and set the link that was found empty. That is one of three: the root's, the
child of the node above, or the sibling of the last node of the level (`Slot`).

`Branches.insert` builds the level anew instead, and numbers nodes as they would
be appended. `enter_insert` says that the two do the same to a level and leave
everything else alone, and `after_linked` that they never part: every run of calls
makes one list of nodes, and gives the same answers.
-/

namespace InstructionSet.Forest

variable {α : Type}

/-- Nodes that are linked by number, each in the place of its number. -/
structure Linked (α : Type) where
  nodes : List (Node α) := []
  root? : Option Nat := none
  maxDepth : Nat := 0

/-- The forest as a list of linked nodes. -/
def linked (f : Forest α) : Linked α :=
  { nodes := f.nodes, root? := f.root?, maxDepth := f.maxDepth }

/-- A place for a link. -/
inductive Slot where
  | root
  | child (above : Nat)
  | sibling (before : Nat)

/-- The first number that a link from the slot may lead to. -/
def Slot.place : Slot → Nat
  | root => 0
  | child above => above + 1
  | sibling before => before + 1

@[simp] theorem Slot.place_child (k : Nat) : (child k).place = k + 1 := rfl

@[simp] theorem Slot.place_sibling (k : Nat) : (sibling k).place = k + 1 := rfl

namespace Linked

def read (l : Linked α) : Slot → Option Nat
  | .root => l.root?
  | .child above => l.nodes[above]?.bind Node.child
  | .sibling before => l.nodes[before]?.bind Node.sibling

def write (l : Linked α) (link : Option Nat) : Slot → Linked α
  | .root => { l with root? := link }
  | .child above => { l with nodes := l.nodes.modify above fun n => { n with child := link } }
  | .sibling before => { l with nodes := l.nodes.modify before fun n => { n with sibling := link } }

/-- The node that is appended for a test. -/
def fresh (l : Linked α) (t : Test) : Node α :=
  { index := l.nodes.length, test := t, owner := none, child := none, sibling := none }

/-- Appends a node for a test, and links it from a slot. -/
def append (l : Linked α) (slot : Slot) (t : Test) : Linked α :=
  ({ l with nodes := l.nodes ++ [l.fresh t] } : Linked α).write (some l.nodes.length) slot

/-- The node for a test in the level that the slot leads to. It is appended if there is none, and
nothing comes of a link that leads out of the list or back. -/
def findOrAppend (l : Linked α) (t : Test) (slot : Slot) : Option (Node α × Linked α) :=
  match l.read slot with
  | none => some (l.fresh t, l.append slot t)
  | some k =>
    match _hk : l.nodes[k]? with
    | none => none
    | some n =>
      if n.test = t then some (n, l)
      else if slot.place ≤ k then l.findOrAppend t (.sibling k)
      else none
termination_by l.nodes.length - slot.place
decreasing_by
  have := (List.getElem?_eq_some_iff.mp _hk).1
  rw [Slot.place_sibling]
  omega

/-- The first owner in the level that the slot leads to and below it. -/
def firstOwner? (l : Linked α) (slot : Slot) : Option α :=
  match l.read slot with
  | none => none
  | some k =>
    match _hk : l.nodes[k]? with
    | none => none
    | some n =>
      if slot.place ≤ k then
        n.owner <|> l.firstOwner? (.child k) <|> l.firstOwner? (.sibling k)
      else none
termination_by l.nodes.length - slot.place
decreasing_by
  all_goals
    have := (List.getElem?_eq_some_iff.mp _hk).1
    simp only [Slot.place_child, Slot.place_sibling]
    omega

def own (l : Linked α) (owner : α) (k : Nat) : Linked α :=
  { l with nodes := l.nodes.modify k fun n => { n with owner := some owner } }

/-- Gives a node to `owner`, unless it has an owner and is not to be taken over. -/
def occupy (l : Linked α) (owner : α) (replace : Bool) (n : Node α) :
    Except (Refusal α) (Placement α) × Linked α :=
  match n.owner, replace with
  | some existing, false => (.error (.occupied existing), l)
  | present, _ =>
    (.ok { replaced := present, shadows := l.firstOwner? (.child n.index) }, l.own owner n.index)

/-- Enters a chain into the level that the slot leads to. -/
def enter (owner : α) (replace : Bool) :
    Linked α → Slot → List Test → Option (Except (Refusal α) (Placement α) × Linked α)
  | l, _, [] => some (.error .emptyChain, l)
  | l, slot, [t] => (l.findOrAppend t slot).map fun x => x.2.occupy owner replace x.1
  | l, slot, t :: following :: rest =>
    (l.findOrAppend t slot).bind fun x =>
      (enter owner replace x.2 (.child x.1.index) (following :: rest)).map fun y =>
        (y.1.map (Placement.behind x.1.owner), y.2)

/-- Enters a chain. -/
def call (l : Linked α) (c : Call α) :
    Option (Except (Refusal α) (Placement α) × Linked α) :=
  (enter c.owner c.replace l .root c.chain).map fun
    | (.error refusal, l) => (.error refusal, l)
    | (.ok placement, l) =>
      (.ok placement, { l with maxDepth := max l.maxDepth c.chain.length })

/-- The list after some chains were entered. -/
def after (l : Linked α) : List (Call α) → Option (Linked α)
  | [] => some l
  | c :: rest => (l.call c).bind fun x => x.2.after rest

/-! ## Links -/

section Links

variable (l : Linked α) (link : Option Nat) (slot : Slot)

@[simp] theorem length_write : (l.write link slot).nodes.length = l.nodes.length := by
  cases slot with
  | root => rfl
  | child above => exact List.length_modify ..
  | sibling before => exact List.length_modify ..

/-- Setting a link leaves the other nodes alone. -/
theorem getElem?_write_of_ne {l : Linked α} {link : Option Nat} {slot : Slot} {k : Nat}
    (h : slot.place ≠ k + 1) : (l.write link slot).nodes[k]? = l.nodes[k]? := by
  cases slot with
  | root => rfl
  | child above =>
    have hne : above ≠ k := fun he => h (congrArg (· + 1) he)
    rw [write, List.getElem?_modify]
    simp [hne]
  | sibling before =>
    have hne : before ≠ k := fun he => h (congrArg (· + 1) he)
    rw [write, List.getElem?_modify]
    simp [hne]

theorem getElem?_write_child (k : Nat) :
    (l.write link (.child k)).nodes[k]?
      = l.nodes[k]?.map fun n => { n with child := link } := by
  rw [write, List.getElem?_modify]
  simp

theorem getElem?_write_sibling (k : Nat) :
    (l.write link (.sibling k)).nodes[k]?
      = l.nodes[k]?.map fun n => { n with sibling := link } := by
  rw [write, List.getElem?_modify]
  simp

/-- A link that is set to what it is stays what it is. -/
theorem write_read : l.write (l.read slot) slot = l := by
  have hnodes : ∀ (k : Nat) (f : Node α → Node α), (∀ n, l.nodes[k]? = some n → f n = n) →
      l.nodes.modify k f = l.nodes := by
    intro k f hf
    apply List.ext_getElem?
    intro j
    rw [List.getElem?_modify]
    cases hj : l.nodes[j]? with
    | none => rfl
    | some n =>
      by_cases hkj : k = j
      · subst hkj
        simp [hf n hj]
      · simp [hkj]
  cases slot with
  | root => rfl
  | child above =>
    rw [write, hnodes]
    intro n hn
    rw [read, hn]
    rfl
  | sibling before =>
    rw [write, hnodes]
    intro n hn
    rw [read, hn]
    rfl

end Links

/-! ## Steps -/

section Steps

variable {l : Linked α} {slot : Slot} {k : Nat} {n : Node α}

theorem findOrAppend_fresh (t : Test) (h : l.read slot = none) :
    l.findOrAppend t slot = some (l.fresh t, l.append slot t) := by
  rw [findOrAppend, h]

theorem findOrAppend_found (h : l.read slot = some k) (hn : l.nodes[k]? = some n) :
    l.findOrAppend n.test slot = some (n, l) := by
  rw [findOrAppend, h]
  dsimp only
  split
  · rename_i hk
    exact absurd (hn.symm.trans hk) (by simp)
  · rename_i m hk
    obtain rfl := Option.some.inj (hn.symm.trans hk)
    rw [if_pos rfl]

theorem findOrAppend_next {t : Test} (h : l.read slot = some k) (hn : l.nodes[k]? = some n)
    (ht : n.test ≠ t) (hk : slot.place ≤ k) :
    l.findOrAppend t slot = l.findOrAppend t (.sibling k) := by
  rw [findOrAppend, h]
  dsimp only
  split
  · rename_i hk
    exact absurd (hn.symm.trans hk) (by simp)
  · rename_i m hm
    obtain rfl := Option.some.inj (hn.symm.trans hm)
    rw [if_neg ht, if_pos hk]

theorem firstOwner?_none (h : l.read slot = none) : l.firstOwner? slot = none := by
  rw [firstOwner?, h]

theorem firstOwner?_some (h : l.read slot = some k) (hn : l.nodes[k]? = some n)
    (hk : slot.place ≤ k) :
    l.firstOwner? slot
      = (n.owner <|> l.firstOwner? (.child k) <|> l.firstOwner? (.sibling k)) := by
  rw [firstOwner?, h]
  dsimp only
  split
  · rename_i hk
    exact absurd (hn.symm.trans hk) (by simp)
  · rename_i m hm
    obtain rfl := Option.some.inj (hn.symm.trans hm)
    rw [if_pos hk]

theorem occupy_of_free {owner : α} {replace : Bool} (h : n.owner = none ∨ replace = true) :
    l.occupy owner replace n
      = (.ok { replaced := n.owner, shadows := l.firstOwner? (.child n.index) },
        l.own owner n.index) := by
  unfold occupy
  split
  · rename_i ho
    rw [ho] at h
    exact absurd h (by simp)
  · rfl

end Steps

/-! ## Levels -/

/-- The slot leads to the level `b`: all its nodes are in the list, and what leads to them leads
forward. -/
structure Leads (l : Linked α) (slot : Slot) (b : Branches α) : Prop where
  read_eq : l.read slot = b.head?
  getElem?_eq : ∀ n ∈ b.preorder, l.nodes[n.index]? = some n
  place_le : ∀ k ∈ b.indices, slot.place ≤ k
  bound : slot.place ≤ l.nodes.length
  ascending : b.Ascending
  nodup : b.indices.Nodup

section Leads

variable {l : Linked α} {slot : Slot} {i : Nat} {t : Test} {o : Option α} {below next : Branches α}

theorem Leads.getElem?_head (h : l.Leads slot (.node i t o below next)) :
    l.nodes[i]? = some (Branches.listed i t o below next) :=
  h.getElem?_eq _ (List.mem_cons_self ..)

theorem Leads.lt_length (h : l.Leads slot (.node i t o below next)) : i < l.nodes.length :=
  (List.getElem?_eq_some_iff.mp h.getElem?_head).1

theorem Leads.place_le_head (h : l.Leads slot (.node i t o below next)) : slot.place ≤ i :=
  h.place_le i (List.mem_cons_self ..)

theorem Leads.write_head (h : l.Leads slot (.node i t o below next)) :
    l.write (some i) slot = l := by
  rw [← show l.read slot = some i from h.read_eq, write_read]

theorem Leads.down (h : l.Leads slot (.node i t o below next)) : l.Leads (.child i) below where
  read_eq := by
    rw [read, h.getElem?_head]
    rfl
  getElem?_eq := fun n hn =>
    h.getElem?_eq n (List.mem_cons_of_mem _ (List.mem_append_left _ hn))
  place_le := fun k hk => h.ascending.1 k (List.mem_append_left _ hk)
  bound := h.lt_length
  ascending := h.ascending.2.1
  nodup := (List.nodup_append.mp (List.nodup_cons.mp h.nodup).2).1

theorem Leads.across (h : l.Leads slot (.node i t o below next)) :
    l.Leads (.sibling i) next where
  read_eq := by
    rw [read, h.getElem?_head]
    rfl
  getElem?_eq := fun n hn =>
    h.getElem?_eq n (List.mem_cons_of_mem _ (List.mem_append_right _ hn))
  place_le := fun k hk => h.ascending.1 k (List.mem_append_right _ hk)
  bound := h.lt_length
  ascending := h.ascending.2.2
  nodup := (List.nodup_append.mp (List.nodup_cons.mp h.nodup).2).2.1

theorem Leads.firstOwner?_eq {b : Branches α} (h : l.Leads slot b) :
    l.firstOwner? slot = b.firstOwner? := by
  induction b generalizing slot with
  | nil => exact firstOwner?_none h.read_eq
  | node i t o below next ihb ihn =>
    rw [firstOwner?_some h.read_eq h.getElem?_head h.place_le_head, ihb h.down, ihn h.across]
    rfl

/-- The slot has the link to its level. -/
theorem Leads.write_eq {b : Branches α} (h : l.Leads slot b) : l.write b.head? slot = l := by
  rw [← h.read_eq, write_read]

end Leads

/-! ## What entering does to a level -/

/--
**Between `l` and `l'`, the level `b` that the slot led to has become `b'`.**

Nothing else has changed but the link in the slot.
-/
structure Entered (l l' : Linked α) (slot : Slot) (b b' : Branches α) : Prop where
  getElem?_eq : ∀ n ∈ b'.preorder, l'.nodes[n.index]? = some n
  frame : ∀ k < l.nodes.length, k ∉ b.indices →
    l'.nodes[k]? = (l.write b'.head? slot).nodes[k]?
  length_eq : l'.nodes.length + b.size = l.nodes.length + b'.size
  root?_eq : l'.root? = (l.write b'.head? slot).root?
  maxDepth_eq : l'.maxDepth = l.maxDepth

section Entered

variable {l : Linked α} {slot : Slot}

theorem length_append (t : Test) : (l.append slot t).nodes.length = l.nodes.length + 1 := by
  rw [append, length_write, List.length_append, List.length_singleton]

theorem getElem?_append_length (t : Test) (h : slot.place ≤ l.nodes.length) :
    (l.append slot t).nodes[l.nodes.length]? = some (l.fresh t) := by
  rw [append, getElem?_write_of_ne (by omega), List.getElem?_concat_length]

theorem getElem?_append_lt (t : Test) {k : Nat} (h : k < l.nodes.length) :
    (l.append slot t).nodes[k]? = (l.write (some l.nodes.length) slot).nodes[k]? := by
  have hold : (l.nodes ++ [l.fresh t])[k]? = l.nodes[k]? := List.getElem?_append_left h
  cases slot with
  | root => exact hold
  | child above => rw [append, write, write, List.getElem?_modify, List.getElem?_modify, hold]
  | sibling before => rw [append, write, write, List.getElem?_modify, List.getElem?_modify, hold]

theorem root?_append (t : Test) :
    (l.append slot t).root? = (l.write (some l.nodes.length) slot).root? := by
  cases slot <;> rfl

theorem maxDepth_write (link : Option Nat) : (l.write link slot).maxDepth = l.maxDepth := by
  cases slot <;> rfl

theorem getElem?_own (owner : α) (k : Nat) :
    (l.own owner k).nodes[k]? = l.nodes[k]?.map fun n => { n with owner := some owner } := by
  rw [own, List.getElem?_modify]
  simp

theorem getElem?_own_of_ne (owner : α) {k j : Nat} (h : k ≠ j) :
    (l.own owner k).nodes[j]? = l.nodes[j]? := by
  rw [own, List.getElem?_modify]
  simp [h]

theorem length_own (owner : α) (k : Nat) : (l.own owner k).nodes.length = l.nodes.length :=
  List.length_modify ..

/-- Where the slot leads nowhere, a node is appended for every test. -/
theorem enter_fresh (owner : α) (replace : Bool) (u : Test) (rest : List Test)
    (hr : l.read slot = none) (hb : slot.place ≤ l.nodes.length) :
    ∃ l', enter owner replace l slot (u :: rest) = some (.ok {}, l')
      ∧ l.Entered l' slot .nil (.spine owner l.nodes.length u rest) := by
  induction rest generalizing l slot u with
  | nil =>
    have hnew := getElem?_append_length u hb
    have hempty : (l.append slot u).read (.child l.nodes.length) = none := by
      rw [read, hnew]
      rfl
    refine ⟨(l.append slot u).own owner l.nodes.length, ?_, ?_, ?_, ?_, ?_, ?_⟩
    · rw [enter, findOrAppend_fresh u hr, Option.map_some, occupy_of_free (Or.inl rfl), fresh,
        firstOwner?_none hempty]
    · intro n hn
      rw [List.mem_singleton.mp hn]
      exact (getElem?_own ..).trans (congrArg _ hnew)
    · intro k hk _
      rw [getElem?_own_of_ne owner (Nat.ne_of_gt hk), getElem?_append_lt u hk]
      rfl
    · rw [length_own, length_append]
      rfl
    · exact root?_append u
    · exact maxDepth_write _
  | cons f rest ih =>
    have hnew := getElem?_append_length u hb
    have hempty : (l.append slot u).read (.child l.nodes.length) = none := by
      rw [read, hnew]
      rfl
    have hlen : (l.append slot u).nodes.length = l.nodes.length + 1 := length_append u
    -- the rest of the chain is appended behind the child of the new node, which is empty
    obtain ⟨l', he, h⟩ := ih f hempty (Nat.le_of_eq hlen.symm)
    rw [hlen] at h
    refine ⟨l', ?_, ?_, ?_, ?_, ?_, ?_⟩
    · rw [enter, findOrAppend_fresh u hr, Option.bind_some, fresh, he]
      rfl
    · intro n hn
      rcases List.mem_cons.mp hn with rfl | hn
      -- the new node has the link to the next one, and is otherwise as it was appended
      · have hself := h.frame l.nodes.length (by omega) (by simp [Branches.indices])
        rw [getElem?_write_child, hnew] at hself
        exact hself
      · exact h.getElem?_eq n (by simpa [Branches.preorder] using hn)
    · intro k hk _
      rw [h.frame k (by omega) (by simp [Branches.indices]),
        getElem?_write_of_ne (by simpa using Nat.ne_of_gt hk), getElem?_append_lt u hk]
      rfl
    · have hsize := h.length_eq
      rw [hlen] at hsize
      simp only [Branches.spine, Branches.size] at hsize ⊢
      omega
    · rw [h.root?_eq]
      exact root?_append u
    · rw [h.maxDepth_eq]
      exact maxDepth_write _

section Node

variable {l' : Linked α} {i : Nat} {t : Test} {o : Option α} {b b' below next : Branches α}

theorem Entered.getElem?_of_ne (h : l.Entered l' slot b b') {k : Nat} (hk : k < l.nodes.length)
    (hb : k ∉ b.indices) (hs : slot.place ≠ k + 1) : l'.nodes[k]? = l.nodes[k]? := by
  rw [h.frame k hk hb, getElem?_write_of_ne hs]

theorem Leads.entered_self (h : l.Leads slot b) : l.Entered l slot b b where
  getElem?_eq := h.getElem?_eq
  frame := by
    intro k _ _
    rw [h.write_eq]
  length_eq := rfl
  root?_eq := by rw [h.write_eq]
  maxDepth_eq := rfl

/-- The numbers of a node, of what is below it and of its alternatives are different ones. -/
theorem Leads.parts (h : l.Leads slot (.node i t o below next)) :
    i ∉ below.indices ∧ i ∉ next.indices ∧ ∀ k ∈ below.indices, k ∉ next.indices := by
  obtain ⟨hi, hparts⟩ := List.nodup_cons.mp h.nodup
  rw [List.mem_append, not_or] at hi
  exact ⟨hi.1, hi.2, fun k hb hn => (List.nodup_append.mp hparts).2.2 k hb k hn rfl⟩

/-- A level of which the first node has been given away. -/
theorem Leads.entered_own (h : l.Leads slot (.node i t o below next)) (owner : α) :
    l.Entered (l.own owner i) slot (.node i t o below next)
      (.node i t (some owner) below next) where
  getElem?_eq := by
    intro n hn
    rcases List.mem_cons.mp hn with rfl | hn
    · rw [Branches.listed_index, getElem?_own, h.getElem?_head]
      rfl
    · have hne : i ≠ n.index := by
        intro he
        have hm := (List.nodup_cons.mp h.nodup).1
        rw [he] at hm
        apply hm
        rcases List.mem_append.mp hn with hn | hn
        · exact List.mem_append_left _ (Branches.index_mem_indices hn)
        · exact List.mem_append_right _ (Branches.index_mem_indices hn)
      rw [getElem?_own_of_ne owner hne]
      exact h.getElem?_eq n (List.mem_cons_of_mem _ hn)
  frame := by
    intro k _ hk
    have hne : i ≠ k := fun he => hk (he ▸ List.mem_cons_self ..)
    rw [getElem?_own_of_ne owner hne, Branches.head?, h.write_head]
  length_eq := by
    rw [length_own]
    rfl
  root?_eq := by
    rw [Branches.head?, h.write_head]
    rfl
  maxDepth_eq := rfl

theorem Leads.entered_occupy (h : l.Leads slot (.node i t o below next)) (owner : α)
    (replace : Bool) :
    ∃ l', l.occupy owner replace (Branches.listed i t o below next)
        = ((Branches.occupy owner replace i t o below next).1, l')
      ∧ l.Entered l' slot (.node i t o below next)
          (Branches.occupy owner replace i t o below next).2 := by
  have hshadows : l.firstOwner? (.child i) = below.firstOwner? := h.down.firstOwner?_eq
  cases o with
  | none =>
    refine ⟨l.own owner i, ?_, ?_⟩
    · rw [occupy_of_free (Or.inl rfl), Branches.listed_index, hshadows]
      cases replace <;> rfl
    · cases replace <;> exact h.entered_own owner
  | some existing =>
    cases replace with
    | false => exact ⟨l, rfl, h.entered_self⟩
    | true =>
      refine ⟨l.own owner i, ?_, h.entered_own owner⟩
      rw [occupy_of_free (Or.inr rfl), Branches.listed_index, hshadows]
      rfl

/-- A level of which the first node has something else below it. -/
theorem Leads.entered_below (h : l.Leads slot (.node i t o below next))
    (he : l.Entered l' (.child i) below b') :
    l.Entered l' slot (.node i t o below next) (.node i t o b' next) where
  getElem?_eq := by
    obtain ⟨hib, hin, hdisj⟩ := h.parts
    intro n hn
    rw [Branches.preorder, List.mem_cons, List.mem_append] at hn
    rcases hn with rfl | hn | hn
    · rw [Branches.listed_index, he.frame i h.lt_length hib, getElem?_write_child, h.getElem?_head]
      rfl
    · exact he.getElem?_eq n hn
    -- the alternatives have other numbers, so that nothing has happened to them
    · have hidx := Branches.index_mem_indices hn
      have hold := h.across.getElem?_eq n hn
      have hne : n.index ≠ i := fun hc => hin (hc ▸ hidx)
      rw [he.getElem?_of_ne (List.getElem?_eq_some_iff.mp hold).1 (fun hb => hdisj _ hb hidx)
        (by simpa using hne.symm), hold]
  frame := by
    intro k hlt hk
    rw [Branches.indices, List.mem_cons, List.mem_append, not_or, not_or] at hk
    rw [he.getElem?_of_ne hlt hk.2.1 (by simpa using Ne.symm hk.1), Branches.head?, h.write_head]
  length_eq := by
    have hsize := he.length_eq
    simp only [Branches.size]
    omega
  root?_eq := by
    rw [he.root?_eq, Branches.head?, h.write_head]
    rfl
  maxDepth_eq := he.maxDepth_eq

/-- A level of which the first node has other alternatives. -/
theorem Leads.entered_next (h : l.Leads slot (.node i t o below next))
    (he : l.Entered l' (.sibling i) next b') :
    l.Entered l' slot (.node i t o below next) (.node i t o below b') where
  getElem?_eq := by
    obtain ⟨hib, hin, hdisj⟩ := h.parts
    intro n hn
    rw [Branches.preorder, List.mem_cons, List.mem_append] at hn
    rcases hn with rfl | hn | hn
    · rw [Branches.listed_index, he.frame i h.lt_length hin, getElem?_write_sibling,
        h.getElem?_head]
      rfl
    -- what is below the node has other numbers, so that nothing has happened to it
    · have hidx := Branches.index_mem_indices hn
      have hold := h.down.getElem?_eq n hn
      have hne : n.index ≠ i := fun hc => hib (hc ▸ hidx)
      rw [he.getElem?_of_ne (List.getElem?_eq_some_iff.mp hold).1 (hdisj _ hidx)
        (by simpa using hne.symm), hold]
    · exact he.getElem?_eq n hn
  frame := by
    intro k hlt hk
    rw [Branches.indices, List.mem_cons, List.mem_append, not_or, not_or] at hk
    rw [he.getElem?_of_ne hlt hk.2.2 (by simpa using Ne.symm hk.1), Branches.head?, h.write_head]
  length_eq := by
    have hsize := he.length_eq
    simp only [Branches.size]
    omega
  root?_eq := by
    rw [he.root?_eq, Branches.head?, h.write_head]
    rfl
  maxDepth_eq := he.maxDepth_eq

end Node

/-- **Entering in place is entering.** The level becomes what it becomes in the forest, and the
answer is the same. -/
theorem enter_insert (owner : α) (replace : Bool) {b : Branches α} (h : l.Leads slot b)
    (chain : List Test) :
    ∃ l', enter owner replace l slot chain
        = some ((b.insert owner replace l.nodes.length chain).1, l')
      ∧ l.Entered l' slot b (b.insert owner replace l.nodes.length chain).2 := by
  induction b, chain using Branches.chain_induction generalizing slot with
  | empty b =>
    rw [Branches.insert_empty]
    exact ⟨l, rfl, h.entered_self⟩
  | fresh u rest => exact enter_fresh owner replace u rest h.read_eq h.bound
  | here i t o below next =>
    have hfound : l.findOrAppend t slot = some (Branches.listed i t o below next, l) :=
      findOrAppend_found h.read_eq h.getElem?_head
    obtain ⟨l', he, hentered⟩ := h.entered_occupy owner replace
    rw [Branches.insert_here]
    refine ⟨l', ?_, hentered⟩
    rw [enter, hfound, Option.map_some, he]
  | below i t o below next f rest ih =>
    have hfound : l.findOrAppend t slot = some (Branches.listed i t o below next, l) :=
      findOrAppend_found h.read_eq h.getElem?_head
    obtain ⟨l', he, hentered⟩ := ih h.down
    rw [Branches.insert_below]
    refine ⟨l', ?_, h.entered_below hentered⟩
    rw [enter, hfound, Option.bind_some, Branches.listed_index, he]
    rfl
  | next i t o below next u rest hne ih =>
    obtain ⟨l', he, hentered⟩ := ih h.across
    rw [Branches.insert_next hne]
    refine ⟨l', ?_, h.entered_next hentered⟩
    -- the search for the test goes on from the node's sibling as it would have begun there
    have hnext : l.findOrAppend u slot = l.findOrAppend u (.sibling i) :=
      findOrAppend_next h.read_eq h.getElem?_head hne h.place_le_head
    rw [← he]
    cases rest with
    | nil => rw [enter, enter, hnext]
    | cons f rest => rw [enter, enter, hnext]

end Entered

end Linked

/-! ## Every run -/

section Represented

variable {f : Forest α} {made : List (Call α)}

theorem linked_empty : ({} : Forest α).linked = {} := by
  have hnodes : ({} : Forest α).nodes = [] := List.length_eq_zero_iff.mp (length_nodes {})
  rw [linked, hnodes]
  rfl

theorem Represents.leads (h : f.Represents made) : f.linked.Leads .root f.branches where
  read_eq := rfl
  getElem?_eq := fun _ hn => getElem?_of_mem_nodes h.numbered (mem_nodes.mpr hn)
  place_le := fun k _ => Nat.zero_le k
  bound := Nat.zero_le _
  ascending := h.ascending
  nodup := h.numbered.nodup

/-- A list is known by the level that its root leads to. -/
theorem linked_of_entered {l : Linked α} {b : Branches α} (hb : b.Numbered)
    (h : f.linked.Entered l .root f.branches b) :
    l = ({ branches := b, maxDepth := f.maxDepth } : Forest α).linked := by
  have hlen : l.nodes.length = b.size := by
    have hsize := h.length_eq
    rw [linked, length_nodes, size] at hsize
    omega
  have hnodes : l.nodes = ({ branches := b, maxDepth := f.maxDepth } : Forest α).nodes := by
    apply List.ext_getElem?
    intro k
    rcases Nat.lt_or_ge k b.size with hk | hk
    -- some node of the level has the number, and both lists have it in its place
    · have hmem : k ∈ b.preorder.map Node.index := by
        rw [Branches.map_index_preorder]
        exact hb.mem_iff.mpr (List.mem_range.mpr hk)
      obtain ⟨n, hn, rfl⟩ := List.mem_map.mp hmem
      rw [h.getElem?_eq n hn]
      exact (getElem?_of_mem_nodes hb (mem_nodes.mpr hn)).symm
    · rw [List.getElem?_eq_none (hlen ▸ hk), List.getElem?_eq_none]
      rw [length_nodes]
      exact hk
  obtain ⟨nodes, root?, maxDepth⟩ := l
  have hroot : root? = b.head? := h.root?_eq
  have hdepth : maxDepth = f.maxDepth := h.maxDepth_eq
  subst hnodes hroot hdepth
  rfl

/-- **A call in place does what the call does,** and is answered in the same way. -/
theorem call_linked (h : f.Represents made) (c : Call α) :
    f.linked.call c = some ((f.call c).1, (f.call c).2.linked) := by
  -- new nodes are numbered by the length of the list, which is the number of nodes
  obtain ⟨l, he, hentered⟩ := Linked.enter_insert c.owner c.replace h.leads c.chain
  have hlen : f.linked.nodes.length = f.branches.size := length_nodes f
  rw [hlen] at he hentered
  have hl := linked_of_entered (Branches.numbered_insert h.numbered c.chain) hentered
  rw [Linked.call, he, Option.map_some, hl, call, insert, size]
  dsimp only
  cases (f.branches.insert c.owner c.replace f.branches.size c.chain).1 with
  | error r => rfl
  | ok r => rfl

theorem after_linked (h : f.Represents made) (calls : List (Call α)) :
    f.linked.after calls = some (f.after calls).linked := by
  induction calls generalizing f made with
  | nil => rfl
  | cons c rest ih =>
    rw [Linked.after, call_linked h c, Option.bind_some]
    exact ih (represents_after h [c])

end Represented

end InstructionSet.Forest
