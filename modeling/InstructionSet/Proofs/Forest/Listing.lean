import InstructionSet.Forest.Render
import InstructionSet.Proofs.Forest.Answers
import InstructionSet.Proofs.Forest.Height
import InstructionSet.Proofs.Search.Numbers
import InstructionSet.Proofs.Search.Offers

/-!
# What a forest on paper says

A forest that is put on paper has a line for each node. Which nodes the lines are
about, and in what order, is said here by the ways that lead to the nodes: there is
one way to each, and of two ways the one that goes down where they part comes first
(`Turn.Before`). `Listing` says that the lines are those of all nodes in this order,
and what each line has on it.

Whoever has only the linked nodes comes to the same text with a stack of levels
(`print_eq`). A search goes through the forest in the same order, so the owners that
it puts forward are found on paper in the order in which it came by them.
-/

namespace InstructionSet.Forest

variable {α : Type}

/-! ## Lines -/

/-- What a line says of a node. -/
structure Item where
  level : Nat
  /-- The name of the field, if the table has it. -/
  field : Option String
  value : Int64
  /-- The name of the owner, if there is one. -/
  owner : Option String

def Item.text (x : Item) : String :=
  "".pushn ' ' (4 * x.level) ++ x.field.getD "?" ++ " == " ++ toString x.value
    ++ (x.owner.elim "" fun name => " -> " ++ name) ++ "\n"

/-- What is to be said of a node in the level `level`. -/
def Node.item (table : FieldTable) (name : α → Option String) (level : Nat) (n : Node α) :
    Item where
  level
  field := (table.get? n.test.field).map Field.name
  value := n.test.value
  owner := n.owner.bind name

/-- **A line says it,** if it is not indented too far. -/
theorem line_eq {table : FieldTable} {name : α → Option String} {level : Nat} {n : Node α}
    (hlevel : level ≤ 16383) (hname : ∀ a, n.owner = some a → (name a).isSome) :
    line table name level n = .ok (n.item table name level).text := by
  have hroom : ¬ maxIndent < 4 * level := by
    unfold maxIndent
    omega
  have htext (s : String) : toString s = s := rfl
  unfold line
  dsimp only
  rw [if_neg hroom, Item.text, Node.item]
  cases ho : n.owner with
  | none => cases table.get? n.test.field <;> simp [htext, String.append_assoc]
  | some a =>
    obtain ⟨given, hgiven⟩ := Option.isSome_iff_exists.mp (hname a ho)
    cases table.get? n.test.field <;> simp [htext, hgiven, String.append_assoc]

/-! ## The order of ways -/

/-- The way `r` comes before the way `s`: it is a beginning of it, or it goes down where `s` goes
across. -/
inductive Turn.Before : List Turn → List Turn → Prop where
  | shorter (turn : Turn) (rest : List Turn) : Before [] (turn :: rest)
  | apart (r s : List Turn) : Before (.down :: r) (.across :: s)
  | along (turn : Turn) {r s : List Turn} : Before r s → Before (turn :: r) (turn :: s)

/-- A node with the way to it. -/
structure Stop (α : Type) where
  turns : List Turn
  /-- The tests on the way. -/
  path : List Test
  node : Node α

namespace Stop

/-- How far down the node is. -/
def level (x : Stop α) : Nat := x.turns.count .down

/-- The same node, seen from one that tests `t` in the level above. -/
def below (t : Test) (x : Stop α) : Stop α :=
  { x with turns := .down :: x.turns, path := t :: x.path }

/-- The same node, seen from the alternative in front. -/
def behind (x : Stop α) : Stop α := { x with turns := .across :: x.turns }

@[simp] theorem level_below (t : Test) (x : Stop α) : (x.below t).level = x.level + 1 :=
  List.count_cons_self

@[simp] theorem level_behind (x : Stop α) : x.behind.level = x.level :=
  List.count_cons_of_ne (by decide)

/-- What the line of the node says. -/
def item (table : FieldTable) (name : α → Option String) (x : Stop α) : Item :=
  x.node.item table name x.level

end Stop

namespace Branches

/-- All nodes with the ways to them, a node coming before what is below it and that before the
node's alternatives. -/
def tour : Branches α → List (Stop α)
  | nil => []
  | node index test owner below next =>
    ⟨[], [test], listed index test owner below next⟩
      :: (below.tour.map (Stop.below test) ++ next.tour.map Stop.behind)

theorem map_node_tour (b : Branches α) : b.tour.map Stop.node = b.preorder := by
  induction b with
  | nil => rfl
  | node i t o below next ihb ihn =>
    rw [tour, preorder, List.map_cons, List.map_append, List.map_map, List.map_map, ← ihb, ← ihn]
    rfl

/-- The ways lead to the nodes. -/
theorem follow?_of_mem_tour {b : Branches α} {x : Stop α} (h : x ∈ b.tour) :
    b.follow? x.turns = some (x.path, x.node) ∧ x.path.length = x.level + 1 := by
  induction b generalizing x with
  | nil => exact absurd h (by simp [tour])
  | node i t o below next ihb ihn =>
    rw [tour, List.mem_cons, List.mem_append] at h
    rcases h with rfl | h | h
    · exact ⟨rfl, rfl⟩
    · obtain ⟨y, hy, rfl⟩ := List.mem_map.mp h
      obtain ⟨hf, hlevel⟩ := ihb hy
      refine ⟨?_, ?_⟩
      · rw [Stop.below, follow?, hf]
        rfl
      · rw [Stop.level_below, ← hlevel]
        rfl
    · obtain ⟨y, hy, rfl⟩ := List.mem_map.mp h
      obtain ⟨hf, hlevel⟩ := ihn hy
      exact ⟨hf, by rw [Stop.level_behind, ← hlevel]; rfl⟩

/-- **The ways are in order.** -/
theorem pairwise_tour (b : Branches α) :
    b.tour.Pairwise fun x y => Turn.Before x.turns y.turns := by
  induction b with
  | nil => exact List.Pairwise.nil
  | node i t o below next ihb ihn =>
    rw [tour, List.pairwise_cons, List.pairwise_append, List.pairwise_map, List.pairwise_map]
    refine ⟨?_, ihb.imp fun h => h.along .down, ihn.imp fun h => h.along .across, ?_⟩
    · intro y hy
      rcases List.mem_append.mp hy with hy | hy
      · obtain ⟨z, -, rfl⟩ := List.mem_map.mp hy
        exact .shorter .down z.turns
      · obtain ⟨z, -, rfl⟩ := List.mem_map.mp hy
        exact .shorter .across z.turns
    · intro x hx y hy
      obtain ⟨z, -, rfl⟩ := List.mem_map.mp hx
      obtain ⟨w, -, rfl⟩ := List.mem_map.mp hy
      exact .apart z.turns w.turns

/-- The nodes are outlined in the order of the ways, each in its level. -/
theorem outline_eq (b : Branches α) (level : Nat) :
    b.outline level = b.tour.map fun x => (level + x.level, x.node) := by
  induction b generalizing level with
  | nil => rfl
  | node i t o below next ihb ihn =>
    rw [outline, tour, List.map_cons, List.map_append, List.map_map, List.map_map, ihb, ihn]
    refine congrArg (List.cons _) (congrArg₂ _ (List.map_congr_left fun x _ => ?_)
      (List.map_congr_left fun x _ => ?_))
    · rw [Function.comp, Stop.level_below, Nat.add_right_comm, Nat.add_assoc]
      rfl
    · rw [Function.comp, Stop.level_behind]
      rfl

/-- The owners are listed in the order of the ways as well. -/
theorem filterMap_owner_tour (b : Branches α) : b.tour.filterMap (·.node.owner) = b.owners := by
  induction b with
  | nil => rfl
  | node i t o below next ihb ihn =>
    have hbelow : (below.tour.map (Stop.below t)).filterMap (·.node.owner) = below.owners := by
      rw [List.filterMap_map, ← ihb]
      rfl
    have hnext : (next.tour.map Stop.behind).filterMap (·.node.owner) = next.owners := by
      rw [List.filterMap_map, ← ihn]
      rfl
    rw [tour, owners_node, List.filterMap_cons, List.filterMap_append, hbelow, hnext]
    cases o <;> rfl

end Branches

/-! ## A stack of levels -/

/-- Puts linked nodes on paper, behind `out`, with a stack of levels, each given by the number of
its first node and by how far down it is: the level that was put there last is taken up, and what is
below its node comes before what is next to it. Nothing comes of a number that is out of range, nor
of a stack for which `turns` turns are not enough. -/
def Linked.print (l : Linked α) (table : FieldTable) (name : α → Option String) :
    Nat → String → List (Option Nat × Nat) → Option (Except Fault String)
  | 0, _, _ => none
  | _ + 1, out, [] => some (.ok out)
  | turns + 1, out, (none, _) :: rest => l.print table name turns out rest
  | turns + 1, out, (some k, level) :: rest =>
    (l.nodes[k]?).bind fun n =>
      match line table name level n with
      | .error fault => some (.error fault)
      | .ok text =>
        l.print table name turns (out ++ text) ((n.child, level + 1) :: (n.sibling, level) :: rest)

/-- The lines of some levels, each given with how far down it is. -/
def linesOf (table : FieldTable) (name : α → Option String) (levels : List (Branches α × Nat)) :
    Except Fault (List String) :=
  (levels.flatMap fun x => x.1.outline x.2).mapM fun (level, node) => line table name level node

/-- The line of a node comes first, before those of what is below it and next to it. -/
theorem linesOf_node (table : FieldTable) (name : α → Option String) (i : Nat) (t : Test)
    (o : Option α) (below next : Branches α) (level : Nat) (rest : List (Branches α × Nat)) :
    linesOf table name ((.node i t o below next, level) :: rest)
      = (line table name level (Branches.listed i t o below next)).bind fun text =>
        (linesOf table name ((below, level + 1) :: (next, level) :: rest)).map (text :: ·) := by
  rw [linesOf, linesOf, List.flatMap_cons, List.flatMap_cons, List.flatMap_cons,
    Branches.outline, List.cons_append, List.mapM_cons, List.append_assoc]
  rfl

/-- **The stack comes to the lines of its levels.** -/
theorem print_eq {l : Linked α} (table : FieldTable) (name : α → Option String) {turns : Nat}
    (out : String) {levels : List (Branches α × Nat)}
    (h : ∀ n ∈ (levels.map Prod.fst).flatMap Branches.preorder, l.nodes[n.index]? = some n)
    (hturns : turnsFor (levels.map Prod.fst) < turns) :
    l.print table name turns out (levels.map fun x => (x.1.head?, x.2))
      = some ((linesOf table name levels).map fun lines => out ++ String.join lines) := by
  induction turns generalizing out levels with
  | zero => exact absurd hturns (Nat.not_lt_zero _)
  | succ turns ih =>
    cases levels with
    | nil => simp [Linked.print, linesOf, pure, Except.pure, Except.map]
    | cons x rest =>
      obtain ⟨b, level⟩ := x
      cases b with
      | nil =>
        rw [List.map_cons, turnsFor, Branches.size] at hturns
        exact ih out h (by omega)
      | node i t o below next =>
        have hhead : l.nodes[i]? = some (Branches.listed i t o below next) :=
          h _ (List.mem_cons_self ..)
        rw [List.map_cons, turnsFor, Branches.size] at hturns
        have hlisted : ∀ n ∈ (((below, level + 1) :: (next, level) :: rest).map
            Prod.fst).flatMap Branches.preorder, l.nodes[n.index]? = some n := by
          intro n hn
          rw [List.map_cons, List.map_cons, List.flatMap_cons, List.flatMap_cons,
            ← List.append_assoc] at hn
          exact h n (List.mem_cons_of_mem _ hn)
        have henough : turnsFor (((below, level + 1) :: (next, level) :: rest).map Prod.fst)
            < turns := by
          rw [List.map_cons, List.map_cons, turnsFor, turnsFor]
          dsimp only
          omega
        rw [List.map_cons, Branches.head?, Linked.print, hhead, Option.bind_some, linesOf_node]
        cases line table name level (Branches.listed i t o below next) with
        | error fault => rfl
        | ok text =>
          have hrest := ih (out ++ text) hlisted henough
          refine hrest.trans (congrArg some ?_)
          cases linesOf table name ((below, level + 1) :: (next, level) :: rest) with
          | error fault => rfl
          | ok lines =>
            simp [Except.bind, Except.map, String.append_assoc]

/-! ## The forest on paper -/

/-- The forest as it is put on paper, `stops` being its nodes with the ways to them. -/
structure Listing (f : Forest α) (table : FieldTable) (name : α → Option String)
    (stops : List (Stop α)) : Prop where
  /-- Each node is listed, and once. -/
  nodes : (stops.map Stop.node).Perm f.nodes
  route : ∀ x ∈ stops, f.route? x.turns = some (x.path, x.node) ∧ x.path.length = x.level + 1
  /-- A node comes before what is below it, and that before the node's alternatives. -/
  order : stops.Pairwise fun x y => Turn.Before x.turns y.turns
  text : f.render table name = .ok (String.join (stops.map fun x => (x.item table name).text))
  /-- With a stack of levels, the linked nodes are put on paper alike. -/
  print : ∀ turns, 2 * f.size + 1 < turns →
    f.linked.print table name turns "" [(f.root?, 0)] = some (f.render table name)
  /-- A search puts owners forward in the order in which they are listed. -/
  search : ∀ {σ : Type} (s : Search α σ) (session : Session σ) (turns : Nat),
    2 * f.size < turns →
      s.walk f.linked turns (Search.start f.linked session) = some (s.run f session)
        ∧ (Search.offered (s.run f session).moves).Sublist (stops.filterMap (·.node.owner))

theorem mapM_eq_ok {ε β γ : Type} {f : β → Except ε γ} {g : β → γ} {l : List β}
    (h : ∀ b ∈ l, f b = .ok (g b)) : l.mapM f = .ok (l.map g) := by
  induction l with
  | nil => rfl
  | cons b rest ih =>
    rw [List.mapM_cons, h b (List.mem_cons_self ..), ih fun c hc => h c (List.mem_cons_of_mem b hc)]
    rfl

section Represented

variable {f : Forest α} {made : List (Call α)}

/-- Whoever owns a node has called for it. -/
theorem Represents.exists_call_of_owner (h : f.Represents made) {x : Stop α}
    (hx : x ∈ f.branches.tour) {a : α} (ha : x.node.owner = some a) :
    ∃ c ∈ made, c.owner = a := by
  obtain ⟨hf, -⟩ := Branches.follow?_of_mem_tour hx
  rw [← route?_eq h.numbered] at hf
  obtain ⟨c, hc, -, howner⟩ :=
    h.exists_call ((Branches.mem_terminals h.distinct).mp (h.mem_terminals_iff.mpr ⟨_, _, hf, ha⟩))
  exact ⟨c, hc, howner⟩

/-- **A forest that is not too deep is put on paper in full.** -/
theorem Represents.listing (h : f.Represents made) (table : FieldTable)
    {name : α → Option String} (hname : ∀ c ∈ made, (name c.owner).isSome)
    (hdepth : f.maxDepth ≤ 16384) : f.Listing table name f.branches.tour where
  nodes := by
    rw [Branches.map_node_tour]
    exact f.perm_nodes.symm
  route := fun x hx => by
    rw [route?_eq h.numbered]
    exact Branches.follow?_of_mem_tour hx
  order := f.branches.pairwise_tour
  text := by
    have hlines : f.lines table name
        = .ok (f.branches.tour.map fun x => (x.item table name).text) := by
      rw [lines, Branches.outline_eq, List.mapM_map]
      refine mapM_eq_ok fun x hx => ?_
      obtain ⟨hf, hlevel⟩ := Branches.follow?_of_mem_tour hx
      rw [← route?_eq h.numbered] at hf
      have hle := h.length_le hf
      change line table name (0 + x.level) x.node = _
      rw [Nat.zero_add]
      refine line_eq (by omega) fun a ha => ?_
      obtain ⟨c, hc, rfl⟩ := h.exists_call_of_owner hx ha
      exact hname c hc
    rw [render, hlines]
    rfl
  print := fun turns hturns => by
    have hlisted : ∀ n ∈ ([(f.branches, 0)].map Prod.fst).flatMap Branches.preorder,
        f.linked.nodes[n.index]? = some n := by
      intro n hn
      rw [List.map_singleton, List.flatMap_singleton] at hn
      exact getElem?_of_mem_nodes h.numbered (mem_nodes.mpr hn)
    have hwalk := print_eq table name "" hlisted hturns
    rw [linesOf, List.flatMap_singleton] at hwalk
    refine hwalk.trans (congrArg some ?_)
    rw [render, lines]
    simp
  search := fun s session turns hturns => by
    refine ⟨Search.walk_start h.numbered s session hturns, ?_⟩
    rw [Branches.filterMap_owner_tour]
    exact (s.run_offered f session).1

end Represented

end InstructionSet.Forest
