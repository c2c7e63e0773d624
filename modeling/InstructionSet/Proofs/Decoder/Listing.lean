import InstructionSet.Proofs.Decoder.BaseWord
import InstructionSet.Proofs.Decoder.Consistent
import InstructionSet.Proofs.Forest.Listing

/-!
# The forest of a decoder on paper

A forest can be put on paper whoever made it, if it is not too deep and its owners have
names (`Forest.Represents.listing`). That of a decoder has names for its fields, too. If
no instruction could take over from another, each has a line of its own.
-/

namespace InstructionSet.Decoder

open Forest (Stop)

variable {formats : List Format} {instructions : List Instruction} {options : Decoder.Options}
  {d : Decoder}

theorem Built.nodup_owners (hb : Built formats instructions d) :
    d.forest.branches.owners.Nodup := by
  have horder : d.order = d.forest.branches.owners.map Entry.place := (List.map_map ..).symm
  exact List.Nodup.of_map _ (horder ▸ hb.order_eq.1)

/-- An instruction that owns its chain is among the owners as the entry in its place. -/
theorem Built.mem_owners (hb : Built formats instructions d) {p : Nat}
    (h : Owns instructions p) {e : Entry} (he : d.entries[p]? = some e) :
    e ∈ d.forest.branches.owners := by
  obtain ⟨⟨path, e'⟩, ht, rfl⟩ := hb.mem_of_owns h
  obtain ⟨-, i, f, hi, hd', -⟩ := hb.owns_of_mem ht
  obtain ⟨e'', he'', hplace, f', hd⟩ := hb.entry e'.place i hi
  obtain rfl := Option.some.inj (he.symm.trans he'')
  rw [hd.unique hd' hplace]
  exact List.mem_map_of_mem ht

/-- **Who owns its chain owns one node.** -/
theorem Built.countP_tour (hb : Built formats instructions d) {p : Nat}
    (h : Owns instructions p) {e : Entry} (he : d.entries[p]? = some e) :
    d.forest.branches.tour.countP (fun x => x.node.owner = some e) = 1 := by
  have hcount : d.forest.branches.tour.countP (fun x => x.node.owner = some e)
      = d.forest.branches.owners.count e := by
    rw [← Forest.Branches.filterMap_owner_tour, List.count_eq_countP, List.countP_filterMap]
    refine List.countP_congr fun x _ => ?_
    cases x.node.owner <;> simp
  rw [hcount]
  exact List.count_eq_one_of_mem hb.nodup_owners (hb.mem_owners h he)

/-- **The forest of a decoder is put on paper in full,** if it is not too deep. -/
theorem Built.listing (hb : Built formats instructions d) (hdepth : d.forest.maxDepth ≤ 16384) :
    d.forest.Listing d.table (fun e => some e.name) d.forest.branches.tour := by
  obtain ⟨made, hrep, -, -⟩ := hb.forest
  exact hrep.listing d.table (fun _ _ => rfl) hdepth

/-- Every node tests a field of the table. -/
theorem Built.field_isSome (hb : Built formats instructions d) {x : Stop Entry}
    (hx : x ∈ d.forest.branches.tour) :
    (x.item d.table fun e => some e.name).field.isSome := by
  have hn : x.node ∈ d.forest.nodes := by
    rw [Forest.mem_nodes, ← Forest.Branches.map_node_tour]
    exact List.mem_map_of_mem hx
  obtain ⟨g, hg, -⟩ := hb.grounded.field x.node hn
  rw [Stop.item, Forest.Node.item, hg]
  rfl

/--
**What is on paper is the forest.** Every run of calls from the empty forest makes linked
nodes that are put on paper in full: a line for each node, a node before what is below it
and that before its alternatives, with the level, the field, the value and the owner, as
long as owners have names and there are no more than 16384 levels. Every search puts
owners forward in the order of their lines.

In the forest of a decoder every field has its name. Under `reject` each instruction that
was declared is the owner in one line.
-/
theorem listing_exact :
    (∀ {α : Type} (calls : List (Forest.Call α)) (table : FieldTable) (name : α → Option String),
      (∀ c ∈ calls, (name c.owner).isSome) → (Forest.after {} calls).maxDepth ≤ 16384 →
        Forest.Linked.after {} calls = some (Forest.after {} calls).linked
          ∧ ∃ stops, (Forest.after {} calls).Listing table name stops)
    ∧ ∀ (formats : List Format) (instructions : List Instruction) (options : Decoder.Options)
      (d : Decoder), build formats instructions options = .ok d → d.forest.maxDepth ≤ 16384 →
        ∃ stops, d.forest.Listing d.table (fun e => some e.name) stops
          ∧ d.forestText
            = .ok (String.join (stops.map fun x => (x.item d.table fun e => some e.name).text))
          ∧ (∀ x ∈ stops, (x.item d.table fun e => some e.name).field.isSome)
          ∧ (options.duplicates = .reject → ∀ (p : Nat) (i : Instruction),
              instructions[p]? = some i → ∃ e, d.entries[p]? = some e
                ∧ e.instruction.id = i.id ∧ e.name = i.name
                ∧ stops.countP (fun x => x.node.owner = some e) = 1) := by
  refine ⟨?_, ?_⟩
  · intro α calls table name hname hdepth
    have h : (Forest.after {} calls).Represents (Forest.accepted {} calls) :=
      Forest.represents_after Forest.represents_empty calls
    refine ⟨(Forest.after_refines calls).1, _, h.listing table (fun c hc => ?_) hdepth⟩
    exact hname c ((Forest.accepted_sublist _ _).subset hc)
  · intro formats instructions options d h hdepth
    obtain ⟨-, hb⟩ := built_of_build h
    have hlisting := hb.listing hdepth
    refine ⟨_, hlisting, hlisting.text, fun x hx => hb.field_isSome hx, ?_⟩
    intro hreject p i hi
    have howns := owns_of_separate (separate_of_build h hreject) hi
    obtain ⟨e, he, -, f, hd⟩ := hb.entry p i hi
    refine ⟨e, he, by rw [hd.instruction], ?_, hb.countP_tour howns he⟩
    rw [Entry.name, hd.instruction]

/-- One instruction asks for the first nibble, and two for both. -/
def nestedInstructions : List Instruction :=
  [{ id := ⟨1, uint32_one_ne_zero⟩, name := "load", format := "byte",
      selectors := ⟨[⟨"high", 2⟩, ⟨"low", 3⟩]⟩ },
    { id := ⟨2, uint32_two_ne_zero⟩, name := "store", format := "byte",
      selectors := ⟨[⟨"high", 1⟩]⟩ },
    { id := ⟨3, uint32_three_ne_zero⟩, name := "add", format := "byte",
      selectors := ⟨[⟨"high", 2⟩, ⟨"low", 4⟩]⟩ }]

/-- A chain, and one that it begins with. -/
def nestedCalls : List (Forest.Call Nat) :=
  [⟨7, [⟨⟨1, uint32_one_ne_zero⟩, 2⟩, ⟨⟨2, uint32_two_ne_zero⟩, -3⟩], false⟩,
    ⟨8, [⟨⟨1, uint32_one_ne_zero⟩, 2⟩], false⟩]

theorem listing_exact_nested :
    (∃ stops, (Forest.after {} nestedCalls).Listing {} (fun n => some (toString n)) stops
      ∧ String.join (stops.map fun x => (x.item {} fun n => some (toString n)).text)
        = "? == 2 -> 8\n    ? == -3 -> 7\n")
    ∧ ∃ d stops, build [byteFormat] nestedInstructions {} = .ok d
      ∧ d.forest.Listing d.table (fun e => some e.name) stops ∧ stops.length = 4
      ∧ d.forestText = .ok
        "high == 2\n    low == 3 -> load\n    low == 4 -> add\nhigh == 1 -> store\n"
      ∧ ∃ e, d.entries[2]? = some e ∧ e.name = "add"
        ∧ stops.countP (fun x => x.node.owner = some e) = 1 := by
  obtain ⟨hcalls, hbuilt⟩ := listing_exact
  refine ⟨?_, ?_⟩
  · obtain ⟨-, stops, hstops⟩ :=
      hcalls nestedCalls {} (fun n => some (toString n)) (fun c hc => rfl) (by decide)
    have htext : (Forest.after {} nestedCalls).render {} (fun n => some (toString n))
        = .ok "? == 2 -> 8\n    ? == -3 -> 7\n" := by decide +kernel
    exact ⟨stops, hstops, Except.ok.inj (hstops.text.symm.trans htext)⟩
  · obtain ⟨d, hd⟩ : ∃ d, build [byteFormat] nestedInstructions {} = .ok d := ⟨_, rfl⟩
    have htext : d.forestText = .ok
        "high == 2\n    low == 3 -> load\n    low == 4 -> add\nhigh == 1 -> store\n" :=
      eq_of_map_eq_ok forestText hd (by decide +kernel)
    have hdepth : d.forest.maxDepth = 2 := eq_of_map_eq_ok (·.forest.maxDepth) hd rfl
    have hsize : d.forest.size = 4 := eq_of_map_eq_ok (·.forest.size) hd rfl
    have hle : d.forest.maxDepth ≤ 16384 := hdepth.trans_le (by decide)
    obtain ⟨stops, hstops, -, -, hreject⟩ := hbuilt _ _ _ d hd hle
    have hlength := hstops.nodes.length_eq
    rw [List.length_map, Forest.length_nodes] at hlength
    obtain ⟨e, he, -, hname, hcount⟩ := hreject rfl 2 _ rfl
    exact ⟨d, stops, hd, hstops, hlength.trans hsize, htext, e, he, hname, hcount⟩

end InstructionSet.Decoder
