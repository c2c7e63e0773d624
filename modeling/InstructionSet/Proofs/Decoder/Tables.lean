import InstructionSet.Proofs.Decoder.Resolving
import InstructionSet.Proofs.Decoder.Words

/-!
# A decoder in tables

A decoder can be kept in lists that refer to one another by place: the formats, the
instructions, for each instruction the place of its format, and for names and
numbers the places that they lead to. Such lists are made one by one, in different
ways, and nothing but the way they are made keeps a place in one from being out of
range in another.

`Tables` are these lists, and a question that comes upon a place out of range has
no answer there. `exists_tables` says that no question does: the tables of a
decoder answer as the decoder does, and have its entries in their places.
-/

namespace InstructionSet

/-! ## Places by key -/

section Places

variable {α β κ : Type}

/-- The places in a list by key. -/
def places (key : α → κ) (l : List α) : List (κ × Nat) := l.zipIdx.map fun x => (key x.1, x.2)

theorem places_map (key : β → κ) (f : α → β) (l : List α) :
    places key (l.map f) = places (fun a => key (f a)) l := by
  rw [places, List.zipIdx_map, List.map_map]
  rfl

theorem map_fst_places (key : α → κ) (l : List α) : (places key l).map Prod.fst = l.map key := by
  rw [places, List.map_map]
  conv_rhs => rw [← List.zipIdx_map_fst 0 l, List.map_map]
  rfl

variable [DecidableEq κ]

/-- The first place that is listed for a key. -/
def place? (index : List (κ × Nat)) (k : κ) : Option Nat :=
  (index.find? (·.1 = k)).map Prod.snd

/-- What is found at the place of a key is what has the key. -/
theorem place?_places (key : α → κ) (l : List α) (k : κ) :
    place? (places key l) k = l.findIdx? (key · = k) := by
  suffices h : ∀ n, ((l.zipIdx n).find? (key ·.1 = k)).map Prod.snd
      = (l.findIdx? (key · = k)).map (· + n) by
    rw [place?, places, List.find?_map, Option.map_map]
    refine (h 0).trans ?_
    simp
  induction l with
  | nil => exact fun n => rfl
  | cons a l ih =>
    intro n
    rw [List.zipIdx_cons, List.find?_cons, List.findIdx?_cons]
    by_cases ha : key a = k
    · simp [ha]
    · simp only [ha, decide_false, Bool.false_eq_true, if_false]
      rw [ih, Option.map_map]
      congr 1
      funext m
      exact (Nat.succ_add m n).symm

/-- Where no key occurs twice, the first place is the last one, too. -/
theorem place?_reverse {key : α → κ} {l : List α} (h : (l.map key).Nodup) (k : κ) :
    place? (places key l).reverse k = place? (places key l) k := by
  rw [place?, place?, find?_perm Prod.fst _ (List.reverse_perm _)]
  rw [List.map_reverse, List.nodup_reverse, map_fst_places]
  exact h

/-- Asks for what is at the place of a key. Nothing comes of a place that is out of range. -/
def askAt (index : List (κ × Nat)) (at? : Nat → Option α) (unknown : κ → Error) (k : κ) :
    Option (Except Error α) :=
  match place? index k with
  | none => some (.error (unknown k))
  | some p => (at? p).map .ok

theorem askAt_eq {index : List (κ × Nat)} {key : β → κ} {l : List β} {at? : Nat → Option α}
    {f : β → α} {k : κ} {unknown : κ → Error}
    (hi : place? index k = l.findIdx? (key · = k))
    (hat : ∀ p b, l[p]? = some b → at? p = some (f b)) :
    askAt index at? unknown k
      = some (match l.find? (key · = k) with
          | none => .error (unknown k)
          | some b => .ok (f b)) := by
  rw [askAt, hi, List.find?_eq_bind_findIdx?_getElem?]
  cases hp : l.findIdx? (key · = k) with
  | none => rfl
  | some p =>
    obtain ⟨hlt, -, -⟩ := List.findIdx?_eq_some_iff_getElem.mp hp
    have hget := List.getElem?_eq_getElem hlt
    dsimp only
    rw [hat p _ hget, Option.bind_some, hget]
    rfl

end Places

namespace Decoder

/-- The records of a decoder in lists of their own. -/
structure Tables where
  formats : List Format
  instructions : List Instruction
  /-- For each instruction the place of its format. -/
  formatPlaces : List Nat
  /-- The places of the formats by name, later ones first. -/
  formatIndex : List (String × Nat)
  /-- The places of the instructions by number, later ones first. -/
  instructionIndex : List (InstructionId × Nat)
  /-- The places of the instructions by name, earlier ones first. -/
  instructionNames : List (String × Nat)

/-- The place of a format by its name. -/
def formatPlace (index : List (String × Nat)) (name : String) : Except Error Nat :=
  match place? index name with
  | none => .error (.unknownFormat name)
  | some p => .ok p

/-- The records of the decoder in lists. -/
def tables (d : Decoder) : Except Error Tables := do
  let formatIndex := (places Format.name d.formats).reverse
  let formatPlaces ← d.instructions.mapM fun i => formatPlace formatIndex i.format
  pure {
    formatIndex, formatPlaces
    formats := d.formats
    instructions := d.instructions
    instructionIndex := (places Instruction.id d.instructions).reverse
    instructionNames := places Instruction.name d.instructions }

namespace Tables

/-- The format of the instruction in place `p`. -/
def formatAt (t : Tables) (p : Nat) : Option Format := (t.formatPlaces[p]?).bind (t.formats[·]?)

/-- The instruction in place `p`, with its format. -/
def entry? (t : Tables) (p : Nat) : Option Entry :=
  (t.instructions[p]?).bind fun instruction =>
    (t.formatAt p).map fun format => { place := p, instruction, format }

def instruction (t : Tables) (id : InstructionId) : Option (Except Error Instruction) :=
  askAt t.instructionIndex (t.instructions[·]?) .unknownInstruction id

def formatFor (t : Tables) (id : InstructionId) : Option (Except Error Format) :=
  askAt t.instructionIndex t.formatAt .unknownInstruction id

def instructionNamed (t : Tables) (name : String) : Option (Except Error Instruction) :=
  askAt t.instructionNames (t.instructions[·]?) .unknownInstructionName name

def formatNamed (t : Tables) (name : String) : Option (Except Error Format) :=
  askAt t.formatIndex (t.formats[·]?) .unknownFormat name

/-- The tables hold what the decoder knows: every question has an answer, and the same. -/
structure Holds (t : Tables) (d : Decoder) : Prop where
  entry : ∀ p, t.entry? p = d.entries[p]?
  instruction : ∀ id, t.instruction id = some (d.instruction id)
  formatFor : ∀ id, t.formatFor id = some (d.formatFor id)
  instructionNamed : ∀ name, t.instructionNamed name = some (d.instructionNamed name)
  formatNamed : ∀ name, t.formatNamed name = some (d.formatNamed name)

end Tables

theorem getElem?_of_mapM {ε α β : Type} {f : α → Except ε β} {l : List α} {out : List β}
    (h : l.mapM f = .ok out) {p : Nat} {a : α} (ha : l[p]? = some a) :
    ∃ b, out[p]? = some b ∧ f a = .ok b := by
  have hall := forall₂_of_mapM h
  clear h
  induction hall generalizing p with
  | nil => exact absurd ha (by simp)
  | @cons x y rest out hx _ ih =>
    cases p with
    | zero => exact ⟨y, rfl, Option.some.inj ha ▸ hx⟩
    | succ p => exact ih ha

theorem getElem?_instructions {d : Decoder} {p : Nat} {e : Entry} (h : d.entries[p]? = some e) :
    d.instructions[p]? = some e.instruction := by
  rw [instructions, List.getElem?_map, h]
  rfl

section Built

variable {formats : List Format} {instructions : List Instruction} {d : Decoder}

/-- Each entry is that of the instruction in its place. -/
theorem Built.describes_of_getElem? (hb : Built formats instructions d) {p : Nat} {e : Entry}
    (he : d.entries[p]? = some e) :
    ∃ i f, instructions[p]? = some i ∧ e.place = p ∧ e.Describes d.table formats i f := by
  have hlt : p < instructions.length := by
    rw [← hb.length_eq]
    exact (List.getElem?_eq_some_iff.mp he).1
  have hi := List.getElem?_eq_getElem hlt
  obtain ⟨e', he', hplace, f, hd⟩ := hb.entry p _ hi
  obtain rfl : e' = e := Option.some.inj (he'.symm.trans he)
  exact ⟨_, f, hi, hplace, hd⟩

/-- The format of an entry is the one that has the name that the instruction says. -/
theorem Built.find?_format (hb : Built formats instructions d) {p : Nat} {e : Entry}
    (he : d.entries[p]? = some e) :
    d.formats.find? (·.name = e.instruction.format) = some e.format := by
  obtain ⟨i, f, -, -, hd⟩ := hb.describes_of_getElem? he
  rw [hb.formats_eq, find?_number, hd.instruction, hd.format]
  exact congrArg (Option.map _) hd.found

theorem Built.names_formats (hb : Built formats instructions d)
    (hs : Validation.Sound formats instructions) : (d.formats.map Format.name).Nodup := by
  rw [hb.formats_eq, List.map_map]
  exact hs.names

theorem Built.ids_entries (hb : Built formats instructions d)
    (hs : Validation.Sound formats instructions) :
    (d.entries.map fun e => e.instruction.id).Nodup := by
  rw [hb.map_id_entries]
  exact hs.ids

/-- The name of its format leads an entry to the place of its format. -/
theorem Built.place?_format (hb : Built formats instructions d)
    (hs : Validation.Sound formats instructions) {p : Nat} {e : Entry}
    (he : d.entries[p]? = some e) :
    ∃ q, place? (places Format.name d.formats).reverse e.instruction.format = some q
      ∧ d.formats[q]? = some e.format := by
  have hfind := hb.find?_format he
  rw [List.find?_eq_bind_findIdx?_getElem?, ← place?_places,
    ← place?_reverse (hb.names_formats hs)] at hfind
  exact Option.bind_eq_some_iff.mp hfind

/-- Each instruction has the place of its format. -/
theorem Built.exists_formatPlaces (hb : Built formats instructions d)
    (hs : Validation.Sound formats instructions) :
    ∃ formatPlaces, d.instructions.mapM (fun i =>
        formatPlace (places Format.name d.formats).reverse i.format) = .ok formatPlaces
      ∧ ∀ (p : Nat) (e : Entry), d.entries[p]? = some e →
        (formatPlaces[p]?).bind (d.formats[·]?) = some e.format := by
  obtain ⟨formatPlaces, hm⟩ := exists_mapM (l := d.instructions)
    (f := fun i => formatPlace (places Format.name d.formats).reverse i.format) fun i hi => by
      obtain ⟨e, he, rfl⟩ := List.mem_map.mp hi
      obtain ⟨p, hp⟩ := List.getElem?_of_mem he
      obtain ⟨q, hq, -⟩ := hb.place?_format hs hp
      exact ⟨q, by rw [formatPlace, hq]⟩
  refine ⟨formatPlaces, hm, fun p e he => ?_⟩
  obtain ⟨q, hq, hformat⟩ := hb.place?_format hs he
  obtain ⟨q', hq', hplace⟩ := getElem?_of_mapM hm (getElem?_instructions he)
  rw [formatPlace, hq] at hplace
  rw [hq', Option.bind_some, ← Except.ok.inj hplace]
  exact hformat

/-- **No place is out of range.** -/
theorem Built.exists_tables (hb : Built formats instructions d)
    (hs : Validation.Sound formats instructions) : ∃ t, d.tables = .ok t ∧ t.Holds d := by
  obtain ⟨formatPlaces, hm, hformat⟩ := hb.exists_formatPlaces hs
  have hinstruction : ∀ (p : Nat) (e : Entry), d.entries[p]? = some e →
      d.instructions[p]? = some e.instruction := fun _ _ => getElem?_instructions
  have hids (id : InstructionId) : place? (places Instruction.id d.instructions).reverse id
      = d.entries.findIdx? (·.instruction.id = id) := by
    rw [Decoder.instructions, places_map, place?_reverse (hb.ids_entries hs), place?_places]
  refine ⟨_, bind_eq_ok.mpr ⟨formatPlaces, hm, rfl⟩, ?_, ?_, ?_, ?_, ?_⟩
  · intro p
    unfold Tables.entry? Tables.formatAt
    dsimp only
    cases he : d.entries[p]? with
    | none =>
      rw [Decoder.instructions, List.getElem?_map, he]
      rfl
    | some e =>
      obtain ⟨-, -, -, rfl, -⟩ := hb.describes_of_getElem? he
      rw [getElem?_instructions he, hformat _ e he]
      rfl
  · intro id
    refine (askAt_eq (hids id) hinstruction).trans ?_
    unfold Decoder.instruction Decoder.entry
    cases d.entries.find? (·.instruction.id = id) <;> rfl
  · intro id
    refine (askAt_eq (hids id) hformat).trans ?_
    unfold Decoder.formatFor Decoder.entry
    cases d.entries.find? (·.instruction.id = id) <;> rfl
  · intro name
    have hname : place? (places Instruction.name d.instructions) name
        = d.entries.findIdx? (·.name = name) := by
      rw [Decoder.instructions, places_map, place?_places]
      rfl
    refine (askAt_eq hname hinstruction).trans ?_
    unfold instructionNamed
    cases d.entries.find? (·.name = name) <;> rfl
  · intro name
    have hname : place? (places Format.name d.formats).reverse name
        = d.formats.findIdx? (·.name = name) := by
      rw [place?_reverse (hb.names_formats hs), place?_places]
    refine (askAt_eq hname fun p f hf => hf).trans ?_
    unfold formatNamed
    cases d.formats.find? (·.name = name) <;> rfl

end Built

end Decoder

end InstructionSet
