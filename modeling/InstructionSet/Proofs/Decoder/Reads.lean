import InstructionSet.Proofs.Decoder.Consistent
import InstructionSet.Proofs.Search.Reads
import InstructionSet.Proofs.Search.Reuse
import InstructionSet.Proofs.Search.Walks

/-!
# What a decoder reads

A host that supplies an extractor sees nothing of a decoder but its reads, and may be
built on their number and order. Decoding comes in three phases. The search reads what it
tests, unless a held value serves; each instruction that it puts forward may take reads
of its constants, up to the first that does not hold (`Considers`); and once one is
accepted its fields are read, up to the first that fails (`Ending`). `reads_exact` puts
the phases together: decoding with a record comes to the same as decoding without, and
the record is these reads and no others.
-/

namespace InstructionSet.Decoder

open Search (Outcome)

variable {σ : Type}

/-! ## Constants -/

/-- What is asked about the constants among the fields. -/
def constantDemands (fields : List Field) : List Demand :=
  (constants fields).map fun c => { layout := c.1, constant := some c.2 }

/-- The reads that it takes to accept an instruction, or to refuse it. -/
inductive Considers (options : Decoder.Options) (x : Extractor σ) (buffer : Buffer) (e : Entry) :
    Session σ → List Read → Bool → Session σ → Prop where
  /-- One that is wider than the window at this moment is refused unseen. -/
  | narrow {session : Session σ} (narrow : session.window.available < e.format.bits.toNat) :
    Considers options x buffer e session [] false session
  /-- Any other one is accepted unseen, if constants do not count. -/
  | unchecked {session : Session σ} (fits : e.format.bits.toNat ≤ session.window.available)
      (unchecked : options.checkConstants = false) :
    Considers options x buffer e session [] true session
  /-- If they do, it is accepted if all of them hold. -/
  | checked {session last : Session σ} {reads : List Read} {complete : Bool}
      (fits : e.format.bits.toNat ≤ session.window.available)
      (checked : options.checkConstants = true)
      (asks : Asks x buffer (constantDemands e.format.fields) session reads complete last) :
    Considers options x buffer e session reads complete last

theorem constantsHold_noting (x : Extractor σ) (buffer : Buffer) (fields : List Field)
    (session : Session σ) (reads : List Read) :
    ∃ new, Asks x buffer (constantDemands fields) session new
        (constantsHold x buffer fields session).1 (constantsHold x buffer fields session).2
      ∧ constantsHold x.recorded buffer fields (session.noting reads)
        = ((constantsHold x buffer fields session).1,
          (constantsHold x buffer fields session).2.noting (reads ++ new)) := by
  induction fields generalizing session reads with
  | nil => exact ⟨[], .done, by rw [List.append_nil]; rfl⟩
  | cons f rest ih =>
    unfold constantsHold
    cases hc : f.constant with
    | none =>
      have hskip : constantDemands (f :: rest) = constantDemands rest := by
        simp [constantDemands, constants, hc]
      rw [hskip]
      exact ih session reads
    | some c =>
      have hhead : constantDemands (f :: rest)
          = ⟨f.layout, some c⟩ :: constantDemands rest := by
        simp [constantDemands, constants, hc]
      rw [hhead]
      dsimp only
      cases hx : x buffer f.layout session with
      | mk answer last =>
        rw [Extractor.recorded_noting hx reads]
        cases answer with
        | error e => exact ⟨_, .failed hx, rfl⟩
        | ok value =>
          dsimp only
          by_cases hv : value = c
          · obtain ⟨new, hasks, heq⟩ := ih last (reads ++ [⟨f.layout, .ok value⟩])
            rw [if_pos hv, if_pos hv, heq, List.append_assoc]
            exact ⟨⟨f.layout, .ok value⟩ :: new, .met hx (by simpa [Demand.Met] using hv) hasks,
              rfl⟩
          · rw [if_neg hv, if_neg hv]
            exact ⟨_, .differs hx (by simpa [Demand.Met] using hv), rfl⟩

theorem accept_noting (options : Decoder.Options) (x : Extractor σ) (buffer : Buffer) (e : Entry)
    (session : Session σ) (reads : List Read) :
    ∃ new, Considers options x buffer e session new (accept options x buffer e session).1
        (accept options x buffer e session).2
      ∧ accept options x.recorded buffer e (session.noting reads)
        = ((accept options x buffer e session).1,
          (accept options x buffer e session).2.noting (reads ++ new)) := by
  have hwindow : (session.noting reads).window = session.window := rfl
  unfold accept
  rw [hwindow]
  by_cases hfits : session.window.available < e.format.bits.toNat
  · rw [if_pos hfits, if_pos hfits]
    exact ⟨[], .narrow hfits, by rw [List.append_nil]⟩
  · rw [if_neg hfits, if_neg hfits]
    by_cases hchecked : options.checkConstants = true
    · rw [if_pos hchecked, if_pos hchecked]
      obtain ⟨new, hasks, heq⟩ := constantsHold_noting x buffer e.format.fields session reads
      exact ⟨new, .checked (Nat.not_lt.mp hfits) hchecked hasks, heq⟩
    · rw [if_neg hchecked, if_neg hchecked]
      exact ⟨[], .unchecked (Nat.not_lt.mp hfits) (by simpa using hchecked),
        by rw [List.append_nil]⟩

/-- The decoder's search can be made with a record. -/
theorem recording_search (d : Decoder) (x : Extractor σ) (buffer : Buffer) :
    (d.search x buffer).Recording (Considers d.options x buffer) (d.search x.recorded buffer) where
  table := rfl
  policy := rfl
  buffer := rfl
  extractor := rfl
  accept := accept_noting d.options x buffer

/-! ## Fields -/

/-- What is asked about the fields: each of them, whatever it holds. -/
def fieldDemands (fields : List Field) : List Demand := fields.map fun g => { layout := g.layout }

def Operands.noting (o : Operands σ) (reads : List Read) : Operands (Recorder σ) where
  error := o.error
  values := o.values
  session := o.session.noting reads

theorem readOperands_noting (x : Extractor σ) (buffer : Buffer) {fields : List Field}
    (hid : ∀ g ∈ fields, ∃ id, g.id = some id) (values : SlotValues) (session : Session σ)
    (reads : List Read) :
    ∃ new, Asks x buffer (fieldDemands fields) session new
        (readOperands x buffer fields values session).error.isNone
        (readOperands x buffer fields values session).session
      ∧ readOperands x.recorded buffer fields values (session.noting reads)
        = (readOperands x buffer fields values session).noting (reads ++ new) := by
  induction fields generalizing values session reads with
  | nil => exact ⟨[], .done, by rw [List.append_nil]; rfl⟩
  | cons g rest ih =>
    obtain ⟨⟨id, hg⟩, hrest⟩ := List.forall_mem_cons.mp hid
    have hhead : fieldDemands (g :: rest) = ⟨g.layout, none⟩ :: fieldDemands rest := rfl
    rw [hhead, readOperands, readOperands, hg]
    dsimp only
    cases hx : x buffer g.layout session with
    | mk answer last =>
      rw [Extractor.recorded_noting hx reads]
      cases answer with
      | error e => exact ⟨_, .failed hx, rfl⟩
      | ok value =>
        dsimp only
        obtain ⟨new, hasks, heq⟩ :=
          ih hrest (values.set id.slot value) last (reads ++ [⟨g.layout, .ok value⟩])
        rw [heq, List.append_assoc]
        exact ⟨⟨g.layout, .ok value⟩ :: new, .met hx (by simp [Demand.Met]) hasks, rfl⟩

/-- The read is that of the field, and its value is in the field's slot. -/
def Placed (values : SlotValues) (g : Field) (r : Read) : Prop :=
  ∃ id value, g.id = some id ∧ r = ⟨g.layout, .ok value⟩ ∧ values.get id = value

/-- **Each field has the value of its own read**, if no two share a slot. -/
theorem placed_readOperands {x : Extractor σ} {buffer : Buffer} {fields : List Field}
    {values : SlotValues} {session last : Session σ} {reads : List Read}
    (hid : ∀ g ∈ fields, ∃ id, g.id = some id ∧ id.slot < values.length)
    (hapart : (fields.map Field.slot?).Nodup)
    (h : Asks x buffer (fieldDemands fields) session reads true last) :
    List.Forall₂ (Placed (readOperands x buffer fields values session).values) fields reads := by
  induction fields generalizing values session reads with
  | nil =>
    cases h with
    | done => exact .nil
  | cons g rest ih =>
    obtain ⟨⟨id, hg, hlt⟩, hrest⟩ := List.forall_mem_cons.mp hid
    obtain ⟨hnew, hapart⟩ := List.nodup_cons.mp hapart
    have hhead : fieldDemands (g :: rest) = ⟨g.layout, none⟩ :: fieldDemands rest := rfl
    rw [hhead] at h
    cases h with
    | @met _ _ _ next _ value reads _ answer _ later =>
      have hstep : readOperands x buffer (g :: rest) values session
          = readOperands x buffer rest (values.set id.slot value) next := by
        rw [readOperands, hg]
        dsimp only
        rw [answer]
      rw [hstep]
      refine .cons ⟨id, value, hg, rfl, ?_⟩ (ih ?_ hapart later)
      · -- the fields behind have other slots
        have hslot : some id.slot ∉ rest.map Field.slot? := by rwa [Field.slot?, hg] at hnew
        have hkeep := getElem?_readOperands x buffer hslot (values.set id.slot value) next
        rw [SlotValues.get, hkeep, SlotValues.set, List.getElem?_set_self hlt, Option.getD_some]
      · simpa using hrest

/-! ## Decoding -/

/-- The session in which the first `bits` bits of a buffer are decoded. -/
def opening (buffer : Buffer) (bits : Nat) (host : σ) : Session σ where
  window := .ofBits (min bits buffer.bits)
  host := host

/-- The search for the instruction in the first `bits` bits of a buffer. -/
def course (d : Decoder) (x : Extractor σ) (buffer : Buffer) (bits : Nat) (host : σ) :
    Outcome Entry σ :=
  (d.search x buffer).run d.forest (opening buffer bits host)

/-- What there is to tell of a search and its outcome. -/
def told (d : Decoder) (o : Outcome Entry σ) : List Event :=
  searchEvents d.table o.moves ++ [.searched (Search.effort o.moves) o.found.isSome]

section Attempt

variable {d : Decoder} {x : Extractor σ} {buffer : Buffer} {bits : Nat} {host : σ}

theorem decodeWith_nothing {o : Outcome Entry σ} (ho : d.course x buffer bits host = o)
    (hf : o.found = none) :
    d.decodeWith x buffer bits host
      = { found := none, values := .zeros d.table.slots, session := o.session
          events := d.told o } := by
  subst ho
  unfold course opening at hf
  simp only [decodeWith, decodeInto, SlotValues.reset_eq, told, course, opening, hf]

theorem decodeWith_whole {o : Outcome Entry σ} (ho : d.course x buffer bits host = o) {e : Entry}
    (hf : o.found = some e) {p : Operands σ}
    (hp : readOperands x buffer e.format.fields (.zeros d.table.slots) o.session = p)
    (herror : p.error = none) :
    d.decodeWith x buffer bits host
      = { found := some e, values := p.values.set 0 (idValue e.instruction.id)
          session := p.session, events := d.told o } := by
  subst ho hp
  unfold course opening at hf herror
  simp only [decodeWith, decodeInto, SlotValues.reset_eq, told, course, opening, hf, herror]

theorem decodeWith_broken {o : Outcome Entry σ} (ho : d.course x buffer bits host = o) {e : Entry}
    (hf : o.found = some e) {p : Operands σ}
    (hp : readOperands x buffer e.format.fields (.zeros d.table.slots) o.session = p)
    {error : AccessError} (herror : p.error = some error) :
    d.decodeWith x buffer bits host
      = { found := none, values := .zeros d.table.slots, session := p.session
          events := d.told o ++ [.operandUnavailable e.name error] } := by
  subst ho hp
  unfold course opening at hf herror
  simp only [decodeWith, decodeInto, SlotValues.reset_eq, told, course, opening, hf, herror]

end Attempt

/-! ## All phases -/

def Attempt.noting (a : Attempt σ) (reads : List Read) : Attempt (Recorder σ) where
  found := a.found
  values := a.values
  session := a.session.noting reads
  events := a.events

/-- What comes after a search that ends in the session `last`, with an instruction accepted or with
none: what is read, and what the attempt `a` comes to. -/
inductive Ending (d : Decoder) (x : Extractor σ) (buffer : Buffer) (last : Session σ)
    (a : Attempt σ) : Option Entry → List Read → Prop where
  | nothing (found : a.found = none) (values : a.values = .zeros d.table.slots)
      (session : a.session = last) : Ending d x buffer last a none []
  /-- All fields are read, and each has the value of its read. -/
  | whole {e : Entry} {reads : List Read}
      (asks : Asks x buffer (fieldDemands e.format.fields) last reads true a.session)
      (found : a.found = some e) (fills : e.Fills d a.values)
      (placed : List.Forall₂ (Placed a.values) e.format.fields reads) :
    Ending d x buffer last a (some e) reads
  /-- A field cannot be read. -/
  | broken {e : Entry} {reads : List Read}
      (asks : Asks x buffer (fieldDemands e.format.fields) last reads false a.session)
      (found : a.found = none) (values : a.values = .zeros d.table.slots) :
    Ending d x buffer last a (some e) reads

section Built

variable {formats : List Format} {instructions : List Instruction} {d : Decoder}

/-- The slot of the number is no field's. -/
theorem Placed.set_zero {values : SlotValues} {g : Field} {r : Read} (h : Placed values g r)
    (value : Int64) : Placed (values.set 0 value) g r := by
  obtain ⟨id, v, hid, hr, hv⟩ := h
  refine ⟨id, v, hid, hr, ?_⟩
  have hne : 0 ≠ id.slot := by
    rw [FieldId.slot_eq_index_add_one]
    exact Nat.zero_ne_add_one _
  rwa [SlotValues.get, SlotValues.set, List.getElem?_set_ne hne]

/-- What is accepted has its fields in slots of their own. -/
theorem Built.slots_of_found (hb : Built formats instructions d)
    (hs : Validation.Sound formats instructions) {x : Extractor σ} {buffer : Buffer} {bits : Nat}
    {host : σ} {e : Entry} (h : (d.course x buffer bits host).found = some e) :
    (e.format.fields.map Field.slot?).Nodup
      ∧ ∀ g ∈ e.format.fields, ∃ id, g.id = some id ∧ id.slot < d.table.slots := by
  obtain ⟨path, hmem⟩ := Search.mem_terminals_of_found h
  have hfills := hb.fills hs hmem (SlotValues.length_zeros _) fun k _ => rfl
  refine ⟨hfills.apart, fun g hg => ?_⟩
  obtain ⟨k, hk, -, hlt⟩ := hfills.slot g hg
  obtain ⟨id, hid, rfl⟩ := Option.map_eq_some_iff.mp hk
  rw [SlotValues.length_set, SlotValues.length_zeros] at hlt
  exact ⟨id, hid, hlt⟩

/-- **The third phase**: with a record or without, the attempt comes to the same. -/
theorem Built.ending (hb : Built formats instructions d)
    (hs : Validation.Sound formats instructions) (x : Extractor σ) (buffer : Buffer) (bits : Nat)
    (host : σ) {early : List Read}
    (hcourse : d.course x.recorded buffer bits { host }
      = (d.course x buffer bits host).noting early) :
    ∃ late, d.decodeWith x.recorded buffer bits { host }
        = (d.decodeWith x buffer bits host).noting (early ++ late)
      ∧ d.Ending x buffer (d.course x buffer bits host).session
        (d.decodeWith x buffer bits host) (d.course x buffer bits host).found late := by
  cases hf : (d.course x buffer bits host).found with
  | none =>
    rw [decodeWith_nothing rfl hf, decodeWith_nothing hcourse hf]
    exact ⟨[], by rw [List.append_nil]; rfl, .nothing rfl rfl rfl⟩
  | some e =>
    obtain ⟨hapart, hid⟩ := hb.slots_of_found hs hf
    have hclean := hb.clean hs x buffer bits host
    obtain ⟨late, hasks, hnoting⟩ := readOperands_noting x buffer
      (fun g hg => (hid g hg).imp fun id h => h.1) (.zeros d.table.slots)
      (d.course x buffer bits host).session early
    refine ⟨late, ?_⟩
    cases herror : (readOperands x buffer e.format.fields (.zeros d.table.slots)
        (d.course x buffer bits host).session).error with
    | none =>
      have hplain := decodeWith_whole rfl hf rfl herror
      rw [hplain] at hclean ⊢
      rw [herror] at hasks
      refine ⟨?_, .whole hasks rfl (hclean.something e rfl) ?_⟩
      · rw [decodeWith_whole hcourse hf hnoting herror]
        rfl
      · refine (placed_readOperands ?_ hapart hasks).imp fun g r h => h.set_zero _
        simpa using hid
    | some error =>
      rw [decodeWith_broken rfl hf rfl herror]
      rw [herror] at hasks
      refine ⟨?_, .broken hasks rfl rfl⟩
      rw [decodeWith_broken hcourse hf hnoting herror]
      rfl

end Built

/--
**The reads of a decoder are these and no others**, for any extractor. Decoding with a record comes
to the same as decoding without. The record is what the moves of the search amount to, and then
what the accepted instruction takes; and the search goes through the forest as its answers have it,
using values again when it may.
-/
theorem reads_exact {formats : List Format} {instructions : List Instruction}
    {options : Decoder.Options} {d : Decoder} (h : build formats instructions options = .ok d)
    (x : Extractor σ) (buffer : Buffer) (bits : Nat) (host : σ) :
    ∃ early late,
      d.decodeWith x.recorded buffer bits { host }
          = (d.decodeWith x buffer bits host).noting (early ++ late)
        ∧ Search.Walk 0 d.forest.branches (d.course x buffer bits host).moves
          (d.course x buffer bits host).found
        ∧ Search.Reuses options.cache [] (d.course x buffer bits host).moves
        ∧ (d.search x buffer).Reads (Considers options x buffer) (opening buffer bits host)
          (d.course x buffer bits host).moves early (d.course x buffer bits host).session
        ∧ d.Ending x buffer (d.course x buffer bits host).session
          (d.decodeWith x buffer bits host) (d.course x buffer bits host).found late := by
  obtain ⟨rfl, hb⟩ := built_of_build h
  have hdeclared : ∀ n ∈ d.forest.nodes, ∃ f, d.table.get? n.test.field = some f := by
    intro n hn
    obtain ⟨f, hf, -⟩ := hb.grounded.field n hn
    exact ⟨f, hf⟩
  obtain ⟨early, hcourse, hreads⟩ :=
    (recording_search d x buffer).run hdeclared (opening buffer bits host)
  obtain ⟨late, hsame, hending⟩ := hb.ending (sound_of_build h) x buffer bits host hcourse
  exact ⟨early, late, hsame, Search.run_walk _ _ _, Search.run_reuses _ _ _, hreads, hending⟩

/-- A byte is tested for a jump and found to be a halt, but the host has no read left for its second
nibble: four reads are written down, and nothing is decoded. -/
theorem reads_exact_limited :
    ∃ d early late, build [byteFormat] byteInstructions {} = .ok d
      ∧ d.decodeWith limited.recorded [0x22] 8 { host := 3 }
        = (d.decodeWith limited [0x22] 8 3).noting (early ++ late)
      ∧ d.Ending limited [0x22] (d.course limited [0x22] 8 3).session
        (d.decodeWith limited [0x22] 8 3) (d.course limited [0x22] 8 3).found late
      ∧ early ++ late = [⟨⟨0, 4, false⟩, .ok 2⟩, ⟨⟨4, 4, false⟩, .ok 2⟩, ⟨⟨0, 4, false⟩, .ok 2⟩,
        ⟨⟨4, 4, false⟩, .error (.shortBuffer 8 0)⟩] := by
  obtain ⟨d, hd⟩ : ∃ d, build [byteFormat] byteInstructions {} = .ok d := ⟨_, rfl⟩
  have hreads : (d.decodeWith limited.recorded [0x22] 8 { host := 3 }).session.host.reads
      = [⟨⟨0, 4, false⟩, .ok 2⟩, ⟨⟨4, 4, false⟩, .ok 2⟩, ⟨⟨0, 4, false⟩, .ok 2⟩,
        ⟨⟨4, 4, false⟩, .error (.shortBuffer 8 0)⟩] :=
    eq_of_map_eq_ok (fun d =>
      (d.decodeWith limited.recorded [0x22] 8 { host := 3 }).session.host.reads) hd
      (by decide +kernel)
  obtain ⟨early, late, hsame, -, -, -, hending⟩ := reads_exact hd limited [0x22] 8 3
  refine ⟨d, early, late, hd, hsame, hending, ?_⟩
  rwa [hsame] at hreads

end InstructionSet.Decoder
