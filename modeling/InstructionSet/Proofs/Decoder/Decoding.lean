import InstructionSet.Decoder.Decode
import InstructionSet.Proofs.Bits.Reading

/-!
# What decoding comes to

`Decoder.decode` searches for the instruction, reads the fields of its format and
packs them up. `decode_eq` says so in one equation, without the values that a
caller hands in and without what is told on the way. Accepting an instruction
may take reads of its own, and they treat the window as reads do.
-/

namespace InstructionSet.Decoder

variable {σ : Type}

/-! ## Acceptance -/

theorem reaches_constantsHold (buffer : Buffer) (fields : List Field) (session : Session σ) :
    session.Reaches (constantsHold .msbFirst buffer fields session).2 := by
  induction fields generalizing session with
  | nil => exact .refl session
  | cons f rest ih =>
    unfold constantsHold
    cases f.constant with
    | none => exact ih session
    | some constant =>
      have hr := Extractor.reaches_msbFirst buffer f.layout session
      cases hx : Extractor.msbFirst buffer f.layout session with
      | mk result last =>
        rw [hx] at hr
        cases result with
        | error e => exact hr
        | ok value =>
          dsimp only
          split
          · exact hr.trans (ih last)
          · exact hr

theorem reaches_accept (options : Decoder.Options) (buffer : Buffer) (e : Entry)
    (session : Session σ) : session.Reaches (accept options .msbFirst buffer e session).2 := by
  unfold accept
  split
  · exact .refl session
  · split
    · exact reaches_constantsHold buffer e.format.fields session
    · exact .refl session

/-! ## The steps -/

/-- The session in which the first `bits` bits of a buffer are decoded. -/
def start (buffer : Buffer) (bits : Nat) : Session Unit :=
  { window := .ofBits (min bits buffer.bits), host := () }

/-- The search for the instruction in the first `bits` bits of a buffer. -/
def outcome (d : Decoder) (buffer : Buffer) (bits : Nat) : Search.Outcome Entry Unit :=
  (d.search .msbFirst buffer).run d.forest (start buffer bits)

/-- The instruction `e` as it is decoded in a session, unless one of its fields cannot be read. -/
def pack (slots : Nat) (buffer : Buffer) (e : Entry) (session : Session Unit) : Option Decoded :=
  let operands := readOperands .msbFirst buffer e.format.fields (.zeros slots) session
  match operands.error with
  | some _ => none
  | none => some {
      instruction := e.instruction.id
      size := e.instruction.size
      fields := operands.values.set 0 (idValue e.instruction.id) }

theorem decode_eq (d : Decoder) (buffer : Buffer) (bits : Nat) :
    d.decode buffer bits
      = (d.outcome buffer bits).found.bind fun e =>
          pack d.table.slots buffer e (d.outcome buffer bits).session := by
  unfold outcome start decode decodeWith decodeInto
  simp only [SlotValues.reset_eq]
  split
  · rename_i hf
    rw [hf]
    rfl
  · rename_i e hf
    rw [hf, Option.bind_some, pack]
    split
    · rename_i ho
      rw [ho]
      rfl
    · rename_i ho
      rw [ho]
      rfl

end InstructionSet.Decoder
