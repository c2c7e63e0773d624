import InstructionSet.Proofs.Decoder.Decoding
import InstructionSet.Proofs.Search.Cache
import InstructionSet.Proofs.Search.Terminals

/-!
# Decoders that hold values

The policy of a decoder says how often it reads, and nothing else: decoders of
one description whose options differ in the policy alone decode alike.
-/

namespace InstructionSet.Decoder

/-! ## Decoding -/

/-- The decoder with another policy. -/
def holding (d : Decoder) (policy : CachePolicy) : Decoder :=
  { d with options := { d.options with cache := policy } }

/-- **A decoder decodes alike under every policy.** -/
theorem decode_holding (d : Decoder) (policy : CachePolicy) :
    (d.holding policy).decode = d.decode := by
  funext buffer bits
  have hr := reaches_accept (σ := Unit) d.options buffer
  have h := Search.run_under_never (s := d.search .msbFirst buffer) rfl hr d.forest
    (start buffer bits)
  have h' := Search.run_under_never (s := (d.holding policy).search .msbFirst buffer) rfl hr
    d.forest (start buffer bits)
  -- both searches go in step with the one that holds nothing
  have he : ((d.holding policy).outcome buffer bits).unheld = (d.outcome buffer bits).unheld :=
    h'.symm.trans h
  obtain ⟨hf, hs⟩ := Search.eq_of_unheld_eq he
  rw [decode_eq, decode_eq, hf, hs]
  rfl

/-! ## Building -/

theorem assemble_cache (options : Decoder.Options) (policy : CachePolicy) (table : FieldTable)
    (formats : List Format) (chains : List (Entry × List Test)) (warnings : List Diagnostic) :
    assemble { options with cache := policy } table formats chains warnings
      = (assemble options table formats chains warnings).map (·.holding policy) := by
  unfold assemble
  dsimp only
  split
  · rfl
  · rfl

theorem build_cache (formats : List Format) (instructions : List Instruction)
    (options : Decoder.Options) (policy : CachePolicy) :
    build formats instructions { options with cache := policy }
      = (build formats instructions options).map (·.holding policy) := by
  unfold build
  cases validate formats instructions with
  | error e => rfl
  | ok warnings =>
    cases unify formats with
    | error e => rfl
    | ok unified =>
      obtain ⟨table, formats⟩ := unified
      -- up to here the policy has not been looked at
      change (resolve formats instructions).mapError Failure.refused >>= _
        = ((resolve formats instructions).mapError Failure.refused >>= _).map _
      cases (resolve formats instructions).mapError Failure.refused with
      | error e => rfl
      | ok chains =>
        change (assemble _ table formats chains warnings).mapError Failure.refused = _
        rw [assemble_cache]
        change _ = ((assemble options table formats chains warnings).mapError Failure.refused).map _
        cases assemble options table formats chains warnings with
        | error e => rfl
        | ok d => rfl

/--
**Holding values changes nothing.** A search that holds values takes the course of
the one that reads every field that it tests, and asks for no more values, however
owners are answered: all that is asked of their acceptance is that it treats the
window as reads do, which leave its width as it is and never take its mark back.
So two decoders of one description decode alike if their options differ in the
policy only, and one of them is refused as the other is.
-/
theorem holding_changes_nothing :
    (∀ (α σ : Type) (s : Search α σ) (f : Forest α) (session : Session σ),
        s.extractor = .msbFirst →
        (∀ (a : α) (session : Session σ), session.Reaches (s.accept a session).2) →
        Search.SameCourse ((s.under .acrossSiblings).run f session)
          ((s.under .never).run f session))
      ∧ ∀ (formats : List Format) (instructions : List Instruction) (options : Decoder.Options)
          (policy : CachePolicy),
        (build formats instructions { options with cache := policy }).map decode
          = (build formats instructions options).map decode := by
  constructor
  · intro α σ s f session hx hr
    have h := Search.run_under_never (s := s.under .acrossSiblings) hx hr f session
    change (s.under .never).run f session = _ at h
    rw [h]
    exact Search.sameCourse_unheld _
  · intro formats instructions options policy
    rw [build_cache]
    cases build formats instructions options with
    | error e => rfl
    | ok d => exact congrArg Except.ok (decode_holding d policy)

theorem holding_changes_nothing_nibbles :
    Search.SameCourse
      ((Search.nibbles.under .acrossSiblings).run Search.nibbleForest ⟨.ofBits 8, ()⟩)
      ((Search.nibbles.under .never).run Search.nibbleForest ⟨.ofBits 8, ()⟩) :=
  holding_changes_nothing.1 Nat Unit Search.nibbles Search.nibbleForest ⟨.ofBits 8, ()⟩ rfl
    fun _ session => .refl session

end InstructionSet.Decoder
