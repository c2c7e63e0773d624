import InstructionSet.Description
import InstructionSet.Proofs.Lists

/-!
# Formats that are laid out part by part

What a draft looks like after some parts is a matter of these parts: each one adds its
extent to the position, a literal uses a number up, and a field is entered where the
draft has got to (`Drafted`). One part more keeps this up, and so it holds of every draft
(`drafted_foldl`). As positions are 32-bit numbers, this is so modulo `2 ^ 32`. If the
parts have an extent below that, each field begins where the parts before it end, and from
this it follows that the fields come in order, that no two share a bit and that all of them
are inside the format unless its width was set (`Drafted.laidOut`).
-/

namespace InstructionSet

/-! ## Things that are made in passing -/

/-- Of each element that `p` singles out one thing was made, in the order of the list. What is made
may depend on the elements before. -/
structure MadeOf {α β : Type} (p : α → Bool) (R : List α → α → β → Prop) (list : List α)
    (made : List β) : Prop where
  length : made.length = list.countP p
  source : ∀ i b, made[i]? = some b →
    ∃ k a, list[k]? = some a ∧ (list.take k).countP p = i ∧ R (list.take k) a b

namespace MadeOf

variable {α β : Type} {p : α → Bool} {R : List α → α → β → Prop} {list : List α} {made : List β}
  {a : α}

theorem nil : MadeOf p R [] [] := ⟨rfl, fun i b h => absurd h (by simp)⟩

/-- What was made of an element was made of the same one in a longer list. -/
theorem source_concat (h : MadeOf p R list made) (a : α) {i : Nat} {b : β}
    (hb : made[i]? = some b) : ∃ k x, (list ++ [a])[k]? = some x
      ∧ ((list ++ [a]).take k).countP p = i ∧ R ((list ++ [a]).take k) x b := by
  obtain ⟨k, x, hx, hcount, hr⟩ := h.source i b hb
  have hk : k < list.length := (List.getElem?_eq_some_iff.mp hx).1
  have htake : (list ++ [a]).take k = list.take k :=
    List.take_append_of_le_length (Nat.le_of_lt hk)
  exact ⟨k, x, by rw [List.getElem?_append_left hk, hx], by rw [htake, hcount], by rwa [htake]⟩

theorem skip (h : MadeOf p R list made) (ha : p a = false) : MadeOf p R (list ++ [a]) made where
  length := by rw [h.length, List.countP_append, List.countP_singleton, ha]; rfl
  source := fun _ _ hb => h.source_concat a hb

theorem push (h : MadeOf p R list made) (ha : p a = true) {b : β} (hr : R list a b) :
    MadeOf p R (list ++ [a]) (made ++ [b]) where
  length := by
    rw [List.length_append, h.length, List.countP_append, List.countP_singleton, ha]
    rfl
  source := by
    intro i x hx
    by_cases hi : i < made.length
    · rw [List.getElem?_append_left hi] at hx
      exact h.source_concat a hx
    · -- the last thing was made of the last element
      have hlast : i = made.length := by
        have hlen := (List.getElem?_eq_some_iff.mp hx).1
        rw [List.length_append, List.length_singleton] at hlen
        omega
      subst hlast
      rw [List.getElem?_concat_length] at hx
      obtain rfl := Option.some.inj hx
      have htake : (list ++ [a]).take list.length = list := List.take_left
      exact ⟨list.length, a, List.getElem?_concat_length, by rw [htake, h.length], by rwa [htake]⟩

theorem imp (h : MadeOf p R list made) {R' : List α → α → β → Prop}
    (hr : ∀ k a b, list[k]? = some a → R (list.take k) a b → R' (list.take k) a b) :
    MadeOf p R' list made where
  length := h.length
  source := by
    intro i b hb
    obtain ⟨k, a, ha, hcount, hmade⟩ := h.source i b hb
    exact ⟨k, a, ha, hcount, hr k a b ha hmade⟩

/-- **Later things were made of later elements.** -/
theorem pairwise (h : MadeOf p R list made) {Q : β → β → Prop}
    (hq : ∀ k k' a a' b b', k < k' → list[k]? = some a → list[k']? = some a' →
      R (list.take k) a b → R (list.take k') a' b' → Q b b') : made.Pairwise Q := by
  refine List.pairwise_iff_getElem.mpr fun i j hi hj hij => ?_
  obtain ⟨k, a, ha, hcount, hr⟩ := h.source i _ (List.getElem?_eq_getElem hi)
  obtain ⟨k', a', ha', hcount', hr'⟩ := h.source j _ (List.getElem?_eq_getElem hj)
  refine hq k k' a a' _ _ ?_ ha ha' hr hr'
  rcases Nat.lt_or_ge k k' with hlt | hge
  · exact hlt
  · have hle : (list.take k').countP p ≤ (list.take k).countP p :=
      (List.take_sublist_take_left hge).countP_le
    omega

end MadeOf

/-! ## Parts -/

/-- The name of the literal with that number. -/
def literalName (number : Nat) : String := s!"CONST_{number}"

theorem literalName_injective : Function.Injective literalName := by
  intro m n h
  have hlist : "CONST_".toList ++ m.repr.toList = "CONST_".toList ++ n.repr.toList := by
    have := congrArg String.toList h
    simpa [literalName] using this
  have hdigits := List.append_cancel_left hlist
  rw [Nat.toList_repr, Nat.toList_repr] at hdigits
  rw [← Nat.ofDigitChars_ten_toDigits (n := m), hdigits, Nat.ofDigitChars_ten_toDigits]

namespace LayoutItem

/-- The number of bits that the part takes up. -/
def extent : LayoutItem → Nat
  | field _ size | signedField _ size | constant size _ | gap size => size.toNat
  | width _ => 0

/-- Whether the part is a field, if only one of literal bits. -/
def isField : LayoutItem → Bool
  | field .. | signedField .. | constant .. => true
  | gap _ | width _ => false

def isLiteral : LayoutItem → Bool
  | constant .. => true
  | _ => false

def width? : LayoutItem → Option UInt32
  | width bits => some bits
  | _ => none

/-- The number of bits that the parts take up together. -/
def total : List LayoutItem → Nat
  | [] => 0
  | item :: rest => item.extent + total rest

/-- The width that was given last. -/
def lastWidth (items : List LayoutItem) : Option UInt32 := (items.filterMap width?).getLast?

/-- The part is entered as that field, at that position. If it is literal, the number makes its
name. -/
inductive EntersAs (position : UInt32) (number : Nat) : LayoutItem → Field → Prop
  | field (name : String) (size : UInt32) :
    EntersAs position number (.field name size) { name, layout := ⟨position, size, false⟩ }
  | signedField (name : String) (size : UInt32) :
    EntersAs position number (.signedField name size) { name, layout := ⟨position, size, true⟩ }
  | constant (size : UInt32) (value : Int64) :
    EntersAs position number (.constant size value)
      { name := literalName number, layout := ⟨position, size, false⟩, constant := some value }

theorem EntersAs.layout {position : UInt32} {number : Nat} {item : LayoutItem} {g : Field}
    (h : EntersAs position number item g) :
    g.layout.firstBit = position ∧ g.layout.size.toNat = item.extent := by
  cases h <;> exact ⟨rfl, rfl⟩

theorem total_append (items more : List LayoutItem) :
    total (items ++ more) = total items + total more := by
  induction items with
  | nil => exact (Nat.zero_add _).symm
  | cons item rest ih => rw [List.cons_append, total, ih, total, Nat.add_assoc]

/-- The extent of a part is that between its beginning and the next part's. -/
theorem total_take_succ {items : List LayoutItem} {k : Nat} {item : LayoutItem}
    (h : items[k]? = some item) :
    total (items.take (k + 1)) = total (items.take k) + item.extent := by
  rw [List.take_add_one, h, total_append]
  rfl

theorem total_take_le (items : List LayoutItem) {k k' : Nat} (h : k ≤ k') :
    total (items.take k) ≤ total (items.take k') := by
  have hsplit := List.take_append_drop k (items.take k')
  rw [List.take_take, Nat.min_eq_left h] at hsplit
  rw [← hsplit, total_append]
  omega

theorem total_take_le_total (items : List LayoutItem) (k : Nat) :
    total (items.take k) ≤ total items := by
  have hsplit := congrArg total (List.take_append_drop k items)
  rw [total_append] at hsplit
  omega

end LayoutItem

/-! ## Drafts -/

namespace FormatDraft

open LayoutItem

/-- The names of the literals in the draft. -/
def literalNames (d : FormatDraft) : List String :=
  (d.fields.filter (·.constant.isSome)).map Field.name

section Add

variable (d : FormatDraft) (item : LayoutItem)

/-- **What one part does to a draft.** -/
theorem add_position :
    (d.add item).position.toNat = (d.position.toNat + item.extent) % UInt32.size := by
  cases item with
  | width bits => exact (Nat.mod_eq_of_lt d.position.toNat_lt).symm
  | _ => exact UInt32.toNat_add ..

theorem add_nextConstant :
    (d.add item).nextConstant = d.nextConstant + [item].countP isLiteral := by
  cases item <;> rfl

theorem add_width : (d.add item).width = item.width?.or d.width := by
  cases item <;> rfl

theorem add_fields_of_not_isField (h : item.isField = false) : (d.add item).fields = d.fields := by
  cases item with
  | gap size => rfl
  | width bits => rfl
  | _ => exact absurd h (by simp [isField])

theorem add_fields_of_isField (h : item.isField = true) :
    ∃ g, (d.add item).fields = d.fields ++ [g] ∧ item.EntersAs d.position d.nextConstant g := by
  cases item with
  | field name size => exact ⟨_, rfl, .field name size⟩
  | signedField name size => exact ⟨_, rfl, .signedField name size⟩
  | constant size value => exact ⟨_, rfl, .constant size value⟩
  | _ => exact absurd h (by simp [isField])

theorem add_literalNames : (d.add item).literalNames
    = d.literalNames ++ (List.range' d.nextConstant ([item].countP isLiteral)).map literalName := by
  have hentered : ∀ g, ((d.fields ++ [g]).filter (·.constant.isSome)).map Field.name
      = d.literalNames ++ ([g].filter (·.constant.isSome)).map Field.name := by
    intro g
    rw [List.filter_append, List.map_append]
    rfl
  cases item with
  | gap size => exact (List.append_nil _).symm
  | width bits => exact (List.append_nil _).symm
  | _ => exact hentered _

end Add

/-- What a draft is after the parts, if the literals are numbered from `start` on. -/
structure Drafted (start : Nat) (items : List LayoutItem) (d : FormatDraft) : Prop where
  position : d.position.toNat = total items % UInt32.size
  nextConstant : d.nextConstant = start + items.countP isLiteral
  width : d.width = lastWidth items
  fields : MadeOf isField (fun before item g => ∃ position : UInt32,
    position.toNat = total before % UInt32.size
      ∧ item.EntersAs position (start + before.countP isLiteral) g) items d.fields
  literalNames : d.literalNames
    = (List.range' start (items.countP isLiteral)).map literalName

/-- **One part more is entered where the draft has got to.** -/
theorem Drafted.add {start : Nat} {items : List LayoutItem} {d : FormatDraft}
    (h : Drafted start items d) (item : LayoutItem) :
    Drafted start (items ++ [item]) (d.add item) where
  position := by
    rw [add_position, h.position, Nat.mod_add_mod, total_append]
    rfl
  nextConstant := by rw [add_nextConstant, h.nextConstant, List.countP_append, Nat.add_assoc]
  width := by
    rw [add_width, h.width, lastWidth, lastWidth, List.filterMap_append, List.getLast?_append]
    cases item <;> rfl
  fields := by
    cases hitem : item.isField with
    | false =>
      rw [add_fields_of_not_isField d item hitem]
      exact h.fields.skip hitem
    | true =>
      obtain ⟨g, hg, henters⟩ := add_fields_of_isField d item hitem
      rw [hg]
      exact h.fields.push hitem ⟨d.position, h.position, h.nextConstant ▸ henters⟩
  literalNames := by
    rw [add_literalNames, h.literalNames, h.nextConstant, List.countP_append, ← List.map_append,
      List.range'_append_1]

theorem drafted_new (start : Nat) : Drafted start [] { nextConstant := start } where
  position := rfl
  nextConstant := rfl
  width := rfl
  fields := .nil
  literalNames := rfl

/-- **What a draft is after all of its parts.** -/
theorem Drafted.foldl {start : Nat} {before : List LayoutItem} {d : FormatDraft}
    (h : Drafted start before d) (items : List LayoutItem) :
    Drafted start (before ++ items) (items.foldl FormatDraft.add d) := by
  induction items generalizing before d with
  | nil => rwa [List.append_nil]
  | cons item rest ih =>
    have hrest := ih (h.add item)
    rwa [List.append_assoc] at hrest

theorem drafted_foldl (start : Nat) (items : List LayoutItem) :
    Drafted start items (items.foldl FormatDraft.add { nextConstant := start }) :=
  (drafted_new start).foldl items

end FormatDraft

/-! ## Formats -/

open LayoutItem

/-- What a format is that was laid out from the parts, if the literals are numbered from `start`
on. -/
structure Format.LaidOut (start : Nat) (items : List LayoutItem) (f : Format) : Prop where
  /-- Each field is a part that begins where the parts before it end. -/
  fields : MadeOf isField (fun before item g => g.layout.firstBit.toNat = total before
    ∧ item.EntersAs g.layout.firstBit (start + before.countP isLiteral) g) items f.fields
  /-- Each field ends before the next one begins. -/
  ascending : f.fields.Pairwise fun g g' => g.endBit ≤ g'.layout.firstBit.toNat
  bits : f.bits.toNat = ((lastWidth items).map UInt32.toNat).getD (total items)
  /-- The fields are inside the format, unless its width was set. -/
  inside : lastWidth items = none → ∀ g ∈ f.fields, g.endBit ≤ f.bits.toNat

namespace FormatDraft

/-- **A draft whose parts have room makes a format that is laid out from them.** -/
theorem Drafted.laidOut {start : Nat} {items : List LayoutItem} {d : FormatDraft}
    (h : Drafted start items d) (hroom : total items < UInt32.size) (name : String) :
    (d.finish name).LaidOut start items := by
  have hfields : MadeOf isField (fun before item g => g.layout.firstBit.toNat = total before
      ∧ item.EntersAs g.layout.firstBit (start + before.countP isLiteral) g) items d.fields := by
    refine h.fields.imp fun k item g _ hmade => ?_
    obtain ⟨position, hposition, henters⟩ := hmade
    obtain ⟨hfirst, -⟩ := henters.layout
    have hlt : total (items.take k) < UInt32.size :=
      Nat.lt_of_le_of_lt (total_take_le_total items k) hroom
    rw [Nat.mod_eq_of_lt hlt] at hposition
    rw [hfirst]
    exact ⟨hposition, henters⟩
  -- a field ends where the part behind it begins
  have hend : ∀ k item g, items[k]? = some item → g.layout.firstBit.toNat = total (items.take k) →
      item.EntersAs g.layout.firstBit (start + (items.take k).countP isLiteral) g →
      g.endBit = total (items.take (k + 1)) := by
    intro k item g hitem hfirst henters
    rw [Field.endBit, Layout.endBit, hfirst, henters.layout.2, total_take_succ hitem]
  have hbits : (d.finish name).bits.toNat
      = ((lastWidth items).map UInt32.toNat).getD (total items) := by
    rw [finish, h.width]
    cases lastWidth items with
    | some bits => rfl
    | none => exact h.position.trans (Nat.mod_eq_of_lt hroom)
  refine ⟨hfields, ?_, hbits, ?_⟩
  · refine hfields.pairwise fun k k' item item' g g' hlt hitem hitem' hg hg' => ?_
    rw [hend k item g hitem hg.1 hg.2, hg'.1]
    exact total_take_le items hlt
  · intro hnone g hg
    obtain ⟨i, hi⟩ := List.getElem?_of_mem hg
    obtain ⟨k, item, hitem, -, hfirst, henters⟩ := hfields.source i g hi
    rw [hbits, hnone, hend k item g hitem hfirst henters]
    exact total_take_le_total items (k + 1)

end FormatDraft

end InstructionSet
