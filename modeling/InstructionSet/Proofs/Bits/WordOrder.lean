import InstructionSet.Bits.ByteOrder
import InstructionSet.Proofs.Bits.Accesses

/-!
# Words of either order

A stream fetched in words that begin with their least significant byte is put right
word by word. No byte leaves its word, and what is left over at the end is turned
around like a word of its own (`word_toBigEndian`).

What a word means is a number, `littleEndian` of its bytes. The bits of a field of
the word, in the stream that was put right, are the binary digits of that number from
the one that the place of the field says (`number_eq_div`), whatever the width of the
words and wherever the field begins and ends.
-/

namespace InstructionSet

/-- The number whose digits in base 256 are `bytes`, least significant first. -/
def littleEndian (bytes : List UInt8) : Nat :=
  bytes.foldr (fun byte number => byte.toNat + 256 * number) 0

theorem bigEndian_reverse (bytes : List UInt8) :
    Buffer.bigEndian bytes.reverse = littleEndian bytes := by
  rw [Buffer.bigEndian, List.foldl_reverse, littleEndian]
  refine congrArg (List.foldr · 0 bytes) (funext₂ fun byte number => ?_)
  omega

namespace Buffer

/-- Word `k` of the buffer in words of `width` bytes. It is shorter if the buffer ends before it
does. -/
def word (b : Buffer) (width k : Nat) : List UInt8 := (b.drop (width * k)).take width

theorem word_zero (b : Buffer) (width : Nat) : b.word width 0 = b.take width := by
  rw [word, Nat.mul_zero, List.drop_zero]

theorem word_succ (b : Buffer) (width k : Nat) :
    b.word width (k + 1) = word (b.drop width) width k := by
  rw [word, word, List.drop_drop, Nat.mul_succ, Nat.add_comm]

theorem length_word {b : Buffer} {width k : Nat} (h : width * (k + 1) ≤ b.length) :
    (b.word width k).length = width := by
  rw [Nat.mul_succ] at h
  rw [word, List.length_take, List.length_drop]
  omega

theorem getElem?_word (b : Buffer) {width k i : Nat} (h : i < width) :
    (b.word width k)[i]? = b[width * k + i]? := by
  rw [word, List.getElem?_take, if_pos h, List.getElem?_drop]

/-- **The bits of a word are the digits of its number:** those of a field are what is left when the
digits behind it and before it are cut off. -/
theorem number_eq_div {b : Buffer} {width k offset size : Nat} (hword : width * (k + 1) ≤ b.length)
    (hend : offset + size ≤ 8 * width) :
    b.number (8 * width * k + offset) size
      = bigEndian (b.word width k) / 2 ^ (8 * width - offset - size) % 2 ^ size := by
  have hlength := length_word hword
  rw [Nat.mul_assoc]
  apply Nat.eq_of_testBit_eq
  intro j
  rw [testBit_number, Nat.testBit_mod_two_pow, Nat.testBit_div_two_pow, testBit_bigEndian, hlength]
  by_cases hj : j < size
  · -- the digit is in the byte that holds the bit, and in the same place
    have hin : (8 * width - offset - size + j) / 8 < width := by omega
    have hbyte : width * k + (width - 1 - (8 * width - offset - size + j) / 8)
        = (8 * (width * k) + offset + (size - 1 - j)) / 8 := by omega
    have hdigit : (8 * width - offset - size + j) % 8
        = 7 - (8 * (width * k) + offset + (size - 1 - j)) % 8 := by omega
    rw [Nat.add_comm j, getElem?_word b (by omega), hbyte, hdigit, bit]
    simp only [hin, decide_true, Bool.true_and]
  · simp only [hj, decide_false, Bool.false_and]

end Buffer

namespace ByteOrder

/-! ## Word by word -/

section ReverseWords

variable {width : Nat}

theorem reverseWords_nil (width : Nat) : reverseWords width [] = [] := by
  rw [reverseWords, if_pos (.inr rfl)]

theorem reverseWords_eq (h : 0 < width) (bytes : Buffer) :
    reverseWords width bytes
      = (bytes.take width).reverse ++ reverseWords width (bytes.drop width) := by
  by_cases hb : bytes = []
  · rw [hb, List.take_nil, List.drop_nil, reverseWords_nil]
    rfl
  · rw [reverseWords, if_neg (not_or.mpr ⟨Nat.ne_of_gt h, hb⟩)]

/-- Nothing comes behind the first word unless that is a whole one. -/
theorem whole_or_last (width : Nat) (bytes : Buffer) :
    (bytes.take width).reverse.length = width
      ∨ (bytes.take width).reverse.length ≤ width ∧ bytes.drop width = [] := by
  rw [List.length_reverse, List.length_take]
  rcases Nat.le_total width bytes.length with hle | hle
  · exact .inl (Nat.min_eq_left hle)
  · exact .inr ⟨Nat.min_le_left .., List.drop_eq_nil_of_le hle⟩

theorem take_reverseWords (h : 0 < width) (bytes : Buffer) :
    (reverseWords width bytes).take width = (bytes.take width).reverse := by
  rw [reverseWords_eq h]
  rcases whole_or_last width bytes with hwhole | ⟨hlast, hnil⟩
  · exact List.take_left' hwhole
  · rw [hnil, reverseWords_nil, List.append_nil, List.take_of_length_le hlast]

theorem drop_reverseWords (h : 0 < width) (bytes : Buffer) :
    (reverseWords width bytes).drop width = reverseWords width (bytes.drop width) := by
  rw [reverseWords_eq h]
  rcases whole_or_last width bytes with hwhole | ⟨hlast, hnil⟩
  · exact List.drop_left' hwhole
  · rw [hnil, reverseWords_nil, List.append_nil, List.drop_eq_nil_of_le hlast]

/-- **Each word is turned around for itself.** -/
theorem word_reverseWords (h : 0 < width) (bytes : Buffer) (k : Nat) :
    Buffer.word (reverseWords width bytes) width k = (bytes.word width k).reverse := by
  induction k generalizing bytes with
  | zero => rw [Buffer.word_zero, Buffer.word_zero, take_reverseWords h]
  | succ k ih => rw [Buffer.word_succ, Buffer.word_succ, drop_reverseWords h, ih]

end ReverseWords

theorem length_reverseWords (width : Nat) (bytes : Buffer) :
    (reverseWords width bytes).length = bytes.length := by
  fun_induction reverseWords width bytes with
  | case1 => rfl
  | case2 bytes h ih =>
    rw [List.length_append, List.length_reverse, ih, ← List.length_append, List.take_append_drop]

/-- Whoever turns words around twice has them as they were. -/
theorem reverseWords_reverseWords (width : Nat) (bytes : Buffer) :
    reverseWords width (reverseWords width bytes) = bytes := by
  fun_induction reverseWords width bytes with
  | case1 bytes h => rw [reverseWords, if_pos h]
  | case2 bytes h ih =>
    have hwidth : 0 < width := Nat.pos_of_ne_zero (not_or.mp h).1
    rw [← reverseWords_eq hwidth, reverseWords_eq hwidth (reverseWords width bytes),
      take_reverseWords hwidth, drop_reverseWords hwidth, ih, List.reverse_reverse,
      List.take_append_drop]

/-! ## Either order -/

variable (bytes : Buffer) (width : Nat)

theorem toBigEndian_of_le_one (order : ByteOrder) {width : Nat} (h : width ≤ 1) :
    order.toBigEndian bytes width = bytes := by
  cases order with
  | big => rfl
  | little => rw [toBigEndian, if_pos h]

theorem toBigEndian_little {width : Nat} (h : 1 < width) :
    little.toBigEndian bytes width = reverseWords width bytes := by
  rw [toBigEndian, if_neg (Nat.not_le.mpr h)]

/-- A stream is left alone, or each of its words is turned around. -/
theorem toBigEndian_cases (order : ByteOrder) :
    (∀ bytes, order.toBigEndian bytes width = bytes)
      ∨ 1 < width ∧ ∀ bytes, order.toBigEndian bytes width = reverseWords width bytes := by
  rcases Nat.lt_or_ge 1 width with h | h
  · cases order with
    | big => exact .inl fun _ => rfl
    | little => exact .inr ⟨h, fun bytes => toBigEndian_little bytes h⟩
  · exact .inl fun bytes => toBigEndian_of_le_one bytes order h

theorem length_toBigEndian (order : ByteOrder) :
    (order.toBigEndian bytes width).length = bytes.length := by
  rcases toBigEndian_cases width order with h | ⟨-, h⟩
  · rw [h]
  · rw [h, length_reverseWords]

theorem toBigEndian_toBigEndian (order : ByteOrder) :
    order.toBigEndian (order.toBigEndian bytes width) width = bytes := by
  rcases toBigEndian_cases width order with h | ⟨-, h⟩
  · rw [h, h]
  · rw [h, h, reverseWords_reverseWords]

/-- No byte leaves its word. -/
theorem perm_word_toBigEndian (order : ByteOrder) (k : Nat) :
    (Buffer.word (order.toBigEndian bytes width) width k).Perm (bytes.word width k) := by
  rcases toBigEndian_cases width order with h | ⟨hwidth, h⟩
  · rw [h]
  · rw [h, word_reverseWords (Nat.lt_of_succ_lt hwidth)]
    exact List.reverse_perm _

/-- **What was fetched least significant byte first is turned around word by word.** A word of one
byte is the same either way. -/
theorem word_toBigEndian {width : Nat} (h : 0 < width) (k : Nat) :
    Buffer.word (little.toBigEndian bytes width) width k = (bytes.word width k).reverse := by
  rcases Nat.lt_or_ge 1 width with hone | hone
  · rw [toBigEndian_little bytes hone, word_reverseWords h]
  · obtain rfl : width = 1 := by omega
    rw [toBigEndian_of_le_one bytes little (Nat.le_refl 1), Buffer.word]
    cases bytes.drop (1 * k) <;> rfl

end ByteOrder

/-! ## Fields of a word -/

/-- The layout is that of an unsigned field of word `k`, `offset` bits behind where the word
begins. -/
structure Layout.InWord (l : Layout) (width k offset : Nat) : Prop where
  unsigned : l.signed = false
  readable : l.readable = true
  firstBit : l.firstBit.toNat = 8 * width * k + offset
  fits : offset + l.size.toNat ≤ 8 * width

/-- **A field of a word is read as the digits of the word's number,** if the window is wide
enough. -/
theorem ByteOrder.msbFirst_word {σ : Type} {bytes : Buffer} {width k offset : Nat} {l : Layout}
    {session : Session σ} (hword : width * (k + 1) ≤ bytes.length)
    (h : l.InWord width k offset) (hwindow : l.endBit ≤ session.window.available) :
    ∃ v, (Extractor.msbFirst (little.toBigEndian bytes width) l session).1 = .ok v
      ∧ v.toUInt64.toNat = littleEndian (bytes.word width k)
          / 2 ^ (8 * width - offset - l.size.toNat) % 2 ^ l.size.toNat := by
  have hsize := (Layout.readable_iff.mp h.readable).1
  have hfits := h.fits
  have hpos : 0 < width := by omega
  have hlength : width * (k + 1) ≤ (little.toBigEndian bytes width).length := by
    rwa [length_toBigEndian]
  have hend : l.endBit ≤ (little.toBigEndian bytes width).bits := by
    rw [Nat.mul_succ] at hlength
    rw [Layout.endBit, h.firstBit, Buffer.bits, Nat.mul_assoc]
    omega
  refine ⟨(little.toBigEndian bytes width).value l, ?_, ?_⟩
  · rw [Extractor.msbFirst_fst]
    exact Buffer.answer_eq_ok.mpr ⟨h.readable, hend, hwindow, rfl⟩
  · rw [(Buffer.holds_value h.readable).unsigned h.unsigned, h.firstBit,
      Buffer.number_eq_div hlength hfits, word_toBigEndian bytes hpos, bigEndian_reverse]

/--
**A stream that was fetched in words is put right.** Whatever the order and the width, it
is as long as it was, no byte leaves its word, and doing it twice undoes it. Nothing is
done to a stream of the order that is wanted, nor to words of one byte or none. In the
other order each word is turned around, one that is cut short at the end as well.

From a stream that was put right, a field of a whole word is read as it is written in the
number that the bytes of the word are, least significant first.
-/
theorem ByteOrder.toBigEndian_exact (bytes : Buffer) (width : Nat) :
    (∀ order : ByteOrder, (order.toBigEndian bytes width).length = bytes.length
      ∧ order.toBigEndian (order.toBigEndian bytes width) width = bytes
      ∧ (∀ k, (Buffer.word (order.toBigEndian bytes width) width k).Perm (bytes.word width k))
      ∧ (order = .big ∨ width ≤ 1 → order.toBigEndian bytes width = bytes))
    ∧ (1 < width → ∀ k,
        Buffer.word (little.toBigEndian bytes width) width k = (bytes.word width k).reverse)
    ∧ ∀ {σ : Type} (k offset : Nat) (l : Layout) (session : Session σ),
        width * (k + 1) ≤ bytes.length → l.InWord width k offset →
        l.endBit ≤ session.window.available →
        ∃ v, (Extractor.msbFirst (little.toBigEndian bytes width) l session).1 = .ok v
          ∧ v.toUInt64.toNat = littleEndian (bytes.word width k)
              / 2 ^ (8 * width - offset - l.size.toNat) % 2 ^ l.size.toNat := by
  refine ⟨fun order => ⟨length_toBigEndian bytes width order,
    toBigEndian_toBigEndian bytes width order, perm_word_toBigEndian bytes width order, ?_⟩, ?_, ?_⟩
  · rintro (rfl | h)
    · rfl
    · exact toBigEndian_of_le_one bytes order h
  · exact fun h => word_toBigEndian bytes (Nat.lt_of_succ_lt h)
  · exact fun k offset l session hword hl hwindow => msbFirst_word hword hl hwindow

/-- Two words of three bytes and the beginning of a third. -/
def threeByteWords : Buffer := [0x01, 0x02, 0x83, 0x14, 0x25, 0x36, 0x77, 0x88]

/-- The nine digits in the middle of the second word, which is the number `0x362514`. -/
theorem ByteOrder.toBigEndian_exact_three :
    little.toBigEndian threeByteWords 3 = [0x83, 0x02, 0x01, 0x36, 0x25, 0x14, 0x88, 0x77]
      ∧ threeByteWords.word 3 2 = [0x77, 0x88]
      ∧ Buffer.word (little.toBigEndian threeByteWords 3) 3 2 = [0x88, 0x77]
      ∧ ∃ v, (Extractor.msbFirst (little.toBigEndian threeByteWords 3) ⟨30, 9, false⟩
          (⟨.ofBits 64, ()⟩ : Session Unit)).1 = .ok v
        ∧ v.toUInt64.toNat = 0x362514 / 2 ^ 9 % 2 ^ 9 := by
  obtain ⟨-, hwords, hread⟩ := toBigEndian_exact threeByteWords 3
  have hfield : (⟨30, 9, false⟩ : Layout).InWord 3 1 6 :=
    ⟨rfl, by decide, by decide, by decide⟩
  obtain ⟨v, hv, hdigits⟩ := hread 1 6 ⟨30, 9, false⟩ (⟨.ofBits 64, ()⟩ : Session Unit)
    (by decide) hfield (by decide)
  exact ⟨by cbv, by decide, hwords (by decide) 2, v, hv, hdigits⟩

end InstructionSet
