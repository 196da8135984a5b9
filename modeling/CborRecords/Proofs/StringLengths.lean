import CborRecords.Proofs.Primitives

/-!
# Announced lengths of strings

Before a caller has a string encoded, it can ask for the number of bytes that this takes. The numbers that
calls return have an end, and it lies at another place for lengths than for numbers that may be negative.
Up to the first end the answer is what the encoded string needs and what its encoding returns.

* `Boundary.stringLength` : the number of bytes that a string takes;
* `Boundary.Announces` : how the answer stands to what the encoding does;
* `Boundary.announces_of_delivers` : so it does wherever an item of this length is delivered;
* `Boundary.strings_fit_as_announced` : for bytes and for text;
* `Boundary.announced_length_misleads` : where the answer is not what the encoding needs or returns.
-/

namespace CborRecords

/-- The number of bytes of the head in front of a string that a caller can hand over. -/
theorem Head.length_encode (m : Major) {n : Nat} (h : n < 0x100000000) :
    (Head.encode m (UInt64.ofNat n)).length =
      if n < 24 then 1 else if n < 0x100 then 2 else if n < 0x10000 then 3 else 5 := by
  have hafter (w : Width) (hleast : w.least ≤ n) (hlt : n < Nat.pow 256 w.bytes) :
      (Head.encode m (UInt64.ofNat n)).length = w.bytes + 1 := by
    rw [Head.encode_after w hleast hlt, List.length_cons, Bytes.length_ofNat]
  by_cases h0 : n < 24
  · rw [Head.encode_inside h0, if_pos h0]
    rfl
  by_cases h1 : n < 0x100
  · rw [if_neg h0, if_pos h1, hafter .w8 (Nat.not_lt.1 h0) h1]
    rfl
  by_cases h2 : n < 0x10000
  · rw [if_neg h0, if_neg h1, if_pos h2, hafter .w16 (Nat.not_lt.1 h1) h2]
    rfl
  · rw [if_neg h0, if_neg h1, if_neg h2, hafter .w32 (Nat.not_lt.1 h2) h]
    rfl

namespace Boundary

/-- The number of bytes of an encoded string of `n` bytes: its head and its content. -/
def stringLength (n : Nat) : Nat :=
  (if n < 24 then 1 else if n < 0x100 then 2 else if n < 0x10000 then 3 else 5) + n

/-- How the answer to a question for a length stands to the call that encodes an item of this length. The
answer is the length, up to the greatest that can be returned. If it can be, the call succeeds with a region
exactly when that is no shorter than the answer; if not, no region is long enough. The call returns the
answer, up to the greatest number that it can return, when it has written all of the item. -/
structure Announces (length : Nat) (dst : Region) (question : Reply Unit) (reply : Reply (Option Bytes)) :
    Prop where
  answer : question.code = (min length maxLength : Nat)
  succeeds_iff (hlength : length ≤ maxLength) (hdst : dst.Valid) :
    0 ≤ reply.code ↔ question.code ≤ dst.length
  refused (h : maxLength < length ∨ ¬ dst.Valid ∨ dst.length < length) : Failed dst.memory reply
  written (h : 0 ≤ reply.code) : reply.code = min question.code maxCode ∧
    ∃ item : Bytes, item.length = length ∧ length ≤ dst.length ∧ Wrote dst item reply

theorem announces_of_delivers {dst : Region} {item : Bytes} {question : Reply Unit}
    {reply : Reply (Option Bytes)} (hdelivers : Delivers dst item reply)
    (hdst : dst.length ≤ maxLength) (hanswer : question.code = (min item.length maxLength : Nat)) :
    Announces item.length dst question reply := by
  have hwrote : dst.Valid ∧ item.length ≤ dst.length ↔ 0 ≤ reply.code := by
    constructor
    · exact fun h => (hdelivers.wrote h.1 h.2).code_nonneg
    · intro hcode
      by_contra h
      have hfailed := (hdelivers.failed h).1
      omega
  refine ⟨hanswer, ?_, ?_, ?_⟩
  · intro hlength hvalid
    rw [← hwrote, hanswer, Nat.min_eq_left hlength, and_iff_right hvalid, Int.ofNat_le]
  · intro h
    apply hdelivers.failed
    rintro ⟨hvalid, hroom⟩
    rcases h with h | h | h
    · omega
    · exact h hvalid
    · omega
  · intro h
    obtain ⟨hvalid, hroom⟩ := hwrote.2 h
    have hwritten := hdelivers.wrote hvalid hroom
    refine ⟨?_, item, rfl, hroom, hwritten⟩
    rw [hwritten.1, hanswer]
    omega

theorem valueLength_eq {v : Value} (h : v.Encodable) :
    (valueLength v).code = (min v.encoding.length maxLength : Nat) := by
  show ((min (v.emit (.counter 0)).2.position maxLength : Nat) : Int) = _
  rw [Value.emit_counter h]
  rfl

section Strings
variable {src dst : Region} (hsrc : src.Valid) (hlen : src.length ≤ maxLength) (hdst : dst.Usable)
  (hroom : dst.length ≤ maxLength)

include hsrc hlen hdst hroom

theorem announces_encodeBytes :
    Announces (stringLength src.length) dst (bytesLength src) (encodeBytes dst src) := by
  have hbytes := hsrc.length_bytes
  have hshort : src.length < 0x100000000 := Nat.lt_succ_of_le hlen
  have hv : (Value.bytes src.bytes).Encodable := .bytes (by omega)
  have hitem : (Value.bytes src.bytes).encoding.length = stringLength src.length := by
    show (Head.encode .bytes (UInt64.ofNat src.bytes.length) ++ src.bytes).length = _
    rw [List.length_append, hbytes, Head.length_encode _ hshort, stringLength]
  have hdelivers := (Primitive.crossesAs_bytes ⟨hsrc, hlen⟩).delivers dst hdst
  rw [← hitem]
  refine announces_of_delivers hdelivers hroom ?_
  rw [bytesLength, bytesValue_of_valid hsrc]
  exact valueLength_eq hv

theorem announces_encodeText {content : String} (htext : src.bytes = Utf8.encode content) :
    Announces (stringLength src.length) dst (textLength src) (encodeText dst src) := by
  have hsize : Utf8.size content = src.length := by
    rw [← hsrc.length_bytes, htext]
    rfl
  have hshort : src.length < 0x100000000 := Nat.lt_succ_of_le hlen
  have hv : (Value.text content).Encodable := .text (by omega)
  have hitem : (Value.text content).encoding.length = stringLength src.length := by
    show (Head.encode .text (UInt64.ofNat (Utf8.size content)) ++ Utf8.encode content).length = _
    rw [List.length_append, hsize, Head.length_encode _ hshort, stringLength, ← hsize]
    rfl
  have hdelivers := (Primitive.crossesAs_text ⟨hsrc, hlen⟩ htext).delivers dst hdst
  rw [← hitem]
  refine announces_of_delivers hdelivers hroom ?_
  rw [textLength, textValue_of_valid hsrc htext]
  exact valueLength_eq hv

end Strings

/-- The length that is announced for the bytes or the text of a region is that of the encoded string up to
the greatest length that can be returned. A region for it is long enough exactly when it is no shorter, and
none is if the length cannot be returned; a region without an address that is not empty is refused. The call
that encodes the string writes as many bytes as were announced, and returns their number up to the greatest
one that it can return. -/
theorem strings_fit_as_announced {src dst : Region} (hsrc : src.Valid) (hlen : src.length ≤ maxLength)
    (hdst : dst.Usable) (hroom : dst.length ≤ maxLength) :
    Announces (stringLength src.length) dst (bytesLength src) (encodeBytes dst src) ∧
    ((∃ content, src.bytes = Utf8.encode content) →
      Announces (stringLength src.length) dst (textLength src) (encodeText dst src)) := by
  refine ⟨announces_encodeBytes hsrc hlen hdst hroom, ?_⟩
  rintro ⟨content, htext⟩
  exact announces_encodeText hsrc hlen hdst hroom htext

/-- A text of two characters in a region that is longer than it, for which four bytes are announced and
three are given. -/
theorem text_fits_as_announced :
    let src : Region := ⟨some [0x6E, 0xC3, 0xA9, 0x21], 3⟩
    let dst : Region := ⟨some [1, 2, 3, 4, 5], 3⟩
    src.Valid ∧ dst.Usable ∧ (textLength src).code = 4 ∧ (encodeText dst src).code = -1 ∧
      (encodeText dst src).output = dst.memory := by
  intro src dst
  have hsrc : src.Valid := by
    show 3 ≤ 4
    decide
  have hdst : dst.Valid := by
    show 3 ≤ 5
    decide
  have hannounces := (strings_fit_as_announced hsrc (by decide) (.inr hdst) (by decide)).2 ⟨"né", by decide⟩
  have hfailed := hannounces.refused (.inr (.inr (by decide)))
  exact ⟨hsrc, .inr hdst, hannounces.answer, hfailed.1, hfailed.2⟩

/-- A region of zeros. -/
def Region.zeros (length : Nat) : Region :=
  ⟨some (List.replicate length 0), length⟩

theorem Region.valid_zeros (length : Nat) : (zeros length).Valid :=
  Nat.le_of_eq (List.length_replicate ..).symm

/-- A region that is as long as announced is not always enough: it may have no address, or the string may
need more than the greatest length that can be announced. And a length that was announced is not returned if
it is greater than the numbers that the encoding call can return. -/
theorem announced_length_misleads :
    ((bytesLength ⟨some [0], 1⟩).code = 2 ∧ (encodeBytes ⟨none, 16⟩ ⟨some [0], 1⟩).code = -1) ∧
    ((bytesLength (.zeros 0xFFFFFFFF)).code = 0xFFFFFFFF ∧
      (encodeBytes (.zeros 0xFFFFFFFF) (.zeros 0xFFFFFFFF)).code = -1) ∧
    (bytesLength (.zeros 0x7FFFFFFB)).code = 0x80000000 ∧
      (encodeBytes (.zeros 0x80000000) (.zeros 0x7FFFFFFB)).code = 0x7FFFFFFF := by
  refine ⟨by decide +kernel, ?_, ?_⟩
  · have hsrc := Region.valid_zeros 0xFFFFFFFF
    have hannounces := announces_encodeBytes hsrc (Nat.le_refl _) (.inr hsrc) (Nat.le_refl _)
    exact ⟨hannounces.answer, (hannounces.refused (.inl (by decide))).1⟩
  · have hsrc := Region.valid_zeros 0x7FFFFFFB
    have hdst := Region.valid_zeros 0x80000000
    have hannounces := announces_encodeBytes hsrc (by decide) (.inr hdst) (by decide)
    have hanswer : (bytesLength (.zeros 0x7FFFFFFB)).code = 0x80000000 := hannounces.answer
    have hsucceeds : 0 ≤ (encodeBytes (.zeros 0x80000000) (.zeros 0x7FFFFFFB)).code := by
      rw [hannounces.succeeds_iff (by decide) hdst, hanswer]
      decide
    refine ⟨hanswer, ?_⟩
    rw [(hannounces.written hsucceeds).1, hanswer]
    rfl

end Boundary

end CborRecords
