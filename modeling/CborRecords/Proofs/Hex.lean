import CborRecords.Hex

/-!
# Hexadecimal text reads back

Two digits stand for each byte, so that a text of digits is read back as the bytes that it was written for. It
holds nothing but digits, and so no blank and no apostrophe.

* `Hex.encodeChar_digit` : a digit is one byte of the text, and has its value;
* `Hex.readsBack_codec`, `Hex.unspaced_codec`, `Hex.unquoted_codec` : what holds of the text of a byte string.
-/

namespace CborRecords

namespace Hex

theorem encodeChar_digit {d : Nat} (h : d < 16) :
    ∃ b, String.utf8EncodeChar (digit d) = [b] ∧ value? b = some d := by
  have hall : ∀ d < 16, String.utf8EncodeChar (digit d) = [UInt8.ofNat (digit d).toNat] ∧
      value? (UInt8.ofNat (digit d).toNat) = some d := by
    decide +kernel
  exact ⟨_, hall d h⟩

/-! ## Reading back -/

theorem exists_digits (b : UInt8) :
    ∃ high low, (ofByte b).flatMap String.utf8EncodeChar = [high, low] ∧
      value? high = some (b.toNat / 16) ∧ value? low = some (b.toNat % 16) := by
  have hb := b.toNat_lt
  obtain ⟨high, hhigh, hhigh'⟩ := encodeChar_digit (d := b.toNat / 16) (by omega)
  obtain ⟨low, hlow, hlow'⟩ := encodeChar_digit (d := b.toNat % 16) (by omega)
  refine ⟨high, low, ?_, hhigh', hlow'⟩
  simp [ofByte, hhigh, hlow]

theorem decodePairs_digits (bytes : Bytes) (index : Nat) :
    decodePairs index ((bytes.flatMap ofByte).flatMap String.utf8EncodeChar) = .ok bytes := by
  induction bytes generalizing index with
  | nil => rfl
  | cons b bytes ih =>
    obtain ⟨high, low, hdigits, hhigh, hlow⟩ := exists_digits b
    have hvalue : b.toNat / 16 * 16 + b.toNat % 16 = b.toNat := by omega
    rw [List.flatMap_cons, List.flatMap_append, hdigits, List.cons_append, List.cons_append, List.nil_append,
      decodePairs, digitAt, digitAt, hhigh, hlow, ih]
    simp only [bind, Except.bind, pure, Except.pure, hvalue, UInt8.ofNat_toNat]

theorem length_digits (bytes : Bytes) :
    ((bytes.flatMap ofByte).flatMap String.utf8EncodeChar).length = 2 * bytes.length := by
  induction bytes with
  | nil => rfl
  | cons b bytes ih =>
    obtain ⟨high, low, hdigits, -⟩ := exists_digits b
    rw [List.flatMap_cons, List.flatMap_append, hdigits, List.length_append, ih, List.length_cons]
    simp
    omega

/-- Hexadecimal text is read back as the bytes it was written for. -/
theorem readsBack_codec : codec.ReadsBack := by
  intro bytes
  have hlength := length_digits bytes
  show decode (Utf8.encode (encode bytes)) = .ok bytes
  unfold decode encode Utf8.encode
  rw [String.toList_ofList, if_neg (by omega), decodePairs_digits]

/-! ## The characters -/

/-- A text of digits holds nothing else. -/
theorem exists_digit_of_mem {bytes : Bytes} {c : Char} (h : c ∈ (codec.encode bytes).toList) :
    ∃ d < 16, c = digit d := by
  have h : c ∈ (encode bytes).toList := h
  rw [encode, String.toList_ofList, List.mem_flatMap] at h
  obtain ⟨b, -, hc⟩ := h
  have hb := b.toNat_lt
  simp only [ofByte, List.mem_cons, List.not_mem_nil, or_false] at hc
  rcases hc with rfl | rfl
  · exact ⟨_, by omega, rfl⟩
  · exact ⟨_, by omega, rfl⟩

theorem unspaced_codec : codec.Unspaced := by
  intro bytes c hc
  have hall : ∀ d < 16, isBlank (digit d) = false := by decide
  obtain ⟨d, hd, rfl⟩ := exists_digit_of_mem hc
  exact hall d hd

theorem unquoted_codec : codec.Unquoted := by
  intro bytes hc
  have hall : ∀ d < 16, digit d ≠ Quoted.apostrophe := by decide
  obtain ⟨d, hd, happ⟩ := exists_digit_of_mem hc
  exact hall d hd happ.symm

end Hex

end CborRecords
