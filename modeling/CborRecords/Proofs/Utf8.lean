import CborRecords.Utf8

/-!
# Text and its bytes

Reading UTF-8 accepts exactly the bytes of texts. Both halves follow the reader from character to
character.

* `Lead.shape`, `Lead.exists_of_mem` : what the first bytes of longer characters ask for;
* `decodeFrom_encodeChar` : the reader passes over the bytes of a character;
* `encode_of_decodeFrom` : what the reader passes over are the bytes of a character;
* `decode_encode`, `encode_of_decode`, `decode_eq_ok_iff` : reading and writing are inverse.
-/

namespace CborRecords.Utf8

/-! ## First bytes -/

/-- A first byte asks for one, two or three more. The range of the second is cut after the least and
the greatest first byte, and before the surrogates. -/
theorem Lead.shape {a : UInt8} {lead : Lead} (h : Lead.ofByte? a = some lead) :
    (lead.tail = 1 ∧ 0xC2 ≤ a.toNat ∧ a.toNat ≤ 0xDF ∧ lead.bits = a.toNat - 0xC0 ∧
      lead.low.toNat = 0x80 ∧ lead.high.toNat = 0xBF) ∨
    (lead.tail = 2 ∧ 0xE0 ≤ a.toNat ∧ a.toNat ≤ 0xEF ∧ lead.bits = a.toNat - 0xE0 ∧
      (a.toNat = 0xE0 ∧ lead.low.toNat = 0xA0 ∨ a.toNat ≠ 0xE0 ∧ lead.low.toNat = 0x80) ∧
      (a.toNat = 0xED ∧ lead.high.toNat = 0x9F ∨ a.toNat ≠ 0xED ∧ lead.high.toNat = 0xBF)) ∨
    (lead.tail = 3 ∧ 0xF0 ≤ a.toNat ∧ a.toNat ≤ 0xF4 ∧ lead.bits = a.toNat - 0xF0 ∧
      (a.toNat = 0xF0 ∧ lead.low.toNat = 0x90 ∨ a.toNat ≠ 0xF0 ∧ lead.low.toNat = 0x80) ∧
      (a.toNat = 0xF4 ∧ lead.high.toNat = 0x8F ∨ a.toNat ≠ 0xF4 ∧ lead.high.toNat = 0xBF)) := by
  simp only [Lead.ofByte?, UInt8.le_iff_toNat_le, ← UInt8.toNat_inj, UInt8.reduceToNat] at h
  repeat' split at h
  all_goals cases h
  all_goals simp only [UInt8.reduceToNat, true_and, and_true]; omega

section Shapes
variable {a : UInt8} {lead : Lead}

theorem Lead.shape_two (h : Lead.ofByte? a = some lead) (ht : lead.tail = 1) :
    0xC2 ≤ a.toNat ∧ a.toNat ≤ 0xDF ∧ lead.bits = a.toNat - 0xC0 ∧
      lead.low.toNat = 0x80 ∧ lead.high.toNat = 0xBF := by
  rcases Lead.shape h with s | s | s
  · exact s.2
  · omega
  · omega

theorem Lead.shape_three (h : Lead.ofByte? a = some lead) (ht : lead.tail = 2) :
    0xE0 ≤ a.toNat ∧ a.toNat ≤ 0xEF ∧ lead.bits = a.toNat - 0xE0 ∧
      (a.toNat = 0xE0 ∧ lead.low.toNat = 0xA0 ∨ a.toNat ≠ 0xE0 ∧ lead.low.toNat = 0x80) ∧
      (a.toNat = 0xED ∧ lead.high.toNat = 0x9F ∨ a.toNat ≠ 0xED ∧ lead.high.toNat = 0xBF) := by
  rcases Lead.shape h with s | s | s
  · omega
  · exact s.2
  · omega

theorem Lead.shape_four (h : Lead.ofByte? a = some lead) (ht : lead.tail = 3) :
    0xF0 ≤ a.toNat ∧ a.toNat ≤ 0xF4 ∧ lead.bits = a.toNat - 0xF0 ∧
      (a.toNat = 0xF0 ∧ lead.low.toNat = 0x90 ∨ a.toNat ≠ 0xF0 ∧ lead.low.toNat = 0x80) ∧
      (a.toNat = 0xF4 ∧ lead.high.toNat = 0x8F ∨ a.toNat ≠ 0xF4 ∧ lead.high.toNat = 0xBF) := by
  rcases Lead.shape h with s | s | s
  · omega
  · omega
  · exact s.2

end Shapes

/-- Every byte from `0xC2` to `0xF4` is the first of a longer character. -/
theorem Lead.exists_of_mem {a : UInt8} (h : 0xC2 ≤ a.toNat) (h' : a.toNat ≤ 0xF4) :
    ∃ lead, Lead.ofByte? a = some lead := by
  rw [← Option.isSome_iff_exists]
  simp only [Lead.ofByte?, UInt8.le_iff_toNat_le, ← UInt8.toNat_inj, UInt8.reduceToNat]
  repeat' split
  all_goals first | rfl | omega

theorem Lead.admits_iff {lead : Lead} {b : UInt8} :
    lead.admits b = true ↔ lead.low.toNat ≤ b.toNat ∧ b.toNat ≤ lead.high.toNat := by
  simp [Lead.admits, UInt8.le_iff_toNat_le]

theorem isTail_iff {b : UInt8} : isTail b = true ↔ 0x80 ≤ b.toNat ∧ b.toNat ≤ 0xBF := by
  simp [isTail, UInt8.le_iff_toNat_le]

theorem Lead.not_lt {a : UInt8} {lead : Lead} (h : Lead.ofByte? a = some lead) : ¬ a < 0x80 := by
  have := Lead.shape h
  simp only [UInt8.lt_iff_toNat_lt, UInt8.reduceToNat]
  omega

theorem toNat_tail (n : Nat) : (UInt8.ofNat (n % 0x40 + 0x80)).toNat = n % 0x40 + 0x80 := by
  have hlt : n % 0x40 + 0x80 < 256 := by omega
  exact UInt8.toNat_ofNat_of_lt' hlt

theorem isTail_tail (n : Nat) : isTail (UInt8.ofNat (n % 0x40 + 0x80)) = true := by
  rw [isTail_iff, toNat_tail]
  omega

theorem extend_tail (code n : Nat) :
    extend code (UInt8.ofNat (n % 0x40 + 0x80)) = code * 64 + n % 0x40 := by
  unfold extend
  rw [toNat_tail]
  omega

/-! ## One character -/

section Reader
variable {valid : Nat} {back : List Char} {a b c d : UInt8} {lead : Lead} {rest : Bytes}

theorem decodeFrom_two (hl : Lead.ofByte? a = some lead) (ht : lead.tail = 1)
    (hb : lead.admits b = true) :
    decodeFrom valid back (a :: b :: rest) =
      decodeFrom (valid + 2) (Char.ofNat (extend lead.bits b) :: back) rest := by
  rw [decodeFrom]
  simp [Lead.not_lt hl, hl, hb, ht]

theorem decodeFrom_three (hl : Lead.ofByte? a = some lead) (ht : lead.tail = 2)
    (hb : lead.admits b = true) (hc : isTail c = true) :
    decodeFrom valid back (a :: b :: c :: rest) =
      decodeFrom (valid + 3) (Char.ofNat (extend (extend lead.bits b) c) :: back) rest := by
  rw [decodeFrom]
  simp [Lead.not_lt hl, hl, hb, ht, hc]

theorem decodeFrom_four (hl : Lead.ofByte? a = some lead) (ht : lead.tail = 3)
    (hb : lead.admits b = true) (hc : isTail c = true) (hd : isTail d = true) :
    decodeFrom valid back (a :: b :: c :: d :: rest) =
      decodeFrom (valid + 4) (Char.ofNat (extend (extend (extend lead.bits b) c) d) :: back) rest := by
  rw [decodeFrom]
  simp [Lead.not_lt hl, hl, hb, ht, hc, hd]

end Reader

/-- The reader passes over the bytes of a character. -/
theorem decodeFrom_encodeChar (c : Char) (valid : Nat) (back : List Char) (rest : Bytes) :
    decodeFrom valid back (String.utf8EncodeChar c ++ rest) =
      decodeFrom (valid + (String.utf8EncodeChar c).length) (c :: back) rest := by
  have hv : c.val.toNat < 0xD800 ∨ 0xDFFF < c.val.toNat ∧ c.val.toNat < 0x110000 := c.valid
  have hc : Char.ofNat c.val.toNat = c := Char.ofNat_toNat c
  unfold String.utf8EncodeChar
  generalize c.val.toNat = n at hv hc
  simp only []
  split
  · have ha : (UInt8.ofNat n).toNat = n :=
      UInt8.toNat_ofNat_of_lt' (show _ < 256 by omega)
    have hlt : UInt8.ofNat n < 0x80 := by
      simp only [UInt8.lt_iff_toNat_lt, UInt8.reduceToNat]
      omega
    simp only [List.cons_append, List.nil_append, List.length_singleton]
    rw [decodeFrom, if_pos hlt, ha, hc]
  split
  · have ha : (UInt8.ofNat (n / 64 % 0x20 + 0xC0)).toNat = n / 64 % 0x20 + 0xC0 :=
      UInt8.toNat_ofNat_of_lt' (show _ < 256 by omega)
    obtain ⟨lead, hl⟩ := Lead.exists_of_mem (by rw [ha]; omega) (by rw [ha]; omega)
    have ht : lead.tail = 1 := by
      have := Lead.shape hl
      omega
    have shape := Lead.shape_two hl ht
    rw [ha] at shape
    have hb : lead.admits (UInt8.ofNat (n % 0x40 + 0x80)) = true := by
      rw [Lead.admits_iff, toNat_tail]
      omega
    simp only [List.cons_append, List.nil_append]
    rw [decodeFrom_two hl ht hb, extend_tail, show lead.bits * 64 + n % 0x40 = n by omega, hc]
    rfl
  split
  · have ha : (UInt8.ofNat (n / 4096 % 0x10 + 0xE0)).toNat = n / 4096 % 0x10 + 0xE0 :=
      UInt8.toNat_ofNat_of_lt' (show _ < 256 by omega)
    obtain ⟨lead, hl⟩ := Lead.exists_of_mem (by rw [ha]; omega) (by rw [ha]; omega)
    have ht : lead.tail = 2 := by
      have := Lead.shape hl
      omega
    have shape := Lead.shape_three hl ht
    rw [ha] at shape
    have hb : lead.admits (UInt8.ofNat (n / 64 % 0x40 + 0x80)) = true := by
      rw [Lead.admits_iff, toNat_tail]
      omega
    simp only [List.cons_append, List.nil_append]
    rw [decodeFrom_three hl ht hb (isTail_tail n), extend_tail, extend_tail,
      show (lead.bits * 64 + n / 64 % 0x40) * 64 + n % 0x40 = n by omega, hc]
    rfl
  · have ha : (UInt8.ofNat (n / 262144 % 0x08 + 0xF0)).toNat = n / 262144 % 0x08 + 0xF0 :=
      UInt8.toNat_ofNat_of_lt' (show _ < 256 by omega)
    obtain ⟨lead, hl⟩ := Lead.exists_of_mem (by rw [ha]; omega) (by rw [ha]; omega)
    have ht : lead.tail = 3 := by
      have := Lead.shape hl
      omega
    have shape := Lead.shape_four hl ht
    rw [ha] at shape
    have hb : lead.admits (UInt8.ofNat (n / 4096 % 0x40 + 0x80)) = true := by
      rw [Lead.admits_iff, toNat_tail]
      omega
    simp only [List.cons_append, List.nil_append]
    rw [decodeFrom_four hl ht hb (isTail_tail (n / 64)) (isTail_tail n), extend_tail, extend_tail,
      extend_tail,
      show ((lead.bits * 64 + n / 4096 % 0x40) * 64 + n / 64 % 0x40) * 64 + n % 0x40 = n by omega, hc]
    rfl

theorem toNat_val_ofNat {n : Nat} (h : n < 0xD800 ∨ 0xDFFF < n ∧ n < 0x110000) :
    (Char.ofNat n).val.toNat = n := by
  rw [Char.ofNat, dif_pos h]
  rfl

theorem encodeChar_one {a : UInt8} (h : a < 0x80) : String.utf8EncodeChar (Char.ofNat a.toNat) = [a] := by
  simp only [UInt8.lt_iff_toNat_lt, UInt8.reduceToNat] at h
  unfold String.utf8EncodeChar
  rw [toNat_val_ofNat (by omega)]
  simp only [if_pos (show a.toNat ≤ 0x7f by omega), UInt8.ofNat_toNat]

section Reader
variable {a b c d : UInt8} {lead : Lead}

theorem encodeChar_two (hl : Lead.ofByte? a = some lead) (ht : lead.tail = 1)
    (hb : lead.admits b = true) :
    String.utf8EncodeChar (Char.ofNat (extend lead.bits b)) = [a, b] := by
  have shape := Lead.shape_two hl ht
  rw [Lead.admits_iff] at hb
  have code : extend lead.bits b = (a.toNat - 0xC0) * 64 + (b.toNat - 0x80) := by
    unfold extend
    omega
  generalize extend lead.bits b = n at code
  unfold String.utf8EncodeChar
  rw [toNat_val_ofNat (by omega)]
  simp only []
  rw [if_neg (by omega), if_pos (by omega), show n / 64 % 32 + 192 = a.toNat by omega,
    show n % 64 + 128 = b.toNat by omega, UInt8.ofNat_toNat, UInt8.ofNat_toNat]

theorem encodeChar_three (hl : Lead.ofByte? a = some lead) (ht : lead.tail = 2)
    (hb : lead.admits b = true) (hc : isTail c = true) :
    String.utf8EncodeChar (Char.ofNat (extend (extend lead.bits b) c)) = [a, b, c] := by
  have shape := Lead.shape_three hl ht
  rw [Lead.admits_iff] at hb
  rw [isTail_iff] at hc
  have code : extend (extend lead.bits b) c =
      ((a.toNat - 0xE0) * 64 + (b.toNat - 0x80)) * 64 + (c.toNat - 0x80) := by
    unfold extend
    omega
  generalize extend (extend lead.bits b) c = n at code
  unfold String.utf8EncodeChar
  rw [toNat_val_ofNat (by omega)]
  simp only []
  rw [if_neg (by omega), if_neg (by omega), if_pos (by omega),
    show n / 4096 % 16 + 224 = a.toNat by omega, show n / 64 % 64 + 128 = b.toNat by omega,
    show n % 64 + 128 = c.toNat by omega, UInt8.ofNat_toNat, UInt8.ofNat_toNat, UInt8.ofNat_toNat]

theorem encodeChar_four (hl : Lead.ofByte? a = some lead) (ht : lead.tail = 3)
    (hb : lead.admits b = true) (hc : isTail c = true) (hd : isTail d = true) :
    String.utf8EncodeChar (Char.ofNat (extend (extend (extend lead.bits b) c) d)) = [a, b, c, d] := by
  have shape := Lead.shape_four hl ht
  rw [Lead.admits_iff] at hb
  rw [isTail_iff] at hc hd
  have code : extend (extend (extend lead.bits b) c) d =
      (((a.toNat - 0xF0) * 64 + (b.toNat - 0x80)) * 64 + (c.toNat - 0x80)) * 64 +
        (d.toNat - 0x80) := by
    unfold extend
    omega
  generalize extend (extend (extend lead.bits b) c) d = n at code
  unfold String.utf8EncodeChar
  rw [toNat_val_ofNat (by omega)]
  simp only []
  rw [if_neg (by omega), if_neg (by omega), if_neg (by omega),
    show n / 262144 % 8 + 240 = a.toNat by omega, show n / 4096 % 64 + 128 = b.toNat by omega,
    show n / 64 % 64 + 128 = c.toNat by omega, show n % 64 + 128 = d.toNat by omega,
    UInt8.ofNat_toNat, UInt8.ofNat_toNat, UInt8.ofNat_toNat, UInt8.ofNat_toNat]

end Reader

/-! ## Texts -/

/-- What the reader adds to the characters it started with are those whose bytes it was given. -/
theorem encode_of_decodeFrom {valid : Nat} {back chars : List Char} {bytes : Bytes}
    (h : decodeFrom valid back bytes = .ok chars) :
    ∃ more, chars = back.reverse ++ more ∧ bytes = more.flatMap String.utf8EncodeChar := by
  fun_induction decodeFrom valid back bytes with
  | case1 =>
    cases h
    exact ⟨[], by simp, rfl⟩
  | case2 valid back a rest ha ih =>
    obtain ⟨more, rfl, rfl⟩ := ih h
    refine ⟨Char.ofNat a.toNat :: more, by simp, ?_⟩
    rw [List.flatMap_cons, encodeChar_one ha]
    rfl
  | case6 valid back a _ lead hl b rest hb ht ih =>
    obtain ⟨more, rfl, rfl⟩ := ih h
    refine ⟨Char.ofNat (extend lead.bits b) :: more, by simp, ?_⟩
    rw [List.flatMap_cons, encodeChar_two hl ht (by simpa using hb)]
    rfl
  | case9 valid back a _ lead hl b hb _ c rest hc ht ih =>
    obtain ⟨more, rfl, rfl⟩ := ih h
    refine ⟨Char.ofNat (extend (extend lead.bits b) c) :: more, by simp, ?_⟩
    rw [List.flatMap_cons, encodeChar_three hl ht (by simpa using hb) (by simpa using hc)]
    rfl
  | case12 valid back a _ lead hl b hb ht c hc ht' d rest hd ih =>
    obtain ⟨more, rfl, rfl⟩ := ih h
    have tail : lead.tail = 3 := by
      have := Lead.shape hl
      omega
    refine ⟨Char.ofNat (extend (extend (extend lead.bits b) c) d) :: more, by simp, ?_⟩
    rw [List.flatMap_cons, encodeChar_four hl tail (by simpa using hb) (by simpa using hc) (by simpa using hd)]
    rfl
  | _ => cases h

theorem decodeFrom_flatMap (chars : List Char) (valid : Nat) (back : List Char) :
    decodeFrom valid back (chars.flatMap String.utf8EncodeChar) = .ok (back.reverse ++ chars) := by
  induction chars generalizing valid back with
  | nil => simp [decodeFrom]
  | cons c chars ih =>
    rw [List.flatMap_cons, decodeFrom_encodeChar, ih]
    simp

/-- The bytes of a text are read as the text. -/
theorem decode_encode (text : String) : decode (encode text) = .ok text := by
  rw [decode, encode, decodeFrom_flatMap]
  simp

/-- Bytes that are read as a text are its bytes. -/
theorem encode_of_decode {bytes : Bytes} {text : String} (h : decode bytes = .ok text) :
    encode text = bytes := by
  unfold decode at h
  split at h
  · rename_i chars hc
    cases h
    obtain ⟨more, rfl, rfl⟩ := encode_of_decodeFrom hc
    simp [encode]
  · cases h

/-- Reading accepts exactly the bytes of texts. -/
theorem decode_eq_ok_iff {bytes : Bytes} {text : String} :
    decode bytes = .ok text ↔ bytes = encode text :=
  ⟨fun h => (encode_of_decode h).symm, fun h => h ▸ decode_encode text⟩

theorem encode_append (a b : String) : encode (a ++ b) = encode a ++ encode b := by
  rw [encode, String.toList_append, List.flatMap_append]
  rfl

end CborRecords.Utf8
