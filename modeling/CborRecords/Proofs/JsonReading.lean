import CborRecords.JsonText.Value
import CborRecords.Proofs.Hex
import CborRecords.Proofs.Utf8

/-!
# Strings and numbers of JSON text

What is written as a JSON string or number is read back. For strings more is true: each of their characters may
stand as it is or be spelled by an escape, and whatever the spelling, the text is read.

* `Utf8.toNat_of_mem_encodeChar` : the bytes of a character of several bytes are none of ASCII;
* `Spelling`, `Spelled`, `Quotation` : the spellings of characters and texts;
* `Scan.textFrom_spelling` : the reader passes over the spelling of a character, `Scan.text_spelled` : it reads
  the text;
* `quotation_quote` : a text is written in one of its spellings;
* `gather_toString`, `Scan.number_toString` : a whole number of 64 bits is read from its digits.
-/

namespace CborRecords

namespace Utf8

/-- The bytes of a character are its code point, or all outside of ASCII. -/
theorem toNat_of_mem_encodeChar {c : Char} {b : UInt8} (h : b ∈ String.utf8EncodeChar c) :
    c.toNat < 0x80 ∧ b.toNat = c.toNat ∨ 0x80 ≤ c.toNat ∧ 0x80 ≤ b.toNat := by
  have hc : c.toNat = c.val.toNat := rfl
  have hhigh {n low high : Nat} (hlow : 0x80 ≤ low) (hsum : high + low ≤ 256) (hpos : 0 < high)
      (hb : b = UInt8.ofNat (n % high + low)) : 0x80 ≤ b.toNat := by
    have hlt := Nat.mod_lt n hpos
    rw [hb, UInt8.toNat_ofNat_of_lt' (show _ < 256 by omega)]
    omega
  rw [hc]
  unfold String.utf8EncodeChar at h
  generalize c.val.toNat = n at h
  simp only [] at h
  split at h
  · rw [List.mem_singleton.1 h, UInt8.toNat_ofNat_of_lt' (show _ < 256 by omega)]
    exact .inl ⟨by omega, rfl⟩
  · refine .inr ⟨by omega, ?_⟩
    split at h
    · simp only [List.mem_cons, List.not_mem_nil, or_false] at h
      rcases h with h | h <;> exact hhigh (by decide) (by decide) (by decide) h
    · split at h
      · simp only [List.mem_cons, List.not_mem_nil, or_false] at h
        rcases h with h | h | h <;> exact hhigh (by decide) (by decide) (by decide) h
      · simp only [List.mem_cons, List.not_mem_nil, or_false] at h
        rcases h with h | h | h | h <;> exact hhigh (by decide) (by decide) (by decide) h

theorem encodeChar_of_lt {c : Char} (h : c.toNat < 0x80) :
    String.utf8EncodeChar c = [UInt8.ofNat c.toNat] := by
  have hn : (UInt8.ofNat c.toNat).toNat = c.toNat := UInt8.toNat_ofNat_of_lt' (show _ < 256 by omega)
  have hone := encodeChar_one (a := UInt8.ofNat c.toNat) (by
    rw [UInt8.lt_iff_toNat_lt, hn]
    exact h)
  rwa [hn, Char.ofNat_toNat] at hone

end Utf8

namespace JsonText

/-! ## Places -/

/-- The bytes in front of the first that is not of a kind. -/
theorem takeWhile_append_of_head {kind : UInt8 → Bool} {front rest : Bytes} (hfront : ∀ b ∈ front, kind b = true)
    (hrest : ∀ b ∈ rest.head?, kind b = false) : (front ++ rest).takeWhile kind = front := by
  have hnone : rest.takeWhile kind = [] := by
    cases rest with
    | nil => rfl
    | cons b rest => rw [List.takeWhile_cons_of_neg (by simp [hrest b rfl])]
  rw [List.takeWhile_append_of_pos hfront, hnone, List.append_nil]

namespace Scan
variable {front rest : Bytes}

theorem pass_append (front rest : Bytes) (n : Nat) :
    (⟨front ++ rest, n⟩ : Scan).pass front.length = ⟨rest, n + front.length⟩ := by
  simp [pass]

theorem pass_one (b : UInt8) (rest : Bytes) (n : Nat) : (⟨b :: rest, n⟩ : Scan).pass 1 = ⟨rest, n + 1⟩ :=
  pass_append [b] rest n

theorem blank_append (hblank : ∀ b ∈ front, isBlank b = true) (hrest : ∀ b ∈ rest.head?, isBlank b = false)
    (n : Nat) : (⟨front ++ rest, n⟩ : Scan).blank = ⟨rest, n + front.length⟩ := by
  rw [blank, takeWhile_append_of_head hblank hrest, pass_append]

end Scan

/-! ## Strings -/

/-- The letter of each short escape and the byte it stands for. -/
def shortEscapes : List (UInt8 × UInt8) :=
  [(0x22, 0x22), (0x5C, 0x5C), (0x2F, 0x2F), (0x62, 0x08), (0x66, 0x0C), (0x6E, 0x0A), (0x72, 0x0D), (0x74, 0x09)]

/-- Four hexadecimal digits and their number. -/
def Numeral (digits : Bytes) (code : Nat) : Prop :=
  ∃ values, digits.length = 4 ∧ digits.mapM Hex.value? = some values ∧
    values.foldl (fun n d => n * 16 + d) 0 = code

/-- How a character may stand in a string: as it is, by a short escape, by its code point, or past the first
`0x10000` by two surrogates. -/
inductive Spelling (c : Char) : Bytes → Prop
  | plain (hcontrol : 0x20 ≤ c.toNat) (hquote : c ≠ '"') (hslash : c ≠ '\\') : Spelling c (String.utf8EncodeChar c)
  | short {letter value : UInt8} (h : (letter, value) ∈ shortEscapes) (hc : String.utf8EncodeChar c = [value]) :
      Spelling c [0x5C, letter]
  | numbered {digits : Bytes} (h : Numeral digits c.toNat) : Spelling c (0x5C :: 0x75 :: digits)
  | pair {high low : Bytes} {n m : Nat} (hhigh : Numeral high (0xD800 + n)) (hlow : Numeral low (0xDC00 + m))
      (hm : m < 0x400) (hc : c.toNat = 0x10000 + n * 0x400 + m) :
      Spelling c (0x5C :: 0x75 :: (high ++ 0x5C :: 0x75 :: low))

/-- How characters may stand in a string. -/
inductive Spelled : List Char → Bytes → Prop
  | nil : Spelled [] []
  | cons {c : Char} {cs : List Char} {front bytes : Bytes} (h : Spelling c front) (hcs : Spelled cs bytes) :
      Spelled (c :: cs) (front ++ bytes)

/-- A string of a text, with its quotes. -/
def Quotation (text : String) (bytes : Bytes) : Prop :=
  ∃ inner, Spelled text.toList inner ∧ bytes = 0x22 :: (inner ++ [0x22])

namespace Scan
variable {c : Char} {cs : List Char} {front back bytes rest digits : Bytes} {code limit n : Nat}

theorem hexEscape_append (h : Numeral digits code) (rest : Bytes) (n : Nat) :
    hexEscape ⟨digits ++ rest, n⟩ = .ok (code, ⟨rest, n + 4⟩) := by
  obtain ⟨values, hlength, hvalues, hcode⟩ := h
  have hpass := pass_append digits rest n
  rw [hlength] at hpass
  have hsplit : Bytes.split? 4 (digits ++ rest) = some (digits, rest) := by
    simp [Bytes.split?, hlength]
  simp only [hexEscape, hsplit, hvalues, hcode, hpass]

theorem shortEscape?_of_mem {letter value : UInt8} (h : (letter, value) ∈ shortEscapes) :
    letter ≠ 0x75 ∧ shortEscape? letter = some value := by
  have hall : shortEscapes.all (fun p => p.1 ≠ 0x75 ∧ shortEscape? p.1 = some p.2) = true := by decide
  simpa using List.all_eq_true.1 hall _ h

theorem numberedCharacter_append (h : Numeral digits c.toNat) (rest : Bytes) (n : Nat) :
    numberedCharacter ⟨digits ++ rest, n⟩ = .ok (String.utf8EncodeChar c, ⟨rest, n + 4⟩) := by
  have hvalid : c.toNat < 0xD800 ∨ 0xDFFF < c.toNat ∧ c.toNat < 0x110000 := c.valid
  rw [numberedCharacter, hexEscape_append h]
  simp only [bind, Except.bind]
  rw [if_neg (by omega), if_pos (by omega), character, Char.ofNat_toNat]

theorem expectInPair_cons (b : UInt8) (rest : Bytes) (n : Nat) :
    expectInPair b ⟨b :: rest, n⟩ = .ok ⟨rest, n + 1⟩ := by
  simp only [expectInPair, peek?, List.head?_cons, pass_one, if_pos]

theorem numberedCharacter_pair {high low : Bytes} {k m : Nat} (hhigh : Numeral high (0xD800 + k))
    (hlow : Numeral low (0xDC00 + m)) (hm : m < 0x400) (hc : c.toNat = 0x10000 + k * 0x400 + m) (rest : Bytes)
    (n : Nat) :
    numberedCharacter ⟨high ++ 0x5C :: 0x75 :: (low ++ rest), n⟩ =
      .ok (String.utf8EncodeChar c, ⟨rest, n + 10⟩) := by
  have hvalid : c.toNat < 0xD800 ∨ 0xDFFF < c.toNat ∧ c.toNat < 0x110000 := c.valid
  rw [numberedCharacter, hexEscape_append hhigh]
  simp only [bind, Except.bind]
  rw [if_neg (by omega), if_neg (by omega), expectInPair_cons]
  simp only [expectInPair_cons, hexEscape_append hlow]
  have hcode : (0xD800 + k - 0xD800) * 0x400 + (0xDC00 + m - 0xDC00) + 0x10000 = c.toNat := by omega
  rw [if_neg (by omega), hcode, character, Char.ofNat_toNat]

/-- A byte that stands in a string for itself. -/
def IsPlain (b : UInt8) : Prop :=
  b ≠ 0x22 ∧ b ≠ 0x5C ∧ ¬ b < 0x20

theorem isPlain_of_mem {b : UInt8} (hcontrol : 0x20 ≤ c.toNat) (hquote : c ≠ '"') (hslash : c ≠ '\\')
    (h : b ∈ String.utf8EncodeChar c) : IsPlain b := by
  have hne {d : Char} (hd : c ≠ d) : c.toNat ≠ d.toNat := fun h => hd (Char.toNat_inj.1 h)
  have hquote : c.toNat ≠ 0x22 := hne hquote
  have hslash : c.toNat ≠ 0x5C := hne hslash
  have hb := Utf8.toNat_of_mem_encodeChar h
  simp only [IsPlain, ne_eq, UInt8.lt_iff_toNat_lt, ← UInt8.toNat_inj, UInt8.reduceToNat]
  omega

theorem textFrom_plain (h : ∀ b ∈ front, IsPlain b) (hlimit : (front ++ rest).length < limit) :
    ∃ limit', rest.length < limit' ∧ textFrom limit back ⟨front ++ rest, n⟩ =
      textFrom limit' (front.reverse ++ back) ⟨rest, n + front.length⟩ := by
  induction front generalizing limit back n with
  | nil => exact ⟨limit, hlimit, rfl⟩
  | cons b front ih =>
    obtain ⟨limit, rfl⟩ := Nat.exists_eq_add_of_lt (Nat.zero_lt_of_lt hlimit)
    obtain ⟨hquote, hslash, hcontrol⟩ := h b List.mem_cons_self
    simp only [List.cons_append, List.length_cons] at hlimit
    have hfront : ∀ b' ∈ front, IsPlain b' := fun b' hb' => h b' (List.mem_cons_of_mem b hb')
    have hless : (front ++ rest).length < limit := by omega
    obtain ⟨limit', hrest, hrun⟩ := ih hfront hless
    refine ⟨limit', hrest, ?_⟩
    rw [Nat.zero_add, textFrom]
    simp only [List.cons_append, peek?, List.head?_cons, if_neg hquote, if_neg hslash, if_neg hcontrol, pass_one]
    rw [hrun, List.reverse_cons, List.append_assoc, List.length_cons]
    simp only [List.cons_append, List.nil_append, Nat.add_assoc, Nat.add_comm 1]

theorem textFrom_escape {value : Bytes}
    (h : ∃ n', Scan.escape numberedCharacter ⟨bytes ++ rest, n + 1⟩ = .ok (value, ⟨rest, n'⟩))
    (hlimit : (0x5C :: bytes ++ rest).length < limit) :
    ∃ limit' n', rest.length < limit' ∧ textFrom limit back ⟨0x5C :: bytes ++ rest, n⟩ =
      textFrom limit' (value.reverse ++ back) ⟨rest, n'⟩ := by
  obtain ⟨n', hread⟩ := h
  obtain ⟨limit, rfl⟩ := Nat.exists_eq_add_of_lt (Nat.zero_lt_of_lt hlimit)
  simp only [List.cons_append, List.length_cons, List.length_append] at hlimit
  refine ⟨limit, n', by omega, ?_⟩
  rw [Nat.zero_add, textFrom]
  simp only [List.cons_append, peek?, List.head?_cons, pass_one, hread, bind, Except.bind]
  rfl

/-- The reader of a string passes over the spelling of a character. -/
theorem textFrom_spelling (h : Spelling c front) (hlimit : (front ++ rest).length < limit) :
    ∃ limit' n', rest.length < limit' ∧ textFrom limit back ⟨front ++ rest, n⟩ =
      textFrom limit' ((String.utf8EncodeChar c).reverse ++ back) ⟨rest, n'⟩ := by
  cases h with
  | plain hcontrol hquote hslash =>
    obtain ⟨limit', hrest, hrun⟩ := textFrom_plain (fun b => isPlain_of_mem hcontrol hquote hslash) hlimit
    exact ⟨limit', _, hrest, hrun⟩
  | @short letter value h hc =>
    obtain ⟨hletter, hvalue⟩ := shortEscape?_of_mem h
    rw [hc]
    refine textFrom_escape ⟨n + 1 + 1, ?_⟩ hlimit
    simp only [Scan.escape, List.cons_append, peek?, List.head?_cons, if_neg hletter, hvalue, pass_one]
    rfl
  | numbered h =>
    refine textFrom_escape ⟨n + 1 + 1 + 4, ?_⟩ hlimit
    simp only [Scan.escape, List.cons_append, peek?, List.head?_cons, pass_one]
    exact numberedCharacter_append h rest _
  | pair hhigh hlow hm hc =>
    refine textFrom_escape ⟨n + 1 + 1 + 10, ?_⟩ hlimit
    simp only [Scan.escape, List.cons_append, List.append_assoc, peek?, List.head?_cons, pass_one]
    exact numberedCharacter_pair hhigh hlow hm hc rest _

theorem textFrom_spelled (h : Spelled cs bytes) (hlimit : (bytes ++ rest).length < limit) :
    ∃ limit' n', rest.length < limit' ∧ textFrom limit back ⟨bytes ++ rest, n⟩ =
      textFrom limit' ((cs.flatMap String.utf8EncodeChar).reverse ++ back) ⟨rest, n'⟩ := by
  induction h generalizing limit back n with
  | nil => exact ⟨limit, n, hlimit, rfl⟩
  | @cons c cs front bytes hc hcs ih =>
    rw [List.append_assoc] at hlimit ⊢
    obtain ⟨limit₁, n₁, hlimit₁, hrun₁⟩ := textFrom_spelling hc hlimit
    obtain ⟨limit₂, n₂, hlimit₂, hrun₂⟩ := ih hlimit₁
    refine ⟨limit₂, n₂, hlimit₂, ?_⟩
    rw [hrun₁, hrun₂, List.flatMap_cons, List.reverse_append, List.append_assoc]

/-- A string is read as the text that it spells. -/
theorem text_spelled {text : String} (h : Spelled text.toList bytes) (rest : Bytes) (n : Nat) :
    ∃ n', Scan.text ⟨bytes ++ 0x22 :: rest, n⟩ = .ok (text, ⟨rest, n'⟩) := by
  obtain ⟨limit, n', hlimit, hrun⟩ := textFrom_spelled h (Nat.lt_succ_self (bytes ++ 0x22 :: rest).length)
  obtain ⟨limit, rfl⟩ := Nat.exists_eq_add_of_lt (Nat.zero_lt_of_lt hlimit)
  refine ⟨n' + 1, ?_⟩
  rw [Scan.text, hrun, Nat.zero_add, textFrom]
  simp only [peek?, List.head?_cons, if_pos, pass_one, List.append_nil, List.reverse_reverse, bind, Except.bind]
  rw [← Utf8.encode, Utf8.decode_encode]

end Scan

/-! ## Strings as they are written -/

theorem numeral_of_lt {code : Nat} (h : code < 0x100) :
    Numeral (['0', '0', Hex.digit (code / 16), Hex.digit (code % 16)].flatMap String.utf8EncodeChar) code := by
  obtain ⟨high, hhigh, hhigh'⟩ := Hex.encodeChar_digit (d := code / 16) (by omega)
  obtain ⟨low, hlow, hlow'⟩ := Hex.encodeChar_digit (d := code % 16) (by omega)
  obtain ⟨zero, hzero, hzero'⟩ := Hex.encodeChar_digit (d := 0) (by decide)
  have hbytes : ['0', '0', Hex.digit (code / 16), Hex.digit (code % 16)].flatMap String.utf8EncodeChar =
      [zero, zero, high, low] := by
    have hdigit : '0' = Hex.digit 0 := rfl
    simp only [hdigit, List.flatMap_cons, List.flatMap_nil, hzero, hhigh, hlow]
    rfl
  refine ⟨[0, 0, code / 16, code % 16], by rw [hbytes]; rfl, ?_, ?_⟩
  · rw [hbytes]
    simp [hzero', hhigh', hlow']
  · simp only [List.foldl_cons, List.foldl_nil]
    omega

theorem spelling_escape (c : Char) : Spelling c ((escape c).flatMap String.utf8EncodeChar) := by
  have hcode {n : Nat} (h : c.toNat = n) (hn : n < 0x80) : String.utf8EncodeChar c = [UInt8.ofNat n] :=
    h ▸ Utf8.encodeChar_of_lt (h ▸ hn)
  unfold escape
  split
  case isTrue h => exact .short (show (0x22, 0x22) ∈ shortEscapes by decide) (hcode (by rw [h]; rfl) (by decide))
  split
  case isTrue h => exact .short (show (0x5C, 0x5C) ∈ shortEscapes by decide) (hcode (by rw [h]; rfl) (by decide))
  split
  case isTrue h => exact .short (show (0x6E, 0x0A) ∈ shortEscapes by decide) (hcode (by rw [h]; rfl) (by decide))
  split
  case isTrue h => exact .short (show (0x72, 0x0D) ∈ shortEscapes by decide) (hcode (by rw [h]; rfl) (by decide))
  split
  case isTrue h => exact .short (show (0x74, 0x09) ∈ shortEscapes by decide) (hcode (by rw [h]; rfl) (by decide))
  split
  case isTrue h => exact .short (show (0x62, 0x08) ∈ shortEscapes by decide) (hcode h (by decide))
  split
  case isTrue h => exact .short (show (0x66, 0x0C) ∈ shortEscapes by decide) (hcode h (by decide))
  split
  case isTrue h => exact .numbered (numeral_of_lt (by omega))
  case isFalse hquote hslash _ _ _ _ _ hcontrol =>
    rw [List.flatMap_singleton]
    exact .plain (Nat.not_lt.1 hcontrol) hquote hslash

theorem spelled_flatMap (cs : List Char) : Spelled cs ((cs.flatMap escape).flatMap String.utf8EncodeChar) := by
  induction cs with
  | nil => exact .nil
  | cons c cs ih =>
    rw [List.flatMap_cons, List.flatMap_append]
    exact .cons (spelling_escape c) ih

theorem quotation_quote (text : String) : Quotation text (Utf8.encode (quote text)) := by
  refine ⟨_, spelled_flatMap text.toList, ?_⟩
  rw [quote, Utf8.encode, String.toList_ofList, List.cons_append, List.flatMap_cons, List.flatMap_append]
  rfl

/-! ## Numbers -/

theorem encode_toString_of_lt {n : Nat} (h : n < 10) : Utf8.encode (toString n) = [UInt8.ofNat (48 + n)] := by
  have hall : ∀ n < 10, String.utf8EncodeChar (Nat.digitChar n) = [UInt8.ofNat (48 + n)] := by decide +kernel
  have hdigits : (toString n).toList = Nat.toDigits 10 n := Nat.toList_repr
  rw [Utf8.encode, hdigits, Nat.toDigits_of_lt_base h, List.flatMap_singleton, hall n h]

theorem encode_toString_of_le {n : Nat} (h : 10 ≤ n) :
    Utf8.encode (toString n) = Utf8.encode (toString (n / 10)) ++ [UInt8.ofNat (48 + n % 10)] := by
  have hdigits (n : Nat) : (toString n).toList = Nat.toDigits 10 n := Nat.toList_repr
  have hsplit := Nat.toDigits_append_toDigits (b := 10) (n := n / 10) (d := n % 10) (by decide) (by omega) (by omega)
  rw [Nat.div_add_mod] at hsplit
  rw [← encode_toString_of_lt (Nat.mod_lt n (by decide)), Utf8.encode, Utf8.encode, Utf8.encode, hdigits, hdigits,
    hdigits, ← hsplit, List.flatMap_append]

theorem isDigit_digit {d : Nat} (h : d < 10) : Scan.isDigit (UInt8.ofNat (48 + d)) = true := by
  have hall : ∀ d < 10, Scan.isDigit (UInt8.ofNat (48 + d)) = true := by decide
  exact hall d h

theorem Scan.isBlank_of_isDigit {b : UInt8} (h : Scan.isDigit b = true) : Scan.isBlank b = false ∧ b ≠ 0x2D := by
  simp only [isDigit, isBlank, Bool.and_eq_true, Bool.or_eq_false_iff, decide_eq_true_eq, decide_eq_false_iff_not,
    UInt8.le_iff_toNat_le, ne_eq, ← UInt8.toNat_inj, UInt8.reduceToNat] at h ⊢
  omega

theorem isDigit_of_mem {n : Nat} {b : UInt8} (h : b ∈ Utf8.encode (toString n)) : Scan.isDigit b = true := by
  induction n using Nat.strongRecOn with
  | _ n ih =>
    by_cases hn : n < 10
    · rw [encode_toString_of_lt hn, List.mem_singleton] at h
      exact h ▸ isDigit_digit hn
    · rw [encode_toString_of_le (by omega), List.mem_append, List.mem_singleton] at h
      rcases h with h | rfl
      · exact ih (n / 10) (by omega) h
      · exact isDigit_digit (by omega)

/-- A number other than zero is written without a zero in front. -/
theorem exists_cons_toString (n : Nat) :
    ∃ b more, Utf8.encode (toString n) = b :: more ∧ (0 < n → b ≠ 0x30) := by
  induction n using Nat.strongRecOn with
  | _ n ih =>
    by_cases hn : n < 10
    · have hall : ∀ d < 10, 0 < d → UInt8.ofNat (48 + d) ≠ 0x30 := by decide
      exact ⟨_, [], encode_toString_of_lt hn, hall n hn⟩
    · obtain ⟨b, more, hdigits, hb⟩ := ih (n / 10) (by omega)
      refine ⟨b, more ++ [UInt8.ofNat (48 + n % 10)], ?_, fun _ => hb (by omega)⟩
      rw [encode_toString_of_le (by omega), hdigits, List.cons_append]

/-- Digits that all fit are followed by the others. -/
theorem gather_append {significand total : Nat} {front : Bytes} (h : gather significand front = (total, front.length))
    (rest : Bytes) :
    gather significand (front ++ rest) = ((gather total rest).1, front.length + (gather total rest).2) := by
  induction front generalizing significand with
  | nil =>
    cases h
    simp
  | cons d front ih =>
    rw [gather] at h
    split at h
    case isTrue hnext =>
      simp only [Prod.mk.injEq, List.length_cons, Nat.add_right_cancel_iff] at h
      rw [List.cons_append, gather, if_pos hnext, ih (Prod.ext h.1 h.2)]
      simp only [List.length_cons, Nat.add_right_comm]
    case isFalse =>
      simp only [Prod.mk.injEq, List.length_cons] at h
      omega

theorem gather_toString {n : Nat} (h : n < 0x10000000000000000) :
    gather 0 (Utf8.encode (toString n)) = (n, (Utf8.encode (toString n)).length) := by
  have hlast {d total : Nat} (hd : d < 10) (hfits : total * 10 + d < 0x10000000000000000) :
      gather total [UInt8.ofNat (48 + d)] = (total * 10 + d, 1) := by
    have hvalue : (UInt8.ofNat (48 + d)).toNat - 48 = d := by
      rw [UInt8.toNat_ofNat_of_lt' (show _ < 256 by omega)]
      omega
    rw [gather, hvalue, if_pos hfits]
    rfl
  induction n using Nat.strongRecOn with
  | _ n ih =>
    by_cases hn : n < 10
    · rw [encode_toString_of_lt hn, hlast hn (by omega)]
      simp
    · have hfront := ih (n / 10) (by omega) (by omega)
      have hvalue : n / 10 * 10 + n % 10 = n := by omega
      rw [encode_toString_of_le (by omega), gather_append hfront, hlast (by omega) (by omega), hvalue]
      simp

/-- No number goes on with this byte. -/
def Stops (b : UInt8) : Prop :=
  Scan.isDigit b = false ∧ b ∉ [0x2E, 0x65, 0x45]

instance (b : UInt8) : Decidable (Stops b) :=
  inferInstanceAs (Decidable (_ ∧ _))

namespace Scan

theorem afterWhole_of_stops {rest : Bytes} (h : ∀ b ∈ rest.head?, Stops b) (value n : Nat) :
    afterWhole true value 0 ⟨rest, n⟩ = .ok (.int value, ⟨rest, n⟩) := by
  have hne {b : UInt8} (hb : b ∈ [0x2E, 0x65, 0x45]) : rest.head? ≠ some b := fun hhead => (h b hhead).2 hb
  have hpoint := hne (b := 0x2E) (by decide)
  have hmark : isExponentMark rest.head? = false := by
    simp [isExponentMark, hne (b := 0x65) (by decide), hne (b := 0x45) (by decide)]
  simp only [afterWhole, peek?, if_neg hpoint, hmark]
  rfl

theorem digits_append {front rest : Bytes} (hfront : ∀ b ∈ front, isDigit b = true)
    (h : ∀ b ∈ rest.head?, Stops b) (n : Nat) : digits ⟨front ++ rest, n⟩ = front :=
  takeWhile_append_of_head hfront fun b hb => (h b hb).1

/-- A whole number of 64 bits is read as it was written. -/
theorem number_toString {value : Nat} (hvalue : value < 0x10000000000000000) {rest : Bytes}
    (h : ∀ b ∈ rest.head?, Stops b) (n : Nat) :
    ∃ n', number true ⟨Utf8.encode (toString value) ++ rest, n⟩ = .ok (.int value, ⟨rest, n'⟩) := by
  by_cases hzero : value = 0
  · subst hzero
    have hnone : digits ⟨rest, n + 1⟩ = [] := digits_append (List.forall_mem_nil _) h (n + 1)
    refine ⟨n + 1, ?_⟩
    rw [encode_toString_of_lt (by decide), number]
    simp only [List.cons_append, List.nil_append, peek?, List.head?_cons, pass_one, hnone]
    exact afterWhole_of_stops h 0 (n + 1)
  · obtain ⟨b, more, hcons, hb⟩ := exists_cons_toString value
    have hb := hb (Nat.pos_of_ne_zero hzero)
    have hfirst : isDigit b = true := isDigit_of_mem (hcons ▸ List.mem_cons_self)
    have hdigits := digits_append (fun b => isDigit_of_mem (n := value)) h n
    have hgather := gather_toString hvalue
    refine ⟨n + (Utf8.encode (toString value)).length, ?_⟩
    have hhead : peek? ⟨Utf8.encode (toString value) ++ rest, n⟩ = some b := by rw [hcons]; rfl
    rw [number, hhead]
    simp only [if_neg hb, hfirst, hdigits, hgather, pass_append, Nat.sub_self]
    exact afterWhole_of_stops h value _

end Scan

end JsonText

end CborRecords
