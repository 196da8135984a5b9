import CborRecords.Proofs.BoundedText
import CborRecords.Proofs.ErrorRange

/-!
# Messages of failed decodings

What is said of a record that was not decoded is a short text in characters of one byte, as long as the
names in its schema are. So it is kept whole in a diagnostic, and a buffer that is shorter holds as many
bytes of it as there is room for.

* `Utf8.Short` : a text of a limited number of characters, each of one byte, with a lemma for each way that
  messages are put together;
* `Utf8.Short.encode_clip` : such a text is cut at any byte;
* `Diagnostic.copyTo_of_short` : the diagnostic has all of a short message;
* `Schema.Plain` : a schema with short names; `Schema.Fails.short_message` : its messages are short;
* `Person.short_message` : so are those for persons.
-/

namespace CborRecords

/-! ## Short texts -/

namespace Utf8

/-- A text of at most so many characters, each of one byte. -/
def Short (most : Nat) (text : String) : Prop :=
  text.toList.length ≤ most ∧ ∀ c ∈ text.toList, c.utf8Size = 1

-- The instances are named so that the characters of the text are checked, not all characters there are.
instance (most : Nat) (text : String) : Decidable (Short most text) :=
  @instDecidableAnd _ _ (Nat.decLe _ _) (List.decidableBAll _ _)

section Chars
variable {cs : List Char} (h : ∀ c ∈ cs, c.utf8Size = 1)

include h

theorem length_of_single : (cs.flatMap String.utf8EncodeChar).length = cs.length := by
  induction cs with
  | nil => rfl
  | cons c cs ih =>
    rw [List.flatMap_cons, List.length_append, String.length_utf8EncodeChar, h c (by simp),
      ih fun d hd => h d (by simp [hd]), List.length_cons, Nat.add_comm]

theorem take_of_single (n : Nat) :
    (cs.take n).flatMap String.utf8EncodeChar = (cs.flatMap String.utf8EncodeChar).take n := by
  induction cs generalizing n with
  | nil => simp
  | cons c cs ih =>
    cases n with
    | zero => rfl
    | succ n =>
      have hc : (String.utf8EncodeChar c).length = 1 := by
        rw [String.length_utf8EncodeChar, h c (by simp)]
      obtain ⟨b, hb⟩ := List.length_eq_one_iff.1 hc
      rw [List.take_succ_cons, List.flatMap_cons, List.flatMap_cons, hb, List.singleton_append,
        List.singleton_append, List.take_succ_cons, ih fun d hd => h d (by simp [hd])]

end Chars

/-- A text of single bytes is cut behind any of them. -/
theorem clip_of_single {text : String} (h : ∀ c ∈ text.toList, c.utf8Size = 1) (room : Nat) :
    clip room text = String.ofList (text.toList.take room) := by
  have hsize {start : String} (hstart : start.toList <+: text.toList) : size start = start.toList.length :=
    length_of_single fun c hc => h c (hstart.subset hc)
  have hstart : (String.ofList (text.toList.take room)).toList <+: text.toList := by
    rw [String.toList_ofList]
    exact List.take_prefix _ _
  symm
  refine longestStart_iff.1 ⟨hstart, ?_, ?_⟩
  · rw [hsize hstart, String.toList_ofList]
    exact List.length_take_le _ _
  · intro other hother hroom
    rw [hsize hother] at hroom
    rw [String.toList_ofList, List.prefix_take_iff]
    exact ⟨hother, hroom⟩

namespace Short
variable {most more : Nat} {text other : String}

theorem size_eq (h : Short most text) : size text = text.toList.length :=
  length_of_single h.2

theorem encode_clip (h : Short most text) (room : Nat) : encode (clip room text) = (encode text).take room := by
  rw [clip_of_single h.2, encode, String.toList_ofList, take_of_single h.2]
  rfl

theorem mono (h : Short most text) (hle : most ≤ more) : Short more text :=
  ⟨Nat.le_trans h.1 hle, h.2⟩

theorem append (h : Short most text) (h' : Short more other) : Short (most + more) (text ++ other) := by
  rw [Short, String.toList_append, List.length_append]
  refine ⟨Nat.add_le_add h.1 h'.1, fun c hc => ?_⟩
  rcases List.mem_append.1 hc with hc | hc
  · exact h.2 c hc
  · exact h'.2 c hc

end Short

theorem short_nil : Short 0 (String.join []) := by
  decide

theorem short_cons {most more : Nat} {piece : String} {pieces : List String} (h : Short most piece)
    (h' : Short more (String.join pieces)) : Short (most + more) (String.join (piece :: pieces)) := by
  rw [String.join_cons]
  exact h.append h'

theorem short_toString {n digits : Nat} (hpos : 0 < digits) (h : n < Nat.pow 10 digits) :
    Short digits (toString n) := by
  have hlist : (toString n).toList = Nat.toDigits 10 n := Nat.toList_repr
  rw [Short, hlist]
  refine ⟨(Nat.length_toDigits_le_iff (by decide) hpos).2 h, fun c hc => ?_⟩
  have hdigit := Nat.isDigit_of_mem_toDigits (by decide) (by decide) hc
  simp only [Char.isDigit, Bool.and_eq_true, decide_eq_true_eq] at hdigit
  exact Char.utf8Size_eq_one_iff.2 (UInt32.le_trans hdigit.2 (by decide))

theorem short_toString_word {n : Nat} (h : n < 0x10000000000000000) : Short 20 (toString n) :=
  short_toString (by decide) (Nat.lt_trans h (by decide))

theorem short_toString_int {n : Int} (hmin : -0x10000000000000000 ≤ n) (hmax : n < 0x10000000000000000) :
    Short 21 (toString n) := by
  cases n with
  | ofNat n => exact (short_toString_word (Int.ofNat_lt.1 hmax)).mono (by decide)
  | negSucc n =>
    have hsigned : toString (Int.negSucc n) = "-" ++ toString (n + 1) := rfl
    have hsign : Short 1 "-" := by decide
    have hlt : n + 1 < Nat.pow 10 20 := Nat.lt_of_le_of_lt (show n + 1 ≤ 0x10000000000000000 by omega) (by decide)
    rw [hsigned]
    exact hsign.append (short_toString (by decide) hlt)

end Utf8

open Utf8 (Short short_nil short_cons)

/-! ## Diagnostics -/

namespace Diagnostic

theorem fill_of_short {room : Nat} {pieces : List String} (h : Short room (String.join pieces)) :
    fill room pieces = String.join pieces :=
  fill_of_size_le (h.size_eq ▸ h.1)

/-- As much of a short message is copied as there is room for. -/
theorem copyTo_of_short {e : RecordError} (h : Short capacity e.message) (out : Bytes) :
    (ofError e).copyTo out =
      (min out.length (Utf8.size e.message),
        (Utf8.encode e.message).take out.length ++ out.drop (min out.length (Utf8.size e.message))) := by
  have htext : (ofError e).text = e.message := fill_of_short h
  unfold copyTo
  rw [htext, h.encode_clip]
  dsimp only
  rw [List.length_take]
  rfl

end Diagnostic

/-! ## Wordings -/

theorem Container.short_typeName (kind : Container) (definite : Bool) : Short 29 (kind.typeName definite) := by
  cases kind <;> cases definite <;> decide +kernel

theorem Tree.short_typeName (t : Tree) : Short 29 t.typeName := by
  fun_induction Tree.typeName t with
  | case7 kind definite items => exact kind.short_typeName definite
  | case14 n inner ih => exact ih
  | _ => decide +kernel

theorem FieldKind.short_typeName (kind : FieldKind) : Short 27 kind.typeName := by
  have hmem : kind.typeName ∈ ["Unsigned Integer", "Integer", "Boolean", "Definite-length Byte String",
      "Definite-length Text String"] := by
    cases kind <;> simp [typeName]
  have hall : ∀ name ∈ ["Unsigned Integer", "Integer", "Boolean", "Definite-length Byte String",
      "Definite-length Text String"], Short 27 name := by decide +kernel
  exact hall _ hmem

namespace Mismatch

/-- Two numbers after a few words each. -/
theorem short_numbers {first second : String} {m n : Nat} (hfirst : Short 21 first)
    (hsecond : Short 17 second) (hm : m < 0x10000000000000000) (hn : n < 0x10000000000000000) :
    Short 87 (String.join [first, toString m, second, toString n]) :=
  (short_cons hfirst (short_cons (Utf8.short_toString_word hm)
    (short_cons hsecond (short_cons (Utf8.short_toString_word hn) short_nil)))).mono (by decide)

theorem short_type {expected found : String} (hexpected : Short 27 expected) (hfound : Short 29 found) :
    Short 87 (String.join (type expected found).pieces) := by
  have hfirst : Short 9 "expected " := by decide +kernel
  have hsecond : Short 8 ", found " := by decide +kernel
  exact (short_cons hfirst (short_cons hexpected
    (short_cons hsecond (short_cons hfound short_nil)))).mono (by decide)

theorem short_intRange {min max found : Int} (hmin : Short 21 (toString min)) (hmax : Short 21 (toString max))
    (hfound : Short 21 (toString found)) : Short 87 (String.join (intRange min max found).pieces) := by
  have hfirst : Short 6 "value " := by decide +kernel
  have hsecond : Short 9 " outside " := by decide +kernel
  have hthird : Short 3 "..=" := by decide +kernel
  exact (short_cons hfirst (short_cons hfound (short_cons hsecond
    (short_cons hmin (short_cons hthird (short_cons hmax short_nil)))))).mono (by decide)

end Mismatch

namespace RecordError
variable {name : String} (hname : Short 20 name)

include hname

theorem short_mismatch {reason : Mismatch} (h : Short 87 (String.join reason.pieces)) :
    Short 128 (schemaMismatch name reason).message := by
  have hfirst : Short 19 "Schema mismatch in " := by decide +kernel
  have hsecond : Short 2 ": " := by decide +kernel
  exact short_cons hfirst (short_cons hname (short_cons hsecond h))

theorem short_ofDecode {e : DecodeError} (he : e.Structural) : Short 128 (ofDecode name e).message := by
  have hbyte (b : UInt8) {words : String} (hwords : Short 67 words) :
      Short 87 (String.join [words, toString b.toNat]) := by
    have hb := b.toNat_lt
    exact short_cons hwords (short_cons (Utf8.short_toString_word (by omega)) short_nil)
  cases e with
  | notEnoughData =>
    have hfirst : Short 30 "Input truncated while reading " := by decide +kernel
    exact (short_cons hfirst (short_cons hname short_nil)).mono (by decide)
  | invalidMinorValue info => exact short_mismatch hname (hbyte info (by decide +kernel))
  | invalidSimpleType value => exact short_mismatch hname (hbyte value (by decide +kernel))
  | justTags => exact short_mismatch hname (by decide +kernel)
  | invalidChunk => exact short_mismatch hname (by decide +kernel)
  | partialMap => exact short_mismatch hname (by decide +kernel)
  | maxRecursion => exact short_mismatch hname (by decide +kernel)
  | invalidUtf8 fault => exact short_mismatch hname (by decide +kernel)
  | incorrectType | integerOverflow | additionalItems => exact he.elim

end RecordError

/-! ## Schemas -/

/-- The numbers that a kind of field is described by have at most 64 bits. -/
def FieldKind.Plain : FieldKind → Prop
  | .bytes size => size < 0x10000000000000000
  | .text most => most < 0x10000000000000000
  | _ => True

/-- A schema with names of at most twenty characters, each of one byte. -/
structure Schema.Plain (s : Schema) : Prop where
  name : Short 20 s.name
  itemCount : s.itemCount < 0x10000000000000000
  fields : ∀ f ∈ s.fields, Short 20 f.name ∧ f.kind.Plain

theorem FieldKind.Refuses.short_pieces {kind : FieldKind} {t : Tree} {reason : Mismatch} (hk : kind.Plain)
    (ht : t.Sized) (h : kind.Refuses t reason) : Short 87 (String.join reason.pieces) := by
  have hint (width : Width) {n : Int} (hmin : -0x10000000000000000 ≤ n) (hmax : n < 0x10000000000000000) :
      Short 87 (String.join (Mismatch.intRange width.minSigned width.maxSigned n).pieces) := by
    have hrange := width.signed_range
    exact Mismatch.short_intRange (Utf8.short_toString_int (by omega) (by omega))
      (Utf8.short_toString_int (by omega) (by omega)) (Utf8.short_toString_int hmin hmax)
  cases h with
  | @range width n h =>
    have hmax : width.maxUnsigned < 0x10000000000000000 := by cases width <;> decide
    exact Mismatch.short_numbers (by decide +kernel) (by decide +kernel) n.toNat_lt hmax
  | @above width n h =>
    have hn := n.toNat_lt
    exact hint width (by omega) (by omega)
  | @below width n h =>
    have hn := n.toNat_lt
    exact hint width (by omega) (by omega)
  | width h => exact Mismatch.short_numbers (by decide +kernel) (by decide +kernel) hk ht
  | tooLong h => exact Mismatch.short_numbers (by decide +kernel) (by decide +kernel) hk ht
  | byteChunks | textChunks => decide +kernel
  | tagged => decide +kernel
  | type => exact Mismatch.short_type kind.short_typeName t.short_typeName

theorem Schema.RefusesFront.short_pieces {s : Schema} {data : Bytes} {reason : Mismatch} (hs : s.Plain)
    (h : s.RefusesFront data reason) : Short 87 (String.join reason.pieces) := by
  cases h with
  | tagged | indefinite => decide +kernel
  | fieldCount hw =>
    exact Mismatch.short_numbers (by decide +kernel) (by decide +kernel) hs.itemCount hw.argument_lt
  | map | indefiniteMap => exact Mismatch.short_type (by decide +kernel) (Container.short_typeName _ _)
  | scalar => exact Mismatch.short_type (by decide +kernel) (Tree.short_typeName _)

theorem Field.Fails.short_message {f : Field} {e : RecordError} (hname : Short 20 f.name)
    (hk : f.kind.Plain) (h : f.Fails e) : Short 128 e.message := by
  cases h with
  | decode he => exact RecordError.short_ofDecode hname he
  | refused ht hr => exact RecordError.short_mismatch hname (hr.short_pieces hk ht)

/-- All that can be reported of a record is short, as its schema is. -/
theorem Schema.Fails.short_message {s : Schema} {length : Nat} {e : RecordError} (hs : s.Plain)
    (hlength : length < 0x10000000000000000) (h : s.Fails length e) : Short 128 e.message := by
  cases h with
  | header he => exact RecordError.short_ofDecode (by decide) he
  | array hr => exact RecordError.short_mismatch hs.name (hr.short_pieces hs)
  | keyItem hf =>
    have hkind : (FieldKind.uint .w64).Plain := trivial
    exact hf.short_message (by decide) hkind
  | key found =>
    have hid : s.key.id.toNat < 0x10000000000000000 := Nat.lt_trans s.key.id.toNat_lt (by decide)
    exact RecordError.short_mismatch (by decide)
      (Mismatch.short_numbers (by decide +kernel) (by decide +kernel) hid found.toNat_lt)
  | field hmem hf =>
    obtain ⟨hname, hk⟩ := hs.fields _ hmem
    exact hf.short_message hname hk
  | trailingData hcount =>
    have hsecond : Short 36 " bytes of trailing data after record" := by decide +kernel
    exact (short_cons (Utf8.short_toString_word (Nat.lt_of_le_of_lt hcount hlength))
      (short_cons hsecond short_nil)).mono (by decide)

theorem Person.plain_schema : schema.Plain := by
  refine ⟨by decide, by decide, ?_⟩
  rintro f (_ | ⟨_, _ | ⟨_, ⟨⟩⟩⟩)
  · have hsize : nameLength < 0x10000000000000000 := by decide
    exact ⟨by decide, hsize⟩
  · exact ⟨by decide, trivial⟩

/-- Every message of a person that was not decoded fits into a diagnostic. -/
theorem Person.short_message {data : Bytes} (hdata : data.length < 0x10000000000000000) {e : RecordError}
    (h : Record.decode Person data = .error e) : Short Diagnostic.capacity e.message :=
  (Record.reports_decode data e h).short_message plain_schema hdata

end CborRecords
