import CborRecords.Person
import CborRecords.Proofs.Encoding
import Mathlib.Data.List.Forall2

/-!
# Records read back

A record whose fields hold what their kinds ask for reads back from its encoding with the same fields,
whatever follows it.

* `FieldKind.Conforms` : the values that a kind of field asks for; `FieldKind.accept_content` : they are
  admitted as they are encoded;
* `Record.Filled` : a record in which fields have been set in order; `Record.Lawful` : records in which
  values that conform can be set and are then found, with rows and persons as instances;
* `Record.readField_of_holds`, `Record.readFields_of_holds` : reading fields from a cursor that holds
  them;
* `Record.RoundTrips`, `Record.fields_read_back` : the round trip.
-/

namespace CborRecords

/-! ## Values of fields -/

/-- The value is one that a field of the kind may hold. -/
def FieldKind.Conforms : FieldKind → FieldValue → Prop
  | .uint width, .uint n => n.toNat ≤ width.maxUnsigned
  | .int width, .int n => width.minSigned ≤ n.toInt ∧ n.toInt ≤ width.maxSigned
  | .bool, .bool _ => True
  | .bytes size, .bytes content => content.length = size
  | .text most, .text content => Utf8.size content ≤ most
  | _, _ => False

namespace FieldValue

/-- A string is of a length that can be written. -/
def Sized : FieldValue → Prop
  | .bytes content => content.length < 0x10000000000000000
  | .text content => Utf8.size content < 0x10000000000000000
  | _ => True

theorem Sized.encodable {value : FieldValue} (h : value.Sized) : value.value.Encodable := by
  cases value with
  | uint n => exact .unsigned n
  | int n => exact .signed n
  | bool b => exact .bool b
  | bytes content => exact .bytes h
  | text content => exact .text h

theorem value_scalar (value : FieldValue) :
    ∀ kind count items, value.value ≠ .container kind count items := by
  cases value <;> nofun

end FieldValue

namespace FieldKind

theorem accept_ofInt {width : Width} {n : Int64} (hmin : width.minSigned ≤ n.toInt)
    (hmax : n.toInt ≤ width.maxSigned) :
    FieldKind.accept (.int width) (.ofInt n.toInt) = .ok (.int n) := by
  have hback : acceptInt width n.toInt = .ok (.int n) := by
    rw [acceptInt, if_pos ⟨hmin, hmax⟩, Int64.ofInt_toInt]
  have hlt : n.toUInt64.toNat < 0x10000000000000000 := n.toUInt64.toNat_lt
  rw [Content.ofInt]
  -- The sign chooses the type of the item, and either type gives the integer back.
  rcases Value.toInt_cases n with ⟨-, hint⟩ | ⟨-, hint, hneg⟩
  · rw [if_pos (by omega), FieldKind.accept, UInt64.toNat_ofNat_of_lt' (by rw [UInt64.size]; omega),
      Int.toNat_of_nonneg (by omega), hback]
  · rw [if_neg (by omega), FieldKind.accept, UInt64.toNat_ofNat_of_lt' (by rw [UInt64.size]; omega),
      Int.toNat_of_nonneg (by omega), show -1 - (-1 - n.toInt) = n.toInt by omega, hback]

/-- A value that conforms is admitted as it is encoded. -/
theorem accept_content {kind : FieldKind} {value : FieldValue} (h : kind.Conforms value) :
    kind.accept value.value.content = .ok value := by
  unfold Conforms at h
  split at h
  · exact if_neg (Nat.not_lt.2 h)
  · exact accept_ofInt h.1 h.2
  · rfl
  · exact if_pos h
  · exact if_neg (Nat.not_lt.2 h)
  · exact h.elim

end FieldKind

/-- Values for the fields of a schema: one for each, of its kind, and neither more of them nor longer
strings than can be written. -/
structure Schema.Conforms (s : Schema) (values : List FieldValue) : Prop where
  itemCount_lt : s.itemCount < 0x10000000000000000
  values_conform : List.Forall₂ (fun f value => f.kind.Conforms value) s.fields values
  values_sized : ∀ value ∈ values, value.Sized

/-- Values for the fields of a schema, of any kind: one for each, and neither more of them nor longer
strings than can be written. -/
structure Schema.Holds (s : Schema) (values : List FieldValue) : Prop where
  itemCount_lt : s.itemCount < 0x10000000000000000
  length_eq : values.length = s.fields.length
  values_sized : ∀ value ∈ values, value.Sized

theorem Schema.Conforms.holds {s : Schema} {values : List FieldValue} (h : s.Conforms values) :
    s.Holds values :=
  ⟨h.itemCount_lt, h.values_conform.length_eq.symm, h.values_sized⟩

/-- The array of a record with these values. -/
def Schema.array (s : Schema) (values : List FieldValue) : Value :=
  .container .array (some (UInt64.ofNat s.itemCount))
    (.unsigned s.key.id.toUInt64 :: values.map FieldValue.value)

theorem Schema.Holds.encodable_array {s : Schema} {values : List FieldValue}
    (h : s.Holds values) : (s.array values).Encodable := by
  have hcount : (values.map FieldValue.value).length + 1 = s.itemCount := by
    rw [List.length_map, Schema.itemCount, h.length_eq]
  refine .definite ?_ ?_ ?_
  · rw [List.length_cons, hcount, UInt64.toNat_ofNat_of_lt' h.itemCount_lt, Container.arity, Nat.mul_one]
  · rw [List.length_cons, hcount]
    exact h.itemCount_lt
  · intro v hv
    rcases List.mem_cons.1 hv with rfl | hv
    · exact .unsigned _
    · obtain ⟨value, hvalue, rfl⟩ := List.mem_map.1 hv
      exact (h.values_sized value hvalue).encodable

/-! ## Setting fields -/

namespace Record

/-- The first fields of a record have these values. -/
def HasFields {ρ : Type} [Record ρ] (record : ρ) (values : List FieldValue) : Prop :=
  ∀ index value, values[index]? = some value → field record index = value

/-- The first fields have been set to these values in order. -/
inductive Filled {ρ : Type} [Record ρ] : List FieldValue → ρ → Prop
  | blank : Filled [] blank
  | set {values : List FieldValue} {record record' : ρ} {value : FieldValue} (h : Filled values record)
      (hset : setField record values.length value = .ok record') : Filled (values ++ [value]) record'

theorem Filled.unique {ρ : Type} [Record ρ] {values : List FieldValue} {record record' : ρ}
    (h : Filled values record) (h' : Filled values record') : record = record' := by
  induction h generalizing record' with
  | blank =>
    generalize hv : ([] : List FieldValue) = none at h'
    cases h' with
    | blank => rfl
    | set => exact absurd hv.symm (by simp)
  | @set values record after value h hset ih =>
    generalize hv : values ++ [value] = all at h'
    cases h' with
    | blank => exact absurd hv (by simp)
    | set h₁ hset₁ =>
      obtain ⟨rfl, hvalue⟩ := List.append_inj' hv rfl
      cases hvalue
      rw [ih h₁, hset₁] at hset
      cases hset
      rfl

/-- Records in which a field can be set, once those before it are, to any value that conforms, and in
which the fields that were set have their values. -/
class Lawful (ρ : Type) [Record ρ] : Prop where
  setField_ok {values : List FieldValue} {record : ρ} {f : Field} {value : FieldValue}
    (h : Filled values record) (hf : (schema ρ).fields[values.length]? = some f)
    (hc : f.kind.Conforms value) : ∃ record', setField record values.length value = .ok record'
  hasFields {values : List FieldValue} {record : ρ} (h : Filled values record) : HasFields record values

end Record

theorem Row.values_of_filled {s : Schema} {values : List FieldValue} {row : Row s}
    (h : Record.Filled values row) : row.values = values := by
  induction h with
  | blank => rfl
  | set h hset ih =>
    cases hset
    simp [ih]

theorem Row.hasFields_values {s : Schema} (row : Row s) : Record.HasFields row row.values := by
  intro index value hv
  change row.values.getD index (.uint 0) = value
  rw [List.getD_eq_getElem?_getD, hv, Option.getD_some]

instance (s : Schema) : Record.Lawful (Row s) where
  setField_ok _ _ _ := ⟨_, rfl⟩
  hasFields {_ row} h := Row.values_of_filled h ▸ row.hasFields_values

namespace Person

/-- The values of the fields of a person. -/
def values (p : Person) : List FieldValue :=
  [.bytes p.name, .uint p.id.toUInt64]

/-- Setting a field of a person gives it the value and leaves the other. -/
theorem cases_of_setField {p p' : Person} {index : Nat} {value : FieldValue}
    (h : p.setField index value = .ok p') :
    (index = 0 ∧ value = .bytes p'.name ∧ p'.id = p.id) ∨
      (index = 1 ∧ value = .uint p'.id.toUInt64 ∧ p'.name = p.name) := by
  unfold setField at h
  split at h
  · split at h
    · cases h
      exact .inl ⟨rfl, rfl, rfl⟩
    · cases h
  · rename_i n
    split at h
    · rename_i hn
      cases h
      have hword : n.toUInt8.toUInt64 = n := by
        rw [← UInt64.toNat_inj, UInt8.toNat_toUInt64, UInt64.toNat_toUInt8]
        omega
      exact .inr ⟨rfl, congrArg FieldValue.uint hword.symm, rfl⟩
    · cases h
  · cases h

theorem values_of_filled {values : List FieldValue} {p : Person} (h : Record.Filled values p) :
    values = p.values.take values.length := by
  induction h with
  | blank => rfl
  | @set values p p' value h hset ih =>
    obtain ⟨hlen, rfl, hid⟩ | ⟨hlen, rfl, hname⟩ := cases_of_setField hset
    · rw [List.length_eq_zero_iff.1 hlen]
      rfl
    · rw [hlen] at ih
      rw [ih, Person.values, Person.values, hname]
      rfl

/-- A person is filled with its own values only. -/
theorem eq_of_filled {p p' : Person} (h : Record.Filled p.values p') : p' = p := by
  obtain ⟨name, id, hlen⟩ := p
  obtain ⟨name', id', hlen'⟩ := p'
  have hvalues : values ⟨name, id, hlen⟩ = values ⟨name', id', hlen'⟩ := values_of_filled h
  simp only [values, List.cons.injEq, FieldValue.bytes.injEq, FieldValue.uint.injEq,
    UInt8.toUInt64_inj, and_true] at hvalues
  obtain ⟨rfl, rfl⟩ := hvalues
  rfl

theorem hasFields_values (p : Person) : Record.HasFields p p.values := by
  intro index value hv
  match index, hv with
  | 0, rfl => rfl
  | 1, rfl => rfl

theorem conforms_values (p : Person) : schema.Conforms p.values where
  itemCount_lt := by decide
  values_conform := by
    have hid : p.id.toUInt64.toNat ≤ 0xFF := by
      have := p.id.toNat_lt
      rw [UInt8.toNat_toUInt64]
      omega
    exact .cons p.length_name (.cons hid .nil)
  values_sized := by
    have hname : p.name.length < 0x10000000000000000 := by
      rw [p.length_name]
      decide
    rintro value (_ | ⟨_, _ | ⟨_, ⟨⟩⟩⟩)
    · exact hname
    · exact trivial

instance : Record.Lawful Person where
  setField_ok {values p f value} h hf hc := by
    generalize values.length = index at hf
    change fields[index]? = some f at hf
    match index, hf with
    | 0, rfl =>
      cases value with
      | bytes b => exact ⟨_, dif_pos hc⟩
      | _ => exact hc.elim
    | 1, rfl =>
      cases value with
      | uint n => exact ⟨_, if_pos (Nat.lt_succ_of_le hc)⟩
      | _ => exact hc.elim
  hasFields {values p} h := by
    intro index value hv
    rw [values_of_filled h, List.getElem?_take] at hv
    split at hv
    · exact p.hasFields_values index value hv
    · cases hv

end Person

/-! ## Reading fields -/

namespace Record

/-- A scalar without tags is measured against the kind of the field. -/
theorem visitField_scalar {kind : FieldKind} {item : Item} {verdict : Except Mismatch FieldValue}
    (ht : item.tags.isEmpty = true) (hs : ∀ c, item.content ≠ .container c)
    (hv : kind.accept item.content = verdict) : visitField kind item = .ok (verdict, item.size) := by
  subst hv
  obtain ⟨tags, shortest, content, size⟩ := item
  rw [visitField, if_pos ht]
  cases content with
  | container c => exact absurd rfl (hs c)
  | _ => rfl

/-- A value that conforms is read as it is from a cursor that holds it, and the cursor passes it. -/
theorem readField_of_holds (name : String) {kind : FieldKind} {value : FieldValue} {items : List Value}
    {c last : Cursor} (hc : kind.Conforms value) (hs : value.Sized)
    (h : c.Holds (Value.parts (value.value :: items)) last) :
    ∃ c', readField name kind c = .ok (value, c') ∧ c'.Holds (Value.parts items) last := by
  rw [Value.parts, List.map_cons] at h
  cases h with
  | @cons _ _ _ _ rest hend hrest hw h =>
    have hopen := Value.open?_scalar hs.encodable value.value_scalar rest
    have hvisit : visitField kind ⟨⟨[]⟩, true, value.value.content, value.value.encoding.length⟩ =
        .ok (.ok value, value.value.encoding.length) :=
      visitField_scalar rfl (Value.content_scalar value.value_scalar) (FieldKind.accept_content hc)
    rw [← hrest] at hopen
    refine ⟨c.advance value.value.encoding.length, ?_, h⟩
    rw [readField, Cursor.next, Cursor.next?, Cursor.peek_eq_some_iff.2 ⟨rfl, hend, hopen⟩]
    dsimp only
    rw [hvisit]
    rfl

theorem readKey_of_holds {key : Key} {items : List Value} {c last : Cursor}
    (h : c.Holds (Value.parts (.unsigned key.id.toUInt64 :: items)) last) :
    ∃ c', readKey key c = .ok c' ∧ c'.Holds (Value.parts items) last := by
  have hc : FieldKind.Conforms (.uint .w64) (.uint key.id.toUInt64) :=
    Nat.le_of_lt_succ key.id.toUInt64.toNat_lt
  obtain ⟨c', hread, hholds⟩ := readField_of_holds "key" hc trivial h
  refine ⟨c', ?_, hholds⟩
  rw [readKey, hread]
  exact if_pos (UInt32.toNat_toUInt64 _)

variable {ρ : Type} [Record ρ]

/-- Fields that a cursor holds are read and set after those that have been set. -/
theorem readFields_of_holds [Lawful ρ] {fields : List Field} {filled values : List FieldValue}
    {record : ρ} {c last : Cursor} (hfields : (schema ρ).fields.drop filled.length = fields)
    (hfilled : Filled filled record)
    (hvalues : List.Forall₂ (fun f value => f.kind.Conforms value) fields values)
    (hsized : ∀ value ∈ values, value.Sized)
    (h : c.Holds (Value.parts (values.map FieldValue.value)) last) :
    ∃ record' c', readFields filled.length fields record c = .ok (record', c') ∧
      Filled (filled ++ values) record' ∧ c'.Holds [] last := by
  -- By induction on the fields that are left; `filled` has the values of those in front of them.
  induction hvalues generalizing filled record c with
  | nil => exact ⟨record, c, rfl, by rwa [List.append_nil], h⟩
  | @cons f value fields values hv hvalues ih =>
    obtain ⟨c₁, hread, h₁⟩ := readField_of_holds f.name hv (hsized value (by simp)) h
    have hf : (schema ρ).fields[filled.length]? = some f := by
      rw [← List.head?_drop, hfields, List.head?_cons]
    obtain ⟨record₁, hset⟩ := Lawful.setField_ok hfilled hf hv
    have hnext : (schema ρ).fields.drop (filled ++ [value]).length = fields := by
      rw [List.length_append, List.length_singleton, ← List.drop_drop, hfields, List.drop_one,
        List.tail_cons]
    obtain ⟨record', c', hrest, hfilled', h'⟩ :=
      ih hnext (.set hfilled hset) (fun w hw => hsized w (by simp [hw])) h₁
    refine ⟨record', c', ?_, by rwa [List.append_assoc] at hfilled', h'⟩
    rw [readFields, hread]
    dsimp only
    rw [hset]
    rw [List.length_append] at hrest
    exact hrest

/-! ## The round trip -/

theorem value_eq {record : ρ} {values : List FieldValue} (hr : HasFields record values)
    (hlen : (schema ρ).fields.length = values.length) : value record = (schema ρ).array values := by
  have hfields : (List.range (schema ρ).fields.length).map (fun index => (field record index).value) =
      values.map FieldValue.value := by
    apply List.ext_getElem
    · simp [hlen]
    · intro index _ hindex
      rw [List.length_map] at hindex
      simp only [List.getElem_map, List.getElem_range]
      rw [hr index _ (List.getElem?_eq_getElem hindex)]
  rw [value, hfields, Schema.array]

/-- What `record` is encoded as, and that it reads back as `back`, whatever follows it. -/
structure RoundTrips (record back : ρ) (encoded : Bytes) : Prop where
  encodedLength_eq : encodedLength record = encoded.length
  encode_eq : ∀ buffer : Bytes, encoded.length ≤ buffer.length →
    encode record buffer = (.ok encoded.length, encoded ++ buffer.drop encoded.length)
  decode_eq : decode ρ encoded = .ok back
  decodePrefix_eq : ∀ rest, decodePrefix ρ (encoded ++ rest) = .ok (back, encoded.length)
  decode_append : ∀ rest, rest ≠ [] → decode ρ (encoded ++ rest) = .error (.trailingData rest.length)

/-- It is enough that the front of a byte string reads back: the rest is compared by length. -/
theorem RoundTrips.of_decodePrefix {record back : ρ} (hv : (value record).Encodable)
    (h : ∀ rest, decodePrefix ρ ((value record).encoding ++ rest) =
      .ok (back, (value record).encoding.length)) :
    RoundTrips record back (value record).encoding where
  encodedLength_eq := by
    rw [encodedLength, Value.emit_counter hv, Sink.position]
  encode_eq buffer hroom := by
    rw [encode, Value.encode_eq hv hroom]
  decode_eq := by
    have hfront := h []
    rw [List.append_nil] at hfront
    rw [decode, hfront]
    exact if_neg (Nat.lt_irrefl _)
  decodePrefix_eq := h
  decode_append rest hrest := by
    have hpos : 0 < rest.length := List.length_pos_iff.2 hrest
    rw [decode, h rest]
    dsimp only
    rw [List.length_append, if_pos (by omega), Nat.add_sub_cancel_left]

theorem openArray_of_itemCount (s : Schema) (shortest : Bool) (rest : Bytes) (offset parsed size : Nat) :
    openArray s ⟨⟨[]⟩, shortest, .container ⟨.array, some s.itemCount, rest, offset, parsed⟩, size⟩ =
      .ok ⟨.array, some s.itemCount, rest, offset, parsed⟩ := by
  have ht : Tags.isEmpty ⟨[]⟩ = true := rfl
  rw [openArray, if_pos ht]
  exact if_pos rfl

theorem readItems_of_holds [Lawful ρ] {values : List FieldValue} (hc : (schema ρ).Conforms values)
    {c last : Cursor} (h : c.Holds
      (Value.parts (.unsigned (schema ρ).key.id.toUInt64 :: values.map FieldValue.value)) last) :
    ∃ (back : ρ) (c' : Cursor), Filled values back ∧ readItems c = .ok (back, c') ∧
      c'.close = .ok last.offset := by
  obtain ⟨c₁, hkey, h₁⟩ := readKey_of_holds h
  have hblank : Filled [] (blank : ρ) := .blank
  obtain ⟨back, c₂, hread, hfilled, h₂⟩ :=
    readFields_of_holds rfl hblank hc.values_conform hc.values_sized h₁
  refine ⟨back, c₂, hfilled, ?_, ?_⟩
  · rw [readItems, hkey]
    exact hread
  · cases h₂ with
    | nil hend => exact Cursor.close_of_atEnd hend

/-- The array of values that conform reads back as a record that is filled with them. -/
theorem decodePrefix_array [Lawful ρ] {values : List FieldValue} (hc : (schema ρ).Conforms values)
    (rest : Bytes) :
    ∃ back : ρ, Filled values back ∧
      decodePrefix ρ (((schema ρ).array values).encoding ++ rest) =
        .ok (back, ((schema ρ).array values).encoding.length) := by
  have he := hc.holds.encodable_array
  unfold Schema.array at he ⊢
  have hcount : Container.array.limit (some (UInt64.ofNat (schema ρ).itemCount)) =
      some (schema ρ).itemCount := by
    rw [Container.limit_of_lt, UInt64.toNat_ofNat_of_lt' hc.itemCount_lt, Container.arity, Nat.mul_one]
    rw [Container.arity, Nat.mul_one]
    exact UInt64.toNat_lt _
  have hholds := fun offset => Value.holds_items he offset rest
  have hopen := Value.open?_container he
  rw [hcount] at hholds hopen
  obtain ⟨back, c, hfilled, hread, hclose⟩ := readItems_of_holds hc (hholds _)
  refine ⟨back, hfilled, ?_⟩
  rw [Value.encoding_container, decodePrefix, hopen]
  dsimp only
  rw [openArray_of_itemCount]
  dsimp only
  rw [hread]
  dsimp only
  rw [hclose, Value.length_encoding_container]

/-- A record with fields that conform reads back as one that is filled with them. -/
theorem exists_filled [Lawful ρ] {record : ρ} {values : List FieldValue} (hr : HasFields record values)
    (hc : (schema ρ).Conforms values) :
    ∃ (back : ρ) (encoded : Bytes), Filled values back ∧ RoundTrips record back encoded := by
  have hv := value_eq hr hc.values_conform.length_eq
  obtain ⟨back, hfilled, -⟩ := decodePrefix_array hc []
  refine ⟨back, _, hfilled, .of_decodePrefix (hv ▸ hc.holds.encodable_array) ?_⟩
  intro rest
  obtain ⟨back', hfilled', hread⟩ := decodePrefix_array hc rest
  rw [hv, hread, hfilled'.unique hfilled]

/-- Every record with fields that conform to its schema reads back from its encoding with the same
fields, whatever follows it, and bytes that follow it are counted where there should be none. Rows and
persons read back as they were. -/
theorem fields_read_back :
    (∀ {ρ : Type} [Record ρ] [Lawful ρ] {record : ρ} {values : List FieldValue},
      HasFields record values → (schema ρ).Conforms values →
        ∃ (back : ρ) (encoded : Bytes), HasFields back values ∧ RoundTrips record back encoded) ∧
    (∀ {s : Schema} {values : List FieldValue}, s.Conforms values →
      ∃ encoded : Bytes, RoundTrips (⟨values⟩ : Row s) ⟨values⟩ encoded) ∧
    ∀ p : Person, ∃ encoded : Bytes, RoundTrips p p encoded := by
  refine ⟨?_, ?_, ?_⟩
  · intro ρ _ _ record values hr hc
    obtain ⟨back, encoded, hfilled, htrip⟩ := exists_filled hr hc
    exact ⟨back, encoded, Lawful.hasFields hfilled, htrip⟩
  · intro s values hc
    have hr := Row.hasFields_values (⟨values⟩ : Row s)
    obtain ⟨⟨back⟩, encoded, hfilled, htrip⟩ := exists_filled hr hc
    obtain rfl : back = values := Row.values_of_filled hfilled
    exact ⟨encoded, htrip⟩
  · intro p
    obtain ⟨back, encoded, hfilled, htrip⟩ := exists_filled p.hasFields_values p.conforms_values
    obtain rfl : back = p := Person.eq_of_filled hfilled
    exact ⟨encoded, htrip⟩

/-- A row with a field of each kind, at the ends of their ranges. -/
theorem row_of_each_kind_reads_back :
    let s : Schema := ⟨"sample", .person, [⟨"count", .uint .w16⟩, ⟨"shift", .int .w8⟩, ⟨"flag", .bool⟩,
      ⟨"code", .bytes 2⟩, ⟨"note", .text 3⟩]⟩
    let row : Row s := ⟨[.uint 0xFFFF, .int (-128), .bool true, .bytes [0, 0xFF], .text "né"]⟩
    s.Conforms row.values ∧
      ∃ (back : Row s) (encoded : Bytes), HasFields back row.values ∧ RoundTrips row back encoded := by
  intro s row
  have hc : s.Conforms row.values := by
    refine ⟨by decide, ?_, ?_⟩
    · refine .cons ?_ (.cons ?_ (.cons trivial (.cons rfl (.cons ?_ .nil))))
      · exact Nat.le_refl _
      · exact ⟨by decide, by decide⟩
      · show Utf8.size "né" ≤ 3
        decide
    · simp only [row, List.forall_mem_cons, List.not_mem_nil, false_imp_iff, implies_true, and_true]
      refine ⟨trivial, trivial, trivial, ?_, ?_⟩
      · show List.length _ < _
        decide
      · show Utf8.size "né" < _
        decide
  exact ⟨hc, fields_read_back.1 row.hasFields_values hc⟩

end Record

end CborRecords
