import CborRecords.Proofs.Attribution
import CborRecords.Proofs.Canonical

/-!
# Values that do not fit their fields

A record can be encoded whatever the values in its fields are. Decoding the bytes gives the values back, an integer
with or without a sign as the field has it, or it reports the first field whose value it does not admit. Nothing
else can be wrong with bytes that were encoded.

* `FieldValue.item` : the item that a value is written as;
* `FieldValue.Agrees` : values that are equal, or the same integer; `FieldValue.agrees_of_accepted` : what is
  admitted agrees with what was written;
* `Mismatch.OfValue` : the reasons for which a value can be refused;
* `Field.Misfits` : the first value that its field does not admit, and why; `Field.lays_or_misfits` : there is one
  unless all are admitted;
* `Record.readFields_of_misfits` : this is what reading the fields reports;
* `Record.misfit_is_reported` : decoding what was encoded.
-/

namespace CborRecords

namespace FieldValue

/-! ## Values and their items -/

/-- The item that a value is written as. -/
def item (value : FieldValue) : Bytes :=
  value.value.encoding

theorem Sized.recovered {value : FieldValue} (h : value.Sized) :
    value.value.tree.Written value.item ∧ value.value.tree.scalar? value.item = some value.value.content := by
  obtain ⟨hw, hc, -⟩ := h.encodable.recovered value.value_scalar
  rw [item, Value.encoding_scalar value.value_scalar]
  exact ⟨hw, hc⟩

/-- The values are equal, or the same integer with and without a sign. -/
inductive Agrees : FieldValue → FieldValue → Prop
  | refl (value : FieldValue) : Agrees value value
  | signed {n : UInt64} {k : Int64} (h : k.toInt = n.toNat) : Agrees (.uint n) (.int k)
  | unsigned {n : UInt64} {k : Int64} (h : k.toInt = n.toNat) : Agrees (.int k) (.uint n)

theorem agrees_of_acceptInt {width : Width} {n : Int64} {back : FieldValue}
    (h : FieldKind.acceptInt width n.toInt = .ok back) : Agrees (.int n) back := by
  obtain ⟨k, rfl, hk, -⟩ := FieldKind.toInt_of_acceptInt h
  rw [Int64.toInt_inj.1 hk]
  exact .refl _

theorem agrees_of_accepted_int {kind : FieldKind} {n : Int64} {back : FieldValue}
    (h : kind.accept (Content.ofInt n.toInt) = .ok back) : Agrees (.int n) back := by
  have hlt : n.toUInt64.toNat < 0x10000000000000000 := n.toUInt64.toNat_lt
  rw [Content.ofInt] at h
  -- the sign chooses the type of the item
  rcases Value.toInt_cases n with ⟨-, hint⟩ | ⟨-, hint, hneg⟩
  · have hn : (UInt64.ofNat n.toInt.toNat).toNat = n.toInt.toNat :=
      UInt64.toNat_ofNat_of_lt' (by rw [UInt64.size]; omega)
    rw [if_pos (by omega)] at h
    cases kind with
    | uint width =>
      rw [FieldKind.accept] at h
      split at h
      · cases h
      · cases h
        exact .unsigned (by rw [hn]; omega)
    | int width =>
      rw [FieldKind.accept, hn, Int.toNat_of_nonneg (by omega)] at h
      exact agrees_of_acceptInt h
    | _ => cases h
  · have hn : (UInt64.ofNat (-1 - n.toInt).toNat).toNat = (-1 - n.toInt).toNat :=
      UInt64.toNat_ofNat_of_lt' (by rw [UInt64.size]; omega)
    rw [if_neg (by omega)] at h
    cases kind with
    | int width =>
      rw [FieldKind.accept, hn, Int.toNat_of_nonneg (by omega),
        show -1 - (-1 - n.toInt) = n.toInt by omega] at h
      exact agrees_of_acceptInt h
    | _ => cases h

/-- What a field makes of a value that it admits agrees with the value. -/
theorem agrees_of_accepted {kind : FieldKind} {value back : FieldValue}
    (h : kind.accept value.value.content = .ok back) : Agrees value back := by
  cases value with
  | int n => exact agrees_of_accepted_int h
  | uint n =>
    cases kind with
    | uint width =>
      change (if _ then _ else _) = _ at h
      split at h
      · cases h
      · cases h
        exact .refl _
    | int width =>
      obtain ⟨k, rfl, hk, -⟩ := FieldKind.toInt_of_acceptInt h
      exact .signed hk
    | _ => cases h
  | bool b =>
    cases kind with
    | bool =>
      cases h
      exact .refl _
    | _ => cases h
  | bytes content =>
    cases kind with
    | bytes size =>
      change (if _ then _ else _) = _ at h
      split at h
      · cases h
        exact .refl _
      · cases h
    | _ => cases h
  | text content =>
    cases kind with
    | text most =>
      change (if _ then _ else _) = _ at h
      split at h
      · cases h
      · cases h
        exact .refl _
    | _ => cases h

/-- What a field admits is what its kind makes of the value. -/
theorem accepted_of_written {kind : FieldKind} {value back : FieldValue} (hs : value.Sized)
    (h : kind.Written back value.item) : kind.accept value.value.content = .ok back := by
  obtain ⟨shortest, content, hopen, -, haccepted⟩ := h.exists_open []
  have hscalar := Value.open?_scalar hs.encodable value.value_scalar []
  rw [item] at hopen
  rw [hscalar] at hopen
  cases hopen
  exact haccepted

/-- A value is written without tags, and strings are written in one piece. -/
theorem tree_plain (value : FieldValue) :
    value.value.tree.major ≠ .tag ∧ (∀ chunks, value.value.tree ≠ .byteChunks chunks) ∧
      ∀ chunks, value.value.tree ≠ .textChunks chunks := by
  cases value with
  | int n =>
    have htree : (int n).value.tree = Tree.ofInt n.toInt := rfl
    rw [htree, Tree.ofInt]
    split
    · exact ⟨by simp [Tree.major], by simp, by simp⟩
    · exact ⟨by simp [Tree.major], by simp, by simp⟩
  | _ => exact ⟨by simp [value, Value.tree, Tree.major], by simp [value, Value.tree], by simp [value, Value.tree]⟩

end FieldValue

/-- A reason for which a value can be refused once it is written: it is out of range, of another length, or of
another type. -/
def Mismatch.OfValue : Mismatch → Prop
  | .range _ _ | .intRange _ _ _ | .width _ _ | .tooLong _ _ | .type _ _ => True
  | _ => False

theorem FieldKind.Refuses.ofValue {kind : FieldKind} {value : FieldValue} {reason : Mismatch}
    (h : kind.Refuses value.value.tree reason) : reason.OfValue := by
  obtain ⟨htag, hbytes, htext⟩ := value.tree_plain
  generalize value.value.tree = t at h htag hbytes htext
  cases h with
  | range | above | below | width | tooLong | type => exact trivial
  | byteChunks size chunks => exact absurd rfl (hbytes chunks)
  | textChunks most chunks => exact absurd rfl (htext chunks)
  | tagged => exact absurd rfl htag

/-! ## The first value that does not fit -/

/-- The first of the values that its field does not admit as it is written, the name of the field, and why. -/
inductive Field.Misfits : List Field → List FieldValue → String → Mismatch → Prop
  | here {f : Field} {fields : List Field} {value : FieldValue} {values : List FieldValue} {reason : Mismatch}
      (hnot : ∀ back, ¬ f.kind.Written back value.item) (hr : f.kind.Refuses value.value.tree reason) :
      Misfits (f :: fields) (value :: values) f.name reason
  | there {f : Field} {fields : List Field} {value back : FieldValue} {values : List FieldValue} {name : String}
      {reason : Mismatch} (hw : f.kind.Written back value.item) (h : Misfits fields values name reason) :
      Misfits (f :: fields) (value :: values) name reason

namespace Field

theorem Misfits.ofValue {fields : List Field} {values : List FieldValue} {name : String} {reason : Mismatch}
    (h : Misfits fields values name reason) : reason.OfValue := by
  induction h with
  | here hnot hr => exact hr.ofValue
  | there hw h ih => exact ih

/-- All values are admitted, with what they stand for in their fields, or there is a first one that is not. -/
theorem lays_or_misfits {fields : List Field} {values : List FieldValue} (hlen : values.length = fields.length)
    (hs : ∀ value ∈ values, value.Sized) :
    (∃ back, Lays fields back (values.map FieldValue.item) ∧ List.Forall₂ FieldValue.Agrees values back) ∨
      ∃ name reason, Misfits fields values name reason := by
  induction fields generalizing values with
  | nil =>
    obtain rfl := List.length_eq_zero_iff.1 hlen
    exact .inl ⟨[], .nil, .nil⟩
  | cons f fields ih =>
    cases values with
    | nil => cases hlen
    | cons value values =>
      obtain ⟨hvalue, hvalues⟩ := List.forall_mem_cons.1 hs
      obtain ⟨hw, hc⟩ := hvalue.recovered
      cases hverdict : f.kind.accept value.value.content with
      | error reason =>
        refine .inr ⟨f.name, reason, .here ?_ (FieldKind.refuses_of_accept_error hc hverdict)⟩
        intro back hback
        rw [FieldValue.accepted_of_written hvalue hback] at hverdict
        cases hverdict
      | ok first =>
        have hfirst : f.kind.Written first value.item := FieldKind.written_of_accept hw hc hverdict
        rcases ih (Nat.succ.inj hlen) hvalues with ⟨back, hlays, hagrees⟩ | ⟨name, reason, hmisfits⟩
        · exact .inl ⟨first :: back, .cons hfirst hlays, .cons (FieldValue.agrees_of_accepted hverdict) hagrees⟩
        · exact .inr ⟨name, reason, .there hfirst hmisfits⟩

end Field

/-! ## Reading what was written -/

/-- The parts that values are written as, whether they conform or not. -/
theorem Schema.Holds.exists_parts {s : Schema} {values : List FieldValue} (h : s.Holds values) :
    ∃ head key, Head.Written .array s.itemCount head ∧ Head.Written .unsigned s.key.id.toNat key ∧
      (s.array values).encoding = head ++ (key ++ (values.map FieldValue.item).flatten) := by
  have hhead := Head.encode_written .array (UInt64.ofNat s.itemCount)
  rw [UInt64.toNat_ofNat_of_lt' h.itemCount_lt] at hhead
  have hkey := Head.encode_written .unsigned s.key.id.toUInt64
  rw [UInt32.toNat_toUInt64] at hkey
  refine ⟨_, _, hhead, hkey, ?_⟩
  rw [array, Value.encoding, Value.encodings, Value.encodings_eq, List.flatMap_map, Container.ending,
    List.append_nil, List.flatMap_def]
  rfl

namespace Record

theorem readField_of_refused {name : String} {kind : FieldKind} {value : FieldValue} {reason : Mismatch}
    {c : Cursor} {rest : Bytes} (hend : c.atEnd = (.ok false, c)) (hrest : c.rest = value.item ++ rest)
    (hs : value.Sized) (hr : kind.Refuses value.value.tree reason) :
    readField name kind c = .error (.schemaMismatch name reason) := by
  let item : Item := ⟨⟨[]⟩, true, value.value.content, value.item.length⟩
  have ho : Item.open? c.rest = .ok (some item) := by
    rw [hrest]
    exact Value.open?_scalar hs.encodable value.value_scalar rest
  have hskip : item.skip maxNesting = .ok item.size :=
    Item.skip_scalar maxNesting (Value.content_scalar value.value_scalar)
  have hverdict : kind.verdict item = .error reason := (FieldKind.accept_eq_error_iff hs.recovered.2).2 hr
  rw [readField_of_skip hend ho hskip, hverdict]
  rfl

variable {ρ : Type} [Record ρ] [Lawful ρ]

/-- Fields are read up to the first value that does not fit, and that is what is reported. -/
theorem readFields_of_misfits {fields : List Field} {values filled : List FieldValue} {name : String}
    {reason : Mismatch} {record : ρ} {c : Cursor} {rest : Bytes} {n : Nat}
    (h : Field.Misfits fields values name reason) (hfields : (schema ρ).fields.drop filled.length = fields)
    (hfilled : Filled filled record) (hcount : c.count = some n) (hle : c.parsed + fields.length ≤ n)
    (hrest : c.rest = (values.map FieldValue.item).flatten ++ rest) (hs : ∀ value ∈ values, value.Sized) :
    readFields filled.length fields record c = .error (.schemaMismatch name reason) := by
  -- By induction on the values that fit; `filled` has what those in front of the cursor stand for.
  induction h generalizing filled record c with
  | @here f fields value values reason hnot hr =>
    rw [List.length_cons] at hle
    rw [List.map_cons, List.flatten_cons, List.append_assoc] at hrest
    have hend : c.atEnd = (.ok false, c) :=
      Cursor.atEnd_eq_false_iff.2 ⟨rfl, .inl ⟨n, hcount, by omega⟩⟩
    rw [readFields, readField_of_refused hend hrest (hs value (by simp)) hr]
  | @there f fields value back values name reason hw h ih =>
    rw [List.length_cons] at hle
    rw [List.map_cons, List.flatten_cons, List.append_assoc] at hrest
    have hend : c.atEnd = (.ok false, c) :=
      Cursor.atEnd_eq_false_iff.2 ⟨rfl, .inl ⟨n, hcount, by omega⟩⟩
    obtain ⟨record', hset, hnext⟩ := Lawful.exists_set hfields hfilled hw.conforms
    have hle' : c.parsed + 1 + fields.length ≤ n := by omega
    have hlength : filled.length + 1 = (filled ++ [back]).length := by simp
    rw [readFields, readField_eq_ok_iff.2 ⟨hend, value.item, _, hrest, hw, rfl⟩]
    dsimp only
    rw [hset]
    dsimp only
    rw [hlength]
    exact ih hnext (.set hfilled hset) hcount hle' (Cursor.advance_rest hrest) fun v hv => hs v (by simp [hv])

theorem decode_of_misfits {values : List FieldValue} {name : String} {reason : Mismatch}
    (h : (schema ρ).Holds values) (hm : Field.Misfits (schema ρ).fields values name reason) :
    decode ρ ((schema ρ).array values).encoding = .error (.schemaMismatch name reason) := by
  obtain ⟨head, key, hhead, hkey, hencoding⟩ := h.exists_parts
  have hread := readKey_eq_ok_iff.2
    ⟨atEnd_start (schema ρ) head.length _, key, (values.map FieldValue.item).flatten, rfl, hkey, rfl⟩
  have hle : 0 + 1 + (schema ρ).fields.length ≤ (schema ρ).itemCount := by
    rw [Schema.itemCount]
    omega
  have hblank : Filled [] (blank : ρ) := .blank
  have hrest : (values.map FieldValue.item).flatten = (values.map FieldValue.item).flatten ++ [] :=
    (List.append_nil _).symm
  have hitems : (readItems (start (schema ρ) head.length (key ++ (values.map FieldValue.item).flatten)) :
      Except RecordError (ρ × Cursor)) = .error (.schemaMismatch name reason) := by
    rw [readItems, hread]
    exact readFields_of_misfits hm rfl hblank rfl hle ((Cursor.advance_rest rfl).trans hrest) h.values_sized
  rw [decode, hencoding, decodePrefix_of_readItems hhead hitems]

/-- A row of any values is written, and then decoded. Each of its values comes back as it is, or as the same integer
with or without a sign, or it is reported that the first value that its field does not admit is out of range, of
another length or of another type. -/
theorem misfit_is_reported {s : Schema} {values : List FieldValue} (h : s.Holds values) :
    ∃ encoded, Encodes (⟨values⟩ : Row s) encoded ∧
      ((∃ back, decode (Row s) encoded = .ok ⟨back⟩ ∧ Field.Lays s.fields back (values.map FieldValue.item) ∧
          List.Forall₂ FieldValue.Agrees values back) ∨
        ∃ name reason, decode (Row s) encoded = .error (.schemaMismatch name reason) ∧ reason.OfValue ∧
          Field.Misfits s.fields values name reason) := by
  have hvalue : value (⟨values⟩ : Row s) = s.array values :=
    value_eq (Row.hasFields_values _) h.length_eq.symm
  have hencodes := Encodes.of_encodable (hvalue ▸ h.encodable_array : (value (⟨values⟩ : Row s)).Encodable)
  rw [hvalue] at hencodes
  refine ⟨_, hencodes, ?_⟩
  rcases Field.lays_or_misfits h.length_eq h.values_sized with ⟨back, hlays, hagrees⟩ | ⟨name, reason, hmisfits⟩
  · obtain ⟨head, key, hhead, hkey, hencoding⟩ := h.exists_parts
    have hsegments : s.Lays back ⟨head, key, values.map FieldValue.item⟩ := ⟨hhead, hkey, hlays⟩
    obtain ⟨⟨back'⟩, hfilled⟩ : ∃ row : Row s, Filled back row := exists_filled_of_lays hsegments
    obtain rfl : back' = back := Row.values_of_filled hfilled
    exact .inl ⟨back', decode_eq_ok_iff_lays.2 ⟨back', _, hsegments, hencoding, hfilled⟩, hlays, hagrees⟩
  · exact .inr ⟨name, reason, decode_of_misfits h hmisfits, hmisfits.ofValue, hmisfits⟩

/-- Integers in fields of the other kind are admitted, and then a text is too long. -/
theorem long_text_is_reported :
    let s : Schema := ⟨"sample", .person, [⟨"count", .uint .w8⟩, ⟨"shift", .int .w16⟩, ⟨"note", .text 3⟩]⟩
    let values : List FieldValue := [.int 7, .uint 300, .text "long"]
    s.Holds values ∧ ∃ encoded, Encodes (⟨values⟩ : Row s) encoded ∧
      decode (Row s) encoded = .error (.schemaMismatch "note" (.tooLong 3 4)) ∧
      Field.Misfits s.fields values "note" (.tooLong 3 4) := by
  intro s values
  have hholds : s.Holds values := by
    refine ⟨by decide, rfl, ?_⟩
    simp only [values, List.forall_mem_cons, List.not_mem_nil, false_imp_iff, implies_true, and_true]
    refine ⟨trivial, trivial, ?_⟩
    show Utf8.size "long" < _
    decide
  have hvalue : value (⟨values⟩ : Row s) = s.array values := rfl
  have hwritten := Encodes.of_encodable (hvalue ▸ hholds.encodable_array : (value (⟨values⟩ : Row s)).Encodable)
  obtain ⟨encoded, hencodes, houtcome⟩ := misfit_is_reported hholds
  obtain rfl := hencodes.unique hwritten
  have hdecode : decode (Row s) (value (⟨values⟩ : Row s)).encoding =
      .error (.schemaMismatch "note" (.tooLong 3 4)) := by decide +kernel
  refine ⟨hholds, _, hencodes, hdecode, ?_⟩
  rcases houtcome with ⟨back, hback, -⟩ | ⟨name, reason, herror, -, hmisfits⟩
  · rw [hdecode] at hback
    cases hback
  · rw [hdecode] at herror
    cases herror
    exact hmisfits

end Record

end CborRecords
