import CborRecords.Proofs.Truncation

/-!
# Failures are those of the first item that is wrong

A record is not decoded because of one item: its array, its key, or the first of its fields that is not what the
schema asks for. The error names this item, and all that it says of the item is true of the bytes.

* `Tree.typeName` : the name of the type of an item as it is written;
* `FieldKind.Refuses` : how an item differs from what a kind of field asks for, with one rule for each reason;
  `FieldKind.verdict_eq_error_iff` : these are the reasons that are given;
* `Field.FailsOn`, `Field.FirstFails` : what is wrong with the item of a field, and with the items of fields in
  order; `Schema.KeyFailsOn` : with that of the key; `Schema.RefusesFront` : with that of the array;
* `Record.readField_eq_error_iff`, `Record.readFields_eq_error_iff` : the errors of reading one field and all;
* `Schema.FailsOn`, `Record.failure_is_of_first_wrong_item` : the errors of decoding a record.
-/

namespace CborRecords

/-! ## Types of items -/

/-- The name of the type of a container. -/
def Container.typeName (kind : Container) (definite : Bool) : String :=
  (if definite then "Definite-length " else "Indefinite-length ") ++ kind.name

/-- The name of the type of an item as it is written; its tags have no part in it. -/
def Tree.typeName : Tree → String
  | .unsigned _ => "Unsigned Integer"
  | .negative _ => "Negative Integer"
  | .bytes _ => "Definite-length Byte String"
  | .byteChunks _ => "Indefinite-length Byte String"
  | .text _ => "Definite-length Text String"
  | .textChunks _ => "Indefinite-length Text String"
  | .container kind definite _ => kind.typeName definite
  | .bool b => if b then "True" else "False"
  | .null => "Null"
  | .undefined => "Undefined"
  | .simple _ => "Simple Value"
  | .float _ => "Float"
  | .tagged _ inner => inner.typeName

theorem Tree.typeName_of_scalar {t : Tree} {part : Bytes} {content : Content}
    (h : t.scalar? part = some content) : content.typeName = t.typeName := by
  cases t with
  | container | tagged => cases h
  | bool b =>
    cases h
    cases b <;> rfl
  | _ =>
    cases h
    rfl

theorem Tree.major_of_scalar {t : Tree} {part : Bytes} {content : Content}
    (h : t.scalar? part = some content) : t.major ≠ .tag := by
  intro ht
  obtain ⟨n, inner, rfl⟩ := eq_tagged_of_major ht
  cases h

/-! ## Items that a kind of field refuses -/

namespace FieldKind

/-- The item is of a type that the kind asks for, whatever its value. -/
inductive Asks : FieldKind → Tree → Prop
  | uint (width : Width) (n : UInt64) : Asks (.uint width) (.unsigned n)
  | nonneg (width : Width) (n : UInt64) : Asks (.int width) (.unsigned n)
  | negative (width : Width) (n : UInt64) : Asks (.int width) (.negative n)
  | bool (b : Bool) : Asks .bool (.bool b)
  | bytes (size : Nat) (content : Bytes) : Asks (.bytes size) (.bytes content)
  | byteChunks (size : Nat) (chunks : List Bytes) : Asks (.bytes size) (.byteChunks chunks)
  | text (most : Nat) (content : String) : Asks (.text most) (.text content)
  | textChunks (most : Nat) (chunks : List String) : Asks (.text most) (.textChunks chunks)

/-- How an item differs from what a kind of field asks for. The numbers are those of the item as it is written,
and integers of either sign have all of 64 bits. -/
inductive Refuses : FieldKind → Tree → Mismatch → Prop
  | range {width : Width} {n : UInt64} (h : width.maxUnsigned < n.toNat) :
      Refuses (.uint width) (.unsigned n) (.range width.maxUnsigned n.toNat)
  | above {width : Width} {n : UInt64} (h : width.maxSigned < n.toNat) :
      Refuses (.int width) (.unsigned n) (.intRange width.minSigned width.maxSigned n.toNat)
  | below {width : Width} {n : UInt64} (h : -1 - (n.toNat : Int) < width.minSigned) :
      Refuses (.int width) (.negative n) (.intRange width.minSigned width.maxSigned (-1 - n.toNat))
  | width {size : Nat} {content : Bytes} (h : content.length ≠ size) :
      Refuses (.bytes size) (.bytes content) (.width size content.length)
  | tooLong {most : Nat} {content : String} (h : most < Utf8.size content) :
      Refuses (.text most) (.text content) (.tooLong most (Utf8.size content))
  | byteChunks (size : Nat) (chunks : List Bytes) : Refuses (.bytes size) (.byteChunks chunks) .indefinite
  | textChunks (most : Nat) (chunks : List String) : Refuses (.text most) (.textChunks chunks) .indefinite
  | tagged (kind : FieldKind) (n : UInt64) (inner : Tree) : Refuses kind (.tagged n inner) .tagged
  | type {kind : FieldKind} {t : Tree} (ht : t.major ≠ .tag) (h : ¬ kind.Asks t) :
      Refuses kind t (.type kind.typeName t.typeName)

variable {kind : FieldKind} {t : Tree} {part : Bytes} {content : Content} {reason : Mismatch}

/-- An item of another type is refused for its type only. -/
theorem refuses_iff_of_not_asks (ht : t.major ≠ .tag) (h : ¬ kind.Asks t) :
    kind.Refuses t reason ↔ reason = .type kind.typeName t.typeName := by
  constructor
  · intro hr
    cases hr with
    | range => exact absurd (.uint _ _) h
    | above => exact absurd (.nonneg _ _) h
    | below => exact absurd (.negative _ _) h
    | width => exact absurd (.bytes _ _) h
    | tooLong => exact absurd (.text _ _) h
    | byteChunks => exact absurd (.byteChunks _ _) h
    | textChunks => exact absurd (.textChunks _ _) h
    | tagged => exact absurd rfl ht
    | type => rfl
  · rintro rfl
    exact .type ht h

/-- A tagged item is refused for its tag only. -/
theorem refuses_tagged_iff {n : UInt64} {inner : Tree} :
    kind.Refuses (.tagged n inner) reason ↔ reason = .tagged := by
  constructor
  · intro hr
    cases hr with
    | tagged => rfl
    | type ht => exact absurd rfl ht
  · rintro rfl
    exact .tagged kind n inner

theorem accept_of_not_asks (hc : t.scalar? part = some content) (h : ¬ kind.Asks t) :
    kind.accept content = .error (.type kind.typeName t.typeName) := by
  rw [← Tree.typeName_of_scalar hc]
  cases t with
  | container | tagged => cases hc
  | unsigned n =>
    cases hc
    cases kind with
    | uint width => exact absurd (.uint width n) h
    | int width => exact absurd (.nonneg width n) h
    | _ => rfl
  | negative n =>
    cases hc
    cases kind with
    | int width => exact absurd (.negative width n) h
    | _ => rfl
  | bytes content =>
    cases hc
    cases kind with
    | bytes size => exact absurd (.bytes size content) h
    | _ => rfl
  | byteChunks chunks =>
    cases hc
    cases kind with
    | bytes size => exact absurd (.byteChunks size chunks) h
    | _ => rfl
  | text content =>
    cases hc
    cases kind with
    | text most => exact absurd (.text most content) h
    | _ => rfl
  | textChunks chunks =>
    cases hc
    cases kind with
    | text most => exact absurd (.textChunks most chunks) h
    | _ => rfl
  | bool b =>
    cases hc
    cases kind with
    | bool => exact absurd (.bool b) h
    | _ => rfl
  | _ =>
    cases hc
    cases kind <;> rfl

/-- A test that ends in an error or not. -/
theorem ite_error_iff {p : Prop} [Decidable p] {value : FieldValue} {other : Mismatch} :
    (if p then Except.error other else Except.ok value) = .error reason ↔ p ∧ reason = other := by
  split
  case isTrue h => rw [Except.error.injEq, eq_comm, and_iff_right h]
  case isFalse h => exact iff_of_false (fun he => nomatch he) (fun he => h he.1)

theorem acceptInt_eq_error_iff {width : Width} {n : Int} :
    acceptInt width n = .error reason ↔
      ¬ (width.minSigned ≤ n ∧ n ≤ width.maxSigned) ∧
        reason = .intRange width.minSigned width.maxSigned n := by
  rw [acceptInt, ← ite_not, ite_error_iff]

/-- What is said of a scalar that is not admitted is true of it. -/
theorem refuses_of_accept_error (hc : t.scalar? part = some content) (ha : kind.accept content = .error reason) :
    kind.Refuses t reason := by
  -- An item of the right type is tested for its size; any other is refused by the last branch of `admit`.
  by_cases h : kind.Asks t
  · cases h with
    | uint width n =>
      cases hc
      obtain ⟨hmax, rfl⟩ := ite_error_iff.1 ha
      exact .range hmax
    | nonneg width n =>
      cases hc
      obtain ⟨hn, rfl⟩ := acceptInt_eq_error_iff.1 ha
      have hrange := width.signed_range
      exact .above (by omega)
    | negative width n =>
      cases hc
      obtain ⟨hn, rfl⟩ := acceptInt_eq_error_iff.1 ha
      have hrange := width.signed_range
      exact .below (by omega)
    | bool b =>
      cases hc
      cases ha
    | bytes size content =>
      cases hc
      rw [FieldKind.accept, ← ite_not, ite_error_iff] at ha
      obtain ⟨hsize, rfl⟩ := ha
      exact .width hsize
    | text most content =>
      cases hc
      obtain ⟨hmost, rfl⟩ := ite_error_iff.1 ha
      exact .tooLong hmost
    | byteChunks size chunks =>
      cases hc
      cases ha
      exact .byteChunks size chunks
    | textChunks most chunks =>
      cases hc
      cases ha
      exact .textChunks most chunks
  · rw [accept_of_not_asks hc h] at ha
    cases ha
    exact .type (Tree.major_of_scalar hc) h

/-- A scalar is refused for the reason that is given. -/
theorem accept_eq_error_iff (hc : t.scalar? part = some content) :
    kind.accept content = .error reason ↔ kind.Refuses t reason := by
  refine ⟨refuses_of_accept_error hc, fun hr => ?_⟩
  cases hr with
  | range h =>
    cases hc
    exact if_pos h
  | above h =>
    cases hc
    exact acceptInt_eq_error_iff.2 ⟨by omega, rfl⟩
  | below h =>
    cases hc
    exact acceptInt_eq_error_iff.2 ⟨by omega, rfl⟩
  | width h =>
    cases hc
    exact if_neg h
  | tooLong h =>
    cases hc
    exact if_pos h
  | byteChunks | textChunks =>
    cases hc
    rfl
  | tagged => cases hc
  | type ht h => exact accept_of_not_asks hc h

theorem accept_container_eq_error_iff {c : Cursor} {items : List Tree} :
    FieldKind.accept kind (.container c) = .error reason ↔
      kind.Refuses (.container c.kind c.isDefinite items) reason := by
  have hrefused : FieldKind.accept kind (.container c) =
      .error (.type kind.typeName (c.kind.typeName c.isDefinite)) := by
    cases kind <;> rfl
  have hmajor : (Tree.container c.kind c.isDefinite items).major ≠ .tag := by
    rw [Tree.major]
    cases c.kind <;> decide
  have hasks : ¬ kind.Asks (.container c.kind c.isDefinite items) := fun h => by cases h
  rw [hrefused, refuses_iff_of_not_asks hmajor hasks, Except.error.injEq, eq_comm]
  rfl

/-- What a kind of field makes of an item that has been read through. -/
def verdict (kind : FieldKind) (item : Item) : Except Mismatch FieldValue :=
  if item.tags.isEmpty then kind.accept item.content else .error .tagged

/-- An item that has been read through is refused for the reason that is given. -/
theorem verdict_eq_error_iff {item : Item} {rest : Bytes} (h : t.Written part)
    (hlen : part.length < 0x10000000000000000) (ho : Item.open? (part ++ rest) = .ok (some item)) :
    kind.verdict item = .error reason ↔ kind.Refuses t reason := by
  obtain ⟨numbers, item', ho', htags, hcontent⟩ := Item.open?_of_written h hlen rest
  rw [ho] at ho'
  cases ho'
  obtain ⟨⟨raw⟩, shortest, content, size⟩ := item
  rw [verdict]
  dsimp only at htags hcontent ⊢
  -- A tag is enough for a refusal, whatever stands behind it.
  cases htags with
  | nil =>
    rw [if_pos (show Tags.isEmpty ⟨[]⟩ = true from rfl)]
    rcases hcontent with ⟨leaf, body, rfl, -, hs, -⟩ | ⟨items, start, last, rfl, rfl, -⟩
    · exact accept_eq_error_iff hs
    · exact accept_container_eq_error_iff
  | @cons n numbers head raw hh htags =>
    have hne : ¬ Tags.isEmpty ⟨head ++ raw⟩ = true := by
      simp [Tags.isEmpty, hh.ne_nil]
    obtain ⟨inner, rfl⟩ : ∃ inner, t = .tagged n inner := by
      rcases hcontent with ⟨leaf, body, rfl, -⟩ | ⟨items, start, last, -, rfl, -⟩
      · exact ⟨_, rfl⟩
      · exact ⟨_, rfl⟩
    rw [if_neg hne, refuses_tagged_iff, Except.error.injEq, eq_comm]

end FieldKind

/-! ## Items of fields -/

open Record (maxNesting)

/-- An item that the kind admits stands at the front. -/
def FieldKind.Admits (kind : FieldKind) (rest : Bytes) : Prop :=
  ∃ value part after, rest = part ++ after ∧ kind.Written value part

/-- What is found where the item of a field should stand. -/
inductive Field.Finds (f : Field) (rest : Bytes) : RecordError → Prop
  /-- There is no item, or containers are nested deeper in it than they are followed. -/
  | noItem {cause : DecodeError}
      (hnone : ∀ (t : Tree) (part after : Bytes), rest = part ++ after → t.Written part → maxNesting < t.depth)
      (hcause : ((Entry.skip maxNesting).run rest).2 = .error cause) : Finds f rest (.ofDecode f.name cause)
  /-- There is an item, and the kind of the field refuses it. -/
  | refused {t : Tree} {part after : Bytes} {reason : Mismatch} (hrest : rest = part ++ after)
      (h : t.Written part) (hdepth : t.depth ≤ maxNesting) (hr : f.kind.Refuses t reason) :
      Finds f rest (.schemaMismatch f.name reason)

/-- No item that the field admits stands at the front, and the error is what is found there. -/
structure Field.FailsOn (f : Field) (rest : Bytes) (e : RecordError) : Prop where
  notAdmitted : ¬ f.kind.Admits rest
  finds : f.Finds rest e

/-- What is not skipped is no item, unless it is too deep. -/
theorem Entry.depth_of_skip_error {m : Nat} {data part after : Bytes} {cause : DecodeError} {t : Tree}
    (h : ((skip m).run data).2 = .error cause) (hlen : data.length < 0x10000000000000000)
    (hdata : data = part ++ after) (hw : t.Written part) : m < t.depth := by
  refine Nat.lt_of_not_le fun hdepth => ?_
  rw [hdata, List.length_append] at hlen
  obtain ⟨item, ho, hskip⟩ := Item.skip_of_written hw (by omega) hdepth after
  rw [hdata, run_skip, ho] at h
  exact nomatch hskip.symm.trans h

namespace Record

section Field
variable {name : String} {kind : FieldKind} {c : Cursor} {e : RecordError}

theorem readField_of_skip_error {cause : DecodeError} (hend : c.atEnd = (.ok false, c))
    (h : ((Entry.skip maxNesting).run c.rest).2 = .error cause) :
    readField name kind c = .error (.ofDecode name cause) := by
  rw [Entry.run_skip] at h
  rw [readField_eq, Cursor.next_eq, Cursor.peek_of_atEnd hend]
  cases hopen : Cursor.require (Item.open? c.rest) with
  | error cause' =>
    rw [hopen] at h
    cases h
    rfl
  | ok item =>
    rw [hopen] at h
    have hskip : item.skip maxNesting = .error cause := h
    dsimp only [Except.map, Except.bind, Option.elim]
    rw [visitField_eq, hskip]
    rfl

theorem readField_of_skip {item : Item} {n : Nat} (hend : c.atEnd = (.ok false, c))
    (ho : Item.open? c.rest = .ok (some item)) (hskip : item.skip maxNesting = .ok n) :
    readField name kind c =
      ((kind.verdict item).mapError (.schemaMismatch name)).map (·, c.advance n) := by
  rw [readField_eq, Cursor.next_eq, Cursor.peek_of_atEnd hend, ho]
  dsimp only [Cursor.require, Except.map, Except.bind, Option.elim]
  rw [visitField_eq, hskip]
  rfl

/-- A field is not read exactly if something is found that is not as the field asks. -/
theorem readField_eq_error_iff (hend : c.atEnd = (.ok false, c))
    (hlen : c.rest.length < 0x10000000000000000) :
    readField name kind c = .error e ↔ Field.FailsOn ⟨name, kind⟩ c.rest e := by
  constructor
  · intro h
    refine ⟨?_, ?_⟩
    · rintro ⟨value, part, after, hrest, hw⟩
      rw [readField_eq_ok_iff.2 ⟨hend, part, after, hrest, hw, rfl⟩] at h
      cases h
    -- The item is skipped before its kind is tested, so that a bad item inside of it is reported first.
    cases hrun : ((Entry.skip maxNesting).run c.rest).2 with
    | error cause =>
      rw [readField_of_skip_error hend hrun] at h
      cases h
      exact .noItem (fun t part after => Entry.depth_of_skip_error hrun hlen) hrun
    | ok n =>
      obtain ⟨item, ho, hskip⟩ := Entry.run_eq_ok_iff.1 hrun
      obtain ⟨t, part, after, hrest, -, hw, hdepth⟩ := Item.passes_skip maxNesting ho hskip
      rw [readField_of_skip hend ho hskip] at h
      rw [hrest] at ho
      rw [hrest, List.length_append] at hlen
      cases hverdict : kind.verdict item with
      | ok value =>
        rw [hverdict] at h
        cases h
      | error reason =>
        rw [hverdict] at h
        cases h
        exact .refused hrest hw hdepth ((FieldKind.verdict_eq_error_iff hw (by omega) ho).1 hverdict)
  · rintro ⟨-, hfinds⟩
    cases hfinds with
    | noItem _ hcause => exact readField_of_skip_error hend hcause
    | @refused t part after reason hrest hw hdepth hr =>
      rw [hrest, List.length_append] at hlen
      obtain ⟨item, ho, hskip⟩ := Item.skip_of_written hw (by omega) hdepth after
      have hverdict := (FieldKind.verdict_eq_error_iff hw (by omega) ho).2 hr
      rw [← hrest] at ho
      rw [readField_of_skip hend ho hskip, hverdict]
      rfl

end Field

end Record

/-! ## Fields in order -/

/-- What is wrong where the items of fields should stand: one of them is, behind items that their fields
admit. -/
def Field.FirstFails (fields : List Field) (rest : Bytes) (e : RecordError) : Prop :=
  ∃ front f back values parts after, fields = front ++ f :: back ∧ rest = parts.flatten ++ after ∧
    Field.Lays front values parts ∧ f.FailsOn after e

namespace Field
variable {f : Field} {fields : List Field} {rest : Bytes} {e : RecordError}

theorem not_firstFails_nil : ¬ FirstFails [] rest e := by
  rintro ⟨front, f, back, values, parts, after, hfields, -⟩
  exact absurd hfields (by simp)

theorem firstFails_of_not_admits (h : ¬ f.kind.Admits rest) :
    FirstFails (f :: fields) rest e ↔ f.FailsOn rest e := by
  constructor
  · rintro ⟨front, g, back, values, parts, after, hfields, hrest, hlays, hg⟩
    cases hlays with
    | nil =>
      cases hfields
      exact hrest ▸ hg
    | cons hw hlays =>
      cases hfields
      rw [List.flatten_cons, List.append_assoc] at hrest
      exact absurd ⟨_, _, _, hrest, hw⟩ h
  · intro hf
    exact ⟨[], f, fields, [], [], rest, rfl, rfl, .nil, hf⟩

theorem firstFails_of_written {value : FieldValue} {part : Bytes} (hw : f.kind.Written value part) :
    FirstFails (f :: fields) (part ++ rest) e ↔ FirstFails fields rest e := by
  constructor
  · rintro ⟨front, g, back, values, parts, after, hfields, hrest, hlays, hg⟩
    cases hlays with
    | nil =>
      cases hfields
      exact absurd ⟨_, _, _, hrest.symm, hw⟩ hg.notAdmitted
    | @cons _ front' value' values' part' parts' hw' hlays =>
      cases hfields
      rw [List.flatten_cons, List.append_assoc] at hrest
      obtain ⟨-, -, rfl⟩ := hw.append_inj hw' hrest
      exact ⟨front', g, back, values', parts', after, rfl, rfl, hlays, hg⟩
  · rintro ⟨front, g, back, values, parts, after, rfl, rfl, hlays, hg⟩
    refine ⟨f :: front, g, back, value :: values, part :: parts, after, rfl, ?_, .cons hw hlays, hg⟩
    rw [List.flatten_cons, List.append_assoc]

end Field

namespace Record
variable {ρ : Type} [Record ρ] [Lawful ρ]

/-- Fields are not read because of the first one that is not as it should be. -/
theorem readFields_eq_error_iff {fields : List Field} {filled : List FieldValue} {record : ρ} {c : Cursor}
    {e : RecordError} {n : Nat} (hfields : (schema ρ).fields.drop filled.length = fields)
    (hfilled : Filled filled record) (hcount : c.count = some n) (hle : c.parsed + fields.length ≤ n)
    (hlen : c.rest.length < 0x10000000000000000) :
    readFields filled.length fields record c = .error e ↔ Field.FirstFails fields c.rest e := by
  -- By induction on the fields that are left; `filled` has the values of those in front of the cursor.
  induction fields generalizing filled record c with
  | nil => exact iff_of_false (fun h => nomatch h) Field.not_firstFails_nil
  | cons f fields ih =>
    rw [List.length_cons] at hle
    have hend : c.atEnd = (.ok false, c) :=
      Cursor.atEnd_eq_false_iff.2 ⟨rfl, .inl ⟨n, hcount, by omega⟩⟩
    rw [readFields_cons]
    cases hread : readField f.name f.kind c with
    | error e' =>
      have hfails : f.FailsOn c.rest e' := (readField_eq_error_iff hend hlen).1 hread
      rw [Field.firstFails_of_not_admits hfails.notAdmitted, ← readField_eq_error_iff hend hlen, hread]
      rw [Except.bind, Except.error.injEq, Except.error.injEq]
    | ok read =>
      obtain ⟨value, c'⟩ := read
      obtain ⟨-, part, after, hrest, hw, rfl⟩ := readField_eq_ok_iff.1 hread
      obtain ⟨record', hset, hnext⟩ := Lawful.exists_set hfields hfilled hw.conforms
      have hafter : (c.advance part.length).rest = after := Cursor.advance_rest hrest
      have hle' : c.parsed + 1 + fields.length ≤ n := by omega
      have hshort : (c.advance part.length).rest.length < 0x10000000000000000 := by
        rw [hrest, List.length_append] at hlen
        rw [hafter]
        omega
      have hlength : filled.length + 1 = (filled ++ [value]).length := by simp
      rw [hrest, Field.firstFails_of_written hw, ← hafter,
        ← ih (c := c.advance part.length) hnext (.set hfilled hset) hcount hle' hshort, ← hlength]
      dsimp only [Except.bind]
      rw [hset]
      rfl

end Record

/-! ## Records -/

namespace Schema

/-- What is wrong where the key of a record should stand. -/
inductive KeyFailsOn (s : Schema) (rest : Bytes) : RecordError → Prop
  | item {e : RecordError} (h : Field.FailsOn ⟨"key", .uint .w64⟩ rest e) : KeyFailsOn s rest e
  | other {found : Nat} {part after : Bytes} (hrest : rest = part ++ after)
      (h : Head.Written .unsigned found part) (hne : found ≠ s.key.id.toNat) :
      KeyFailsOn s rest (.schemaMismatch "key" (.key s.key.id.toNat found))

/-- How the item at the front differs from the array of a record. A container is not followed, so that its head
is enough. -/
inductive RefusesFront (s : Schema) : Bytes → Mismatch → Prop
  | tagged {numbers : List UInt64} {raw front rest : Bytes} {content : Content} {shortest : Bool}
      (ht : Tags.Written numbers raw) (hne : raw ≠ [])
      (h : Content.Opens raw.length rest front content shortest) :
      RefusesFront s (raw ++ (front ++ rest)) .tagged
  | indefinite (rest : Bytes) : RefusesFront s (Head.initial .array 31 :: rest) .indefinite
  | fieldCount {n : Nat} {head rest : Bytes} (h : Head.Written .array n head) (hn : n ≠ s.itemCount) :
      RefusesFront s (head ++ rest) (.fieldCount s.itemCount n)
  | map {n : Nat} {head rest : Bytes} (h : Head.Written .map n head) (hn : n * 2 < 0x10000000000000000) :
      RefusesFront s (head ++ rest) (.type "Definite-length Array" (Container.map.typeName true))
  | indefiniteMap (rest : Bytes) :
      RefusesFront s (Head.initial .map 31 :: rest)
        (.type "Definite-length Array" (Container.map.typeName false))
  | scalar {t : Tree} {part rest : Bytes} (h : t.Written part) (hs : (t.scalar? part).isSome) :
      RefusesFront s (part ++ rest) (.type "Definite-length Array" t.typeName)

/-- What is wrong with bytes that are no record: one item, behind items that are all as they should be. -/
inductive FailsOn (s : Schema) (data : Bytes) : RecordError → Prop
  | header {cause : DecodeError} (hnone : ∀ (t : Tree) (part rest : Bytes), data = part ++ rest → ¬ t.Written part)
      (hcause : Cursor.require (Item.open? data) = .error cause) :
      FailsOn s data (.ofDecode RecordError.header cause)
  | array {reason : Mismatch} (h : s.RefusesFront data reason) : FailsOn s data (.schemaMismatch s.name reason)
  | key {head rest : Bytes} {e : RecordError} (hdata : data = head ++ rest)
      (hhead : Head.Written .array s.itemCount head) (h : s.KeyFailsOn rest e) : FailsOn s data e
  | field {head key rest : Bytes} {e : RecordError} (hdata : data = head ++ (key ++ rest))
      (hhead : Head.Written .array s.itemCount head) (hkey : Head.Written .unsigned s.key.id.toNat key)
      (h : Field.FirstFails s.fields rest e) : FailsOn s data e

end Schema

namespace Record

theorem written_of_head {found : Nat} {part : Bytes} (h : Head.Written .unsigned found part) :
    FieldKind.Written (.uint .w64) (.uint (UInt64.ofNat found)) part := by
  have hfound : (UInt64.ofNat found).toNat = found := UInt64.toNat_ofNat_of_lt' h.argument_lt
  rw [← hfound] at h
  exact .uint h (Nat.le_of_lt_succ (UInt64.ofNat found).toNat_lt)

theorem readKey_eq_error_iff {s : Schema} {c : Cursor} {e : RecordError} (hend : c.atEnd = (.ok false, c))
    (hlen : c.rest.length < 0x10000000000000000) : readKey s.key c = .error e ↔ s.KeyFailsOn c.rest e := by
  unfold readKey
  cases hread : readField "key" (.uint .w64) c with
  | error e' =>
    have hfails := (readField_eq_error_iff hend hlen).1 hread
    rw [Except.error.injEq]
    constructor
    · rintro rfl
      exact .item hfails
    · intro h
      cases h with
      | item h => exact Except.error.inj (hread.symm.trans ((readField_eq_error_iff hend hlen).2 h))
      | other hrest hw hne => exact absurd ⟨_, _, _, hrest, written_of_head hw⟩ hfails.notAdmitted
  | ok read =>
    obtain ⟨value, c'⟩ := read
    obtain ⟨-, part, after, hrest, hw, -⟩ := readField_eq_ok_iff.1 hread
    cases hw with
    | @uint width n head hhead hmax =>
      dsimp only
      constructor
      · intro h
        split at h
        · cases h
        · rename_i hne
          cases h
          exact .other hrest hhead hne
      · intro h
        cases h with
        | item h => exact absurd ⟨_, _, _, hrest, .uint hhead hmax⟩ h.notAdmitted
        | @other found part' after' hrest' hfound hne =>
          -- Both keys stand at the front, so they are one.
          obtain ⟨hvalue, -⟩ := FieldKind.Written.append_inj (.uint hhead hmax) (written_of_head hfound)
            (hrest.symm.trans hrest')
          have hn : n.toNat = found := by
            rw [FieldValue.uint.inj hvalue, UInt64.toNat_ofNat_of_lt' hfound.argument_lt]
          rw [if_neg (by rwa [hn]), hn]

section Array
variable {s : Schema} {rest front : Bytes} {content : Content} {shortest : Bool} {size : Nat} {e : RecordError}

theorem openArray_tagged {raw : Bytes} (h : raw ≠ []) :
    openArray s ⟨⟨raw⟩, shortest, content, size⟩ = .error (.schemaMismatch s.name .tagged) := by
  have hne : ¬ Tags.isEmpty ⟨raw⟩ = true := by simpa [Tags.isEmpty] using h
  rw [openArray, if_neg hne]

theorem openArray_scalar (h : ∀ c, content ≠ .container c) :
    openArray s ⟨⟨[]⟩, shortest, content, size⟩ =
      .error (.schemaMismatch s.name (.type "Definite-length Array" content.typeName)) := by
  cases content with
  | container c => exact absurd rfl (h c)
  | _ => rfl

/-- What opens without tags and is not the array of a record differs from it. -/
theorem refusesFront_of_opens (h : Content.Opens 0 rest front content shortest)
    (he : openArray s ⟨⟨[]⟩, shortest, content, size⟩ = .error e) :
    ∃ reason, e = .schemaMismatch s.name reason ∧ s.RefusesFront (front ++ rest) reason := by
  cases h with
  | scalar hw hc =>
    rw [openArray_scalar (Tree.scalar?_ne_container hc), Tree.typeName_of_scalar hc] at he
    cases he
    exact ⟨_, rfl, .scalar hw (by rw [hc]; rfl)⟩
  | @definite kind n head hw hn =>
    cases kind with
    | array =>
      rw [show n * Container.array.arity = n from Nat.mul_one n] at he
      change (if n = s.itemCount then Except.ok _ else Except.error _) = Except.error e at he
      split at he
      · cases he
      · rename_i hne
        cases he
        exact ⟨_, rfl, .fieldCount hw hne⟩
    | map =>
      cases he
      exact ⟨_, rfl, .map hw hn⟩
  | indefinite kind =>
    cases kind with
    | array =>
      cases he
      exact ⟨_, rfl, .indefinite rest⟩
    | map =>
      cases he
      exact ⟨_, rfl, .indefiniteMap rest⟩

theorem refusesFront_of_openArray {data : Bytes} {item : Item} (ho : Item.open? data = .ok (some item))
    (he : openArray s item = .error e) :
    ∃ reason, e = .schemaMismatch s.name reason ∧ s.RefusesFront data reason := by
  obtain ⟨numbers, front, rest, htags, hdata, hopens, -⟩ := Item.open?_eq_some_iff.1 ho
  obtain ⟨⟨raw⟩, shortest, content, size⟩ := item
  dsimp only at htags hdata hopens
  subst hdata
  by_cases hraw : raw = []
  · subst hraw
    rw [List.nil_append]
    exact refusesFront_of_opens hopens he
  · rw [openArray_tagged hraw] at he
    cases he
    exact ⟨_, rfl, .tagged htags hraw hopens⟩

/-- What differs from the array of a record opens, but not as one. -/
theorem exists_open_of_refusesFront {data : Bytes} {reason : Mismatch} (h : s.RefusesFront data reason) :
    ∃ item, Item.open? data = .ok (some item) ∧ openArray s item = .error (.schemaMismatch s.name reason) := by
  cases h with
  | tagged htags hraw hopens => exact ⟨_, Item.open?_of_opens htags hopens, openArray_tagged hraw⟩
  | indefinite rest => exact ⟨_, Item.open?_of_opens .nil (.indefinite .array), rfl⟩
  | @fieldCount n head rest hw hne =>
    have hhead : Head.Written Container.array.major n head := hw
    have hn : n * Container.array.arity = n := Nat.mul_one n
    refine ⟨_, Item.open?_of_opens .nil (.definite hhead (by rw [hn]; exact hw.argument_lt)), ?_⟩
    rw [hn]
    exact if_neg hne
  | @map n head rest hw hn =>
    have hhead : Head.Written Container.map.major n head := hw
    exact ⟨_, Item.open?_of_opens .nil (.definite hhead hn), rfl⟩
  | indefiniteMap rest => exact ⟨_, Item.open?_of_opens .nil (.indefinite .map), rfl⟩
  | scalar hw hs =>
    obtain ⟨content, hc⟩ := Option.isSome_iff_exists.1 hs
    refine ⟨_, Item.open?_of_opens .nil (.scalar hw hc), ?_⟩
    rw [openArray_scalar (Tree.scalar?_ne_container hc), Tree.typeName_of_scalar hc]

end Array

variable {ρ : Type} [Record ρ]

theorem decodePrefix_of_readItems {head rest : Bytes} {e : RecordError}
    (hhead : Head.Written .array (schema ρ).itemCount head)
    (h : (readItems (start (schema ρ) head.length rest) : Except RecordError (ρ × Cursor)) = .error e) :
    decodePrefix ρ (head ++ rest) = .error e := by
  obtain ⟨item, ho, harray, -⟩ := openArray_of_written hhead rest
  rw [decodePrefix, ho]
  dsimp only
  rw [harray]
  dsimp only
  rw [h]

variable [Lawful ρ]

/-- The items of a record are not read because of the key or, behind the right one, because of the fields. -/
theorem readItems_eq_error_iff {offset : Nat} {rest : Bytes} {e : RecordError}
    (hlen : rest.length < 0x10000000000000000) :
    (readItems (start (schema ρ) offset rest) : Except RecordError (ρ × Cursor)) = .error e ↔
      (schema ρ).KeyFailsOn rest e ∨
        ∃ key after, rest = key ++ after ∧ Head.Written .unsigned (schema ρ).key.id.toNat key ∧
          Field.FirstFails (schema ρ).fields after e := by
  have hend := atEnd_start (schema ρ) offset rest
  have hkeys {e : RecordError} :
      readKey (schema ρ).key (start (schema ρ) offset rest) = .error e ↔ (schema ρ).KeyFailsOn rest e :=
    readKey_eq_error_iff hend hlen
  rw [readItems_eq]
  cases hread : readKey (schema ρ).key (start (schema ρ) offset rest) with
  | error e' =>
    constructor
    · intro h
      cases h
      exact .inl (hkeys.1 hread)
    · rintro (h | ⟨key, after, hrest, hkey, -⟩)
      · rw [hkeys.2 h] at hread
        cases hread
        rfl
      · rw [readKey_eq_ok_iff.2 ⟨hend, key, after, hrest, hkey, rfl⟩] at hread
        cases hread
  | ok c =>
    obtain ⟨-, key, after, hrest, hkey, rfl⟩ := readKey_eq_ok_iff.1 hread
    have hblank : Filled [] (blank : ρ) := .blank
    have hafter : ((start (schema ρ) offset rest).advance key.length).rest = after := Cursor.advance_rest hrest
    have hle : 0 + 1 + (schema ρ).fields.length ≤ (schema ρ).itemCount := by
      rw [Schema.itemCount]
      omega
    have hshort : ((start (schema ρ) offset rest).advance key.length).rest.length < 0x10000000000000000 := by
      have hlength := congrArg List.length hrest
      rw [List.length_append] at hlength
      rw [hafter]
      change rest.length = _ at hlength
      omega
    have hfields := readFields_eq_error_iff (e := e) rfl hblank rfl hle hshort
    rw [hafter] at hfields
    refine hfields.trans ⟨fun h => .inr ⟨key, after, hrest, hkey, h⟩, ?_⟩
    rintro (h | ⟨key', after', hrest', hkey', h⟩)
    · rw [← hkeys, hread] at h
      cases h
    · obtain ⟨-, rfl⟩ := hkey.append_inj hkey' (hrest.symm.trans hrest')
      exact h

/-- Where no item opens, none stands. -/
theorem failsOn_header {s : Schema} {data : Bytes} {cause : DecodeError} (hdata : data.length < 0x10000000000000000)
    (h : Cursor.require (Item.open? data) = .error cause) : s.FailsOn data (.ofDecode RecordError.header cause) := by
  refine .header ?_ h
  rintro t part rest rfl hw
  rw [List.length_append] at hdata
  obtain ⟨numbers, item, ho, -⟩ := Item.open?_of_written hw (by omega) rest
  rw [ho] at h
  cases h

/-- Behind the head of its array, the items of a record decide. -/
theorem failsOn_of_readItems {head rest : Bytes} {e : RecordError}
    (hdata : (head ++ rest).length < 0x10000000000000000) (hhead : Head.Written .array (schema ρ).itemCount head)
    (h : (readItems (start (schema ρ) head.length rest) : Except RecordError (ρ × Cursor)) = .error e) :
    (schema ρ).FailsOn (head ++ rest) e := by
  rw [List.length_append] at hdata
  rcases (readItems_eq_error_iff (by omega)).1 h with hkey | ⟨key, after, rfl, hkey, hfields⟩
  · exact .key rfl hhead hkey
  · exact .field rfl hhead hkey hfields

/-- Decoding fails exactly if something is wrong with the bytes, and reports what this is: the first item that is
not as it should be, with facts about this item. -/
theorem failure_is_of_first_wrong_item {data : Bytes} {e : RecordError}
    (hdata : data.length < 0x10000000000000000) :
    decodePrefix ρ data = .error e ↔ (schema ρ).FailsOn data e := by
  constructor
  · intro h
    unfold decodePrefix at h
    split at h
    · rename_i cause hopen
      cases h
      exact failsOn_header hdata (by rw [hopen]; rfl)
    · rename_i hopen
      cases h
      exact failsOn_header hdata (by rw [hopen]; rfl)
    · rename_i item ho
      split at h
      · rename_i e' harray
        cases h
        obtain ⟨reason, rfl, hr⟩ := refusesFront_of_openArray ho harray
        exact .array hr
      · rename_i c harray
        obtain ⟨head, rest, rfl, hhead, rfl⟩ := written_of_openArray ho harray
        split at h
        · rename_i e' hread
          cases h
          exact failsOn_of_readItems hdata hhead hread
        · rename_i record c' hread
          obtain ⟨values, key, parts, rest', -, hlays, -, -, rfl⟩ := written_of_readItems hread
          rw [close_behind hlays] at h
          cases h
  · intro h
    cases h with
    | header _ hcause =>
      rw [decodePrefix_eq, hcause]
      rfl
    | array hr =>
      obtain ⟨item, ho, harray⟩ := exists_open_of_refusesFront hr
      rw [decodePrefix, ho]
      dsimp only
      rw [harray]
    | @key head rest _ hsplit hhead hkey =>
      rw [hsplit, List.length_append] at hdata
      rw [hsplit]
      exact decodePrefix_of_readItems hhead ((readItems_eq_error_iff (by omega)).2 (.inl hkey))
    | @field head key rest _ hsplit hhead hkey hfields =>
      rw [hsplit, List.length_append] at hdata
      rw [hsplit]
      exact decodePrefix_of_readItems hhead
        ((readItems_eq_error_iff (by omega)).2 (.inr ⟨key, rest, rfl, hkey, hfields⟩))

/-- The least integer that can be written, and a map of indefinite length, for the second field of a row. -/
theorem least_integer_and_map_are_wrong :
    let s : Schema := ⟨"sample", .person, [⟨"count", .uint .w8⟩, ⟨"shift", .int .w64⟩]⟩
    let integer : Bytes := [0x83, 0x00, 0x18, 0x07, 0x3B, 0xFF, 0xFF, 0xFF, 0xFF, 0xFF, 0xFF, 0xFF, 0xFF]
    let map : Bytes := [0x83, 0x00, 0x18, 0x07, 0xBF, 0x01, 0x80, 0xFF]
    let outside := Mismatch.intRange (-0x8000000000000000) 0x7FFFFFFFFFFFFFFF (-0x10000000000000000)
    let notInteger := Mismatch.type "Integer" "Indefinite-length Map"
    integer.length < 0x10000000000000000 ∧ map.length < 0x10000000000000000 ∧
      decodePrefix (Row s) integer = .error (.schemaMismatch "shift" outside) ∧
      s.FailsOn integer (.schemaMismatch "shift" outside) ∧
      decodePrefix (Row s) map = .error (.schemaMismatch "shift" notInteger) ∧
      s.FailsOn map (.schemaMismatch "shift" notInteger) := by
  intro s integer map outside notInteger
  have hinteger : decodePrefix (Row s) integer = .error (.schemaMismatch "shift" outside) := by decide +kernel
  have hmap : decodePrefix (Row s) map = .error (.schemaMismatch "shift" notInteger) := by decide +kernel
  exact ⟨by decide, by decide, hinteger, (failure_is_of_first_wrong_item (by decide)).1 hinteger, hmap,
    (failure_is_of_first_wrong_item (by decide)).1 hmap⟩

end Record

end CborRecords
