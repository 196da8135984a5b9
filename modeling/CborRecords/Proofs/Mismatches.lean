import CborRecords.Proofs.Truncation

/-!
# Mismatches and further input

An item that is not what a schema asks for stays so, whatever follows the bytes that were read. There is
one exception: input that ends right behind tags counts as a mismatch, although it may go on.

* `Extends.reported` : errors of the item decoder as errors of a field;
* `Record.readField_extends`, `Record.readFields_extends`, `Record.decodePrefix_extends` : reading with
  more bytes behind the input;
* `Record.mismatch_stays_iff` : the mismatches that no further input changes;
* `Record.tag_at_end_is_mismatch` : input that ends behind a tag, and the same input one byte later.
-/

namespace CborRecords

/-! ## Fields -/

theorem RecordError.ofDecode_eq_justTags_iff {field place : String} {e : DecodeError} :
    ofDecode field e = ofDecode place .justTags ↔ field = place ∧ e = .justTags := by
  cases e <;> simp [ofDecode]

theorem Extends.reported {α β : Type} {tags : Prop} {more : Bytes} {f : α → β} {r : Except DecodeError α}
    {r' : Except DecodeError β} (h : Extends .plain tags more f r r') (field : String) :
    Extends RecordError.ofDecode tags more f (r.mapError (.ofDecode field))
      (r'.mapError (.ofDecode field)) := by
  cases h with
  | ok a => exact .ok a
  | error h =>
    refine .error fun place he => ?_
    exact h () (RecordError.ofDecode_eq_justTags_iff.1 he).2
  | ended => exact .ended field _
  | afterTags ht place hr =>
    refine .afterTags ht field fun hmore => ?_
    rw [hr hmore]
    rfl

/-- More bytes behind a container do not change how it differs from what a field asks for. -/
theorem FieldKind.accept_extend (kind : FieldKind) (content : Content) (more : Bytes) :
    kind.accept (content.extend more) = kind.accept content := by
  cases content with
  | container c => cases kind <;> rfl
  | _ => rfl

theorem FieldKind.acceptInt_ne_malformed (width : Width) (n : Int) (cause : DecodeError) :
    acceptInt width n ≠ .error (.malformed cause) := by
  unfold acceptInt
  split <;> simp

theorem FieldKind.accept_ne_malformed (kind : FieldKind) (content : Content) (cause : DecodeError) :
    kind.accept content ≠ .error (.malformed cause) := by
  unfold FieldKind.accept
  split
  · split <;> simp
  · exact acceptInt_ne_malformed _ _ _
  · exact acceptInt_ne_malformed _ _ _
  · simp
  · split <;> simp
  · split <;> simp
  · simp
  · simp
  · simp

/-- A mismatch that is no malformed item is no error of the item decoder. -/
theorem RecordError.schemaMismatch_ne_ofDecode {field : String} {reason : Mismatch}
    (h : ∀ cause, reason ≠ .malformed cause) (place : String) :
    schemaMismatch field reason ≠ ofDecode place .justTags := by
  intro he
  cases he
  exact h _ rfl

namespace Record

theorem visitField_extends (kind : FieldKind) {data : Bytes} {item : Item}
    (ho : Item.open? data = .ok (some item)) (more : Bytes) :
    Extends .plain True more id (visitField kind item) (visitField kind (item.extend more)) := by
  rw [visitField_eq, visitField_eq]
  refine ((Item.confined_skip maxNesting more).extends_visit ho).map ?_
  intro n _
  have haccept : kind.accept (item.extend more).content = kind.accept item.content :=
    kind.accept_extend item.content more
  rw [haccept]
  rfl

theorem visitField_ne_malformed {kind : FieldKind} {item : Item} {reason : Mismatch} {n : Nat}
    (h : visitField kind item = .ok (.error reason, n)) (cause : DecodeError) :
    reason ≠ .malformed cause := by
  rw [visitField_eq] at h
  cases hskip : item.skip maxNesting with
  | error e =>
    rw [hskip] at h
    cases h
  | ok m =>
    rw [hskip] at h
    obtain ⟨hverdict, -⟩ := Prod.mk.inj (Except.ok.inj h)
    rintro rfl
    split at hverdict
    · exact FieldKind.accept_ne_malformed kind _ _ hverdict
    · cases hverdict

theorem length_le_of_visitField {kind : FieldKind} {data : Bytes} {item : Item}
    {seen : Except Mismatch FieldValue × Nat} (ho : Item.open? data = .ok (some item))
    (h : visitField kind item = .ok seen) : seen.2 ≤ data.length := by
  rw [visitField_eq] at h
  cases hskip : item.skip maxNesting with
  | error e =>
    rw [hskip] at h
    cases h
  | ok n =>
    rw [hskip] at h
    cases h
    exact Item.length_le_of_skip ho hskip

theorem next_extends (kind : FieldKind) (c : Cursor) (more : Bytes) :
    Extends .plain True more (Prod.map id (Cursor.extend more))
      ((c.next (visitField kind)).1.map (·, (c.next (visitField kind)).2))
      (((c.extend more).next (visitField kind)).1.map (·, ((c.extend more).next (visitField kind)).2)) := by
  rw [Cursor.next_eq, Cursor.next_eq]
  refine (Cursor.peek_extends more c).bind ?_
  rintro ⟨found, c'⟩ hfound
  cases found with
  | none => exact .ended () _
  | some item =>
    obtain ⟨rfl, -, ho⟩ := Cursor.peek_eq_some_iff.1 (Cursor.peek_of_map_eq_ok hfound)
    refine (visitField_extends kind ho more).map ?_
    intro seen hseen
    dsimp only [Prod.map, id]
    rw [Cursor.advance_extend (length_le_of_visitField ho hseen)]

/-- A field is read alike with more bytes behind it. -/
theorem readField_extends (name : String) (kind : FieldKind) (c : Cursor) (more : Bytes) :
    Extends RecordError.ofDecode True more (Prod.map id (Cursor.extend more)) (readField name kind c)
      (readField name kind (c.extend more)) := by
  rw [readField_eq, readField_eq]
  refine ((next_extends kind c more).reported name).bind ?_
  rintro ⟨⟨verdict, n⟩, c'⟩ hread
  cases verdict with
  | ok value => exact .ok (value, c')
  | error reason =>
    obtain ⟨item, hvisit⟩ : ∃ item, visitField kind item = .ok (.error reason, n) := by
      rcases hnext : c.next (visitField kind) with ⟨e | seen, c''⟩
      · rw [hnext] at hread
        cases hread
      · rw [hnext] at hread
        cases hread
        obtain ⟨item, -, -, hvisit, -⟩ := Cursor.next_eq_ok_iff.1 hnext
        exact ⟨item, hvisit⟩
    exact .error (RecordError.schemaMismatch_ne_ofDecode (visitField_ne_malformed hvisit))

theorem readKey_extends (key : Key) (c : Cursor) (more : Bytes) :
    Extends RecordError.ofDecode True more (Cursor.extend more) (readKey key c)
      (readKey key (c.extend more)) := by
  unfold readKey
  have hread := readField_extends "key" (.uint .w64) c more
  generalize readField "key" (.uint .w64) c = r at hread ⊢
  generalize readField "key" (.uint .w64) (c.extend more) = r' at hread ⊢
  cases hread with
  | error h => exact .error h
  | ended place => exact .ended place _
  | afterTags ht place hr =>
    refine .afterTags ht place fun hmore => ?_
    rw [hr hmore]
  | ok read =>
    obtain ⟨value, c'⟩ := read
    cases value with
    | uint found =>
      exact .ite (fun _ => .ok c') fun _ => .error (RecordError.schemaMismatch_ne_ofDecode nofun)
    | _ => exact .error (RecordError.schemaMismatch_ne_ofDecode nofun)

variable {ρ : Type} [Record ρ]

/-- Fields are read alike with more bytes behind them. A record takes the values that conform, so that
setting them adds no mismatch. -/
theorem readFields_extends [Lawful ρ] {fields : List Field} {filled : List FieldValue} {record : ρ}
    (hfields : (schema ρ).fields.drop filled.length = fields) (hfilled : Filled filled record) (c : Cursor)
    (more : Bytes) :
    Extends RecordError.ofDecode True more (Prod.map id (Cursor.extend more))
      (readFields filled.length fields record c) (readFields filled.length fields record (c.extend more)) := by
  induction fields generalizing filled record c with
  | nil => exact .ok (record, c)
  | cons f fields ih =>
    rw [readFields_cons, readFields_cons]
    refine (readField_extends f.name f.kind c more).bind ?_
    rintro ⟨value, c'⟩ hread
    obtain ⟨-, part, rest, -, hw, -⟩ := readField_eq_ok_iff.1 hread
    obtain ⟨record₁, hset, hnext⟩ := Lawful.exists_set hfields hfilled hw.conforms
    have hlen : filled.length + 1 = (filled ++ [value]).length := by simp
    dsimp only [Prod.map, id]
    rw [hset, hlen]
    exact ih hnext (.set hfilled hset) c'

theorem readItems_extends [Lawful ρ] (c : Cursor) (more : Bytes) :
    Extends RecordError.ofDecode True more (Prod.map id (Cursor.extend more))
      (readItems c : Except RecordError (ρ × Cursor)) (readItems (c.extend more)) := by
  have hblank : Filled [] (blank : ρ) := .blank
  rw [readItems_eq, readItems_eq]
  exact (readKey_extends (schema ρ).key c more).bind fun c' _ => readFields_extends rfl hblank c' more

/-! ## Records -/

theorem openArray_extends (s : Schema) (item : Item) (more : Bytes) :
    Extends RecordError.ofDecode True more (Cursor.extend more) (openArray s item)
      (openArray s (item.extend more)) := by
  obtain ⟨tags, shortest, content, size⟩ := item
  unfold openArray
  dsimp only [Item.extend]
  refine .ite (fun _ => ?_) fun _ => .error (RecordError.schemaMismatch_ne_ofDecode nofun)
  cases content with
  | container c =>
    obtain ⟨kind, count, rest, offset, parsed⟩ := c
    cases kind with
    | array =>
      cases count with
      | none => exact .error (RecordError.schemaMismatch_ne_ofDecode nofun)
      | some found =>
        exact .ite (fun _ => .ok _) fun _ => .error (RecordError.schemaMismatch_ne_ofDecode nofun)
    | map => exact .error (RecordError.schemaMismatch_ne_ofDecode nofun)
  | _ => exact .error (RecordError.schemaMismatch_ne_ofDecode nofun)

/-- A record is decoded alike with more bytes behind its input. -/
theorem decodePrefix_extends [Lawful ρ] (data more : Bytes) :
    Extends RecordError.ofDecode True more id (decodePrefix ρ data) (decodePrefix ρ (data ++ more)) := by
  rw [decodePrefix_eq, decodePrefix_eq]
  refine ((Item.open?_extends data more).reported _).bind ?_
  intro item _
  refine (openArray_extends (schema ρ) item more).bind ?_
  intro c _
  refine (readItems_extends c more).bind ?_
  rintro ⟨record, c'⟩ _
  exact ((c'.close_extends more).reported _).map fun _ _ => rfl

/-- A mismatch that is not caused by input that ends behind tags. -/
theorem decodePrefix_append_of_mismatch [Lawful ρ] {data : Bytes} {field : String} {reason : Mismatch}
    (h : decodePrefix ρ data = .error (.schemaMismatch field reason)) (hreason : reason ≠ .malformed .justTags)
    (more : Bytes) : decodePrefix ρ (data ++ more) = .error (.schemaMismatch field reason) := by
  have hmore := decodePrefix_extends (ρ := ρ) data more
  rw [h] at hmore
  generalize he : RecordError.schemaMismatch field reason = e at hmore ⊢
  generalize decodePrefix ρ (data ++ more) = r at hmore ⊢
  cases hmore with
  | error => rfl
  | ended => cases he
  | afterTags =>
    cases he
    exact absurd rfl hreason

/-- Input that ends behind tags and goes on with the start of a head. -/
theorem decodePrefix_append_unfinished [Lawful ρ] {data : Bytes} {field : String}
    (h : decodePrefix ρ data = .error (.schemaMismatch field (.malformed .justTags))) :
    decodePrefix ρ (data ++ Head.unfinished) = .error (.truncated field) := by
  have hmore := decodePrefix_extends (ρ := ρ) data Head.unfinished
  rw [h] at hmore
  generalize he : RecordError.schemaMismatch field (.malformed .justTags) = e at hmore
  generalize decodePrefix ρ (data ++ Head.unfinished) = r at hmore ⊢
  cases hmore with
  | error h => exact absurd he.symm (h field)
  | ended => cases he
  | afterTags ht place hr =>
    cases he
    exact hr rfl

/-- A mismatch stays a mismatch in the same field under all further input, except where the input ended
right behind tags: that is no mismatch any more once the head of the tagged item has begun. Input that
only lacks the end of a record is never a mismatch, but truncated. -/
theorem mismatch_stays_iff [Lawful ρ] :
    (∀ {data : Bytes} {field : String} {reason : Mismatch},
      decodePrefix ρ data = .error (.schemaMismatch field reason) →
        ((∀ more, ∃ reason', decodePrefix ρ (data ++ more) = .error (.schemaMismatch field reason')) ↔
          reason ≠ .malformed .justTags) ∧
        (reason ≠ .malformed .justTags →
          ∀ more, decodePrefix ρ (data ++ more) = .error (.schemaMismatch field reason)) ∧
        (reason = .malformed .justTags →
          decodePrefix ρ (data ++ Head.unfinished) = .error (.truncated field))) ∧
    ∀ {data more : Bytes} {record : ρ} {n : Nat},
      decodePrefix ρ (data ++ more) = .ok (record, n) → data.length < n →
        ∃ field, decodePrefix ρ data = .error (.truncated field) := by
  constructor
  · intro data field reason h
    refine ⟨⟨?_, ?_⟩, decodePrefix_append_of_mismatch h, ?_⟩
    · rintro hstays rfl
      obtain ⟨reason', hmore⟩ := hstays Head.unfinished
      rw [decodePrefix_append_unfinished h] at hmore
      cases hmore
    · intro hreason more
      exact ⟨reason, decodePrefix_append_of_mismatch h hreason more⟩
    · rintro rfl
      exact decodePrefix_append_unfinished h
  · intro data more record n h hn
    exact decodePrefix_of_incomplete h hn

/-- An integer in place of a person's name. -/
theorem person_named_by_number_stays :
    let data : Bytes := [0x83, 0, 0x20]
    let e : RecordError := .schemaMismatch "name" (.type "Definite-length Byte String" "Negative Integer")
    decodePrefix Person data = .error e ∧ ∀ more, decodePrefix Person (data ++ more) = .error e := by
  intro data e
  have h : decodePrefix Person data = .error e := by cbv
  exact ⟨h, (mismatch_stays_iff.1 h).2.1 (by decide)⟩

/-- Input that ends behind a tag is a mismatch of the name, although one byte later it is truncated. -/
theorem tag_at_end_is_mismatch :
    let data : Bytes := [0x83, 0, 0xC1]
    decodePrefix Person data = .error (.schemaMismatch "name" (.malformed .justTags)) ∧
      decodePrefix Person (data ++ [0x58]) = .error (.truncated "name") := by
  constructor
  · cbv
  · cbv

end Record

end CborRecords
