import CborRecords.Proofs.RecordGrammar
import CborRecords.Proofs.Extending

/-!
# Input that ends too soon

A record whose bytes are cut off is reported as truncated in the part that the cut lies in: the head of
its array, its key, or one of its fields.

* `LiesIn` : the part that a byte lies in; `Segments.named` : the parts of a record by name;
* `Item.require_open?_take` : an item without tags, cut off before the end of what is read when it opens;
* `Record.readFields_take`, `Record.decodePrefix_take` : fields and records that are cut off;
* `Record.truncation_names_its_part` : every cut of every record that is accepted.
-/

namespace CborRecords

/-! ## Equations -/

theorem Cursor.next_eq {α : Type} (visit : Item → Except DecodeError (α × Nat)) (c : Cursor) :
    (c.next visit).1.map (·, (c.next visit).2) = (c.peek.1.map (·, c.peek.2)).bind fun found =>
      found.1.elim (.error .notEnoughData) fun item =>
        (visit item).map fun seen => (seen, found.2.advance seen.2) := by
  unfold next next?
  rcases c.peek with ⟨e | (_ | item), c'⟩
  · rfl
  · rfl
  · dsimp only [Except.map, Except.bind, Option.elim]
    rcases visit item with e | ⟨a, n⟩ <;> rfl

namespace Record

theorem readField_eq (name : String) (kind : FieldKind) (c : Cursor) :
    readField name kind c =
      (((c.next (visitField kind)).1.map (·, (c.next (visitField kind)).2)).mapError
        (.ofDecode name)).bind fun read =>
          (read.1.1.mapError (.schemaMismatch name)).map (·, read.2) := by
  unfold readField
  rcases c.next (visitField kind) with ⟨e | ⟨reason | value, n⟩, c'⟩ <;> rfl

variable {ρ : Type} [Record ρ]

theorem readFields_cons (index : Nat) (f : Field) (fields : List Field) (record : ρ) (c : Cursor) :
    readFields index (f :: fields) record c = (readField f.name f.kind c).bind fun read =>
      ((setField record index read.1).mapError (.schemaMismatch f.name)).bind fun record =>
        readFields (index + 1) fields record read.2 := by
  rw [readFields]
  rcases readField f.name f.kind c with e | ⟨value, c'⟩
  · rfl
  · dsimp only [Except.bind]
    rcases setField record index value with reason | record' <;> rfl

theorem readItems_eq (c : Cursor) :
    readItems c = (readKey (schema ρ).key c).bind (readFields 0 (schema ρ).fields (blank : ρ)) := by
  unfold readItems
  rcases readKey (schema ρ).key c with e | c' <;> rfl

theorem decodePrefix_eq (data : Bytes) :
    decodePrefix ρ data =
      ((Cursor.require (Item.open? data)).mapError (.ofDecode RecordError.header)).bind fun item =>
        (openArray (schema ρ) item).bind fun c => (readItems c).bind fun read =>
          (read.2.close.mapError (.ofDecode RecordError.header)).map (read.1, ·) := by
  unfold decodePrefix
  rcases Item.open? data with e | (_ | item)
  · rfl
  · rfl
  · dsimp only [Cursor.require, Except.mapError, Except.bind]
    rcases openArray (schema ρ) item with e | c
    · rfl
    · dsimp only
      rcases (readItems c : Except RecordError (ρ × Cursor)) with e | ⟨record, c'⟩
      · rfl
      · dsimp only
        rcases c'.close with e | n <;> rfl

end Record

/-! ## Items that are cut off -/

/-- An item without tags that is cut off before the end of what is read when it opens. -/
theorem Item.require_open?_take {data : Bytes} {item : Item} {k : Nat} (ho : open? data = .ok (some item))
    (ht : item.tags.isEmpty = true) (hk : k < item.size) :
    Cursor.require (open? (data.take k)) = .error .notEnoughData := by
  obtain ⟨numbers, front, rest, -, hdata, hopens, hsize⟩ := open?_eq_some_iff.1 ho
  obtain ⟨⟨raw⟩, shortest, content, size⟩ := item
  obtain rfl : raw = [] := List.isEmpty_iff.1 ht
  dsimp only at hdata hopens hsize hk
  obtain ⟨b, after, rfl, hb⟩ := absent_of_opens hopens
  rw [List.length_nil, Nat.zero_add, List.length_cons] at hsize
  obtain rfl : data = b :: (after ++ rest) := hdata
  cases k with
  | zero =>
    rw [List.take_zero, open?, Tags.read, Tags.measure]
    rfl
  | succ k =>
    rw [List.take_succ_cons]
    have hopen := open?_behind_tags .nil hb ((after ++ rest).take k)
    rw [List.nil_append] at hopen
    have hbody : readBody 1 b (after ++ rest) = .ok (content, after.length, shortest) :=
      readBody_of_opens hopens
    have hread := readBody_extends ((after ++ rest).take k) ((after ++ rest).drop k) 1 hb
    rw [List.take_append_drop, hbody] at hread
    change open? (b :: (after ++ rest).take k) = (readBody 1 b ((after ++ rest).take k)).map _ at hopen
    generalize readBody 1 b ((after ++ rest).take k) = r at hread hopen
    generalize hr : (Except.ok (content, after.length, shortest) : Except DecodeError Body) = r' at hread
    cases hread with
    | error h => cases hr
    | ended =>
      rw [hopen]
      rfl
    | afterTags ht => exact ht.elim
    | ok body =>
      -- the whole item would lie in fewer bytes than it has
      have hle := size_le_of_open? hopen
      have hlen : after.length = body.2.1 := congrArg (fun body => body.2.1) (Except.ok.inj hr)
      rw [List.length_cons, List.length_take] at hle
      dsimp only at hle
      omega

/-! ## Records that are cut off -/

/-- The byte numbered `k` lies in the part with this name. -/
def LiesIn (parts : List (String × Bytes)) (k : Nat) (name : String) : Prop :=
  ∃ before part after, parts = before ++ (name, part) :: after ∧
    (before.flatMap Prod.snd).length ≤ k ∧ k < (before.flatMap Prod.snd).length + part.length

/-- The parts of a record of a schema by name. -/
def Segments.named (l : Segments) (s : Schema) : List (String × Bytes) :=
  ("header", l.head) :: ("key", l.key) :: (s.fields.map Field.name).zip l.fields

namespace LiesIn
variable {parts : List (String × Bytes)} {name other : String} {k : Nat} {part : Bytes}

theorem cons_iff :
    LiesIn ((other, part) :: parts) k name ↔
      (k < part.length ∧ name = other) ∨ (part.length ≤ k ∧ LiesIn parts (k - part.length) name) := by
  constructor
  · rintro ⟨before, part', after, hparts, hle, hlt⟩
    cases before with
    | nil =>
      cases hparts
      rw [List.flatMap_nil, List.length_nil, Nat.zero_add] at hlt
      exact .inl ⟨hlt, rfl⟩
    | cons first before =>
      cases hparts
      rw [List.flatMap_cons, List.length_append] at hle hlt
      dsimp only at hle hlt
      refine .inr ⟨by omega, before, part', after, rfl, ?_, ?_⟩
      · omega
      · omega
  · rintro (⟨hlt, rfl⟩ | ⟨hpart, before, part', after, rfl, hle, hlt⟩)
    · refine ⟨[], part, parts, rfl, Nat.zero_le k, ?_⟩
      rwa [List.flatMap_nil, List.length_nil, Nat.zero_add]
    · refine ⟨(other, part) :: before, part', after, rfl, ?_, ?_⟩
      · rw [List.flatMap_cons, List.length_append]
        dsimp only
        omega
      · rw [List.flatMap_cons, List.length_append]
        dsimp only
        omega

theorem here (hk : k < part.length) : LiesIn ((name, part) :: parts) k name :=
  cons_iff.2 (.inl ⟨hk, rfl⟩)

theorem there (hk : part.length ≤ k) (h : LiesIn parts (k - part.length) name) :
    LiesIn ((other, part) :: parts) k name :=
  cons_iff.2 (.inr ⟨hk, h⟩)

/-- A byte lies in no more than one part. -/
theorem unique (h : LiesIn parts k name) (h' : LiesIn parts k other) : other = name := by
  induction parts generalizing k with
  | nil =>
    obtain ⟨before, part, after, hparts, -⟩ := h
    simp at hparts
  | cons first parts ih =>
    rcases cons_iff.1 h with ⟨hk, rfl⟩ | ⟨hk, h⟩
    · rcases cons_iff.1 h' with ⟨-, rfl⟩ | ⟨hk', -⟩
      · rfl
      · omega
    · rcases cons_iff.1 h' with ⟨hk', -⟩ | ⟨-, h'⟩
      · omega
      · exact ih h h'

end LiesIn

namespace Record

theorem readField_take {name : String} {kind : FieldKind} {value : FieldValue} {part : Bytes} {k : Nat}
    {c : Cursor} (hw : kind.Written value part) (hend : c.atEnd = (.ok false, c))
    (hrest : c.rest = part.take k) (hk : k < part.length) :
    readField name kind c = .error (.truncated name) := by
  obtain ⟨shortest, content, hopen, -, -⟩ := hw.exists_open []
  rw [List.append_nil] at hopen
  have hcut := Item.require_open?_take hopen rfl hk
  rw [readField_eq, Cursor.next_eq, Cursor.peek_of_atEnd hend, hrest, hcut]
  rfl

theorem readKey_take {key : Key} {part : Bytes} {k : Nat} {c : Cursor}
    (hw : Head.Written .unsigned key.id.toNat part) (hend : c.atEnd = (.ok false, c))
    (hrest : c.rest = part.take k) (hk : k < part.length) : readKey key c = .error (.truncated "key") := by
  rw [← UInt32.toNat_toUInt64] at hw
  have hkey : FieldKind.Written (.uint .w64) (.uint key.id.toUInt64) part :=
    .uint hw (Nat.le_of_lt_succ key.id.toUInt64.toNat_lt)
  rw [readKey, readField_take hkey hend hrest hk]

variable {ρ : Type} [Record ρ]

/-- Fields that are cut off are read up to the one that the cut lies in. -/
theorem readFields_take {fields : List Field} {values filled : List FieldValue} {parts : List Bytes}
    {record last : ρ} {c : Cursor} {n k : Nat} (hlays : Field.Lays fields values parts)
    (hrest : c.rest = parts.flatten.take k) (hk : k < parts.flatten.length) (hcount : c.count = some n)
    (hle : c.parsed + fields.length ≤ n) (hfilled : Filled filled record)
    (hlast : Filled (filled ++ values) last) :
    ∃ name, LiesIn ((fields.map Field.name).zip parts) k name ∧
      readFields filled.length fields record c = .error (.truncated name) := by
  induction hlays generalizing filled record c k with
  | nil => exact absurd hk (Nat.not_lt_zero k)
  | @cons f fields value values part parts hw hlays ih =>
    rw [List.flatten_cons] at hrest hk
    rw [List.length_cons] at hle
    have hend : c.atEnd = (.ok false, c) :=
      Cursor.atEnd_eq_false_iff.2 ⟨rfl, .inl ⟨n, hcount, by omega⟩⟩
    by_cases hpart : k < part.length
    · rw [List.take_append_of_le_length (Nat.le_of_lt hpart)] at hrest
      refine ⟨f.name, .here hpart, ?_⟩
      rw [readFields, readField_take hw hend hrest hpart]
    · have hle_k : part.length ≤ k := Nat.not_lt.1 hpart
      rw [List.take_append, List.take_of_length_le hle_k] at hrest
      obtain ⟨record₁, hset, hfilled₁⟩ := hfilled.exists_next hlast
      rw [List.length_append] at hk
      have hle₁ : c.parsed + 1 + fields.length ≤ n := by omega
      have hk₁ : k - part.length < parts.flatten.length := by omega
      obtain ⟨name, hlies, hread⟩ := ih (c := c.advance part.length) (Cursor.advance_rest hrest) hk₁ hcount hle₁
        hfilled₁ (by rwa [← List.append_cons])
      refine ⟨name, .there hle_k hlies, ?_⟩
      rw [readFields, readField_eq_ok_iff.2 ⟨hend, part, _, hrest, hw, rfl⟩]
      dsimp only
      rw [hset]
      dsimp only
      have hlen : filled.length + 1 = (filled ++ [value]).length := by simp
      rw [hlen]
      exact hread

theorem readItems_take {values : List FieldValue} {key : Bytes} {parts : List Bytes} {record : ρ} {k : Nat}
    (hkey : Head.Written .unsigned (schema ρ).key.id.toNat key)
    (hfields : Field.Lays (schema ρ).fields values parts) (hfilled : Filled values record) (offset : Nat)
    (hk : k < (key ++ parts.flatten).length) :
    ∃ name, LiesIn (("key", key) :: ((schema ρ).fields.map Field.name).zip parts) k name ∧
      (readItems (start (schema ρ) offset ((key ++ parts.flatten).take k)) :
        Except RecordError (ρ × Cursor)) = .error (.truncated name) := by
  by_cases hcut : k < key.length
  · refine ⟨_, .here hcut, ?_⟩
    rw [List.take_append_of_le_length (Nat.le_of_lt hcut), readItems,
      readKey_take hkey (atEnd_start _ _ _) rfl hcut]
  · have hle_k : key.length ≤ k := Nat.not_lt.1 hcut
    have hread := readKey_eq_ok_iff.2
      ⟨atEnd_start (schema ρ) offset _, key, parts.flatten.take (k - key.length), rfl, hkey, rfl⟩
    have hle : 0 + 1 + (schema ρ).fields.length ≤ (schema ρ).itemCount := by
      rw [Schema.itemCount]
      omega
    have hblank : Filled [] (blank : ρ) := .blank
    have hk₁ : k - key.length < parts.flatten.length := by
      rw [List.length_append] at hk
      omega
    rw [List.take_append, List.take_of_length_le hle_k, readItems, hread]
    obtain ⟨name, hlies, hfail⟩ := readFields_take
      (c := (start (schema ρ) offset (key ++ parts.flatten.take (k - key.length))).advance key.length)
      hfields (Cursor.advance_rest rfl) hk₁ rfl hle hblank hfilled
    exact ⟨name, .there hle_k hlies, hfail⟩

/-- A record that is cut off is reported as truncated in the part that the cut lies in. -/
theorem decodePrefix_take {values : List FieldValue} {l : Segments} {record : ρ} {k : Nat}
    (hl : (schema ρ).Lays values l) (hfilled : Filled values record) (hk : k < l.bytes.length) :
    ∃ name, LiesIn (l.named (schema ρ)) k name ∧
      decodePrefix ρ (l.bytes.take k) = .error (.truncated name) := by
  obtain ⟨head, key, parts⟩ := l
  obtain ⟨hhead, hkey, hfields⟩ := hl
  dsimp only [Segments.bytes, Segments.named] at *
  by_cases hcut : k < head.length
  · refine ⟨_, .here hcut, ?_⟩
    obtain ⟨item, hopen, harray, hsize⟩ := openArray_of_written hhead (key ++ parts.flatten)
    have hopen_cut := Item.require_open?_take hopen (openArray_eq_ok_iff.1 harray).1 (hsize ▸ hcut)
    rw [decodePrefix_eq, hopen_cut]
    rfl
  · have hle : head.length ≤ k := Nat.not_lt.1 hcut
    rw [List.take_append, List.take_of_length_le hle]
    rw [List.length_append] at hk
    obtain ⟨item, hopen, harray, -⟩ := openArray_of_written hhead ((key ++ parts.flatten).take (k - head.length))
    obtain ⟨name, hlies, hread⟩ : ∃ name,
        LiesIn (("key", key) :: ((schema ρ).fields.map Field.name).zip parts) (k - head.length) name ∧
          (readItems (start (schema ρ) head.length ((key ++ parts.flatten).take (k - head.length))) :
            Except RecordError (ρ × Cursor)) = .error (.truncated name) :=
      readItems_take hkey hfields hfilled head.length (by omega)
    refine ⟨name, .there hle hlies, ?_⟩
    rw [decodePrefix_eq, hopen]
    show (openArray (schema ρ) item).bind _ = _
    rw [harray]
    show (readItems _ : Except RecordError (ρ × Cursor)).bind _ = _
    rw [hread]
    rfl

/-- Input that lacks the end of a record is truncated. -/
theorem decodePrefix_of_incomplete {data more : Bytes} {record : ρ} {n : Nat}
    (h : decodePrefix ρ (data ++ more) = .ok (record, n)) (hn : data.length < n) :
    ∃ field, decodePrefix ρ data = .error (.truncated field) := by
  obtain ⟨values, l, rest, hl, hdata, rfl, hfilled⟩ := decodePrefix_eq_ok_iff.1 h
  obtain ⟨name, -, hcut⟩ := decodePrefix_take hl hfilled hn
  have htake : l.bytes.take data.length = data := by
    rw [← List.take_append_of_le_length (Nat.le_of_lt hn), ← hdata, List.take_left]
  rw [htake] at hcut
  exact ⟨name, hcut⟩

/-- Every start of a record that is accepted is reported as truncated in the one part that the first byte
it lacks lies in. -/
theorem truncation_names_its_part {data : Bytes} {record : ρ} (h : decode ρ data = .ok record) :
    (∃ values l, (schema ρ).Lays values l ∧ data = l.bytes) ∧
    ∀ {values : List FieldValue} {l : Segments}, (schema ρ).Lays values l → data = l.bytes →
      ∀ k < data.length, ∃ name, (∀ other, LiesIn (l.named (schema ρ)) k other ↔ other = name) ∧
        decode ρ (data.take k) = .error (.truncated name) := by
  obtain ⟨values, l, hl, rfl, hfilled⟩ := decode_eq_ok_iff_lays.1 h
  refine ⟨⟨values, l, hl, rfl⟩, ?_⟩
  intro values' l' hl' he k hk
  obtain ⟨rfl, rfl⟩ := hl.unique hl' he
  obtain ⟨name, hlies, hcut⟩ := decodePrefix_take hl hfilled hk
  refine ⟨name, ?_, ?_⟩
  · intro other
    constructor
    · intro hother
      exact hlies.unique hother
    · rintro rfl
      exact hlies
  · rw [decode, hcut]

/-- A person in heads of several widths, cut off anywhere. -/
theorem person_cut_names_its_part :
    let data : Bytes := [0x98, 3, 0x18, 0, 0x58, 8, 0x41, 0, 0, 0, 0, 0, 0, 0, 0x19, 0, 7]
    decode Person data = .ok ⟨[0x41, 0, 0, 0, 0, 0, 0, 0], 7, rfl⟩ ∧
      ∃ values l, Person.schema.Lays values l ∧ data = l.bytes ∧
        ∀ k < data.length, ∃ name, (∀ other, LiesIn (l.named Person.schema) k other ↔ other = name) ∧
          decode Person (data.take k) = .error (.truncated name) := by
  intro data
  have h : decode Person data = .ok ⟨[0x41, 0, 0, 0, 0, 0, 0, 0], 7, rfl⟩ := by cbv
  obtain ⟨⟨values, l, hl, hdata⟩, hcut⟩ := truncation_names_its_part h
  exact ⟨h, values, l, hl, hdata, hcut hl hdata⟩

end Record

end CborRecords
