import CborRecords.Proofs.RecordRoundTrip
import CborRecords.Proofs.Skipping

/-!
# The grammar of records

A record is an array of a definite length, its key and then its fields, every one an item without tags
whose head may be wider than it need be. Decoding accepts exactly the byte strings of this form.

* `FieldKind.Written` : the items that a kind of field admits, with the values they stand for;
* `Segments` : the bytes of a record in parts; `Schema.Lays` : the parts are those of a record with some
  values;
* `Record.readField_eq_ok_iff`, `Record.readKey_eq_ok_iff` : reading one item of the array;
* `Record.written_of_readFields`, `Record.readFields_of_written` : reading the fields, both ways;
* `Record.decodePrefix_eq_ok_iff`, `Record.accepts_exactly_its_grammar` : the record at the front of a
  byte string, and the record that a byte string is.
-/

namespace CborRecords

/-! ## Fields -/

/-- The bytes are an item that a field of the kind admits, and it stands for the value. -/
inductive FieldKind.Written : FieldKind → FieldValue → Bytes → Prop
  | uint {width : Width} {n : UInt64} {head : Bytes} (h : Head.Written .unsigned n.toNat head)
      (hmax : n.toNat ≤ width.maxUnsigned) : Written (.uint width) (.uint n) head
  | nonneg {width : Width} {n : Int64} {v : Nat} {head : Bytes} (h : Head.Written .unsigned v head)
      (hn : n.toInt = v) (hmax : (v : Int) ≤ width.maxSigned) : Written (.int width) (.int n) head
  | negative {width : Width} {n : Int64} {v : Nat} {head : Bytes} (h : Head.Written .negative v head)
      (hn : n.toInt = -1 - v) (hmin : width.minSigned ≤ -1 - (v : Int)) :
      Written (.int width) (.int n) head
  | bool (b : Bool) : Written .bool (.bool b) [if b then 0xF5 else 0xF4]
  | bytes {content head : Bytes} (h : Head.Written .bytes content.length head) :
      Written (.bytes content.length) (.bytes content) (head ++ content)
  | text {most : Nat} {content : String} {head : Bytes}
      (h : Head.Written .text (Utf8.size content) head) (hmax : Utf8.size content ≤ most) :
      Written (.text most) (.text content) (head ++ Utf8.encode content)

theorem Width.signed_range (w : Width) :
    -0x8000000000000000 ≤ w.minSigned ∧ w.minSigned ≤ -1 ∧ 0 ≤ w.maxSigned ∧
      w.maxSigned ≤ 0x7FFFFFFFFFFFFFFF := by
  cases w <;> decide

namespace FieldKind
variable {kind : FieldKind} {value : FieldValue} {part : Bytes}

theorem toInt_of_acceptInt {width : Width} {n : Int} (h : acceptInt width n = .ok value) :
    ∃ k : Int64, value = .int k ∧ k.toInt = n ∧ width.minSigned ≤ n ∧ n ≤ width.maxSigned := by
  unfold acceptInt at h
  split at h
  · rename_i hn
    cases h
    have hw := width.signed_range
    exact ⟨_, rfl, Int64.toInt_ofInt_of_le (by omega) (by omega), hn⟩
  · cases h

theorem acceptInt_of_toInt {width : Width} {n : Int64} {k : Int} (hn : n.toInt = k)
    (hmin : width.minSigned ≤ k) (hmax : k ≤ width.maxSigned) :
    acceptInt width k = .ok (.int n) := by
  rw [acceptInt, if_pos ⟨hmin, hmax⟩, ← hn, Int64.ofInt_toInt]

/-- Content that is admitted was written as the kind asks. -/
theorem written_of_accept {t : Tree} {content : Content} (h : t.Written part)
    (hc : t.scalar? part = some content) (ha : kind.accept content = .ok value) :
    kind.Written value part := by
  cases h with
  | @unsigned n head h =>
    cases hc
    cases kind with
    | uint width =>
      unfold FieldKind.accept at ha
      dsimp only at ha
      split at ha
      · cases ha
      · rename_i hmax
        cases ha
        exact .uint h (Nat.not_lt.1 hmax)
    | int width =>
      obtain ⟨k, rfl, hk, -, hmax⟩ := toInt_of_acceptInt ha
      exact .nonneg h hk hmax
    | _ => cases ha
  | @negative n head h =>
    cases hc
    cases kind with
    | int width =>
      obtain ⟨k, rfl, hk, hmin, -⟩ := toInt_of_acceptInt ha
      exact .negative h hk hmin
    | _ => cases ha
  | @bytes content head h =>
    cases hc
    cases kind with
    | bytes size =>
      unfold FieldKind.accept at ha
      dsimp only at ha
      split at ha
      · rename_i hsize
        cases ha
        subst hsize
        exact .bytes h
      · cases ha
    | _ => cases ha
  | @text content head h =>
    cases hc
    cases kind with
    | text most =>
      unfold FieldKind.accept at ha
      dsimp only at ha
      split at ha
      · cases ha
      · rename_i hmax
        cases ha
        exact .text h (Nat.not_lt.1 hmax)
    | _ => cases ha
  | bool b =>
    cases hc
    cases kind with
    | bool =>
      cases ha
      cases b <;> exact .bool _
    | _ => cases ha
  | definite | indefinite | tagged => cases hc
  | _ =>
    cases hc
    cases kind <;> cases ha

/-- What a kind admits is a scalar, and its content stands for the value. -/
theorem Written.exists_scalar (h : kind.Written value part) :
    ∃ (t : Tree) (content : Content), t.Written part ∧ t.scalar? part = some content ∧
      kind.accept content = .ok value := by
  cases h with
  | uint h hmax => exact ⟨_, _, .unsigned h, rfl, if_neg (Nat.not_lt.2 hmax)⟩
  | @nonneg width n v head h hn hmax =>
    have hv : (UInt64.ofNat v).toNat = v := UInt64.toNat_ofNat_of_lt' h.argument_lt
    rw [← hv] at h hn hmax
    have hmin := width.signed_range
    exact ⟨_, _, .unsigned h, rfl, acceptInt_of_toInt hn (by omega) hmax⟩
  | @negative width n v head h hn hmin =>
    have hv : (UInt64.ofNat v).toNat = v := UInt64.toNat_ofNat_of_lt' h.argument_lt
    rw [← hv] at h hn hmin
    have hmax := width.signed_range
    exact ⟨_, _, .negative h, rfl, acceptInt_of_toInt hn hmin (by omega)⟩
  | bool b => cases b <;> exact ⟨.bool _, .bool _, .bool _, rfl, rfl⟩
  | bytes h => exact ⟨_, _, .bytes h, rfl, if_pos rfl⟩
  | text h hmax => exact ⟨_, _, .text h, rfl, if_neg (Nat.not_lt.2 hmax)⟩

theorem Written.conforms (h : kind.Written value part) : kind.Conforms value := by
  cases h with
  | uint h hmax => exact hmax
  | @nonneg width n v head h hn hmax =>
    have := width.signed_range
    exact ⟨by omega, by omega⟩
  | @negative width n v head h hn hmin =>
    have := width.signed_range
    exact ⟨by omega, by omega⟩
  | bool b => exact trivial
  | bytes h => exact rfl
  | text h hmax => exact hmax

/-- An item that is admitted opens without tags, whatever follows it. -/
theorem Written.exists_open (h : kind.Written value part) (rest : Bytes) :
    ∃ shortest content, Item.open? (part ++ rest) = .ok (some ⟨⟨[]⟩, shortest, content, part.length⟩) ∧
      (∀ c, content ≠ .container c) ∧ kind.accept content = .ok value := by
  obtain ⟨t, content, hw, hc, ha⟩ := h.exists_scalar
  refine ⟨t.shortest part, content, ?_, Tree.scalar?_ne_container hc, ha⟩
  have ho : Content.Opens 0 rest part content (t.shortest part) := .scalar hw hc
  refine (Item.open?_of_opens .nil ho).trans ?_
  rw [List.length_nil, Nat.zero_add]

/-- An item that a kind admits ends where it does whatever follows it, and stands for one value. -/
theorem Written.append_inj {kind : FieldKind} {value value' : FieldValue} {part part' rest rest' : Bytes}
    (h : kind.Written value part) (h' : kind.Written value' part') (he : part ++ rest = part' ++ rest') :
    value = value' ∧ part = part' ∧ rest = rest' := by
  obtain ⟨shortest, content, hopen, -, hvalue⟩ := h.exists_open rest
  obtain ⟨shortest', content', hopen', -, hvalue'⟩ := h'.exists_open rest'
  rw [he, hopen'] at hopen
  simp only [Except.ok.injEq, Option.some.injEq, Item.mk.injEq, true_and] at hopen
  obtain ⟨-, rfl, hlen⟩ := hopen
  rw [hvalue'] at hvalue
  cases hvalue
  exact ⟨rfl, List.append_inj he hlen.symm⟩

end FieldKind

/-! ## Records in parts -/

/-- The bytes of a record in parts: the head of its array, the item of its key, and the item of each of
its fields. -/
structure Segments where
  head : Bytes
  key : Bytes
  fields : List Bytes

/-- The bytes of all parts. -/
def Segments.bytes (l : Segments) : Bytes :=
  l.head ++ (l.key ++ l.fields.flatten)

/-- One item for each field, in order, that its kind admits and that stands for its value. -/
inductive Field.Lays : List Field → List FieldValue → List Bytes → Prop
  | nil : Lays [] [] []
  | cons {f : Field} {fields : List Field} {value : FieldValue} {values : List FieldValue} {part : Bytes}
      {parts : List Bytes} (h : f.kind.Written value part) (hrest : Lays fields values parts) :
      Lays (f :: fields) (value :: values) (part :: parts)

/-- The parts are those of a record of the schema with these values. -/
structure Schema.Lays (s : Schema) (values : List FieldValue) (l : Segments) : Prop where
  head : Head.Written .array s.itemCount l.head
  key : Head.Written .unsigned s.key.id.toNat l.key
  fields : Field.Lays s.fields values l.fields

namespace Field.Lays
variable {fields : List Field} {values : List FieldValue} {parts : List Bytes}

theorem conforms (h : Lays fields values parts) :
    List.Forall₂ (fun f value => f.kind.Conforms value) fields values := by
  induction h with
  | nil => exact .nil
  | cons h _ ih => exact .cons h.conforms ih

theorem length_eq (h : Lays fields values parts) : parts.length = fields.length := by
  induction h with
  | nil => rfl
  | cons _ _ ih => rw [List.length_cons, List.length_cons, ih]

theorem unique {values' : List FieldValue} {parts' : List Bytes} (h : Lays fields values parts)
    (h' : Lays fields values' parts') (he : parts.flatten = parts'.flatten) :
    values = values' ∧ parts = parts' := by
  induction h generalizing values' parts' with
  | nil =>
    cases h'
    exact ⟨rfl, rfl⟩
  | cons hw h ih =>
    cases h' with
    | cons hw' h' =>
      rw [List.flatten_cons, List.flatten_cons] at he
      obtain ⟨rfl, rfl, hrest⟩ := hw.append_inj hw' he
      obtain ⟨rfl, rfl⟩ := ih h' hrest
      exact ⟨rfl, rfl⟩

end Field.Lays

/-- Bytes are in parts in one way, and these have one list of values. -/
theorem Schema.Lays.unique {s : Schema} {values values' : List FieldValue} {l l' : Segments}
    (h : s.Lays values l) (h' : s.Lays values' l') (he : l.bytes = l'.bytes) :
    values = values' ∧ l = l' := by
  obtain ⟨head, key, parts⟩ := l
  obtain ⟨head', key', parts'⟩ := l'
  obtain ⟨rfl, hrest⟩ := Head.Written.append_inj h.head h'.head he
  obtain ⟨rfl, hfields⟩ := Head.Written.append_inj h.key h'.key hrest
  obtain ⟨rfl, rfl⟩ := h.fields.unique h'.fields hfields
  exact ⟨rfl, rfl⟩

/-! ## Reading one item -/

namespace Cursor

/-- The cursor behind some parts, in front of `rest`. -/
def behind (c : Cursor) (parts : List Bytes) (rest : Bytes) : Cursor :=
  { c with
    rest := rest
    offset := c.offset + parts.flatten.length
    parsed := c.parsed + parts.length }

theorem behind_advance {c : Cursor} {part rest : Bytes} (parts : List Bytes) :
    (c.advance part.length).behind parts rest = c.behind (part :: parts) rest := by
  simp only [behind, advance, List.flatten_cons, List.length_append, List.length_cons, Nat.add_assoc,
    Nat.add_comm 1]

theorem advance_rest {c : Cursor} {part rest : Bytes} (h : c.rest = part ++ rest) :
    (c.advance part.length).rest = rest := by
  rw [advance, h, List.drop_left]

/-- An item is visited and passed where one stands and the visit succeeds. -/
theorem next_eq_ok_iff {α : Type} {visit : Item → Except DecodeError (α × Nat)} {c c' : Cursor} {a : α}
    {n : Nat} :
    c.next visit = (.ok (a, n), c') ↔
      ∃ item, c.atEnd = (.ok false, c) ∧ Item.open? c.rest = .ok (some item) ∧
        visit item = .ok (a, n) ∧ c' = c.advance n := by
  constructor
  · intro h
    unfold next next? at h
    rcases hpeek : c.peek with ⟨e | (_ | item), c₁⟩
    · simp [hpeek, require] at h
    · simp [hpeek, require] at h
    · obtain ⟨rfl, hend, hopen⟩ := peek_eq_some_iff.1 hpeek
      rcases hvisit : visit item with e | ⟨a', n'⟩
      · simp [hpeek, hvisit, require] at h
      · simp only [hpeek, hvisit, require, Prod.mk.injEq, Except.ok.injEq] at h
        obtain ⟨⟨rfl, rfl⟩, rfl⟩ := h
        exact ⟨item, hend, hopen, hvisit, rfl⟩
  · rintro ⟨item, hend, hopen, hvisit, rfl⟩
    rw [next, next?, peek_eq_some_iff.2 ⟨rfl, hend, hopen⟩]
    dsimp only
    rw [hvisit]
    rfl

end Cursor

namespace Record

/-- An item is skipped and then measured against the kind of the field; no kind admits a container. -/
theorem visitField_eq (kind : FieldKind) (item : Item) :
    visitField kind item = (item.skip maxNesting).map fun n =>
      (if item.tags.isEmpty then kind.accept item.content else .error .tagged, n) := by
  obtain ⟨tags, shortest, content, size⟩ := item
  unfold visitField Item.skip
  dsimp only
  cases content.skip maxNesting with
  | error e => rfl
  | ok after =>
    dsimp only
    cases Item.close ⟨tags, shortest, content, size⟩ after with
    | error e => rfl
    | ok n =>
      cases content with
      | container c => cases kind <;> rfl
      | _ => rfl

theorem visitField_eq_ok_iff {kind : FieldKind} {item : Item} {value : FieldValue} {n : Nat} :
    visitField kind item = .ok (.ok value, n) ↔
      item.tags.isEmpty = true ∧ kind.accept item.content = .ok value ∧ item.skip maxNesting = .ok n := by
  rw [visitField_eq]
  cases item.skip maxNesting with
  | error e => simp [Except.map]
  | ok m =>
    by_cases ht : item.tags.isEmpty = true
    · simp [Except.map, ht]
    · simp [Except.map, ht]

/-- A field is read where an item stands that its kind admits, and the cursor passes the item. -/
theorem readField_eq_ok_iff {name : String} {kind : FieldKind} {value : FieldValue} {c c' : Cursor} :
    readField name kind c = .ok (value, c') ↔
      c.atEnd = (.ok false, c) ∧ ∃ part rest, c.rest = part ++ rest ∧ kind.Written value part ∧
        c' = c.advance part.length := by
  have hnext : readField name kind c = .ok (value, c') ↔
      ∃ n, c.next (visitField kind) = (.ok (.ok value, n), c') := by
    unfold readField
    rcases c.next (visitField kind) with ⟨e | ⟨reason | value', n⟩, c₁⟩ <;> simp
  rw [hnext]
  constructor
  · rintro ⟨n, h⟩
    obtain ⟨item, hend, hopen, hvisit, rfl⟩ := Cursor.next_eq_ok_iff.1 h
    obtain ⟨ht, ha, hskip⟩ := visitField_eq_ok_iff.1 hvisit
    obtain ⟨numbers, front, rest, -, hrest, hopens, hsize⟩ := Item.open?_eq_some_iff.1 hopen
    obtain ⟨⟨raw⟩, shortest, content, size⟩ := item
    obtain rfl : raw = [] := List.isEmpty_iff.1 ht
    dsimp only at hrest hopens hsize ha
    cases hopens with
    | scalar hw hc =>
      rw [Item.skip_scalar _ (Tree.scalar?_ne_container hc), hsize] at hskip
      cases hskip
      refine ⟨hend, front, rest, hrest, FieldKind.written_of_accept hw hc ha, ?_⟩
      rw [List.length_nil, Nat.zero_add]
    | definite | indefinite => cases kind <;> cases ha
  · rintro ⟨hend, part, rest, hrest, hw, rfl⟩
    obtain ⟨shortest, content, hopen, hs, ha⟩ := hw.exists_open rest
    rw [← hrest] at hopen
    exact ⟨part.length, Cursor.next_eq_ok_iff.2
      ⟨_, hend, hopen, visitField_eq_ok_iff.2 ⟨rfl, ha, Item.skip_scalar _ hs⟩, rfl⟩⟩

theorem readKey_eq_ok_iff {key : Key} {c c' : Cursor} :
    readKey key c = .ok c' ↔
      c.atEnd = (.ok false, c) ∧ ∃ part rest, c.rest = part ++ rest ∧
        Head.Written .unsigned key.id.toNat part ∧ c' = c.advance part.length := by
  constructor
  · intro h
    unfold readKey at h
    split at h
    · cases h
    · rename_i found c₁ hread
      split at h
      · rename_i hid
        cases h
        obtain ⟨hend, part, rest, hrest, hw, rfl⟩ := readField_eq_ok_iff.1 hread
        cases hw with
        | uint hw hmax => exact ⟨hend, part, rest, hrest, hid ▸ hw, rfl⟩
      · cases h
    · cases h
  · rintro ⟨hend, part, rest, hrest, hw, rfl⟩
    rw [← UInt32.toNat_toUInt64] at hw
    have hkey : FieldKind.Written (.uint .w64) (.uint key.id.toUInt64) part :=
      .uint hw (Nat.le_of_lt_succ key.id.toUInt64.toNat_lt)
    rw [readKey, readField_eq_ok_iff.2 ⟨hend, part, rest, hrest, hkey, rfl⟩]
    exact if_pos (UInt32.toNat_toUInt64 _)

/-! ## Reading the fields -/

variable {ρ : Type} [Record ρ]

/-- Fields that have been set in order were set one after another. -/
theorem Filled.exists_of_append {front back : List FieldValue} {record : ρ}
    (h : Filled (front ++ back) record) : ∃ record' : ρ, Filled front record' := by
  generalize hv : front ++ back = values at h
  induction h generalizing back with
  | blank =>
    obtain ⟨rfl, rfl⟩ := List.append_eq_nil_iff.1 hv
    exact ⟨_, .blank⟩
  | @set values record record' value h hset ih =>
    rcases List.eq_nil_or_concat back with rfl | ⟨init, last, rfl⟩
    · rw [List.append_nil] at hv
      exact ⟨record', hv ▸ .set h hset⟩
    · rw [List.concat_eq_append, ← List.append_assoc] at hv
      obtain ⟨hfront, -⟩ := List.append_inj' hv rfl
      exact ih hfront

/-- The next field of a record that is to be filled can be set. -/
theorem Filled.exists_next {filled values : List FieldValue} {value : FieldValue} {record last : ρ}
    (h : Filled filled record) (hlast : Filled (filled ++ value :: values) last) :
    ∃ record' : ρ, setField record filled.length value = .ok record' ∧
      Filled (filled ++ [value]) record' := by
  rw [List.append_cons] at hlast
  obtain ⟨record', hnext⟩ := hlast.exists_of_append
  refine ⟨record', ?_, hnext⟩
  generalize hv : filled ++ [value] = all at hnext
  cases hnext with
  | blank => exact absurd hv (by simp)
  | set h₁ hset =>
    obtain ⟨rfl, hvalue⟩ := List.append_inj' hv rfl
    cases hvalue
    rwa [h.unique h₁]

/-- Fields that were read are items that their kinds admit, and have been set to the values of these. -/
theorem written_of_readFields {fields : List Field} {filled : List FieldValue} {record last : ρ}
    {c c' : Cursor} (hfilled : Filled filled record)
    (h : readFields filled.length fields record c = .ok (last, c')) :
    ∃ values parts rest, Field.Lays fields values parts ∧ c.rest = parts.flatten ++ rest ∧
      c' = c.behind parts rest ∧ Filled (filled ++ values) last := by
  induction fields generalizing filled record c with
  | nil =>
    cases h
    refine ⟨[], [], c'.rest, .nil, rfl, rfl, ?_⟩
    rwa [List.append_nil]
  | cons f fields ih =>
    unfold readFields at h
    split at h
    · cases h
    · rename_i value c₁ hread
      obtain ⟨-, part, rest, hrest, hw, rfl⟩ := readField_eq_ok_iff.1 hread
      split at h
      · cases h
      · rename_i record₁ hset
        have hlen : filled.length + 1 = (filled ++ [value]).length := by simp
        rw [hlen] at h
        obtain ⟨values, parts, rest', hlays, hrest', rfl, hlast⟩ := ih (.set hfilled hset) h
        rw [Cursor.advance_rest hrest] at hrest'
        refine ⟨value :: values, part :: parts, rest', .cons hw hlays, ?_, Cursor.behind_advance parts, ?_⟩
        · rw [hrest, hrest', List.flatten_cons, List.append_assoc]
        · rwa [List.append_cons]

/-- Items that the kinds of the fields admit are read, if there is a record that is filled with their
values. -/
theorem readFields_of_written {fields : List Field} {values filled : List FieldValue} {parts : List Bytes}
    {record last : ρ} {c : Cursor} {rest : Bytes} {n : Nat} (hlays : Field.Lays fields values parts)
    (hrest : c.rest = parts.flatten ++ rest) (hcount : c.count = some n)
    (hle : c.parsed + fields.length ≤ n) (hfilled : Filled filled record)
    (hlast : Filled (filled ++ values) last) :
    readFields filled.length fields record c = .ok (last, c.behind parts rest) := by
  induction hlays generalizing filled record c with
  | nil =>
    obtain ⟨kind, count, rest', offset, parsed⟩ := c
    obtain rfl : rest' = rest := hrest
    rw [List.append_nil] at hlast
    rw [hfilled.unique hlast]
    rfl
  | @cons f fields value values part parts hw hlays ih =>
    rw [List.flatten_cons, List.append_assoc] at hrest
    rw [List.length_cons] at hle
    have hend : c.atEnd = (.ok false, c) :=
      Cursor.atEnd_eq_false_iff.2 ⟨rfl, .inl ⟨n, hcount, by omega⟩⟩
    obtain ⟨record₁, hset, hfilled₁⟩ := hfilled.exists_next hlast
    rw [readFields, readField_eq_ok_iff.2 ⟨hend, part, _, hrest, hw, rfl⟩]
    dsimp only
    rw [hset, ← Cursor.behind_advance]
    dsimp only
    have hlen : filled.length + 1 = (filled ++ [value]).length := by simp
    rw [hlen]
    have hle₁ : c.parsed + 1 + fields.length ≤ n := by omega
    exact ih (Cursor.advance_rest hrest) hcount hle₁ hfilled₁ (by rwa [← List.append_cons])

/-! ## Decoding -/

theorem openArray_eq_ok_iff {s : Schema} {item : Item} {c : Cursor} :
    openArray s item = .ok c ↔
      item.tags.isEmpty = true ∧ item.content = .container c ∧ c.kind = .array ∧
        c.count = some s.itemCount := by
  obtain ⟨tags, shortest, content, size⟩ := item
  unfold openArray
  dsimp only
  constructor
  · intro h
    split at h
    · rename_i ht
      split at h
      · split at h
        · cases h
        · split at h
          · rename_i found hn
            cases h
            exact ⟨ht, rfl, rfl, congrArg some hn⟩
          · cases h
      · cases h
    · cases h
  · obtain ⟨kind, count, rest, offset, parsed⟩ := c
    rintro ⟨ht, rfl, rfl, rfl⟩
    rw [if_pos ht]
    exact if_pos rfl

/-- The cursor at the first item of a record's array. -/
def start (s : Schema) (offset : Nat) (rest : Bytes) : Cursor :=
  ⟨.array, some s.itemCount, rest, offset, 0⟩

theorem atEnd_start (s : Schema) (offset : Nat) (rest : Bytes) :
    (start s offset rest).atEnd = (.ok false, start s offset rest) :=
  Cursor.atEnd_eq_false_iff.2 ⟨rfl, .inl ⟨_, rfl, Nat.succ_pos _⟩⟩

/-- The array of a record opens at a head that announces its items. -/
theorem openArray_of_written {s : Schema} {head : Bytes} (h : Head.Written .array s.itemCount head)
    (rest : Bytes) :
    ∃ item, Item.open? (head ++ rest) = .ok (some item) ∧
      openArray s item = .ok (start s head.length rest) ∧ item.size = head.length := by
  have hn : s.itemCount * Container.array.arity = s.itemCount := Nat.mul_one _
  have hlt : s.itemCount * Container.array.arity < 0x10000000000000000 := by
    rw [hn]
    exact h.argument_lt
  have ho : Content.Opens 0 rest head
      (.container ⟨.array, some (s.itemCount * Container.array.arity), rest, 0 + head.length, 0⟩) _ :=
    .definite h hlt
  rw [hn, Nat.zero_add] at ho
  exact ⟨_, Item.open?_of_opens .nil ho, openArray_eq_ok_iff.2 ⟨rfl, rfl, rfl, rfl⟩, Nat.zero_add _⟩

/-- What opens as the array of a record starts with such a head. -/
theorem written_of_openArray {s : Schema} {data : Bytes} {item : Item} {c : Cursor}
    (hopen : Item.open? data = .ok (some item)) (harray : openArray s item = .ok c) :
    ∃ head rest, data = head ++ rest ∧ Head.Written .array s.itemCount head ∧
      c = start s head.length rest := by
  obtain ⟨ht, hc, hkind, hcount⟩ := openArray_eq_ok_iff.1 harray
  obtain ⟨numbers, front, rest, -, hdata, hopens, -⟩ := Item.open?_eq_some_iff.1 hopen
  obtain ⟨⟨raw⟩, shortest, content, size⟩ := item
  obtain rfl : raw = [] := List.isEmpty_iff.1 ht
  dsimp only at hc hdata hopens
  subst hc
  cases hopens with
  | scalar hw hs => exact absurd rfl (Tree.scalar?_ne_container hs _)
  | @definite kind k _ hw hk =>
    obtain rfl : kind = .array := hkind
    have hn : k * Container.array.arity = k := Nat.mul_one k
    rw [hn] at hcount ⊢
    obtain rfl : k = s.itemCount := Option.some.inj hcount
    refine ⟨front, rest, hdata, hw, ?_⟩
    rw [List.length_nil, Nat.zero_add, start]
  | indefinite kind => cases hcount

/-- The items of a record are read, if there is a record that is filled with their values. -/
theorem readItems_of_written {values : List FieldValue} {key : Bytes} {parts : List Bytes} {record : ρ}
    (hkey : Head.Written .unsigned (schema ρ).key.id.toNat key)
    (hfields : Field.Lays (schema ρ).fields values parts) (hfilled : Filled values record) (offset : Nat)
    (rest : Bytes) :
    readItems (start (schema ρ) offset (key ++ (parts.flatten ++ rest))) =
      .ok (record, (start (schema ρ) offset []).behind (key :: parts) rest) := by
  have hread := readKey_eq_ok_iff.2
    ⟨atEnd_start (schema ρ) offset _, key, parts.flatten ++ rest, rfl, hkey, rfl⟩
  have hle : 0 + 1 + (schema ρ).fields.length ≤ (schema ρ).itemCount := by
    rw [Schema.itemCount]
    omega
  have hblank : Filled [] (blank : ρ) := .blank
  rw [readItems, hread]
  refine (readFields_of_written hfields (Cursor.advance_rest rfl) rfl hle hblank hfilled).trans ?_
  rw [Cursor.behind_advance]
  rfl

theorem written_of_readItems {record : ρ} {offset : Nat} {rest : Bytes} {c : Cursor}
    (h : readItems (start (schema ρ) offset rest) = .ok (record, c)) :
    ∃ values key parts rest', Head.Written .unsigned (schema ρ).key.id.toNat key ∧
      Field.Lays (schema ρ).fields values parts ∧ Filled values record ∧
      rest = key ++ (parts.flatten ++ rest') ∧
      c = (start (schema ρ) offset []).behind (key :: parts) rest' := by
  unfold readItems at h
  split at h
  · cases h
  · rename_i c₁ hread
    obtain ⟨-, key, rest₁, hrest, hkey, rfl⟩ := readKey_eq_ok_iff.1 hread
    have hblank : Filled [] (blank : ρ) := .blank
    obtain ⟨values, parts, rest', hfields, hrest', rfl, hfilled⟩ := written_of_readFields hblank h
    rw [Cursor.advance_rest hrest] at hrest'
    refine ⟨values, key, parts, rest', hkey, hfields, hfilled, ?_, ?_⟩
    · rw [← hrest']
      exact hrest
    · rw [Cursor.behind_advance]
      rfl

/-- Behind its last item the array of a record is at its end, since it announced as many as were passed. -/
theorem close_behind {s : Schema} {values : List FieldValue} {parts : List Bytes}
    (h : Field.Lays s.fields values parts) (offset : Nat) (key rest : Bytes) :
    ((start s offset []).behind (key :: parts) rest).close =
      .ok (offset + (key :: parts).flatten.length) := by
  refine Cursor.close_of_atEnd (Cursor.atEnd_eq_true_iff.2 (.inl ⟨_, rfl, ?_, rfl⟩))
  simp only [Cursor.behind, start, List.length_cons, h.length_eq, Schema.itemCount]
  omega

/-- A record is decoded from the front of a byte string exactly where its parts stand, and its length is
theirs. -/
theorem decodePrefix_eq_ok_iff {data : Bytes} {record : ρ} {n : Nat} :
    decodePrefix ρ data = .ok (record, n) ↔
      ∃ values l rest, (schema ρ).Lays values l ∧ data = l.bytes ++ rest ∧ n = l.bytes.length ∧
        Filled values record := by
  constructor
  · intro h
    unfold decodePrefix at h
    split at h
    · cases h
    · cases h
    · rename_i item hopen
      split at h
      · cases h
      · rename_i c harray
        obtain ⟨head, rest, rfl, hhead, rfl⟩ := written_of_openArray hopen harray
        split at h
        · cases h
        · rename_i record' c' hread
          obtain ⟨values, key, parts, rest', hkey, hfields, hfilled, rfl, rfl⟩ :=
            written_of_readItems hread
          rw [close_behind hfields] at h
          cases h
          refine ⟨values, ⟨head, key, parts⟩, rest', ⟨hhead, hkey, hfields⟩, ?_, ?_, hfilled⟩
          · simp only [Segments.bytes, List.append_assoc]
          · simp only [Segments.bytes, List.length_append, List.flatten_cons]
  · rintro ⟨values, l, rest, ⟨hhead, hkey, hfields⟩, rfl, rfl, hfilled⟩
    have hbytes : l.bytes ++ rest = l.head ++ (l.key ++ (l.fields.flatten ++ rest)) := by
      simp only [Segments.bytes, List.append_assoc]
    obtain ⟨item, hopen, harray, -⟩ := openArray_of_written hhead (l.key ++ (l.fields.flatten ++ rest))
    rw [hbytes, decodePrefix, hopen]
    dsimp only
    rw [harray]
    dsimp only
    rw [readItems_of_written hkey hfields hfilled]
    dsimp only
    rw [close_behind hfields]
    simp only [Segments.bytes, List.length_append, List.flatten_cons]

theorem decode_eq_ok {data : Bytes} {record : ρ} :
    decode ρ data = .ok record ↔ ∃ n, decodePrefix ρ data = .ok (record, n) ∧ data.length ≤ n := by
  unfold decode
  rcases decodePrefix ρ data with e | ⟨record', n⟩
  · simp
  · by_cases hn : n < data.length
    · simp [hn]
    · simp [hn, Nat.not_lt.1 hn]

/-- Nothing may stand behind the parts. -/
theorem decode_eq_ok_iff_lays {data : Bytes} {record : ρ} :
    decode ρ data = .ok record ↔
      ∃ values l, (schema ρ).Lays values l ∧ data = l.bytes ∧ Filled values record := by
  rw [decode_eq_ok]
  constructor
  · rintro ⟨n, h, hn⟩
    obtain ⟨values, l, rest, hl, rfl, rfl, hfilled⟩ := decodePrefix_eq_ok_iff.1 h
    have hrest : rest = [] := by
      rw [List.length_append] at hn
      exact List.length_eq_zero_iff.1 (by omega)
    exact ⟨values, l, hl, by rw [hrest, List.append_nil], hfilled⟩
  · rintro ⟨values, l, hl, rfl, hfilled⟩
    exact ⟨l.bytes.length, decodePrefix_eq_ok_iff.2
      ⟨values, l, [], hl, (List.append_nil _).symm, rfl, hfilled⟩, Nat.le_refl _⟩

/-- The next field can be set to a value that conforms; then the fields behind it are next. -/
theorem Lawful.exists_set [Lawful ρ] {f : Field} {fields : List Field} {filled : List FieldValue}
    {value : FieldValue} {record : ρ} (hfields : (schema ρ).fields.drop filled.length = f :: fields)
    (hfilled : Filled filled record) (hc : f.kind.Conforms value) :
    ∃ record' : ρ, setField record filled.length value = .ok record' ∧
      (schema ρ).fields.drop (filled ++ [value]).length = fields := by
  have hf : (schema ρ).fields[filled.length]? = some f := by
    rw [← List.head?_drop, hfields, List.head?_cons]
  obtain ⟨record', hset⟩ := Lawful.setField_ok hfilled hf hc
  refine ⟨record', hset, ?_⟩
  rw [List.length_append, List.length_singleton, ← List.drop_drop, hfields, List.drop_one, List.tail_cons]

/-- Values that conform can be set after those that have been set. -/
theorem Lawful.exists_filled_append [Lawful ρ] {fields : List Field} {filled values : List FieldValue}
    {record : ρ} (hfields : (schema ρ).fields.drop filled.length = fields) (hfilled : Filled filled record)
    (h : List.Forall₂ (fun f value => f.kind.Conforms value) fields values) :
    ∃ last : ρ, Filled (filled ++ values) last := by
  induction h generalizing filled record with
  | nil => exact ⟨record, by rwa [List.append_nil]⟩
  | @cons f value fields values hc h ih =>
    obtain ⟨record₁, hset, hnext⟩ := Lawful.exists_set hfields hfilled hc
    obtain ⟨last, hlast⟩ := ih hnext (.set hfilled hset)
    exact ⟨last, by rwa [List.append_cons]⟩

theorem exists_filled_of_lays [Lawful ρ] {values : List FieldValue} {l : Segments}
    (h : (schema ρ).Lays values l) : ∃ record : ρ, Filled values record := by
  have hblank : Filled [] (blank : ρ) := .blank
  exact Lawful.exists_filled_append rfl hblank h.fields.conforms

/-- Decoding accepts exactly the byte strings that are the parts of a record, and gives the record whose
fields were set to the values of its items. A row gets these values as they are, a person as its name
and number, and records of any kind that can be set to what their schema asks for accept all of them. -/
theorem accepts_exactly_its_grammar :
    (∀ {s : Schema} {data : Bytes} {values : List FieldValue},
      decode (Row s) data = .ok ⟨values⟩ ↔ ∃ l, s.Lays values l ∧ data = l.bytes) ∧
    (∀ {data : Bytes} {p : Person},
      decode Person data = .ok p ↔ ∃ l, Person.schema.Lays p.values l ∧ data = l.bytes) ∧
    (∀ {ρ : Type} [Record ρ] {data : Bytes} {record : ρ},
      decode ρ data = .ok record ↔
        ∃ values l, (schema ρ).Lays values l ∧ data = l.bytes ∧ Filled values record) ∧
    ∀ {ρ : Type} [Record ρ] [Lawful ρ] {values : List FieldValue} {l : Segments},
      (schema ρ).Lays values l →
        ∃ record : ρ, decode ρ l.bytes = .ok record ∧ HasFields record values := by
  refine ⟨?_, ?_, decode_eq_ok_iff_lays, ?_⟩
  · intro s data values
    rw [decode_eq_ok_iff_lays]
    constructor
    · rintro ⟨values', l, hl, hdata, hfilled⟩
      obtain rfl : values = values' := Row.values_of_filled hfilled
      exact ⟨l, hl, hdata⟩
    · rintro ⟨l, hl, hdata⟩
      obtain ⟨⟨values'⟩, hfilled⟩ : ∃ row : Row s, Filled values row := exists_filled_of_lays hl
      obtain rfl : values' = values := Row.values_of_filled hfilled
      exact ⟨values', l, hl, hdata, hfilled⟩
  · intro data p
    rw [decode_eq_ok_iff_lays]
    constructor
    · rintro ⟨values, l, hl, hdata, hfilled⟩
      have hlen : values.length = 2 := hl.fields.conforms.length_eq.symm
      have hvalues : values = p.values := by
        have htake := Person.values_of_filled hfilled
        rwa [hlen] at htake
      exact ⟨l, hvalues ▸ hl, hdata⟩
    · rintro ⟨l, hl, hdata⟩
      obtain ⟨p', hfilled⟩ : ∃ p' : Person, Filled p.values p' := exists_filled_of_lays hl
      obtain rfl : p' = p := Person.eq_of_filled hfilled
      exact ⟨p'.values, l, hl, hdata, hfilled⟩
  · intro ρ _ _ values l hl
    obtain ⟨record, hfilled⟩ := exists_filled_of_lays hl
    exact ⟨record, decode_eq_ok_iff_lays.2 ⟨values, l, hl, rfl, hfilled⟩, Lawful.hasFields hfilled⟩

/-- A row with a field of each kind, all heads wider than they need be. -/
theorem row_of_wide_heads_accepted :
    let s : Schema := ⟨"sample", .person, [⟨"count", .uint .w8⟩, ⟨"shift", .int .w8⟩, ⟨"flag", .bool⟩,
      ⟨"code", .bytes 2⟩, ⟨"note", .text 3⟩]⟩
    let values : List FieldValue := [.uint 255, .int (-128), .bool false, .bytes [0, 0xFF], .text "né"]
    let l : Segments := ⟨[0x99, 0, 6], [0x18, 0], [[0x1B, 0, 0, 0, 0, 0, 0, 0, 0xFF], [0x39, 0, 0x7F], [0xF4],
      [0x5A, 0, 0, 0, 2, 0, 0xFF], [0x78, 3, 0x6E, 0xC3, 0xA9]]⟩
    s.Lays values l ∧ decode (Row s) l.bytes = .ok ⟨values⟩ := by
  intro s values l
  have hcount : FieldKind.Written (.uint .w8) (.uint 255) [0x1B, 0, 0, 0, 0, 0, 0, 0, 0xFF] :=
    .uint (.after .w64 [0, 0, 0, 0, 0, 0, 0, 0xFF] rfl) (by decide)
  have hshift : FieldKind.Written (.int .w8) (.int (-128)) [0x39, 0, 0x7F] :=
    .negative (.after .w16 [0, 0x7F] rfl) (by decide) (by decide)
  have hcode : FieldKind.Written (.bytes 2) (.bytes [0, 0xFF]) [0x5A, 0, 0, 0, 2, 0, 0xFF] :=
    @FieldKind.Written.bytes [0, 0xFF] [0x5A, 0, 0, 0, 2] (.after .w32 [0, 0, 0, 2] rfl)
  have hnote : FieldKind.Written (.text 3) (.text "né") [0x78, 3, 0x6E, 0xC3, 0xA9] :=
    @FieldKind.Written.text 3 "né" [0x78, 3] (.after .w8 [3] rfl) (by decide)
  have hl : s.Lays values l :=
    ⟨.after .w16 [0, 6] rfl, .after .w8 [0] rfl,
      .cons hcount (.cons hshift (.cons (.bool false) (.cons hcode (.cons hnote .nil))))⟩
  exact ⟨hl, accepts_exactly_its_grammar.1.2 ⟨l, hl, rfl⟩⟩

end Record

end CborRecords
