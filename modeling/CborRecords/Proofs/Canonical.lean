import CborRecords.Proofs.RecordGrammar

/-!
# Canonical records

Of all the byte strings that stand for a record one is canonical: every head in it is the shortest. It
is the one that encoding writes, no other is as short, and so encoding what was decoded gives the one
canonical form of the input.

* `Bytes.AtMost` : the same bytes, or fewer; it passes to bytes put together;
* `Head.Shortest` : a head that no head of the same argument is shorter than (`Head.shortest_encode`);
* `FieldValue.Canonical`, `Schema.Canonical` : values and records with shortest heads throughout;
* `Record.Encodes` : what a record is written as, into buffers of every length;
* `Record.reencodes_canonically` : decoding and then encoding.
-/

namespace CborRecords

/-! ## The same bytes, or fewer -/

namespace Bytes

/-- The bytes `a` are the bytes `b`, or they are fewer. -/
def AtMost (a b : Bytes) : Prop :=
  a = b ∨ a.length < b.length

namespace AtMost
variable {a b c d : Bytes}

theorem refl (a : Bytes) : AtMost a a :=
  .inl rfl

theorem length_le (h : AtMost a b) : a.length ≤ b.length := by
  rcases h with rfl | h
  · exact Nat.le_refl _
  · omega

theorem length_eq_iff (h : AtMost a b) : a.length = b.length ↔ a = b := by
  constructor
  · intro hlen
    rcases h with rfl | h
    · rfl
    · omega
  · intro heq
    rw [heq]

/-- Where both parts are at most as long, bytes of the same total length have the same parts. -/
theorem append (h : AtMost a b) (h' : AtMost c d) : AtMost (a ++ c) (b ++ d) := by
  have hle := h.length_le
  have hle' := h'.length_le
  by_cases hlen : (a ++ c).length < (b ++ d).length
  · exact .inr hlen
  · rw [List.length_append, List.length_append] at hlen
    have heq : a = b := h.length_eq_iff.1 (by omega)
    have heq' : c = d := h'.length_eq_iff.1 (by omega)
    exact .inl (by rw [heq, heq'])

end AtMost

end Bytes

/-! ## Shortest heads -/

/-- A width that an argument needs is no wider than one that it fits in. -/
theorem Width.bytes_le_of_least {v w : Width} (h : v.least < Nat.pow 256 w.bytes) : v.bytes ≤ w.bytes := by
  cases v <;> cases w <;> first | decide | exact absurd h (by decide)

namespace Head

/-- A head that no head of its major type and argument is shorter than. -/
structure Shortest (m : Major) (n : Nat) (head : Bytes) : Prop where
  written : Written m n head
  length_le {other : Bytes} (h : Written m n other) : head.length ≤ other.length

variable {m : Major} {n : Nat} {head other : Bytes}

/-- The length of a head and its argument say which head it is. -/
theorem Written.eq_of_length_eq (h : Written m n head) (h' : Written m n other)
    (hlen : head.length = other.length) : head = other := by
  generalize hn : n = n' at h'
  cases h with
  | inside h =>
    cases h' with
    | inside h' => rw [hn]
    | after w digits h' =>
      have := w.bytes_pos
      rw [List.length_singleton, List.length_cons] at hlen
      omega
  | after w digits h =>
    cases h' with
    | inside h' =>
      have := w.bytes_pos
      rw [List.length_singleton, List.length_cons] at hlen
      omega
    | after w' digits' h' =>
      rw [List.length_cons, List.length_cons] at hlen
      have hdigits : digits = digits' := by
        rw [← Bytes.ofNat_toNat digits, ← Bytes.ofNat_toNat digits', hn, Nat.succ.inj hlen]
      subst hdigits
      rw [Width.bytes_injective (h.symm.trans h')]

theorem Shortest.atMost (h : Shortest m n head) (h' : Written m n other) : Bytes.AtMost head other := by
  rcases Nat.eq_or_lt_of_le (h.length_le h') with hlen | hlen
  · exact .inl (h.written.eq_of_length_eq h' hlen)
  · exact .inr hlen

/-- The head that is written is the shortest. -/
theorem shortest_encode (m : Major) (n : UInt64) : Shortest m n.toNat (encode m n) where
  written := encode_written m n
  length_le {other} h := by
    have hn : encode m n = encode m (UInt64.ofNat n.toNat) := by rw [UInt64.ofNat_toNat]
    rw [hn]
    generalize n.toNat = k at h ⊢
    by_cases hk : k < 24
    · rw [encode_inside hk]
      exact List.length_pos_iff.2 h.ne_nil
    · -- an argument that needs a width stands in no head of a narrower one
      obtain ⟨v, hv, hv'⟩ := exists_width (Nat.not_lt.1 hk) h.argument_lt
      rw [encode_after v hv hv', List.length_cons, Bytes.length_ofNat]
      cases h with
      | inside h => exact absurd h hk
      | after w digits h =>
        have hlt := Bytes.toNat_lt digits
        rw [h] at hlt
        have := Width.bytes_le_of_least (Nat.lt_of_le_of_lt hv hlt)
        rw [List.length_cons, h]
        omega

theorem shortest_encode_ofNat (m : Major) (hn : n < 0x10000000000000000) :
    Shortest m n (encode m (UInt64.ofNat n)) := by
  have h := shortest_encode m (UInt64.ofNat n)
  rwa [UInt64.toNat_ofNat_of_lt' hn] at h

end Head

/-! ## Canonical values -/

/-- The item that a value is written as: an integer by its sign, and every head the shortest. -/
inductive FieldValue.Canonical : FieldValue → Bytes → Prop
  | uint {n : UInt64} {head : Bytes} (h : Head.Shortest .unsigned n.toNat head) : Canonical (.uint n) head
  | nonneg {n : Int64} {v : Nat} {head : Bytes} (h : Head.Shortest .unsigned v head) (hn : n.toInt = v) :
      Canonical (.int n) head
  | negative {n : Int64} {v : Nat} {head : Bytes} (h : Head.Shortest .negative v head)
      (hn : n.toInt = -1 - v) : Canonical (.int n) head
  | bool (b : Bool) : Canonical (.bool b) [if b then 0xF5 else 0xF4]
  | bytes {content head : Bytes} (h : Head.Shortest .bytes content.length head) :
      Canonical (.bytes content) (head ++ content)
  | text {content : String} {head : Bytes} (h : Head.Shortest .text (Utf8.size content) head) :
      Canonical (.text content) (head ++ Utf8.encode content)

namespace FieldValue
variable {kind : FieldKind} {value : FieldValue} {item part : Bytes}

theorem canonical_int (n : Int64) : (int n).Canonical (Value.signed n).front := by
  rw [Value.front]
  rcases Value.toInt_cases n with ⟨hn, hint⟩ | ⟨hn, hint, hneg⟩
  · rw [if_pos hn]
    exact .nonneg (Head.shortest_encode _ _) hint
  · rw [if_neg hn]
    refine .negative (Head.shortest_encode _ _) ?_
    have hlt : n.toUInt64.toNat < 0x10000000000000000 := n.toUInt64.toNat_lt
    rw [UInt64.toNat_not, hint, UInt64.size]
    omega

/-- What a value is written as is canonical. -/
theorem Sized.canonical (h : value.Sized) : value.Canonical value.value.encoding := by
  rw [Value.encoding_scalar value.value_scalar]
  cases value with
  | uint n => exact .uint (Head.shortest_encode _ _)
  | int n => exact canonical_int n
  | bool b => cases b <;> exact .bool _
  | bytes content => exact .bytes (Head.shortest_encode_ofNat _ h)
  | text content => exact .text (Head.shortest_encode_ofNat _ h)

/-- A canonical item is one that a kind of field admits, if its value conforms. -/
theorem Canonical.written (h : value.Canonical item) (hc : kind.Conforms value) :
    kind.Written value item := by
  cases h with
  | uint h =>
    cases kind with
    | uint width => exact .uint h.written hc
    | _ => exact hc.elim
  | nonneg h hn =>
    cases kind with
    | int width => exact .nonneg h.written hn (hn ▸ hc.2)
    | _ => exact hc.elim
  | negative h hn =>
    cases kind with
    | int width => exact .negative h.written hn (hn ▸ hc.1)
    | _ => exact hc.elim
  | bool b =>
    cases kind with
    | bool => exact .bool b
    | _ => exact hc.elim
  | bytes h =>
    cases kind with
    | bytes size =>
      obtain rfl : _ = size := hc
      exact .bytes h.written
    | _ => exact hc.elim
  | text h =>
    cases kind with
    | text most => exact .text h.written hc
    | _ => exact hc.elim

/-- No item that a kind of field admits for a value is shorter than the canonical one, and no other is
as short. -/
theorem Canonical.atMost (h : value.Canonical item) (h' : kind.Written value part) :
    Bytes.AtMost item part := by
  cases h with
  | uint h =>
    cases h' with
    | uint h' _ => exact h.atMost h'
  | @nonneg n v head h hn =>
    -- the sign of the integer chooses the major type
    cases h' with
    | @nonneg _ _ v' _ h' hn' _ =>
      obtain rfl : v' = v := by omega
      exact h.atMost h'
    | negative h' hn' _ => omega
  | @negative n v head h hn =>
    cases h' with
    | nonneg h' hn' _ => omega
    | @negative _ _ v' _ h' hn' _ =>
      obtain rfl : v' = v := by omega
      exact h.atMost h'
  | bool b =>
    cases h'
    exact .refl _
  | bytes h =>
    cases h' with
    | bytes h' => exact (h.atMost h').append (.refl _)
  | text h =>
    cases h' with
    | text h' _ => exact (h.atMost h').append (.refl _)

end FieldValue

/-- What was written has a length that can be. -/
theorem FieldKind.Written.sized {kind : FieldKind} {value : FieldValue} {part : Bytes}
    (h : kind.Written value part) : value.Sized := by
  cases h with
  | bytes h | text h => exact h.argument_lt
  | _ => exact trivial

/-! ## Canonical records -/

/-- The parts are those of a record of the schema with these values, with shortest heads throughout. -/
structure Schema.Canonical (s : Schema) (values : List FieldValue) (l : Segments) : Prop where
  head : Head.Shortest .array s.itemCount l.head
  key : Head.Shortest .unsigned s.key.id.toNat l.key
  fields : List.Forall₂ FieldValue.Canonical values l.fields

namespace Field.Lays
variable {fields : List Field} {values : List FieldValue} {parts items : List Bytes}

theorem sized (h : Lays fields values parts) : ∀ value ∈ values, value.Sized := by
  induction h with
  | nil => exact nofun
  | cons h _ ih =>
    rw [List.forall_mem_cons]
    exact ⟨h.sized, ih⟩

theorem of_canonical (hc : List.Forall₂ (fun f value => f.kind.Conforms value) fields values)
    (h : List.Forall₂ FieldValue.Canonical values items) : Lays fields values items := by
  induction hc generalizing items with
  | nil =>
    cases h
    exact .nil
  | cons hc _ ih =>
    cases h with
    | cons h hrest => exact .cons (h.written hc) (ih hrest)

theorem atMost (h : Lays fields values parts) (hc : List.Forall₂ FieldValue.Canonical values items) :
    Bytes.AtMost items.flatten parts.flatten := by
  induction h generalizing items with
  | nil =>
    cases hc
    exact .refl _
  | cons h _ ih =>
    cases hc with
    | cons hc hrest => exact (hc.atMost h).append (ih hrest)

end Field.Lays

namespace Schema
variable {s : Schema} {values : List FieldValue} {l l' : Segments}

theorem Lays.conforms (h : s.Lays values l) : s.Conforms values :=
  ⟨h.head.argument_lt, h.fields.conforms, h.fields.sized⟩

theorem Canonical.lays (h : s.Canonical values l) (hc : s.Conforms values) : s.Lays values l :=
  ⟨h.head.written, h.key.written, .of_canonical hc.values_conform h.fields⟩

theorem Canonical.atMost (h : s.Canonical values l) (h' : s.Lays values l') :
    Bytes.AtMost l.bytes l'.bytes :=
  (h.head.atMost h'.head).append ((h.key.atMost h'.key).append (h'.fields.atMost h.fields))

/-- What values are written as is canonical, whether they conform or not. -/
theorem Holds.exists_canonical (h : s.Holds values) :
    ∃ l, s.Canonical values l ∧ (s.array values).encoding = l.bytes := by
  have hkey := Head.shortest_encode .unsigned s.key.id.toUInt64
  rw [UInt32.toNat_toUInt64] at hkey
  refine ⟨⟨_, _, values.map fun value => value.value.encoding⟩,
    ⟨Head.shortest_encode_ofNat _ h.itemCount_lt, hkey, ?_⟩, ?_⟩
  · rw [List.forall₂_map_right_iff, List.forall₂_same]
    exact fun value hvalue => (h.values_sized value hvalue).canonical
  · rw [array, Value.encoding, Value.encodings, Value.encodings_eq, List.flatMap_map, Container.ending,
      List.append_nil, Segments.bytes, List.flatMap_def]
    rfl

end Schema

/-! ## Encoding records -/

namespace Record
variable {ρ : Type} [Record ρ]

/-- The bytes that a record is written as. They are counted without misuse. A buffer with room for them
gets them at its front and is the same behind them, and one without room is the same altogether. -/
structure Encodes (record : ρ) (encoded : Bytes) : Prop where
  counted : (value record).encodedLength = .ok encoded.length
  encodedLength_eq : encodedLength record = encoded.length
  encode_eq (buffer : Bytes) : encode record buffer =
    if buffer.length < encoded.length then (.error (.capacity encoded.length buffer.length), buffer)
    else (.ok encoded.length, encoded ++ buffer.drop encoded.length)

theorem Encodes.of_encodable {record : ρ} (h : (value record).Encodable) :
    Encodes record (value record).encoding where
  counted := Value.encodedLength_eq h
  encodedLength_eq := by
    rw [encodedLength, Value.emit_counter h, Sink.position]
  encode_eq buffer := by
    split
    · rename_i hroom
      rw [encode, Value.encode, Value.encodedLength_eq h]
      dsimp only
      rw [if_pos hroom]
      rfl
    · rename_i hroom
      rw [encode, Value.encode_eq h (Nat.not_lt.1 hroom)]

/-- A record is written as one byte string: the one that fills a buffer of its length. -/
theorem Encodes.unique {record : ρ} {encoded encoded' : Bytes} (h : Encodes record encoded)
    (h' : Encodes record encoded') : encoded = encoded' := by
  have hlen : encoded'.length = encoded.length := h'.encodedLength_eq.symm.trans h.encodedLength_eq
  have heq := h.encode_eq encoded
  rw [h'.encode_eq, hlen, if_neg (Nat.lt_irrefl _), if_neg (Nat.lt_irrefl _), List.drop_length,
    List.append_nil, List.append_nil] at heq
  exact (congrArg Prod.snd heq).symm

/-- A record is written in canonical parts, whether its values conform or not. -/
theorem exists_encodes {record : ρ} {values : List FieldValue} (hr : HasFields record values)
    (h : (schema ρ).Holds values) :
    ∃ l, (schema ρ).Canonical values l ∧ Encodes record l.bytes := by
  obtain ⟨l, hl, hbytes⟩ := h.exists_canonical
  have hv := value_eq hr h.length_eq.symm
  have hencodes := Encodes.of_encodable (hv ▸ h.encodable_array : (value record).Encodable)
  rw [hv, hbytes] at hencodes
  exact ⟨l, hl, hencodes⟩

/-! ## Decoding and then encoding -/

/-- Records whose fields have the values that they were set to. -/
def Retains (ρ : Type) [Record ρ] : Prop :=
  ∀ {values : List FieldValue} {record : ρ}, Filled values record → HasFields record values

theorem Lawful.retains [Lawful ρ] : Retains ρ :=
  Lawful.hasFields

/-- What was decoded is written as bytes that decode to it again and that no accepted input for it is
shorter than; the only one as short is these bytes. -/
theorem exists_encodes_of_decode (hretains : Retains ρ) {data : Bytes} {record : ρ}
    (h : decode ρ data = .ok record) :
    ∃ encoded, Encodes record encoded ∧ decode ρ encoded = .ok record ∧ Bytes.AtMost encoded data := by
  obtain ⟨values, l, hlays, rfl, hfilled⟩ := decode_eq_ok_iff_lays.1 h
  have hc := hlays.conforms
  obtain ⟨l', hl', hencodes⟩ := exists_encodes (hretains hfilled) hc.holds
  exact ⟨l'.bytes, hencodes, decode_eq_ok_iff_lays.2 ⟨values, l', hl'.lays hc, rfl, hfilled⟩,
    hl'.atMost hlays⟩

/-- Decoding and then encoding gives the canonical form of an input: it decodes to the same record, it
is no longer than the input, and as long only if it is the input. Two inputs have the same canonical
form exactly when they decode to the same record. -/
theorem reencodes_canonically (hretains : Retains ρ) {data : Bytes} {record : ρ}
    (h : decode ρ data = .ok record) :
    ∃ encoded, Encodes record encoded ∧ decode ρ encoded = .ok record ∧ encoded.length ≤ data.length ∧
      (encoded.length = data.length ↔ encoded = data) ∧
      ∀ {data' encoded' : Bytes} {record' : ρ}, decode ρ data' = .ok record' → Encodes record' encoded' →
        (record = record' ↔ encoded = encoded') := by
  obtain ⟨encoded, hencodes, hdecode, hatMost⟩ := exists_encodes_of_decode hretains h
  refine ⟨encoded, hencodes, hdecode, hatMost.length_le, hatMost.length_eq_iff, ?_⟩
  intro data' encoded' record' h' hencodes'
  constructor
  · rintro rfl
    exact hencodes.unique hencodes'
  · rintro rfl
    obtain ⟨encoded', hencodes₁, hdecode', -⟩ := exists_encodes_of_decode hretains h'
    rw [hencodes₁.unique hencodes', hdecode] at hdecode'
    exact Except.ok.inj hdecode'

/-- A row whose heads are all wider than they need be becomes shorter by as much. -/
theorem row_of_wide_heads_reencoded :
    let s : Schema := ⟨"sample", .person, [⟨"shift", .int .w8⟩, ⟨"code", .bytes 2⟩]⟩
    let row : Row s := ⟨[.int (-7), .bytes [0, 0xFF]]⟩
    let wide : Bytes := [0x98, 3, 0x19, 0, 0, 0x38, 6, 0x58, 2, 0, 0xFF]
    decode (Row s) wide = .ok row ∧
      ∃ encoded, Encodes row encoded ∧ decode (Row s) encoded = .ok row ∧ encoded.length = 6 ∧
        encoded ≠ wide := by
  intro s row wide
  have hwide : decode (Row s) wide = .ok row := by decide +kernel
  obtain ⟨encoded, hencodes, hdecode, -, hlength, -⟩ := reencodes_canonically Lawful.retains hwide
  have hsix : encodedLength row = 6 := by decide +kernel
  have hlen : encoded.length = 6 := hencodes.encodedLength_eq.symm.trans hsix
  refine ⟨hwide, encoded, hencodes, hdecode, hlen, ?_⟩
  intro heq
  have heleven : encoded.length = 11 := hlength.2 heq
  omega

end Record

end CborRecords
