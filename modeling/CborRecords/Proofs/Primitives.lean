import CborRecords.Boundary.Item
import CborRecords.Proofs.Capacity
import CborRecords.Proofs.Headers
import CborRecords.Proofs.Integers

/-!
# Items across the boundary

A caller encodes one item into a region of its own, and later reads it back from a region that starts with
it. Whatever a call is given, it does all that it is for or leaves the memory of the caller alone.

* `Boundary.Failed`, `Boundary.Wrote` : the two ends of a call that writes to a region;
* `Boundary.Delivers` : it ends well exactly when the region has room for the item;
* `Boundary.readItem_scalar`, `Boundary.copyContent_of_ok` : reading an encoded scalar;
* `Boundary.Primitive` : what crosses the boundary, with the calls for it in both directions;
* `Boundary.primitives_cross_whole` : items arrive as they were sent, and failures leave nothing behind.
-/

namespace CborRecords

namespace Value

theorem encode_of_short {v : Value} (h : v.Encodable) {buffer : Bytes}
    (hshort : buffer.length < v.encoding.length) :
    v.encode buffer =
      (.error (.error (.bufferTooSmall v.encoding.length buffer.length)), buffer) := by
  rw [encode, encodedLength_eq h]
  exact if_pos hshort

/-- A simple value that stands for something else is refused when it is emitted, with nothing written. -/
theorem encode_reserved {v : UInt8} (h : 20 ≤ v ∧ v ≤ 31) (buffer : Bytes) :
    (simple v).encode buffer = (.error (.error (.invalidSimpleValue v)), buffer) := by
  have hemit (sink : Sink) : (simple v).emit sink = (.error (.error (.invalidSimpleValue v)), sink) := by
    rw [emit, if_pos h]
  rw [encode, encodedLength, hemit]
  dsimp only [Sink.position]
  rw [if_neg (Nat.not_lt_zero _), hemit]
  rfl

theorem encodable_ofInteger (t : IntType) (n : Int) : (ofInteger t n).Encodable := by
  unfold ofInteger
  split
  · exact .signed _
  · exact .unsigned _

theorem ofInteger_scalar (t : IntType) (n : Int) : ∀ kind count items,
    ofInteger t n ≠ container kind count items := by
  intro kind count items h
  unfold ofInteger at h
  split at h <;> cases h

end Value

theorem Value.content_ofInteger {t : IntType} {n : Int} (h : t.contains n) :
    (ofInteger t n).content = .ofInt n := by
  unfold ofInteger
  split
  · rename_i hs
    have hrange := IntType.range_of_signed hs h
    rw [content, Int64.toInt_ofInt_of_le hrange.1 hrange.2]
  · rename_i hs
    have hrange := IntType.range_of_unsigned (Bool.eq_false_iff.2 hs) h
    rw [Content.ofInt, if_pos hrange.1]
    rfl

/-- An integer is read as any type that it belongs to. -/
theorem Item.integer_of_content {item : Item} {t : IntType} {n : Int} (h : t.contains n)
    (hc : item.content = .ofInt n) : item.integer t = .ok n := by
  have hrange := IntType.range_of_contains h
  rw [integer_eq, hc, Content.int?_ofInt hrange.1 hrange.2, Option.elim, IntType.verdict_of_contains h]

/-- The head of a container with an announced number of entries is read without the items. -/
theorem Container.readHead_head (kind : Container) (count : UInt64) (rest : Bytes) :
    kind.readHead (kind.head (some count) ++ rest) = .ok (some count, (kind.head (some count)).length) :=
  readHead_eq_ok_iff.2 ⟨_, rest, rfl, rfl, .definite (Head.encode_written kind.major count)⟩

namespace Boundary

/-! ## Encoding -/

/-- A call that failed and left what it was to change as it was. -/
def Failed {α : Type} (before : α) (reply : Reply α) : Prop :=
  reply.code = -1 ∧ reply.output = before

/-- A call that has put bytes in the place of the first ones of a region, and returned how many. -/
def Wrote (region : Region) (bytes : Bytes) (reply : Reply (Option Bytes)) : Prop :=
  reply.code = (min bytes.length maxCode : Nat) ∧
    reply.output = region.memory.map fun memory => bytes ++ memory.drop bytes.length

/-- What a call does that writes to the start of a region. -/
def Copies (dst : Region) (reply : Reply (Option Bytes)) : Prop :=
  Failed dst.memory reply ∨ ∃ bytes : Bytes, bytes.length ≤ dst.length ∧ Wrote dst bytes reply

/-- What a call does that writes an item to a region. -/
structure Delivers (dst : Region) (item : Bytes) (reply : Reply (Option Bytes)) : Prop where
  wrote : dst.Valid → item.length ≤ dst.length → Wrote dst item reply
  failed : ¬ (dst.Valid ∧ item.length ≤ dst.length) → Failed dst.memory reply

theorem Delivers.copies {dst : Region} {item : Bytes} {reply : Reply (Option Bytes)}
    (h : Delivers dst item reply) : Copies dst reply := by
  by_cases hroom : dst.Valid ∧ item.length ≤ dst.length
  · exact .inr ⟨item, hroom.2, h.wrote hroom.1 hroom.2⟩
  · exact .inl (h.failed hroom)

theorem Wrote.code_nonneg {region : Region} {bytes : Bytes} {reply : Reply (Option Bytes)}
    (h : Wrote region bytes reply) : 0 ≤ reply.code := by
  rw [h.1]
  exact Int.natCast_nonneg _

section Encoders
variable {dst : Region}

theorem failed_item {α : Type} (e : RecordError) (before : α) :
    Failed before (Reply.item (.error e) before) :=
  ⟨rfl, rfl⟩

theorem item_of_ok {α : Type} {length : Nat} (h : length ≤ maxCode) (output : α) :
    Reply.item (.ok length) output = ⟨length, [], output⟩ := by
  show (⟨((min length maxCode : Nat) : Int), [], output⟩ : Reply α) = _
  rw [Nat.min_eq_left h]

theorem delivers_encodeValue (hdst : dst.Usable) {v : Value} (hv : v.Encodable) :
    Delivers dst v.encoding (encodeValue dst v) := by
  rcases hdst.valid_or_missing with hvalid | ⟨hinvalid, hwindow⟩
  · have hlen := hvalid.length_bytes
    rw [encodeValue, Region.window_of_valid hvalid]
    dsimp only
    by_cases hroom : v.encoding.length ≤ dst.length
    · rw [Value.encode_eq hv (by omega)]
      exact ⟨fun _ _ => ⟨rfl, Region.update_front hvalid hroom⟩, fun h => absurd ⟨hvalid, hroom⟩ h⟩
    · rw [Value.encode_of_short hv (by omega)]
      exact ⟨fun _ h => absurd h hroom, fun _ => ⟨rfl, Region.update_bytes hvalid⟩⟩
  · rw [encodeValue, hwindow]
    exact ⟨fun h => absurd h hinvalid, fun _ => failed_item _ _⟩

theorem failed_encodeValue_reserved (hdst : dst.Usable) {v : UInt8} (h : 20 ≤ v ∧ v ≤ 31) :
    Failed dst.memory (encodeValue dst (.simple v)) := by
  rcases hdst.valid_or_missing with hvalid | ⟨-, hwindow⟩
  · rw [encodeValue, Region.window_of_valid hvalid]
    dsimp only
    rw [Value.encode_reserved h]
    exact ⟨rfl, Region.update_bytes hvalid⟩
  · rw [encodeValue, hwindow]
    exact failed_item _ _

theorem delivers_encodeHead (hdst : dst.Usable) (kind : Container) (count : UInt32) :
    Delivers dst (kind.head (some count.toUInt64)) (encodeHead dst kind count) := by
  generalize hhead : kind.head (some count.toUInt64) = head
  rcases hdst.valid_or_missing with hvalid | ⟨hinvalid, hwindow⟩
  · have hlen := hvalid.length_bytes
    rw [encodeHead, Region.window_of_valid hvalid, hhead]
    dsimp only
    by_cases hroom : head.length ≤ dst.length
    · rw [Sink.write_buffer (by omega)]
      exact ⟨fun _ _ => ⟨rfl, Region.update_front hvalid hroom⟩, fun h => absurd ⟨hvalid, hroom⟩ h⟩
    · rw [Sink.ofBuffer, Sink.write, if_neg (by omega)]
      exact ⟨fun _ h => absurd h hroom, fun _ => ⟨rfl, Region.update_bytes hvalid⟩⟩
  · rw [encodeHead, hwindow]
    exact ⟨fun h => absurd h hinvalid, fun _ => failed_item _ _⟩

end Encoders

theorem bytesValue_of_valid {src : Region} (h : src.Valid) : bytesValue src = .ok (.bytes src.bytes) := by
  rw [bytesValue, Region.window_of_valid h]

theorem textValue_of_valid {src : Region} (h : src.Valid) {content : String}
    (htext : src.bytes = Utf8.encode content) : textValue src = .ok (.text content) := by
  rw [textValue, Region.window_of_valid h]
  dsimp only
  rw [htext, Utf8.decode_encode]

theorem textValue_of_no_text {src : Region} (h : src.Valid)
    (htext : ¬ ∃ content, src.bytes = Utf8.encode content) :
    textValue src = .error (.schemaMismatch "src" .utf8) := by
  rw [textValue, Region.window_of_valid h]
  dsimp only
  rcases hdecode : Utf8.decode src.bytes with fault | content
  · rfl
  · exact absurd ⟨content, Utf8.decode_eq_ok_iff.1 hdecode⟩ htext

/-! ## Decoding -/

/-- What a call does that puts one value in the place of another. -/
def Settles {α : Type} (place : Option α) (reply : Reply (Option α)) : Prop :=
  Failed place reply ∨ ∃ old new, place = some old ∧ 0 ≤ reply.code ∧ reply.output = some new

section Decoders
variable {dst src : Region}

theorem settles_readTo {α : Type} (place : Option α) (src : Region)
    (read : Bytes → Except DecodeError (α × Nat)) : Settles place (readTo place src read) := by
  unfold readTo
  rcases src.window "src" with e | data
  · exact .inl (failed_item _ _)
  · cases place with
    | none => exact .inl (failed_item _ _)
    | some old =>
      dsimp only
      rcases lift (read data) with e | ⟨new, length⟩
      · exact .inl (failed_item _ _)
      · exact .inr ⟨old, new, rfl, Int.natCast_nonneg _, rfl⟩

theorem copies_copyContent (content : Item → Except DecodeError Bytes) (dst src : Region) :
    Copies dst (copyContent content dst src) := by
  unfold copyContent
  rcases src.window "src" with e | data
  · exact .inl (failed_item _ _)
  dsimp only
  rcases lift (readItem content data) with e | ⟨bytes, _⟩
  · exact .inl (failed_item _ _)
  dsimp only
  rcases hwindow : dst.window "dst" with e | window
  · exact .inl (failed_item _ _)
  dsimp only
  split
  · exact .inl (failed_item _ _)
  · rename_i hroom
    have hlen : window.length ≤ dst.length := Region.length_window_le hwindow
    exact .inr ⟨bytes, by omega, rfl, rfl⟩

theorem readTo_of_ok {α : Type} (hsrc : src.Valid) {read : Bytes → Except DecodeError (α × Nat)} {a : α}
    {length : Nat} (h : read src.bytes = .ok (a, length)) (hlen : length ≤ maxCode) (old : α) :
    readTo (some old) src read = ⟨length, [], some a⟩ := by
  rw [readTo, Region.window_of_valid hsrc]
  dsimp only
  rw [h, lift]
  exact item_of_ok hlen _

theorem copyContent_of_ok (hsrc : src.Valid) (hdst : dst.Valid) {data : Bytes} (hdata : src.bytes = data)
    {content : Item → Except DecodeError Bytes} {bytes : Bytes} {length : Nat}
    (h : readItem content data = .ok (bytes, length)) (hroom : bytes.length ≤ dst.length) :
    Wrote dst bytes (copyContent content dst src) := by
  have hlen := hdst.length_bytes
  rw [copyContent, Region.window_of_valid hsrc, hdata]
  dsimp only
  rw [h, lift]
  dsimp only
  rw [Region.window_of_valid hdst]
  dsimp only
  rw [if_neg (by omega)]
  exact ⟨rfl, rfl⟩

end Decoders

section Scalars
variable {α : Type} {v : Value} (hv : v.Encodable) (hs : ∀ kind count items, v ≠ .container kind count items)
  (rest : Bytes)

include hv hs

/-- Of an encoded scalar its content is read, and that it has no tags. -/
theorem readItem_scalar {visit : Item → Except DecodeError α} {a : α}
    (hvisit : visit ⟨⟨[]⟩, true, v.content, v.encoding.length⟩ = .ok a) :
    readItem visit (v.encoding ++ rest) = .ok (a, v.encoding.length) := by
  have hclose : Item.close ⟨⟨[]⟩, true, v.content, v.encoding.length⟩ v.content = .ok v.encoding.length := by
    unfold Item.close
    split
    · rename_i c hc
      exact absurd hc (Value.content_scalar hs c)
    · rfl
  rw [readItem, Value.open?_scalar hv hs rest, Cursor.require]
  dsimp only
  rw [hvisit]
  dsimp only
  rw [hclose]

theorem read_scalar {t : ScalarType} {value : Scalar}
    (hvalue : Item.scalar t ⟨⟨[]⟩, true, v.content, v.encoding.length⟩ = .ok value) :
    t.read (v.encoding ++ rest) = .ok (value, true, v.encoding.length) := by
  rw [ScalarType.read, ScalarType.read?, Value.open?_scalar hv hs rest]
  dsimp only
  rw [hvalue]
  rfl

end Scalars

/-! ## Primitives -/

/-- What crosses the boundary: a value of an integer type, a boolean, a character as the byte that it is,
a null, an undefined, a simple value, the bytes or the text of a region, or the head of a container. -/
inductive Primitive
  | int (t : IntType) (n : Int) (h : t.contains n)
  | bool (b : Bool)
  | char (c : UInt8)
  | null
  | undefined
  | simple (value : UInt8)
  | bytes (string : Region)
  | text (string : Region)
  | head (kind : Container) (count : UInt32)

namespace Primitive

/-- The call that encodes it to a region. -/
def encode (dst : Region) : Primitive → Reply (Option Bytes)
  | .int t n _ => encodeValue dst (.ofInteger t n)
  | .bool b => encodeValue dst (.bool b)
  | .char c => encodeValue dst (.unsigned c.toUInt64)
  | .null => encodeValue dst .null
  | .undefined => encodeValue dst .undefined
  | .simple value => encodeValue dst (.simple value)
  | .bytes string => encodeBytes dst string
  | .text string => encodeText dst string
  | .head kind count => encodeHead dst kind count

/-- The call that decodes it gives it back from a region that starts with an item of this length: the value
and the length of the item, of a string the content and its own length, and of a head the number of entries
if it is one that can be returned. -/
def ReadsBack (src : Region) (length : Nat) : Primitive → Prop
  | .int t n _ => ∀ old, decodeScalar (.int t) (some old) src = ⟨length, [], some (.int n)⟩
  | .bool b => ∀ old, decodeScalar .bool (some old) src = ⟨length, [], some (.bool b)⟩
  | .char c =>
    ∀ old, decodeScalar (.int ⟨false, .w8⟩) (some old) src = ⟨length, [], some (.int c.toNat)⟩
  | .null => decodeNull src = ⟨length, [], ()⟩
  | .undefined => decodeUndefined src = ⟨length, [], ()⟩
  | .simple value => ∀ old, decodeSimple (some old) src = ⟨length, [], some value⟩
  | .bytes string => ∀ dst : Region, dst.Valid → string.length ≤ dst.length →
    Wrote dst string.bytes (copyBytes dst src)
  | .text string => ∀ dst : Region, dst.Valid → string.length ≤ dst.length →
    Wrote dst string.bytes (copyText dst src)
  | .head kind count =>
    entryCount kind src = ⟨if count.toNat ≤ maxCode then count.toNat else -1, [], ()⟩

/-- The region of a string, with a length that a caller can state, has an address or can do without. -/
def Valid : Primitive → Prop
  | .bytes string | .text string => string.Valid ∧ string.length ≤ maxLength
  | _ => True

/-- The region of a string, with a length that a caller can state, has no address that leads elsewhere. -/
def Usable : Primitive → Prop
  | .bytes string | .text string => string.Usable ∧ string.length ≤ maxLength
  | _ => True

/-- What no item stands for: the simple values that stand for something else, and bytes that are no text. -/
def Rejected : Primitive → Prop
  | .simple value => 20 ≤ value ∧ value ≤ 31
  | .text string => ¬ ∃ content, string.bytes = Utf8.encode content
  | _ => False

/-- It is encoded as this item, wherever there is room for it, and reads back from it, whatever follows. -/
structure CrossesAs (p : Primitive) (item : Bytes) : Prop where
  delivers (dst : Region) (h : dst.Usable) : Delivers dst item (p.encode dst)
  reads_back (src : Region) (h : src.Valid) (rest : Bytes) (hsrc : src.bytes = item ++ rest)
    (hlen : item.length ≤ maxCode) : p.ReadsBack src item.length

section Values
variable {v : Value} (hv : v.Encodable) (hs : ∀ kind count items, v ≠ .container kind count items)
  {src : Region} {rest : Bytes} (hsrc : src.Valid) (hbytes : src.bytes = v.encoding ++ rest)
  (hlen : v.encoding.length ≤ maxCode)

include hv hs hsrc hbytes hlen

theorem decodeScalar_of_value {t : ScalarType} {value : Scalar}
    (hvalue : Item.scalar t ⟨⟨[]⟩, true, v.content, v.encoding.length⟩ = .ok value) (old : Scalar) :
    decodeScalar t (some old) src = ⟨v.encoding.length, [], some value⟩ := by
  refine readTo_of_ok hsrc ?_ hlen old
  rw [hbytes, read_scalar hv hs rest hvalue]

theorem decodeUnit_of_value {expected : String} {wanted : Content → Bool}
    (hwanted : wanted v.content = true) :
    decodeUnit expected wanted src = ⟨v.encoding.length, [], ()⟩ := by
  rw [decodeUnit, Region.window_of_valid hsrc, hbytes]
  dsimp only
  rw [readItem_scalar hv hs rest (a := ()) (if_pos (by rw [hwanted]; rfl)), lift]
  exact item_of_ok hlen _

theorem decodeSimple_of_value {value : UInt8}
    (hvalue : simpleNumber ⟨⟨[]⟩, true, v.content, v.encoding.length⟩ = .ok value) (old : UInt8) :
    decodeSimple (some old) src = ⟨v.encoding.length, [], some value⟩ := by
  refine readTo_of_ok hsrc ?_ hlen old
  rw [hbytes, readItem_scalar hv hs rest hvalue]

end Values

theorem crossesAs_int {t : IntType} {n : Int} (h : t.contains n) :
    (int t n h).CrossesAs (Value.ofInteger t n).encoding := by
  have hv := Value.encodable_ofInteger t n
  refine ⟨fun dst hdst => delivers_encodeValue hdst hv, ?_⟩
  intro src hsrc rest hbytes hlen
  refine decodeScalar_of_value hv (Value.ofInteger_scalar t n) hsrc hbytes hlen ?_
  rw [Item.scalar, Item.integer_of_content h (Value.content_ofInteger h)]

theorem crossesAs_char (c : UInt8) : (char c).CrossesAs (Value.unsigned c.toUInt64).encoding := by
  have hv := Value.Encodable.unsigned c.toUInt64
  refine ⟨fun dst hdst => delivers_encodeValue hdst hv, ?_⟩
  intro src hsrc rest hbytes hlen
  have hrange : IntType.contains ⟨false, .w8⟩ c.toNat = true := by
    have := c.toNat_lt
    simp only [IntType.contains, IntType.min, IntType.max, Bool.and_eq_true, decide_eq_true_eq]
    exact ⟨Int.natCast_nonneg _, by simp [Width.maxUnsigned]; omega⟩
  refine decodeScalar_of_value hv (by simp) hsrc hbytes hlen ?_
  rw [Item.scalar, Item.integer_of_content hrange ?_]
  simp [Value.content, Content.ofInt]

theorem crossesAs_simple {value : UInt8} (h : ¬ (20 ≤ value ∧ value ≤ 31)) :
    (simple value).CrossesAs (Value.simple value).encoding := by
  have hv := Value.Encodable.simple h
  exact ⟨fun dst hdst => delivers_encodeValue hdst hv, fun src hsrc rest hbytes hlen =>
    decodeSimple_of_value hv nofun hsrc hbytes hlen rfl⟩

theorem crossesAs_bytes {string : Region} (h : (bytes string).Valid) :
    (bytes string).CrossesAs (Value.bytes string.bytes).encoding := by
  have hlen := h.1.length_bytes
  have hshort : string.bytes.length ≤ 0xFFFFFFFF := hlen ▸ h.2
  have hv : (Value.bytes string.bytes).Encodable := .bytes (by omega)
  constructor
  · intro dst hdst
    rw [encode, encodeBytes, bytesValue_of_valid h.1]
    exact delivers_encodeValue hdst hv
  · intro src hsrc rest hbytes _ dst hdst hroom
    exact copyContent_of_ok hsrc hdst hbytes (readItem_scalar hv nofun rest rfl) (by omega)

theorem crossesAs_text {string : Region} (h : (text string).Valid) {content : String}
    (htext : string.bytes = Utf8.encode content) :
    (text string).CrossesAs (Value.text content).encoding := by
  have hlen := h.1.length_bytes
  have hshort : string.bytes.length ≤ 0xFFFFFFFF := hlen ▸ h.2
  have hv : (Value.text content).Encodable := by
    refine .text ?_
    show (Utf8.encode content).length < _
    rw [← htext]
    omega
  constructor
  · intro dst hdst
    rw [encode, encodeText, textValue_of_valid h.1 htext]
    exact delivers_encodeValue hdst hv
  · intro src hsrc rest hbytes _ dst hdst hroom
    show Wrote dst string.bytes (copyText dst src)
    rw [htext] at hlen ⊢
    exact copyContent_of_ok hsrc hdst hbytes (readItem_scalar hv nofun rest rfl) (by omega)

theorem crossesAs_head (kind : Container) (count : UInt32) :
    (head kind count).CrossesAs (kind.head (some count.toUInt64)) := by
  refine ⟨fun dst hdst => delivers_encodeHead hdst kind count, ?_⟩
  intro src hsrc rest hbytes _
  show entryCount kind src = _
  rw [entryCount, Region.window_of_valid hsrc, hbytes]
  dsimp only
  rw [Container.readHead_head]
  simp

/-- All but what is rejected crosses, if it can be read. -/
theorem exists_crossesAs {p : Primitive} (hp : p.Valid) (h : ¬ p.Rejected) : ∃ item, p.CrossesAs item := by
  cases p with
  | int t n hn => exact ⟨_, crossesAs_int hn⟩
  | bool b =>
    have hv := Value.Encodable.bool b
    exact ⟨_, fun dst hdst => delivers_encodeValue hdst hv, fun src hsrc rest hbytes hlen =>
      decodeScalar_of_value hv nofun hsrc hbytes hlen rfl⟩
  | char c => exact ⟨_, crossesAs_char c⟩
  | null =>
    exact ⟨_, fun dst hdst => delivers_encodeValue hdst .null, fun src hsrc rest hbytes hlen =>
      decodeUnit_of_value .null nofun hsrc hbytes hlen rfl⟩
  | undefined =>
    exact ⟨_, fun dst hdst => delivers_encodeValue hdst .undefined, fun src hsrc rest hbytes hlen =>
      decodeUnit_of_value .undefined nofun hsrc hbytes hlen rfl⟩
  | simple value => exact ⟨_, crossesAs_simple h⟩
  | bytes string => exact ⟨_, crossesAs_bytes hp⟩
  | text string =>
    obtain ⟨content, htext⟩ := Classical.not_not.1 h
    exact ⟨_, crossesAs_text hp htext⟩
  | head kind count => exact ⟨_, crossesAs_head kind count⟩

theorem failed_of_rejected {p : Primitive} (hp : p.Valid) (h : p.Rejected) {dst : Region}
    (hdst : dst.Usable) : Failed dst.memory (p.encode dst) := by
  cases p with
  | simple value => exact failed_encodeValue_reserved hdst h
  | text string =>
    rw [encode, encodeText, textValue_of_no_text hp.1 h]
    exact failed_item _ _
  | _ => exact h.elim

/-- A string without an address is not encoded. -/
theorem valid_or_failed {p : Primitive} (hp : p.Usable) (dst : Region) :
    p.Valid ∨ Failed dst.memory (p.encode dst) := by
  cases p with
  | bytes string =>
    rcases hp.1.valid_or_missing with hvalid | ⟨-, hwindow⟩
    · exact .inl ⟨hvalid, hp.2⟩
    · rw [encode, encodeBytes, bytesValue, hwindow]
      exact .inr (failed_item _ _)
  | text string =>
    rcases hp.1.valid_or_missing with hvalid | ⟨-, hwindow⟩
    · exact .inl ⟨hvalid, hp.2⟩
    · rw [encode, encodeText, textValue, hwindow]
      exact .inr (failed_item _ _)
  | _ => exact .inl trivial

end Primitive

/-- Every call that encodes leaves the region alone, or writes an item to its start and returns the length.
All that can be read is encoded where there is room for it, unless it is rejected, and the call that decodes
it gives it back, whatever follows it. Every call that decodes to an address or a region leaves it alone, or
changes no more than the value or as many bytes as the content has. -/
theorem primitives_cross_whole :
    (∀ (p : Primitive) (dst : Region), p.Usable → dst.Usable → Copies dst (p.encode dst)) ∧
    (∀ p : Primitive, p.Valid →
      (p.Rejected → ∀ dst : Region, dst.Usable → (p.encode dst).code = -1) ∧
      (¬ p.Rejected → ∃ item, p.CrossesAs item)) ∧
    (∀ t place src, Settles place (decodeScalar t place src)) ∧
    (∀ place src, Settles place (decodeSimple place src)) ∧
    ∀ dst src, Copies dst (copyBytes dst src) ∧ Copies dst (copyText dst src) := by
  refine ⟨?_, ?_, fun t place src => settles_readTo place src _, fun place src => settles_readTo place src _,
    fun dst src => ⟨copies_copyContent _ dst src, copies_copyContent _ dst src⟩⟩
  · intro p dst hp hdst
    rcases p.valid_or_failed hp dst with hvalid | hfailed
    · by_cases hr : p.Rejected
      · exact .inl (p.failed_of_rejected hvalid hr hdst)
      · obtain ⟨item, hitem⟩ := p.exists_crossesAs hvalid hr
        exact (hitem.delivers dst hdst).copies
    · exact .inl hfailed
  · intro p hp
    exact ⟨fun hr dst hdst => (p.failed_of_rejected hp hr hdst).1, p.exists_crossesAs hp⟩

/-- A text of two characters in three bytes, sent to a region with room for five and read from one in which
another item follows. -/
theorem text_crosses_whole :
    let string : Region := ⟨some [0x6E, 0xC3, 0xA9, 0x21], 3⟩
    let dst : Region := ⟨some [1, 2, 3, 4, 5, 6], 5⟩
    let src : Region := ⟨some [0x63, 0x6E, 0xC3, 0xA9, 0xF6], 5⟩
    (Primitive.text string).Valid ∧ ¬ (Primitive.text string).Rejected ∧ dst.Usable ∧
      Copies dst ((Primitive.text string).encode dst) ∧
      ∃ item, (Primitive.text string).CrossesAs item ∧ src.bytes = item ++ [0xF6] ∧
        Wrote dst string.bytes (copyText dst src) := by
  intro string dst src
  have hstring : string.Valid := by
    show 3 ≤ 4
    decide
  have hdst : dst.Valid := by
    show 5 ≤ 6
    decide
  have hvalid : (Primitive.text string).Valid := ⟨hstring, by decide⟩
  have hnot : ¬ (Primitive.text string).Rejected := fun h => h ⟨"né", by decide⟩
  have hcopies := primitives_cross_whole.1 (.text string) dst ⟨.inr hstring, by decide⟩ (.inr hdst)
  obtain ⟨item, hitem⟩ := (primitives_cross_whole.2.1 (.text string) hvalid).2 hnot
  have hreply : ((Primitive.text string).encode dst).code = 4 ∧
      ((Primitive.text string).encode dst).output = some [0x63, 0x6E, 0xC3, 0xA9, 5, 6] := by
    decide +kernel
  have hroom : item.length ≤ dst.length := by
    by_contra hroom
    have hfailed := ((hitem.delivers dst (.inr hdst)).failed fun h => hroom h.2).1
    rw [hreply.1] at hfailed
    cases hfailed
  obtain ⟨hcode, houtput⟩ := (hitem.delivers dst (.inr hdst)).wrote hdst hroom
  have hlen : item.length = 4 := by
    rw [hreply.1, maxCode] at hcode
    omega
  have heq : item = [0x63, 0x6E, 0xC3, 0xA9] := by
    rw [hreply.2, Option.map_some, Option.some_inj, hlen] at houtput
    exact List.append_cancel_right (show item ++ [5, 6] = [0x63, 0x6E, 0xC3, 0xA9] ++ [5, 6] from houtput.symm)
  have hsrc : src.bytes = item ++ [0xF6] := by
    rw [heq]
    rfl
  have hback := hitem.reads_back src (by show 5 ≤ 5; decide) [0xF6] hsrc (by rw [hlen]; decide)
  exact ⟨hvalid, hnot, .inr hdst, hcopies, item, hitem, hsrc, hback dst hdst (by decide)⟩

end Boundary

end CborRecords
