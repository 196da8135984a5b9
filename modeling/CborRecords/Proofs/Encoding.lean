import CborRecords.Value
import CborRecords.Proofs.Passing

/-!
# What encoding writes

A value that can be encoded is written as one byte string, whatever takes the bytes, as long as there is
room for it. The byte string is a well-formed item in its shortest form.

* `Value.Encodable` : the values that can be encoded; `Value.encoding` : their bytes;
* `Value.emit_of_write` : emitting a value is writing its bytes, `Value.encodedLength_eq` and
  `Value.encode_eq` : so its length is counted, and it is written to a buffer that has room for it;
* `Value.tree`, `Value.written_encoding` : the tree of a value, written in its bytes;
* `Value.content`, `Value.open?_scalar`, `Value.open?_container` : how an encoded value opens.
-/

namespace CborRecords

/-! ## Sinks -/

namespace Sink
variable {sink after : Sink}

theorem write_append {a b : Bytes} :
    sink.write (a ++ b) = (.ok (), after) ↔
      ∃ mid, sink.write a = (.ok (), mid) ∧ mid.write b = (.ok (), after) := by
  cases sink with
  | counter count => simp [write, Nat.add_assoc]
  | buffer written free =>
    simp only [write, List.length_append]
    by_cases ha : a.length ≤ free.length
    · by_cases hb : b.length ≤ (free.drop a.length).length
      · rw [List.length_drop] at hb
        rw [if_pos (show a.length + b.length ≤ free.length by omega), if_pos ha]
        simp [hb]
      · rw [List.length_drop] at hb
        rw [if_neg (show ¬ a.length + b.length ≤ free.length by omega), if_pos ha]
        simp [hb]
    · rw [if_neg (show ¬ a.length + b.length ≤ free.length by omega), if_neg ha]
      simp

theorem write_nil (sink : Sink) : sink.write [] = (.ok (), sink) := by
  cases sink <;> simp [write]

theorem write_buffer {buffer bytes : Bytes} (h : bytes.length ≤ buffer.length) :
    (ofBuffer buffer).write bytes = (.ok (), .buffer bytes (buffer.drop bytes.length)) := by
  simp [ofBuffer, write, h]

theorem andThen_eq_ok {first : Except Stop Unit × Sink} {next : Sink → Except Stop Unit × Sink} :
    andThen first next = (.ok (), after) ↔ ∃ mid, first = (.ok (), mid) ∧ next mid = (.ok (), after) := by
  rcases first with ⟨stop | u, mid⟩ <;> simp [andThen]

theorem position_of_write {bytes : Bytes} (h : sink.write bytes = (.ok (), after)) :
    after.position = sink.position + bytes.length := by
  cases sink with
  | counter count =>
    cases h
    rfl
  | buffer written free =>
    unfold write at h
    dsimp only at h
    split at h
    · cases h
      exact List.length_append
    · cases h

end Sink

/-! ## Encodings -/

/-- The byte behind the items of a container, if it is of indefinite length. -/
def Container.ending {α : Type} : Option α → Bytes
  | some _ => []
  | none => [Head.stop]

/-- As long as 64 bits hold it, the limit is what was announced. -/
theorem Container.limit_of_lt {kind : Container} {n : UInt64} (h : n.toNat * kind.arity < 0x10000000000000000) :
    kind.limit (some n) = some (n.toNat * kind.arity) := by
  rw [limit, Option.map_some, Nat.mod_eq_of_lt h]

namespace Value

/-- The values that can be encoded: no simple value that stands for something else, strings of a length
that can be written, and containers with as many items as announced or, of a map, an even number. -/
inductive Encodable : Value → Prop
  | unsigned (n : UInt64) : Encodable (.unsigned n)
  | signed (n : Int64) : Encodable (.signed n)
  | bool (b : Bool) : Encodable (.bool b)
  | null : Encodable .null
  | undefined : Encodable .undefined
  | simple {v : UInt8} (h : ¬ (20 ≤ v ∧ v ≤ 31)) : Encodable (.simple v)
  | text {content : String} (h : Utf8.size content < 0x10000000000000000) : Encodable (.text content)
  | bytes {content : Bytes} (h : content.length < 0x10000000000000000) : Encodable (.bytes content)
  | definite {kind : Container} {count : UInt64} {items : List Value}
      (hn : items.length = count.toNat * kind.arity) (hlen : items.length < 0x10000000000000000)
      (h : ∀ v ∈ items, Encodable v) : Encodable (.container kind (some count) items)
  | indefinite {kind : Container} {items : List Value} (hn : items.length % kind.arity = 0)
      (h : ∀ v ∈ items, Encodable v) : Encodable (.container kind none items)

/-- The bytes of a value that stand in front of all nested in it: the head of a container, and a scalar
whole. -/
def front : Value → Bytes
  | .unsigned n => Head.encode .unsigned n
  | .signed n =>
    if 0 ≤ n then Head.encode .unsigned n.toUInt64 else Head.encode .negative (~~~n.toUInt64)
  | .bool b => [Head.initial .simple (if b then 21 else 20)]
  | .null => [Head.initial .simple 22]
  | .undefined => [Head.initial .simple 23]
  | .simple v => Head.encode .simple v.toUInt64
  | .text content => Head.encode .text (UInt64.ofNat (Utf8.size content)) ++ Utf8.encode content
  | .bytes content => Head.encode .bytes (UInt64.ofNat content.length) ++ content
  | .container kind count _ => kind.head count

mutual

/-- The bytes of a value. -/
def encoding : Value → Bytes
  | .container kind count items => kind.head count ++ (encodings items ++ Container.ending count)
  | v => v.front

/-- The bytes of values, one after another. -/
def encodings : List Value → Bytes
  | [] => []
  | v :: rest => v.encoding ++ encodings rest

end

theorem encodings_eq (items : List Value) : encodings items = items.flatMap encoding := by
  induction items with
  | nil => rfl
  | cons v rest ih => rw [encodings, ih, List.flatMap_cons]

/-- No value starts with the byte that ends containers. -/
theorem encoding_starts (v : Value) : ∃ b rest, v.encoding = b :: rest ∧ b ≠ Head.stop := by
  have hhead (m : Major) (n : UInt64) (rest : Bytes) :
      ∃ b after, Head.encode m n ++ rest = b :: after ∧ b ≠ Head.stop := by
    obtain ⟨b, after, hb, -, hstop, -⟩ := Tree.starts_head (Head.encode_written m n) rest
    exact ⟨b, after, hb, hstop⟩
  have hscalar (m : Major) (n : UInt64) : ∃ b after, Head.encode m n = b :: after ∧ b ≠ Head.stop := by
    have := hhead m n []
    rwa [List.append_nil] at this
  cases v with
  | unsigned n => exact hscalar _ _
  | signed n =>
    show ∃ b rest, (if 0 ≤ n then _ else _) = b :: rest ∧ b ≠ Head.stop
    split
    · exact hscalar _ _
    · exact hscalar _ _
  | bool b => exact ⟨_, [], rfl, by cases b <;> decide⟩
  | null => exact ⟨_, [], rfl, by decide⟩
  | undefined => exact ⟨_, [], rfl, by decide⟩
  | simple v => exact hscalar _ _
  | text content => exact hhead _ _ _
  | bytes content => exact hhead _ _ _
  | container kind count items =>
    cases count with
    | some n => exact hhead _ _ _
    | none => exact ⟨_, _, rfl, by cases kind <;> decide⟩

theorem length_le_encodings (items : List Value) : items.length ≤ (encodings items).length := by
  induction items with
  | nil => exact Nat.le_refl _
  | cons v items ih =>
    obtain ⟨b, rest, hb, -⟩ := v.encoding_starts
    rw [encodings, List.length_append, hb, List.length_cons, List.length_cons]
    omega

theorem emitItems_of_write {limit : Option Nat} {index : Nat} {items : List Value} {sink after : Sink}
    (hitems : ∀ v ∈ items, ∀ {sink after : Sink}, sink.write v.encoding = (.ok (), after) →
      v.emit sink = (.ok (), after))
    (hlimit : ∀ n, limit = some n → n = index + items.length)
    (h : sink.write (encodings items ++ Container.ending limit) = (.ok (), after)) :
    emitItems limit index items sink = (.ok (), after) := by
  induction items generalizing index sink with
  | nil =>
    rw [emitItems]
    unfold Container.finish
    cases limit with
    | none => exact h
    | some n =>
      obtain rfl : n = index + 0 := hlimit n rfl
      rw [encodings, Container.ending, List.append_nil, Sink.write_nil] at h
      cases h
      exact if_pos rfl
  | cons v rest ih =>
    have hnext : Container.nextIndex limit index = .ok (index + 1) := by
      unfold Container.nextIndex
      cases limit with
      | none => rfl
      | some n =>
        have := hlimit n rfl
        rw [List.length_cons] at this
        exact if_neg (by omega)
    rw [encodings, List.append_assoc, Sink.write_append] at h
    obtain ⟨mid, hv, hrest⟩ := h
    rw [emitItems, hnext]
    dsimp only
    rw [hitems v (by simp) hv]
    refine ih (fun w hw => hitems w (by simp [hw])) ?_ hrest
    intro n hn
    rw [hlimit n hn, List.length_cons]
    omega

theorem emitString_of_write {m : Major} {content : Bytes} {sink after : Sink}
    (h : sink.write (Head.encode m (UInt64.ofNat content.length) ++ content) = (.ok (), after)) :
    emitString m content sink = (.ok (), after) := by
  obtain ⟨mid, hhead, hcontent⟩ := Sink.write_append.1 h
  rw [emitString, hhead]
  exact hcontent

theorem emit_container_of_write {kind : Container} {count : Option UInt64} {items : List Value}
    {sink after : Sink}
    (hitems : ∀ v ∈ items, ∀ {sink after : Sink}, sink.write v.encoding = (.ok (), after) →
      v.emit sink = (.ok (), after))
    (hcount : ∀ n, kind.limit count = some n → n = items.length)
    (h : sink.write (container kind count items).encoding = (.ok (), after)) :
    (container kind count items).emit sink = (.ok (), after) := by
  rw [encoding] at h
  obtain ⟨mid, hhead, hrest⟩ := Sink.write_append.1 h
  rw [emit, hhead]
  refine emitItems_of_write hitems (fun n hn => by rw [hcount n hn, Nat.zero_add]) ?_
  cases count <;> exact hrest

/-- Emitting a value is writing its bytes, wherever there is room for them. -/
theorem emit_of_write {v : Value} (hv : v.Encodable) {sink after : Sink}
    (h : sink.write v.encoding = (.ok (), after)) : v.emit sink = (.ok (), after) := by
  induction hv generalizing sink after with
  | unsigned | bool | null | undefined => exact h
  | signed n =>
    change sink.write (if _ then _ else _) = _ at h
    rw [emit]
    split <;> rename_i hn
    · rwa [if_pos hn] at h
    · rwa [if_neg hn] at h
  | simple hs =>
    rw [emit, if_neg hs]
    exact h
  | text | bytes => exact emitString_of_write h
  | definite hn hlen hitems ih =>
    refine emit_container_of_write ih ?_ h
    rw [Container.limit_of_lt (hn ▸ hlen)]
    rintro n ⟨⟩
    exact hn.symm
  | indefinite hn hitems ih => exact emit_container_of_write ih nofun h

variable {v : Value}

theorem emit_counter (h : v.Encodable) :
    v.emit (.counter 0) = (.ok (), .counter v.encoding.length) := by
  apply emit_of_write h
  rw [Sink.write, Nat.zero_add]

theorem encodedLength_eq (h : v.Encodable) : v.encodedLength = .ok v.encoding.length := by
  rw [encodedLength, emit_counter h]
  rfl

theorem encode_eq (h : v.Encodable) {buffer : Bytes} (hroom : v.encoding.length ≤ buffer.length) :
    v.encode buffer = (.ok v.encoding.length, v.encoding ++ buffer.drop v.encoding.length) := by
  rw [encode, encodedLength_eq h]
  dsimp only
  rw [if_neg (by omega), emit_of_write h (Sink.write_buffer hroom)]
  rfl

end Value

/-! ## Trees -/

/-- The tree of an integer. -/
def Tree.ofInt (n : Int) : Tree :=
  if 0 ≤ n then .unsigned (UInt64.ofNat n.toNat) else .negative (UInt64.ofNat (-1 - n).toNat)

/-- The shortest head of an integer. -/
def Head.ofInt (n : Int) : Bytes :=
  if 0 ≤ n then encode .unsigned (UInt64.ofNat n.toNat) else encode .negative (UInt64.ofNat (-1 - n).toNat)

/-- What an integer opens as. -/
def Content.ofInt (n : Int) : Content :=
  if 0 ≤ n then .unsigned (UInt64.ofNat n.toNat) else .negative (UInt64.ofNat (-1 - n).toNat)

namespace Value

mutual

/-- The tree of a value. -/
def tree : Value → Tree
  | .unsigned n => .unsigned n
  | .signed n => .ofInt n.toInt
  | .bool b => .bool b
  | .null => .null
  | .undefined => .undefined
  | .simple v => .simple v
  | .text content => .text content
  | .bytes content => .bytes content
  | .container kind count items => .container kind count.isSome (trees items)

/-- The trees of values. -/
def trees : List Value → List Tree
  | [] => []
  | v :: rest => v.tree :: trees rest

end

theorem trees_eq (items : List Value) : trees items = items.map tree := by
  induction items with
  | nil => rfl
  | cons v rest ih => rw [trees, ih, List.map_cons]

/-- What a value opens as; of a container without the place of its items. -/
def content : Value → Content
  | .unsigned n => .unsigned n
  | .signed n => .ofInt n.toInt
  | .bool b => .bool b
  | .null => .null
  | .undefined => .undefined
  | .simple v => .simple v
  | .text content => .text content
  | .bytes content => .bytes content
  | .container kind count _ => .container ⟨kind, kind.limit count, [], 0, 0⟩

/-- An integer with a sign as the unsigned integer of the same bits. -/
theorem toInt_cases (n : Int64) :
    (0 ≤ n ∧ n.toInt = n.toUInt64.toNat) ∨
      (¬ 0 ≤ n ∧ n.toInt = n.toUInt64.toNat - 0x10000000000000000 ∧ n.toInt < 0) := by
  have hcond : n.toInt = if 2 * n.toUInt64.toNat < 0x10000000000000000 then (n.toUInt64.toNat : Int)
      else n.toUInt64.toNat - 0x10000000000000000 := BitVec.toInt_eq_toNat_cond n.toBitVec
  have hlt : n.toUInt64.toNat < 0x10000000000000000 := n.toUInt64.toNat_lt
  have hzero : (0 : Int64).toInt = 0 := rfl
  rw [Int64.le_iff_toInt_le, hzero]
  split at hcond <;> omega

/-- A scalar that reads back from its bytes, which are the shortest. -/
def Recovered (v : Value) : Prop :=
  v.tree.Written v.front ∧ v.tree.scalar? v.front = some v.content ∧ v.tree.shortest v.front = true

theorem front_signed (n : Int64) : (signed n).front = Head.ofInt n.toInt := by
  rw [front, Head.ofInt]
  rcases toInt_cases n with ⟨hn, hint⟩ | ⟨hn, hint, hneg⟩
  · rw [if_pos hn, if_pos (by omega), hint, Int.toNat_natCast, UInt64.ofNat_toNat]
  · have hlt : n.toUInt64.toNat < 0x10000000000000000 := n.toUInt64.toNat_lt
    have hbits : UInt64.ofNat (-1 - n.toInt).toNat = ~~~n.toUInt64 := by
      rw [← UInt64.toNat_inj, UInt64.toNat_not, UInt64.toNat_ofNat', UInt64.size]
      omega
    rw [if_neg hn, if_neg (by omega), hbits]

theorem recovered_signed (n : Int64) : (signed n).Recovered := by
  rw [Recovered, front_signed]
  simp only [tree, content, Tree.ofInt, Content.ofInt, Head.ofInt]
  split
  · exact ⟨.unsigned (Head.encode_written _ _), rfl, decide_eq_true rfl⟩
  · exact ⟨.negative (Head.encode_written _ _), rfl, decide_eq_true rfl⟩

theorem recovered_simple {v : UInt8} (h : ¬ (20 ≤ v ∧ v ≤ 31)) : (simple v).Recovered := by
  have hv : v.toNat < 20 ∨ 32 ≤ v.toNat := by
    simp only [UInt8.le_iff_toNat_le, UInt8.reduceToNat] at h
    omega
  have hlt := v.toNat_lt
  have hword : v.toUInt64 = UInt64.ofNat v.toNat := by
    rw [← UInt64.toNat_inj]
    simp
  simp only [Recovered, front, tree, content, hword]
  rcases hv with hv | hv
  · rw [Head.encode_inside (by omega)]
    exact ⟨.simple hv, rfl, rfl⟩
  · rw [Head.encode_after .w8 (show 24 ≤ v.toNat by omega) hlt]
    have hbyte : Bytes.ofNat 1 v.toNat = [v] := by
      simp [Bytes.ofNat]
    exact ⟨by rw [Width.bytes, hbyte]; exact .simpleByte hv, rfl, rfl⟩

theorem recovered_text {content : String} (h : Utf8.size content < 0x10000000000000000) :
    (text content).Recovered := by
  have hw := Head.encode_written .text (UInt64.ofNat (Utf8.size content))
  rw [UInt64.toNat_ofNat_of_lt' h] at hw
  exact ⟨.text hw, rfl, by rw [front, tree, Tree.shortest_text, decide_eq_true rfl]⟩

theorem recovered_bytes {content : Bytes} (h : content.length < 0x10000000000000000) :
    (bytes content).Recovered := by
  have hw := Head.encode_written .bytes (UInt64.ofNat content.length)
  rw [UInt64.toNat_ofNat_of_lt' h] at hw
  exact ⟨.bytes hw, rfl, by rw [front, tree, Tree.shortest_bytes, decide_eq_true rfl]⟩

/-- Every scalar that can be encoded reads back from its bytes. -/
theorem Encodable.recovered {v : Value} (h : v.Encodable)
    (hs : ∀ kind count items, v ≠ container kind count items) : v.Recovered := by
  cases h with
  | unsigned n => exact ⟨.unsigned (Head.encode_written _ _), rfl, decide_eq_true rfl⟩
  | signed n => exact recovered_signed n
  | bool b => exact ⟨.bool b, rfl, rfl⟩
  | null => exact ⟨.null, rfl, rfl⟩
  | undefined => exact ⟨.undefined, rfl, rfl⟩
  | simple h => exact recovered_simple h
  | text h => exact recovered_text h
  | bytes h => exact recovered_bytes h
  | definite | indefinite => exact absurd rfl (hs _ _ _)

theorem encoding_scalar {v : Value} (hs : ∀ kind count items, v ≠ container kind count items) :
    v.encoding = v.front := by
  cases v with
  | container kind count items => exact absurd rfl (hs kind count items)
  | _ => rfl

theorem content_scalar {v : Value} (hs : ∀ kind count items, v ≠ container kind count items) :
    ∀ c, v.content ≠ .container c := by
  intro c hc
  cases v with
  | container kind count items => exact absurd rfl (hs kind count items)
  | signed n =>
    rw [content, Content.ofInt] at hc
    split at hc <;> cases hc
  | _ => cases hc

/-- A scalar opens as its content, without tags and in its shortest form. -/
theorem open?_scalar {v : Value} (h : v.Encodable)
    (hs : ∀ kind count items, v ≠ container kind count items) (rest : Bytes) :
    Item.open? (v.encoding ++ rest) = .ok (some ⟨⟨[]⟩, true, v.content, v.encoding.length⟩) := by
  obtain ⟨hw, hc, hshort⟩ := h.recovered hs
  rw [encoding_scalar hs]
  refine (Item.open?_of_opens .nil (.of_scalar hw hc hshort.symm)).trans ?_
  rw [List.length_nil, Nat.zero_add]

/-! ## Containers -/

/-- The items of an encoded container, with their bytes. -/
def parts (items : List Value) : List (Tree × Bytes) :=
  items.map fun v => (v.tree, v.encoding)

theorem flatMap_parts (items : List Value) : (parts items).flatMap Prod.snd = encodings items := by
  rw [parts, encodings_eq, List.flatMap_map]

theorem map_parts (items : List Value) : (parts items).map Prod.fst = trees items := by
  rw [parts, trees_eq, List.map_map]
  rfl

theorem length_parts (items : List Value) : (parts items).length = items.length :=
  List.length_map _

theorem written_parts {items : List Value} (h : ∀ v ∈ items, v.tree.Written v.encoding) :
    ∀ i ∈ parts items, i.1.Written i.2 := by
  intro i hi
  obtain ⟨v, hv, rfl⟩ := List.mem_map.1 hi
  exact h v hv

/-- The bytes of a value are a way to write its tree. -/
theorem written_encoding {v : Value} (h : v.Encodable) : v.tree.Written v.encoding := by
  induction h with
  | unsigned n => exact ((Encodable.unsigned n).recovered nofun).1
  | signed n => exact ((Encodable.signed n).recovered nofun).1
  | bool b => exact ((Encodable.bool b).recovered nofun).1
  | null => exact (Encodable.null.recovered nofun).1
  | undefined => exact (Encodable.undefined.recovered nofun).1
  | simple h => exact ((Encodable.simple h).recovered nofun).1
  | text h => exact ((Encodable.text h).recovered nofun).1
  | bytes h => exact ((Encodable.bytes h).recovered nofun).1
  | @definite kind count items hn hlen h ih =>
    have hw : (Tree.container kind true ((parts items).map Prod.fst)).Written
        (Head.encode kind.major count ++ (parts items).flatMap Prod.snd) :=
      .definite (Head.encode_written _ _) (by rw [length_parts, hn]) (written_parts ih)
    rw [map_parts, flatMap_parts] at hw
    rw [encoding, Container.ending, List.append_nil]
    exact hw
  | @indefinite kind items hn h ih =>
    have hw : (Tree.container kind false ((parts items).map Prod.fst)).Written
        (Head.initial kind.major 31 :: (parts items).flatMap Prod.snd ++ [Head.stop]) :=
      .indefinite (by rw [length_parts, hn]) (written_parts ih)
    rw [map_parts, flatMap_parts] at hw
    exact hw

section Container
variable {kind : Container} {count : Option UInt64} {items : List Value}

theorem Encodable.of_mem (h : (container kind count items).Encodable) : ∀ v ∈ items, v.Encodable := by
  cases h with
  | definite hn hlen h => exact h
  | indefinite hn h => exact h

theorem encoding_container (rest : Bytes) :
    (container kind count items).encoding ++ rest =
      kind.head count ++ (encodings items ++ (Container.ending count ++ rest)) := by
  rw [encoding, List.append_assoc, List.append_assoc]

theorem length_encoding_container :
    (container kind count items).encoding.length =
      (kind.head count).length + (encodings items ++ Container.ending count).length := by
  rw [encoding, List.length_append]

/-- The head of a container opens as its cursor, without tags and in its shortest form. -/
theorem open?_container (h : (container kind count items).Encodable) (rest : Bytes) :
    Item.open? (kind.head count ++ rest) =
      .ok (some ⟨⟨[]⟩, true,
        .container ⟨kind, kind.limit count, rest, (kind.head count).length, 0⟩,
        (kind.head count).length⟩) := by
  cases h with
  | @definite _ count _ hn hlen h =>
    have ho : Content.Opens 0 rest (Head.encode kind.major count) _ _ :=
      .definite (Head.encode_written _ _) (by omega)
    refine (Item.open?_of_opens .nil ho).trans ?_
    rw [Container.limit_of_lt (hn ▸ hlen)]
    simp [Container.head]
  | indefinite hn h => exact Item.open?_of_opens .nil (.indefinite kind)

/-- The cursor of an encoded container holds its items and ends behind its bytes. -/
theorem holds_items (h : (container kind count items).Encodable) (offset : Nat) (rest : Bytes) :
    Cursor.Holds
      ⟨kind, kind.limit count, encodings items ++ (Container.ending count ++ rest), offset, 0⟩
      (parts items)
      ⟨kind, some items.length, rest, offset + (encodings items ++ Container.ending count).length,
        items.length⟩ := by
  cases h with
  | @definite _ count _ hn hlen h =>
    have hholds : Cursor.Holds ⟨kind, some (count.toNat * kind.arity), encodings items ++ rest, offset, 0⟩
        (parts items) _ :=
      Cursor.holds_of_count (by rw [length_parts, hn, Nat.zero_add]) (by rw [flatMap_parts])
        (written_parts fun v hv => written_encoding (h v hv))
    simp only [Cursor.past, flatMap_parts, length_parts, Nat.zero_add] at hholds
    rw [Container.limit_of_lt (hn ▸ hlen)]
    simpa [Container.ending, hn] using hholds
  | indefinite hn h =>
    have hholds : Cursor.Holds ⟨kind, none, encodings items ++ Head.stop :: rest, offset, 0⟩
        (parts items) _ :=
      Cursor.holds_of_stop rfl (by rw [flatMap_parts]) (by rwa [length_parts, Nat.zero_add])
        (written_parts fun v hv => written_encoding (h v hv))
    simp only [Cursor.past, Cursor.settle, flatMap_parts, length_parts, Nat.zero_add] at hholds
    simpa [Container.limit, Container.ending, Nat.add_assoc] using hholds

end Container

end Value

end CborRecords
