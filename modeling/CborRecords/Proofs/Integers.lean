import CborRecords.Proofs.Canonical
import CborRecords.Proofs.ErrorRange

/-!
# Integers by their value

An item that is an integer has a head of one of two major types, with an argument of any width. Which integer it
is does not depend on the type it is read as: a type only says which integers it takes. In the same way the types
that an integer belongs to all write it alike.

* `Head.Denotes` : the heads of an integer; `Head.denotes_ofInt` : the shortest is one of them;
* `Content.int?` : the integer that an item is, `Content.Opens.denotes` and `Content.opens_of_denotes` : by its head;
* `IntType.verdict` : what comes of an integer that is read as a type, `Item.integer_eq`;
* `ScalarType.read_of_denotes`, `ScalarType.exists_denotes_of_read` : reading integers;
* `Value.Emits` : what a value is written as; `Value.emits_ofInteger` : an integer of a type;
* `IntType.reads_by_value` : what is read and what is written.
-/

namespace CborRecords

/-! ## Heads of integers -/

namespace Head

/-- A head of an integer: of one that is not negative with the integer as argument, of a negative one with its
distance from -1. -/
inductive Denotes : Int → Bytes → Prop
  | unsigned {n : Nat} {head : Bytes} (h : Written .unsigned n head) : Denotes n head
  | negative {n : Nat} {head : Bytes} (h : Written .negative n head) : Denotes (-1 - n) head

variable {x y : Int} {head : Bytes}

theorem ofInt_natCast (n : Nat) : ofInt n = encode .unsigned (UInt64.ofNat n) := by
  rw [ofInt, if_pos (Int.natCast_nonneg n), Int.toNat_natCast]

theorem ofInt_negative (n : Nat) : ofInt (-1 - n) = encode .negative (UInt64.ofNat n) := by
  rw [ofInt, if_neg (by omega), show (-1 - (-1 - (n : Int))).toNat = n by omega]

/-- Every integer whose argument has at most 64 bits has a head. -/
theorem denotes_ofInt (hmin : -0x10000000000000000 ≤ x) (hmax : x < 0x10000000000000000) :
    Denotes x (ofInt x) := by
  by_cases hx : 0 ≤ x
  · obtain ⟨n, rfl⟩ := Int.eq_ofNat_of_zero_le hx
    rw [ofInt_natCast]
    exact .unsigned (shortest_encode_ofNat _ (by omega)).written
  · obtain ⟨n, rfl⟩ : ∃ n : Nat, x = -1 - n := ⟨(-1 - x).toNat, by omega⟩
    rw [ofInt_negative]
    exact .negative (shortest_encode_ofNat _ (by omega)).written

theorem Denotes.unique (h : Denotes x head) (h' : Denotes y head) : x = y := by
  have hmajor {m m' : Major} {n n' : Nat} (hm : Written m n head) (hm' : Written m' n' head) : m = m' := by
    obtain ⟨b, digits, rfl, rfl, -⟩ := hm.exists_cons
    obtain ⟨b', digits', heq, rfl, -⟩ := hm'.exists_cons
    cases heq
    rfl
  cases h with
  | unsigned h =>
    cases h' with
    | unsigned h' => rw [h.unique h']
    | negative h' => cases hmajor h h'
  | negative h =>
    cases h' with
    | unsigned h' => cases hmajor h h'
    | negative h' => rw [h.unique h']

end Head

/-! ## Items that are integers -/

/-- The integer that an item is. -/
def Content.int? : Content → Option Int
  | .unsigned n => some n.toNat
  | .negative n => some (-1 - n.toNat)
  | _ => none

section Opening
variable {start : Nat} {rest front : Bytes} {x : Int}

theorem Content.int?_ofInt (hmin : -0x10000000000000000 ≤ x) (hmax : x < 0x10000000000000000) :
    (Content.ofInt x).int? = some x := by
  by_cases hx : 0 ≤ x
  · have hn : (UInt64.ofNat x.toNat).toNat = x.toNat := UInt64.toNat_ofNat_of_lt' (by rw [UInt64.size]; omega)
    rw [ofInt, if_pos hx, int?, hn, Int.toNat_of_nonneg hx]
  · have hn : (UInt64.ofNat (-1 - x).toNat).toNat = (-1 - x).toNat :=
      UInt64.toNat_ofNat_of_lt' (by rw [UInt64.size]; omega)
    rw [ofInt, if_neg hx, int?, hn, Int.toNat_of_nonneg (by omega), show -1 - (-1 - x) = x by omega]

/-- What opens as an integer is a head of it, and the shortest if the flag is set. -/
theorem Content.Opens.denotes {content : Content} {shortest : Bool}
    (h : Content.Opens start rest front content shortest) (hx : content.int? = some x) :
    Head.Denotes x front ∧ shortest = decide (front = Head.ofInt x) := by
  cases h with
  | @scalar t _ _ h hc =>
    cases h with
    | unsigned h =>
      cases hc
      cases hx
      exact ⟨.unsigned h, by rw [Tree.shortest, Head.ofInt_natCast, UInt64.ofNat_toNat]⟩
    | negative h =>
      cases hc
      cases hx
      exact ⟨.negative h, by rw [Tree.shortest, Head.ofInt_negative, UInt64.ofNat_toNat]⟩
    | _ => cases hc <;> cases hx
  | definite | indefinite => cases hx

theorem Content.opens_of_denotes (start : Nat) (rest : Bytes) (h : Head.Denotes x front) :
    ∃ content : Content, content.int? = some x ∧
      Content.Opens start rest front content (decide (front = Head.ofInt x)) := by
  cases h with
  | @unsigned n _ h =>
    have hn : (UInt64.ofNat n).toNat = n := UInt64.toNat_ofNat_of_lt' h.argument_lt
    refine ⟨.unsigned (UInt64.ofNat n), by rw [int?, hn], .of_scalar (.unsigned (hn.symm ▸ h)) rfl ?_⟩
    rw [Tree.shortest, Head.ofInt_natCast]
  | @negative n _ h =>
    have hn : (UInt64.ofNat n).toNat = n := UInt64.toNat_ofNat_of_lt' h.argument_lt
    refine ⟨.negative (UInt64.ofNat n), by rw [int?, hn], .of_scalar (.negative (hn.symm ▸ h)) rfl ?_⟩
    rw [Tree.shortest, Head.ofInt_negative]

end Opening

/-! ## Integers of a type -/

namespace IntType
variable {t : IntType} {x : Int}

/-- An integer of a type with a sign has at most 64 bits. -/
theorem range_of_signed (hs : t.signed = true) (h : t.contains x) :
    -0x8000000000000000 ≤ x ∧ x < 0x8000000000000000 := by
  have hw := t.width.signed_range
  simp only [contains, IntType.min, IntType.max, hs, if_true, Bool.and_eq_true, decide_eq_true_eq] at h
  omega

/-- An integer of a type without a sign has at most 64 bits. -/
theorem range_of_unsigned (hs : t.signed = false) (h : t.contains x) :
    0 ≤ x ∧ x < 0x10000000000000000 := by
  have hw : t.width.maxUnsigned < 0x10000000000000000 := by cases t.width <;> decide
  simp only [contains, IntType.min, IntType.max, hs, Bool.false_eq_true, if_false, Bool.and_eq_true,
    decide_eq_true_eq] at h
  omega

theorem range_of_contains (h : t.contains x) : -0x10000000000000000 ≤ x ∧ x < 0x10000000000000000 := by
  cases hs : t.signed with
  | true =>
    have := range_of_signed hs h
    omega
  | false =>
    have := range_of_unsigned hs h
    omega

theorem taken_of_contains (h : t.contains x) (hx : x < 0) : t.signed = true := by
  by_contra hs
  have := range_of_unsigned (Bool.eq_false_iff.2 hs) h
  omega

/-- What comes of an integer that is read as a type. -/
def verdict (t : IntType) (x : Int) : Except DecodeError Int :=
  if t.contains x then .ok x
  else if x < 0 ∧ t.signed = false then .error (.incorrectType "Unsigned Integer" "Negative Integer")
  else .error .integerOverflow

theorem verdict_of_contains (h : t.contains x) : t.verdict x = .ok x :=
  if_pos h

theorem contains_of_verdict {y : Int} (h : t.verdict x = .ok y) : t.contains x ∧ y = x := by
  unfold verdict at h
  split at h
  · rename_i hx
    exact ⟨hx, (Except.ok.inj h).symm⟩
  · split at h <;> cases h

/-- A negative integer is no integer to a type without a sign, and any other is there or too large. -/
theorem verdict_of_taken (h : x < 0 → t.signed = true) :
    t.verdict x = if t.contains x then .ok x else .error .integerOverflow := by
  have hcond : ¬ (x < 0 ∧ t.signed = false) := by
    rintro ⟨hx, hs⟩
    rw [h hx] at hs
    cases hs
  rw [verdict, if_neg hcond]

theorem verdict_of_refused (hx : x < 0) (hs : t.signed = false) :
    t.verdict x = .error (.incorrectType "Unsigned Integer" "Negative Integer") := by
  have hout : ¬ t.contains x := by
    intro h
    rw [taken_of_contains h hx] at hs
    cases hs
  rw [verdict, if_neg hout, if_pos ⟨hx, hs⟩]

theorem verdict_eq_overflow_iff :
    t.verdict x = .error .integerOverflow ↔ (x < 0 → t.signed = true) ∧ ¬ t.contains x := by
  by_cases h : x < 0 → t.signed = true
  · rw [verdict_of_taken h]
    split
    · rename_i hx
      exact iff_of_false nofun fun h' => h'.2 hx
    · rename_i hx
      exact iff_of_true rfl ⟨h, hx⟩
  · obtain ⟨hx, hs⟩ := Classical.not_imp.1 h
    rw [verdict_of_refused hx (Bool.eq_false_iff.2 hs)]
    exact iff_of_false nofun fun h' => h h'.1

end IntType

/-- Only the integer of an item matters when it is read as a type. -/
theorem Item.integer_eq (item : Item) (t : IntType) :
    item.integer t = item.content.int?.elim
      (.error (.incorrectType (if t.signed then "Integer" else "Unsigned Integer") item.typeName))
      t.verdict := by
  obtain ⟨tags, shortest, content, size⟩ := item
  unfold integer
  cases hs : t.signed with
  | false =>
    cases content with
    | unsigned n => exact (IntType.verdict_of_taken fun hx => absurd hx (by omega)).symm
    | negative n => exact (IntType.verdict_of_refused (by omega) hs).symm
    | _ => rfl
  | true =>
    -- a type with a sign takes no more than 63 bits, so it is not asked about more
    have hwide {x : Int} (hx : ¬ (-0x8000000000000000 ≤ x ∧ x < 0x8000000000000000)) :
        t.verdict x = .error .integerOverflow := by
      rw [IntType.verdict_of_taken fun _ => hs]
      exact if_neg fun h => hx (IntType.range_of_signed hs h)
    cases content with
    | unsigned n | negative n =>
      dsimp only [signed64, Content.int?, Option.elim]
      by_cases hn : n.toNat < 0x8000000000000000
      · rw [if_pos rfl, if_pos hn]
        exact (IntType.verdict_of_taken fun _ => hs).symm
      · rw [if_pos rfl, if_neg hn]
        exact (hwide (by omega)).symm
    | _ => rfl

/-! ## Reading -/

namespace ScalarType
variable {t : IntType} {numbers : List UInt64} {raw head data : Bytes} {x : Int}

/-- What is read at tags and a head of an integer. -/
theorem read_of_denotes (ht : Tags.Written numbers raw) (h : Head.Denotes x head) (rest : Bytes) :
    (int t).read (raw ++ (head ++ rest)) = (t.verdict x).map fun x =>
      (.int x, decide (head = Head.ofInt x) && raw.isEmpty, raw.length + head.length) := by
  obtain ⟨content, hx, hopens⟩ := Content.opens_of_denotes raw.length rest h
  rw [read, read?, Item.open?_of_opens ht hopens]
  dsimp only [Item.scalar]
  rw [Item.integer_eq, hx, Option.elim]
  cases hv : t.verdict x with
  | error e => rfl
  | ok y =>
    rw [(IntType.contains_of_verdict hv).2]
    rfl

/-- Where an integer is read, or is found too large, there are tags and a head of an integer. -/
theorem exists_denotes_of_read (h : ∀ e, (int t).read data = .error e → e = .integerOverflow) :
    ∃ numbers raw head rest x, Tags.Written numbers raw ∧ Head.Denotes x head ∧
      data = raw ++ (head ++ rest) := by
  unfold read read? at h
  rcases ho : Item.open? data with e | (_ | item)
  · rw [ho] at h
    obtain rfl := h e rfl
    exact (Item.reports_open? data _ ho).elim
  · rw [ho] at h
    cases h _ rfl
  · rw [ho] at h
    dsimp only [Item.scalar] at h
    rw [Item.integer_eq] at h
    rcases hx : item.content.int? with _ | x
    · rw [hx] at h
      cases h _ rfl
    · obtain ⟨numbers, head, rest, ht, hdata, hopens, -⟩ := Item.open?_eq_some_iff.1 ho
      exact ⟨numbers, item.tags.raw, head, rest, x, ht, (hopens.denotes hx).1, hdata⟩

/-- The integers that are read as a type, with all the ways to write them. -/
theorem read_eq_int_iff {len : Nat} :
    (∃ s, (int t).read data = .ok (.int x, s, len)) ↔
      len ≤ data.length ∧ t.contains x ∧ ∃ numbers raw head, Tags.Written numbers raw ∧
        data.take len = raw ++ head ∧ Head.Denotes x head := by
  constructor
  · rintro ⟨s, h⟩
    have hread : ∀ e, (int t).read data = .error e → e = .integerOverflow := by
      intro e he
      rw [h] at he
      cases he
    obtain ⟨numbers, raw, head, rest, y, ht, hy, rfl⟩ := exists_denotes_of_read hread
    rw [read_of_denotes ht hy] at h
    rcases hv : t.verdict y with e | z
    · rw [hv] at h
      cases h
    · obtain ⟨hc, rfl⟩ := IntType.contains_of_verdict hv
      rw [hv] at h
      cases h
      rw [← List.append_assoc, ← List.length_append, List.take_left]
      exact ⟨by simp, hc, numbers, raw, head, ht, rfl, hy⟩
  · rintro ⟨hlen, hc, numbers, raw, head, ht, htake, hx⟩
    have hdata : data = raw ++ (head ++ data.drop len) := by
      rw [← List.append_assoc, ← htake, List.take_append_drop]
    have hsize : raw.length + head.length = len := by
      rw [← List.length_append, ← htake, List.length_take, Nat.min_eq_left hlen]
    rw [hdata, read_of_denotes ht hx, IntType.verdict_of_contains hc, hsize]
    exact ⟨_, rfl⟩

theorem read_eq_overflow_iff :
    (int t).read data = .error .integerOverflow ↔
      ∃ numbers raw head rest x, Tags.Written numbers raw ∧ data = raw ++ (head ++ rest) ∧
        Head.Denotes x head ∧ (x < 0 → t.signed = true) ∧ ¬ t.contains x := by
  constructor
  · intro h
    have hread : ∀ e, (int t).read data = .error e → e = .integerOverflow := by
      intro e he
      exact (Except.error.inj (h.symm.trans he)).symm
    obtain ⟨numbers, raw, head, rest, x, ht, hx, rfl⟩ := exists_denotes_of_read hread
    refine ⟨numbers, raw, head, rest, x, ht, rfl, hx, IntType.verdict_eq_overflow_iff.1 ?_⟩
    rw [read_of_denotes ht hx] at h
    rcases hv : t.verdict x with e | z
    · rw [hv] at h
      cases h
      rfl
    · rw [hv] at h
      cases h
  · rintro ⟨numbers, raw, head, rest, x, ht, rfl, hx, hout⟩
    rw [read_of_denotes ht hx, IntType.verdict_eq_overflow_iff.2 hout]
    rfl

end ScalarType

/-! ## Writing -/

namespace Value

/-- A value is written as these bytes in one piece, and not at all where there is no room for them. -/
structure Emits (v : Value) (bytes : Bytes) : Prop where
  emit_eq (sink : Sink) : v.emit sink = sink.write bytes
  encodedLength_eq : v.encodedLength = .ok bytes.length
  encode_eq (buffer : Bytes) : v.encode buffer =
    if buffer.length < bytes.length then
      (.error (.error (.bufferTooSmall bytes.length buffer.length)), buffer)
    else (.ok bytes.length, bytes ++ buffer.drop bytes.length)

theorem Emits.of_emit {v : Value} {bytes : Bytes} (h : ∀ sink, v.emit sink = sink.write bytes) :
    v.Emits bytes := by
  have hlength : v.encodedLength = .ok bytes.length := by
    rw [encodedLength, h, Sink.write, Nat.zero_add]
    rfl
  refine ⟨h, hlength, ?_⟩
  intro buffer
  rw [encode, hlength]
  dsimp only
  split
  · rfl
  · rename_i hroom
    rw [h, Sink.write_buffer (Nat.not_lt.1 hroom)]
    rfl

theorem emit_signed (n : Int64) (sink : Sink) : (signed n).emit sink = sink.write (Head.ofInt n.toInt) := by
  rw [← front_signed, emit, front]
  split <;> rfl

/-- An integer is written by its value, of whatever type it is. -/
theorem emits_ofInteger {t : IntType} {x : Int} (h : t.contains x) : (ofInteger t x).Emits (Head.ofInt x) := by
  refine .of_emit fun sink => ?_
  rw [ofInteger]
  split
  · rename_i hs
    have hrange := IntType.range_of_signed hs h
    rw [emit_signed, Int64.toInt_ofInt_of_le hrange.1 hrange.2]
  · rename_i hs
    have hrange := IntType.range_of_unsigned (Bool.eq_false_iff.2 hs) h
    rw [emit, Head.ofInt, if_pos hrange.1]

end Value

/-! ## Integers of all types -/

/-- An integer is read as a type exactly where tags and a head of it are, if the type has the integer. Otherwise it
is too large, or negative where the type has no sign. A type writes each of its integers as its shortest head, which
no other integer has, and from which every type reads it that has it. -/
theorem IntType.reads_by_value :
    (∀ (t : IntType) (data : Bytes) (x : Int) (len : Nat),
      (∃ s, (ScalarType.int t).read data = .ok (.int x, s, len)) ↔
        len ≤ data.length ∧ t.contains x ∧ ∃ numbers raw head, Tags.Written numbers raw ∧
          data.take len = raw ++ head ∧ Head.Denotes x head) ∧
    (∀ (t : IntType) (data : Bytes), (ScalarType.int t).read data = .error .integerOverflow ↔
      ∃ numbers raw head rest x, Tags.Written numbers raw ∧ data = raw ++ (head ++ rest) ∧
        Head.Denotes x head ∧ (x < 0 → t.signed = true) ∧ ¬ t.contains x) ∧
    (∀ (t : IntType) numbers raw head rest x, Tags.Written numbers raw → Head.Denotes x head →
      x < 0 → t.signed = false → (ScalarType.int t).read (raw ++ (head ++ rest)) =
        .error (.incorrectType "Unsigned Integer" "Negative Integer")) ∧
    ∀ (a : IntType) (x : Int), a.contains x →
      (Value.ofInteger a x).Emits (Head.ofInt x) ∧
      (∀ (b : IntType) (y : Int), b.contains y → Head.ofInt x = Head.ofInt y → x = y) ∧
      ∀ (b : IntType) (rest : Bytes),
        (b.contains x → (ScalarType.int b).read (Head.ofInt x ++ rest) =
          .ok (.int x, true, (Head.ofInt x).length)) ∧
        (¬ b.contains x → ∃ e, (ScalarType.int b).read (Head.ofInt x ++ rest) = .error e) := by
  refine ⟨fun _ _ _ _ => ScalarType.read_eq_int_iff, fun _ _ => ScalarType.read_eq_overflow_iff, ?_, ?_⟩
  · intro t numbers raw head rest x ht hhead hx hs
    rw [ScalarType.read_of_denotes ht hhead, verdict_of_refused hx hs]
    rfl
  · intro a x hx
    have hrange := range_of_contains hx
    have hhead := Head.denotes_ofInt hrange.1 hrange.2
    refine ⟨Value.emits_ofInteger hx, ?_, ?_⟩
    · intro b y hy heq
      have hrange' := range_of_contains hy
      exact hhead.unique (heq ▸ Head.denotes_ofInt hrange'.1 hrange'.2)
    · intro b rest
      have hread := ScalarType.read_of_denotes (t := b) .nil hhead rest
      rw [List.nil_append, List.length_nil, Nat.zero_add] at hread
      rw [hread]
      constructor
      · intro hb
        rw [verdict_of_contains hb]
        simp [Except.map]
      · intro hb
        rcases hv : b.verdict x with e | z
        · exact ⟨e, rfl⟩
        · exact absurd (contains_of_verdict hv).1 hb

/-- The least integer of one byte, behind a tag and in two bytes where one would do. It is written in one, and a type
without a sign does not have it. -/
theorem IntType.least_byte_reads_by_value :
    let byte : IntType := ⟨true, .w8⟩
    byte.contains (-128) ∧
      (∃ s, (ScalarType.int byte).read [0xC1, 0x39, 0x00, 0x7F, 0x00] = .ok (.int (-128), s, 4)) ∧
      (Value.ofInteger byte (-128)).Emits [0x38, 0x7F] ∧
      (ScalarType.int ⟨true, .w64⟩).read [0x38, 0x7F, 0x00] = .ok (.int (-128), true, 2) ∧
      (ScalarType.int ⟨false, .w8⟩).read [0x38, 0x7F, 0x00] =
        .error (.incorrectType "Unsigned Integer" "Negative Integer") := by
  intro byte
  have hbyte : byte.contains (-128) := by decide
  have htags : Tags.Written [1] [0xC1] := .cons (.inside (by decide)) .nil
  have hwide : Head.Denotes (-1 - (127 : Nat)) [0x39, 0x00, 0x7F] :=
    .negative (.after .w16 [0x00, 0x7F] rfl)
  have hshort : Head.Denotes (-1 - (127 : Nat)) [0x38, 0x7F] := .negative (.after .w8 [0x7F] rfl)
  have hhead : Head.ofInt (-128) = [0x38, 0x7F] := by decide +kernel
  obtain ⟨hread, -, hrefused, hvalue⟩ := reads_by_value
  obtain ⟨hemits, -, hback⟩ := hvalue byte (-128) hbyte
  rw [hhead] at hemits hback
  refine ⟨hbyte, (hread _ _ _ _).2 ⟨by decide, hbyte, [1], [0xC1], _, htags, rfl, hwide⟩, hemits,
    (hback ⟨true, .w64⟩ [0x00]).1 (by decide), ?_⟩
  exact hrefused ⟨false, .w8⟩ [] [] _ [0x00] _ .nil hshort (by decide) rfl

end CborRecords
