import CborRecords.Proofs.Attribution

/-!
# What decoding can report

Of all errors there are, decoding a record reports few: that bytes are no item, that an item is not what its
place asks for, or that bytes follow the record. What a mismatch names is the field that was read, and its
numbers are numbers of 64 bits.

* `Reports` : all errors of a result have a property, with a lemma for each way to combine results;
* `DecodeError.Structural` : the errors of bytes that are no item, `DecodeError.Shallow` : those that are met
  before an item is entered; `Item.reports_open?`, `Item.reports_skip` : opening and skipping report no others;
* `Field.Fails`, `Schema.Fails` : what can be reported of a field and of a record, whatever the bytes. Items are
  refused as `FieldKind.Refuses` and `Schema.RefusesFront` say;
* `Record.Sets` : the calls by which decoding sets fields; `Record.Sets.exists_result` : a record that takes
  what conforms to its schema refuses none of them;
* `Record.mayReport_of_decode`, `Record.reports_decode` : nothing else is reported;
* `Record.decoding_stays_in_range` : which errors there are in decoding, and which are not.
-/

namespace CborRecords

/-- Every error of the result has the property. -/
def Reports {ε α : Type} (P : ε → Prop) (r : Except ε α) : Prop :=
  ∀ e, r = .error e → P e

namespace Reports
variable {ε δ α β : Type} {P : ε → Prop} {Q : δ → Prop} {r s : Except ε α}

theorem ok (a : α) : Reports P (.ok a : Except ε α) := by
  intro e h
  cases h

theorem error {e : ε} (h : P e) : Reports P (.error e : Except ε α) := by
  intro e' he
  cases he
  exact h

theorem ite {p : Prop} [Decidable p] (hr : p → Reports P r) (hs : ¬ p → Reports P s) :
    Reports P (if p then r else s) := by
  split
  · exact hr ‹_›
  · exact hs ‹_›

theorem mono {P' : ε → Prop} (h : Reports P r) (hP : ∀ e, P e → P' e) : Reports P' r :=
  fun e he => hP e (h e he)

theorem bind {k : α → Except ε β} (h : Reports P r) (hk : ∀ a, r = .ok a → Reports P (k a)) :
    Reports P (r.bind k) := by
  cases r with
  | error e => exact .error (h e rfl)
  | ok a => exact hk a rfl

theorem map (h : Reports P r) (f : α → β) : Reports P (r.map f) := by
  cases r with
  | error e => exact .error (h e rfl)
  | ok a => exact .ok _

theorem mapError {f : ε → δ} (h : Reports P r) (hf : ∀ e, P e → Q (f e)) : Reports Q (r.mapError f) := by
  cases r with
  | error e => exact .error (hf e (h e rfl))
  | ok a => exact .ok a

theorem elim {o : Option β} {k : β → Except ε α} (h : Reports P r) (hk : ∀ b, Reports P (k b)) :
    Reports P (o.elim r k) := by
  cases o with
  | none => exact h
  | some b => exact hk b

end Reports

/-! ## Opening -/

/-- Bytes are no item. The other errors are those of an item that is not of the type that was asked for, or
was left before its end. -/
def DecodeError.Structural : DecodeError → Prop
  | .incorrectType _ _ | .integerOverflow | .additionalItems => False
  | _ => True

/-- Of these, the errors that are met before an item is entered. -/
def DecodeError.Shallow : DecodeError → Prop
  | .maxRecursion => False
  | e => e.Structural

theorem DecodeError.Shallow.structural {e : DecodeError} (h : e.Shallow) : e.Structural := by
  cases e with
  | maxRecursion => trivial
  | _ => exact h

open DecodeError (Structural Shallow)

theorem Argument.reports_read (info : Nat) (rest : Bytes) : Reports Shallow (read info rest) := by
  have hfixed (size least : Nat) : Reports Shallow (readFixed size least rest) := by
    unfold readFixed
    cases Bytes.split? size rest with
    | none => exact .error trivial
    | some pair => exact .ok _
  unfold read
  refine .ite (fun _ => .ok _) fun _ => ?_
  refine .ite (fun _ => hfixed _ _) fun _ => ?_
  refine .ite (fun _ => hfixed _ _) fun _ => ?_
  refine .ite (fun _ => hfixed _ _) fun _ => ?_
  exact .ite (fun _ => hfixed _ _) fun _ => .error trivial

theorem Head.reports_readString (info : Nat) (rest : Bytes) : Reports Shallow (readString info rest) := by
  rw [readString_eq]
  exact (Argument.reports_read info rest).bind fun a _ => .elim (.error trivial) fun s => .ok _

theorem Tags.reports_measure (data : Bytes) : Reports Shallow (measure data) := by
  fun_induction measure data with
  | case1 => exact .ok _
  | case2 initial rest htag e he => exact .error (Argument.reports_read _ _ e he)
  | case3 initial rest htag argument ha e he ih => exact .error (ih e he)
  | case4 => exact .ok _
  | case5 => exact .ok _

theorem Chunks.reports_check (m : Major) (content : Bytes) : Reports Shallow (check m content) := by
  unfold check
  refine .ite (fun _ => ?_) fun _ => .ok _
  cases Utf8.decode content with
  | error fault => exact .error trivial
  | ok text => exact .ok _

theorem Chunks.reports_measure (m : Major) (data : Bytes) : Reports Shallow (measure m data) := by
  fun_induction measure m data with
  | case1 => exact .error trivial
  | case2 => exact .ok _
  | case3 => exact .error trivial
  | case4 initial rest hstop hchunk e he => exact .error (Head.reports_readString _ _ e he)
  | case5 initial rest hstop hchunk content size shortest hread e he =>
    exact .error (Chunks.reports_check m content e he)
  | case6 initial rest hstop hchunk content size shortest hread hcheck e he ih => exact .error (ih e he)
  | case7 => exact .ok _

namespace Item

theorem reports_readFloat (format : Format) (size : Nat) (shortest : Binary → Bool) (rest : Bytes) :
    Reports Shallow (readFloat format size shortest rest) := by
  unfold readFloat
  cases Bytes.split? size rest with
  | none => exact .error trivial
  | some pair => exact .ok _

theorem reports_readSimple (info : Nat) (rest : Bytes) : Reports Shallow (readSimple info rest) := by
  unfold readSimple
  refine .ite (fun _ => .ok _) fun _ => ?_
  refine .ite (fun _ => .ok _) fun _ => ?_
  refine .ite (fun _ => .ok _) fun _ => ?_
  refine .ite (fun _ => .ok _) fun _ => ?_
  refine .ite (fun _ => .ok _) fun _ => ?_
  refine .ite (fun _ => ?_) fun _ => ?_
  · cases rest with
    | nil => exact .error trivial
    | cons value rest => exact .ite (fun _ => .error trivial) fun _ => .ok _
  refine .ite (fun _ => reports_readFloat _ _ _ _) fun _ => ?_
  refine .ite (fun _ => reports_readFloat _ _ _ _) fun _ => ?_
  exact .ite (fun _ => reports_readFloat _ _ _ _) fun _ => .error trivial

theorem reports_readBody (start : Nat) (initial : UInt8) (rest : Bytes) :
    Reports Shallow (readBody start initial rest) := by
  have hinteger (make : UInt64 → Content) (info : Nat) : Reports Shallow (readInteger make info rest) := by
    rw [readInteger_eq]
    exact (Argument.reports_read info rest).map _
  have hcontainer (kind : Container) (info : Nat) :
      Reports Shallow (readContainer kind start info rest) := by
    rw [readContainer_eq]
    exact .ite (fun _ => .ok _) fun _ => (Argument.reports_read info rest).bind fun a _ =>
      .ite (fun _ => .ok _) fun _ => .error trivial
  unfold readBody
  dsimp only
  cases Head.major initial with
  | unsigned => exact hinteger _ _
  | negative => exact hinteger _ _
  | bytes =>
    dsimp only
    rw [readBytes_eq]
    exact .ite (fun _ => (Chunks.reports_measure _ _).map _) fun _ => (Head.reports_readString _ _).map _
  | text =>
    dsimp only
    rw [readText_eq]
    refine .ite (fun _ => (Chunks.reports_measure _ _).map _) fun _ =>
      (Head.reports_readString _ _).bind fun s _ => ?_
    have hdecode : Reports (fun _ => True) (Utf8.decode s.1) := fun _ _ => trivial
    exact (hdecode.mapError fun _ _ => trivial).map _
  | array => exact hcontainer _ _
  | map => exact hcontainer _ _
  | tag => exact .error trivial
  | simple => exact reports_readSimple _ _

theorem reports_open? (data : Bytes) : Reports Shallow (open? data) := by
  unfold open? Tags.read
  rcases hm : Tags.measure data with e | size
  · exact .error (Tags.reports_measure data e hm)
  · dsimp only
    rcases data.drop (Tags.size ⟨data.take size⟩) with _ | ⟨initial, rest⟩
    · exact .ite (fun _ => .ok _) fun _ => .error trivial
    · dsimp only
      rcases hbody : readBody (Tags.size ⟨data.take size⟩ + 1) initial rest with e | body
      · exact .error (reports_readBody _ _ _ e hbody)
      · exact .ok _

theorem reports_require {α : Type} {r : Except DecodeError (Option α)} (h : Reports Shallow r) :
    Reports Shallow (Cursor.require r) := by
  rcases r with e | (_ | a)
  · exact .error (h e rfl)
  · exact .error trivial
  · exact .ok a

end Item

/-! ## Skipping -/

namespace Cursor

section Place
variable {P : DecodeError → Prop} (hended : P .notEnoughData) (hpartial : P .partialMap)
include hended hpartial

theorem reports_atEnd (c : Cursor) : Reports P c.atEnd.1 := by
  unfold atEnd
  split
  · exact .ok _
  · split
    · exact .error hended
    · split
      · split
        · exact .ok _
        · exact .error hpartial
      · exact .ok _

theorem reports_peek {c : Cursor} (hopen : Reports P (Item.open? c.rest)) : Reports P c.peek.1 := by
  unfold peek
  rcases hend : c.atEnd with ⟨e | (_ | _), c'⟩
  · exact .error (reports_atEnd hended hpartial c e (by rw [hend]))
  · obtain ⟨rfl, -⟩ := atEnd_eq_false_iff.1 hend
    dsimp only
    rcases ho : Item.open? c'.rest with e | (_ | item)
    · exact .error (hopen e ho)
    · exact .error hended
    · exact .ok _
  · exact .ok _

end Place

theorem reports_peek_shallow (c : Cursor) : Reports Shallow c.peek.1 :=
  reports_peek trivial trivial (Item.reports_open? c.rest)

/-- Where a traversal has ended, the container can be closed. -/
theorem exists_close_of_reached {β : Type} {visit : Item → List β × Except DecodeError Nat} {limit : Nat}
    {c last : Cursor} (h : reached visit limit c = .ok last) : ∃ n, last.close = .ok n := by
  induction limit using Nat.strongRecOn generalizing c with
  | _ limit ih =>
    rw [reached_eq] at h
    rcases hpeek : c.peek with ⟨e | (_ | item), c'⟩
    · rw [hpeek] at h
      cases h
    · rw [hpeek] at h
      cases h
      exact ⟨_, close_of_atEnd (atEnd_of_atEnd (peek_eq_none_iff.1 hpeek))⟩
    · rw [hpeek] at h
      dsimp only [Except.map, Except.bind, Option.elim] at h
      split at h
      · cases h
      · split at h
        · cases h
        · exact ih (limit - 1) (by omega) h

/-- A traversal reports what is met on the way or by the visits, which are given items that start where the
bytes from some place on do. -/
theorem reports_reached_of_suffix {β : Type} {visit : Item → List β × Except DecodeError Nat}
    {P : DecodeError → Prop} {data : Bytes} (hlimit : P .notEnoughData)
    (hpeek : ∀ {c : Cursor}, c.rest <:+ data → Reports P c.peek.1)
    (hvisit : ∀ {rest : Bytes} {item : Item}, Item.open? rest = .ok (some item) → rest <:+ data →
      Reports P (visit item).2) (limit : Nat) {c : Cursor} (hc : c.rest <:+ data) :
    Reports P (reached visit limit c) := by
  induction limit using Nat.strongRecOn generalizing c with
  | _ limit ih =>
    rw [reached_eq]
    refine ((hpeek hc).map _).bind ?_
    rintro ⟨found, c'⟩ hfound
    cases found with
    | none => exact .ok c'
    | some item =>
      obtain ⟨rfl, -, ho⟩ := peek_eq_some_iff.1 (peek_of_map_eq_ok hfound)
      refine (hvisit ho hc).bind fun n _ => .ite (fun _ => .error hlimit) fun hlimit => ?_
      exact ih (limit - 1) (by omega) ((List.drop_suffix n c'.rest).trans hc)

/-- The same of visits that are given items that start in at most as many bytes as there are. -/
theorem reports_reached {β : Type} {visit : Item → List β × Except DecodeError Nat} {P : DecodeError → Prop}
    (hP : ∀ e : DecodeError, e.Shallow → P e) {size : Nat}
    (hvisit : ∀ {data : Bytes} {item : Item}, Item.open? data = .ok (some item) → data.length ≤ size →
      Reports P (visit item).2) (limit : Nat) {c : Cursor} (hsize : c.rest.length ≤ size) :
    Reports P (reached visit limit c) := by
  refine reports_reached_of_suffix (hP _ trivial) (fun _ => (reports_peek_shallow _).mono hP) ?_ limit
    (List.suffix_refl c.rest)
  intro rest item ho hsuffix
  exact hvisit ho (Nat.le_trans hsuffix.length_le hsize)

end Cursor

/-- A container that was skipped was left at its end, so that nothing is said of items that remain. -/
theorem Item.reports_skip (m : Nat) (item : Item) : Reports Structural (item.skip m) := by
  induction m generalizing item with
  | zero =>
    by_cases hc : ∃ start, item.content = .container start
    · obtain ⟨start, hc⟩ := hc
      rw [skip_container_zero hc]
      exact .error trivial
    · rw [skip_scalar 0 fun c h => hc ⟨c, h⟩]
      exact .ok _
  | succ m ih =>
    by_cases hc : ∃ start, item.content = .container start
    · obtain ⟨start, hc⟩ := hc
      rw [skip_container hc]
      have hvisit {data : Bytes} {inner : Item} (_ : open? data = .ok (some inner))
          (_ : data.length ≤ start.rest.length) : Reports Structural (([] : List Empty), inner.skip m).2 :=
        ih inner
      refine (Cursor.reports_reached (fun _ h => h.structural) hvisit start.rest.length
        (Nat.le_refl _)).bind fun last hlast => ?_
      obtain ⟨n, hn⟩ := Cursor.exists_close_of_reached hlast
      rw [hn]
      exact .ok n
    · rw [skip_scalar _ fun c h => hc ⟨c, h⟩]
      exact .ok _

/-! ## Fields -/

/-- The item's string, if it is one, has a length of at most 64 bits. -/
def Tree.Sized : Tree → Prop
  | .bytes content => content.length < 0x10000000000000000
  | .text content => Utf8.size content < 0x10000000000000000
  | _ => True

theorem Tree.Written.sized {t : Tree} {part : Bytes} (h : t.Written part) : t.Sized := by
  cases h with
  | bytes hw => exact hw.argument_lt
  | text hw => exact hw.argument_lt
  | _ => trivial

/-- What a kind of field says of an item that was opened is why it refuses some item. -/
theorem FieldKind.exists_refuses_of_verdict {kind : FieldKind} {data : Bytes} {item : Item} {reason : Mismatch}
    (ho : Item.open? data = .ok (some item)) (h : kind.verdict item = .error reason) :
    ∃ t : Tree, t.Sized ∧ kind.Refuses t reason := by
  obtain ⟨numbers, front, rest, -, -, hopens, -⟩ := Item.open?_eq_some_iff.1 ho
  obtain ⟨tags, shortest, content, size⟩ := item
  unfold verdict at h
  dsimp only at hopens h
  split at h
  · cases hopens with
    | scalar hw hc => exact ⟨_, hw.sized, refuses_of_accept_error hc h⟩
    | definite | indefinite =>
      -- a container is refused for its type, whatever is in it
      exact ⟨.container _ _ [], trivial, accept_container_eq_error_iff.1 h⟩
  · cases h
    exact ⟨.tagged 0 .null, trivial, .tagged kind 0 .null⟩

/-- What can be reported of a field: that there is no item, or why the kind of the field refuses one. -/
inductive Field.Fails (f : Field) : RecordError → Prop
  | decode {e : DecodeError} (h : e.Structural) : Fails f (.ofDecode f.name e)
  | refused {t : Tree} {reason : Mismatch} (ht : t.Sized) (h : f.kind.Refuses t reason) :
      Fails f (.schemaMismatch f.name reason)

namespace Record

theorem reports_next {α : Type} {visit : Item → Except DecodeError (α × Nat)}
    (hvisit : ∀ item, Reports Structural (visit item)) (c : Cursor) :
    Reports Structural ((c.next visit).1.map (·, (c.next visit).2)) := by
  rw [Cursor.next_eq]
  exact ((c.reports_peek_shallow.mono fun _ h => h.structural).map _).bind fun found _ =>
    .elim (.error trivial) fun item => (hvisit item).map _

theorem verdict_of_visitField {kind : FieldKind} {item : Item} {reason : Mismatch} {n : Nat}
    (h : visitField kind item = .ok (.error reason, n)) : kind.verdict item = .error reason := by
  rw [visitField_eq] at h
  cases hskip : item.skip maxNesting with
  | error e =>
    rw [hskip] at h
    cases h
  | ok m =>
    rw [hskip] at h
    exact (Prod.mk.inj (Except.ok.inj h)).1

theorem reports_readField (name : String) (kind : FieldKind) (c : Cursor) :
    Reports (Field.Fails ⟨name, kind⟩) (readField name kind c) := by
  have hvisit (item : Item) : Reports Structural (visitField kind item) := by
    rw [visitField_eq]
    exact (item.reports_skip maxNesting).map _
  rw [readField_eq]
  refine ((reports_next hvisit c).mapError fun e he => .decode (f := ⟨name, kind⟩) he).bind ?_
  rintro ⟨⟨verdict, n⟩, c'⟩ hread
  cases verdict with
  | ok value => exact .ok _
  | error reason =>
    rcases hnext : c.next (visitField kind) with ⟨e | seen, c''⟩
    · rw [hnext] at hread
      cases hread
    · rw [hnext] at hread
      cases hread
      obtain ⟨item, -, ho, hseen, -⟩ := Cursor.next_eq_ok_iff.1 hnext
      obtain ⟨t, ht, hr⟩ := FieldKind.exists_refuses_of_verdict ho (verdict_of_visitField hseen)
      exact .error (.refused ht hr)

end Record

/-! ## Records -/

/-- What can be reported of a record in a byte string of a length. -/
inductive Schema.Fails (s : Schema) (length : Nat) : RecordError → Prop
  | header {e : DecodeError} (h : e.Structural) : Fails s length (.ofDecode RecordError.header e)
  | array {data : Bytes} {reason : Mismatch} (h : s.RefusesFront data reason) :
      Fails s length (.schemaMismatch s.name reason)
  | keyItem {e : RecordError} (h : Field.Fails ⟨"key", .uint .w64⟩ e) : Fails s length e
  | key (found : UInt64) : Fails s length (.schemaMismatch "key" (.key s.key.id.toNat found.toNat))
  | field {f : Field} {e : RecordError} (hf : f ∈ s.fields) (h : f.Fails e) : Fails s length e
  | trailingData {count : Nat} (h : count ≤ length) : Fails s length (.trailingData count)

namespace Record

/-- The item of the key is an integer when it is read, so only its value can be wrong. -/
theorem reports_readKey (s : Schema) (c : Cursor) (length : Nat) :
    Reports (s.Fails length) (readKey s.key c) := by
  unfold readKey
  rcases hread : readField "key" (.uint .w64) c with e | ⟨value, c'⟩
  · exact .error (.keyItem (reports_readField _ _ c e hread))
  · obtain ⟨-, part, rest, -, hw, -⟩ := readField_eq_ok_iff.1 hread
    cases hw with
    | @uint width n head hw hmax => exact .ite (fun _ => .ok _) fun _ => .error (.key n)

variable {ρ : Type} [Record ρ]

/-! ### Setting fields -/

/-- A call that sets a field of a record: the record, the index of the field, and the value. -/
structure SetCall (ρ : Type) where
  record : ρ
  index : Nat
  value : FieldValue

/-- What a call gives: the record with the field set, or why it is not set. -/
def SetCall.result (call : SetCall ρ) : Except Mismatch ρ :=
  setField call.record call.index call.value

/-- Reading fields from the one numbered `index` on makes this call. -/
inductive SetsFrom : (index : Nat) → List Field → ρ → Cursor → SetCall ρ → Prop
  | here {index : Nat} {f : Field} {fields : List Field} {record : ρ} {c c' : Cursor} {value : FieldValue}
      (hread : readField f.name f.kind c = .ok (value, c')) :
      SetsFrom index (f :: fields) record c ⟨record, index, value⟩
  | later {index : Nat} {f : Field} {fields : List Field} {record record' : ρ} {c c' : Cursor}
      {value : FieldValue} {call : SetCall ρ} (hread : readField f.name f.kind c = .ok (value, c'))
      (hset : setField record index value = .ok record') (h : SetsFrom (index + 1) fields record' c' call) :
      SetsFrom index (f :: fields) record c call

/-- Decoding a byte string makes this call. -/
inductive Sets (data : Bytes) (call : SetCall ρ) : Prop
  | intro {item : Item} {c c' : Cursor} (hopen : Item.open? data = .ok (some item))
      (harray : openArray (schema ρ) item = .ok c) (hkey : readKey (schema ρ).key c = .ok c')
      (h : SetsFrom 0 (schema ρ).fields blank c' call) : Sets data call

/-- A call sets the next field of a record in which those before it have been set, to a value that conforms
to it. -/
theorem SetsFrom.exists_next {fields : List Field} {index : Nat} {record : ρ} {c : Cursor} {call : SetCall ρ}
    (h : SetsFrom index fields record c call) {filled : List FieldValue} (hindex : filled.length = index)
    (hfields : (schema ρ).fields.drop index = fields) (hfilled : Filled filled record) :
    ∃ values f, call.index = values.length ∧ Filled values call.record ∧
      (schema ρ).fields[values.length]? = some f ∧ f.kind.Conforms call.value := by
  induction h generalizing filled with
  | @here index f fields record c c' value hread =>
    subst hindex
    obtain ⟨-, part, rest, -, hw, -⟩ := readField_eq_ok_iff.1 hread
    refine ⟨filled, f, rfl, hfilled, ?_, hw.conforms⟩
    rw [← List.head?_drop, hfields, List.head?_cons]
  | @later index f fields record record' c c' value call hread hset h ih =>
    subst hindex
    have hnext : Filled (filled ++ [value]) record' := .set hfilled hset
    refine ih (by simp) ?_ hnext
    rw [← List.drop_drop, hfields, List.drop_one, List.tail_cons]

theorem Sets.exists_next {data : Bytes} {call : SetCall ρ} (h : Sets data call) :
    ∃ values f, call.index = values.length ∧ Filled values call.record ∧
      (schema ρ).fields[values.length]? = some f ∧ f.kind.Conforms call.value := by
  obtain ⟨-, -, -, h⟩ := h
  exact h.exists_next List.length_nil rfl .blank

/-- A record that takes what conforms to its schema takes every value that was read for it. -/
theorem Sets.exists_result [Lawful ρ] {data : Bytes} {call : SetCall ρ} (h : Sets data call) :
    ∃ record', call.result = .ok record' := by
  obtain ⟨values, f, hindex, hfilled, hf, hc⟩ := h.exists_next
  obtain ⟨record', hset⟩ := Lawful.setField_ok hfilled hf hc
  exact ⟨record', by rw [SetCall.result, hindex, hset]⟩

/-- A call is refused, and what is reported is the reason that it gave, for its field. -/
def SetCall.Refused (call : SetCall ρ) (e : RecordError) : Prop :=
  ∃ f reason, (schema ρ).fields[call.index]? = some f ∧ call.result = .error reason ∧
    e = .schemaMismatch f.name reason

theorem reports_readFields {fields : List Field} {index : Nat} (record : ρ)
    (hfields : (schema ρ).fields.drop index = fields) (c : Cursor) (length : Nat) :
    Reports (fun e => (schema ρ).Fails length e ∨
        ∃ call, SetsFrom index fields record c call ∧ call.Refused e)
      (readFields index fields record c) := by
  induction fields generalizing index record c with
  | nil => exact .ok _
  | cons f fields ih =>
    have hf : f ∈ (schema ρ).fields := List.mem_of_mem_drop (hfields ▸ List.mem_cons_self ..)
    have hnext : (schema ρ).fields.drop (index + 1) = fields := by
      rw [← List.drop_drop, hfields, List.drop_one, List.tail_cons]
    rw [readFields_cons]
    rcases hread : readField f.name f.kind c with e | ⟨value, c'⟩
    · exact .error (.inl (.field hf (reports_readField f.name f.kind c e hread)))
    · dsimp only [Except.bind]
      rcases hset : setField record index value with reason | record'
      · have hindex : (schema ρ).fields[index]? = some f := by
          rw [← List.head?_drop, hfields, List.head?_cons]
        exact .error (.inr ⟨_, .here hread, f, reason, hindex, hset, rfl⟩)
      · intro e he
        rcases ih record' hnext c' e he with hfails | ⟨call, hcall, hrefused⟩
        · exact .inl hfails
        · exact .inr ⟨call, .later hread hset hcall, hrefused⟩

/-! ### Decoding -/

variable (ρ) in
/-- What decoding a byte string can report: what can be reported of any record of the schema, and why the
record did not take a value. -/
def MayReport (data : Bytes) (e : RecordError) : Prop :=
  (schema ρ).Fails data.length e ∨ ∃ call : SetCall ρ, Sets data call ∧ call.Refused e

theorem reports_decodePrefix (data : Bytes) : Reports (MayReport ρ data) (decodePrefix ρ data) := by
  rw [decodePrefix_eq]
  refine ((Item.reports_require (Item.reports_open? data)).mapError fun e he =>
    .inl (.header he.structural)).bind ?_
  intro item hitem
  have ho : Item.open? data = .ok (some item) := by
    refine Cursor.require_eq_ok_iff.1 ?_
    cases hopen : Cursor.require (Item.open? data) with
    | error e =>
      rw [hopen] at hitem
      cases hitem
    | ok found =>
      rw [hopen] at hitem
      cases hitem
      rfl
  rcases harray : openArray (schema ρ) item with e | c
  · obtain ⟨reason, rfl, hrefuses⟩ := refusesFront_of_openArray ho harray
    exact .error (.inl (.array hrefuses))
  dsimp only [Except.bind]
  obtain ⟨head, rest, -, -, rfl⟩ := written_of_openArray ho harray
  have hitems : Reports (MayReport ρ data)
      (readItems (start (schema ρ) head.length rest) : Except RecordError (ρ × Cursor)) := by
    rw [readItems_eq]
    rcases hkey : readKey (schema ρ).key (start (schema ρ) head.length rest) with e | c'
    · exact .error (.inl (reports_readKey (schema ρ) _ data.length e hkey))
    · intro e he
      rcases reports_readFields blank rfl c' data.length e he with hfails | ⟨call, hcall, hrefused⟩
      · exact .inl hfails
      · exact .inr ⟨call, ⟨ho, harray, hkey, hcall⟩, hrefused⟩
  refine hitems.bind ?_
  rintro ⟨record, c'⟩ hread
  obtain ⟨values, key, parts, rest', -, hlays, -, -, rfl⟩ := written_of_readItems hread
  dsimp only
  rw [close_behind hlays]
  exact .ok _

/-- Decoding a record reports that there is no item, that one is not what its place asks for, bytes that
follow it, or what the record gave as the reason not to take a value. -/
theorem mayReport_of_decode (data : Bytes) : Reports (MayReport ρ data) (decode ρ data) := by
  unfold decode
  rcases hprefix : decodePrefix ρ data with e | ⟨record, n⟩
  · exact .error (reports_decodePrefix data e hprefix)
  · exact .ite (fun _ => .error (.inl (.trailingData (Nat.sub_le _ _)))) fun _ => .ok _

/-- A record that takes what conforms to its schema gives no reason of its own. -/
theorem reports_decode [Lawful ρ] (data : Bytes) :
    Reports ((schema ρ).Fails data.length) (decode ρ data) := by
  intro e he
  rcases mayReport_of_decode data e he with hfails | ⟨call, hcall, f, reason, -, hresult, -⟩
  · exact hfails
  · obtain ⟨record', hok⟩ := hcall.exists_result
    rw [hok] at hresult
    cases hresult

end Record

/-! ## The range of errors -/

/-- What a mismatch can carry as malformed: bytes that are no item. Bytes that end too soon and texts that are
none have reports of their own; no type is asked for, and no container is left before its end. -/
structure DecodeError.Malforms (cause : DecodeError) : Prop where
  ne_notEnoughData : cause ≠ .notEnoughData
  ne_invalidUtf8 : ∀ fault, cause ≠ .invalidUtf8 fault
  ne_additionalItems : cause ≠ .additionalItems
  ne_incorrectType : ∀ expected found, cause ≠ .incorrectType expected found
  ne_integerOverflow : cause ≠ .integerOverflow

/-- The error is not one of capacity, of an invalid key, of a null pointer or of the encoder. -/
structure RecordError.OfDecoding (e : RecordError) : Prop where
  ne_capacity : ∀ needed available, e ≠ .capacity needed available
  ne_invalidKey : ∀ n, e ≠ .invalidKey n
  ne_nullPointer : ∀ what, e ≠ .nullPointer what
  ne_unencodable : ∀ cause, e ≠ .unencodable cause

namespace RecordError

theorem ofDecoding_schemaMismatch (field : String) (reason : Mismatch) :
    OfDecoding (.schemaMismatch field reason) := by
  constructor <;> simp

theorem ofDecoding_ofDecode (field : String) (e : DecodeError) : OfDecoding (.ofDecode field e) := by
  cases e with
  | notEnoughData => constructor <;> simp [ofDecode]
  | _ => exact ofDecoding_schemaMismatch field _

/-- An error that has a report of its own is not reported as malformed. -/
theorem malforms_of_ofDecode {field field' : String} {e cause : DecodeError} (he : Structural e)
    (h : ofDecode field e = .schemaMismatch field' (.malformed cause)) : cause.Malforms := by
  cases e with
  | notEnoughData | invalidUtf8 => cases h
  | incorrectType | integerOverflow | additionalItems => exact he.elim
  | _ =>
    cases h
    constructor <;> simp

end RecordError

theorem Field.Fails.ofDecoding {f : Field} {e : RecordError} (h : f.Fails e) : e.OfDecoding := by
  cases h with
  | decode h => exact RecordError.ofDecoding_ofDecode f.name _
  | refused => exact RecordError.ofDecoding_schemaMismatch f.name _

theorem Field.Fails.malforms {f : Field} {field : String} {cause : DecodeError}
    (h : f.Fails (.schemaMismatch field (.malformed cause))) : cause.Malforms := by
  obtain ⟨name, kind⟩ := f
  generalize he : RecordError.schemaMismatch field (.malformed cause) = e at h
  cases h with
  | decode h => exact RecordError.malforms_of_ofDecode h he.symm
  | refused _ h =>
    cases he
    cases h

namespace Schema

theorem Fails.ofDecoding {s : Schema} {length : Nat} {e : RecordError} (h : s.Fails length e) :
    e.OfDecoding := by
  cases h with
  | header h => exact RecordError.ofDecoding_ofDecode _ _
  | array | key => exact RecordError.ofDecoding_schemaMismatch _ _
  | keyItem h | field _ h => exact h.ofDecoding
  | trailingData => constructor <;> simp

theorem Fails.malforms {s : Schema} {length : Nat} {field : String} {cause : DecodeError}
    (h : s.Fails length (.schemaMismatch field (.malformed cause))) : cause.Malforms := by
  generalize he : RecordError.schemaMismatch field (.malformed cause) = e at h
  cases h with
  | header h => exact RecordError.malforms_of_ofDecode h he.symm
  | array h =>
    cases he
    cases h
  | keyItem h | field _ h =>
    subst he
    exact h.malforms
  | key | trailingData => cases he

end Schema

/-- What a kind of field admits conforms to it. -/
theorem FieldKind.conforms_of_accept {kind : FieldKind} {content : Content} {value : FieldValue}
    (h : FieldKind.accept kind content = .ok value) : kind.Conforms value := by
  have hint {width : Width} {n : Int} (h : acceptInt width n = .ok value) : (int width).Conforms value := by
    obtain ⟨k, rfl, rfl, hmin, hmax⟩ := toInt_of_acceptInt h
    exact ⟨hmin, hmax⟩
  unfold FieldKind.accept at h
  split at h
  · split at h
    · cases h
    · rename_i hmax
      cases h
      exact Nat.not_lt.1 hmax
  · exact hint h
  · exact hint h
  · cases h
    trivial
  · split at h
    · rename_i hsize
      cases h
      exact hsize
    · cases h
  · split at h
    · cases h
    · rename_i hmost
      cases h
      exact Nat.not_lt.1 hmost
  · cases h
  · cases h
  · cases h

namespace Record

/-- A field for integers without a sign is read as one. -/
theorem exists_uint_of_readField {name : String} {width : Width} {c c' : Cursor} {value : FieldValue}
    (h : readField name (.uint width) c = .ok (value, c')) : ∃ n, value = .uint n := by
  obtain ⟨-, part, rest, -, hw, -⟩ := readField_eq_ok_iff.1 h
  cases hw with
  | uint => exact ⟨_, rfl⟩

/-- Decoding stays in its range of errors, whatever the bytes and the schema. It reports no capacity,
invalid key, null pointer or error of the encoder, and as malformed only bytes that are no item, unless the record
gives such a reason itself, which those that take what conforms to their schema do not. Every value that is
admitted conforms to the kind of its field, and so does every value that a field is set to, so that setting a
field of a person never fails. The key is always read as an integer without a sign. -/
theorem decoding_stays_in_range :
    (∀ {ρ : Type} [Record ρ] {data : Bytes} {e : RecordError}, decode ρ data = .error e →
      e.OfDecoding ∧ ∀ field cause, e = .schemaMismatch field (.malformed cause) →
        cause.Malforms ∨ ∃ call : SetCall ρ, Sets data call ∧ call.result = .error (.malformed cause)) ∧
    (∀ {ρ : Type} [Record ρ] [Lawful ρ] {data : Bytes} {field : String} {cause : DecodeError},
      decode ρ data = .error (.schemaMismatch field (.malformed cause)) → cause.Malforms) ∧
    (∀ {kind : FieldKind} {content : Content} {value : FieldValue},
      FieldKind.accept kind content = .ok value → kind.Conforms value) ∧
    (∀ {ρ : Type} [Record ρ] {data : Bytes} {call : SetCall ρ}, Sets data call →
      ∃ f, (schema ρ).fields[call.index]? = some f ∧ f.kind.Conforms call.value) ∧
    (∀ {data : Bytes} {call : SetCall Person}, Sets data call → ∃ p, call.result = .ok p) ∧
    ∀ {c c' : Cursor} {value : FieldValue}, readField "key" (.uint .w64) c = .ok (value, c') →
      ∃ n, value = .uint n := by
  refine ⟨?_, ?_, FieldKind.conforms_of_accept, ?_, Sets.exists_result, exists_uint_of_readField⟩
  · intro ρ _ data e he
    rcases mayReport_of_decode data e he with hfails | ⟨call, hcall, f, reason, -, hresult, rfl⟩
    · refine ⟨hfails.ofDecoding, ?_⟩
      rintro field cause rfl
      exact .inl hfails.malforms
    · refine ⟨RecordError.ofDecoding_schemaMismatch _ _, ?_⟩
      rintro field cause ⟨⟩
      exact .inr ⟨call, hcall, hresult⟩
  · intro ρ _ _ data field cause he
    exact (reports_decode data _ he).malforms
  · intro ρ _ data call hcall
    obtain ⟨values, f, hindex, -, hf, hc⟩ := hcall.exists_next
    exact ⟨f, hindex ▸ hf, hc⟩

/-- A person whose id is a map that ends after a key, behind a tag: the name has been set by then. -/
theorem person_with_partial_map_in_range :
    let data : Bytes := [0x83, 0, 0x58, 8, 0x41, 0, 0, 0, 0, 0, 0, 0, 0xC1, 0xBF, 0x01, 0xFF]
    let call : SetCall Person := ⟨Person.nobody, 0, .bytes [0x41, 0, 0, 0, 0, 0, 0, 0]⟩
    decode Person data = .error (.schemaMismatch "id" (.malformed .partialMap)) ∧
      DecodeError.partialMap.Malforms ∧ Sets data call ∧ ∃ p, call.result = .ok p := by
  intro data call
  have hdecode : decode Person data = .error (.schemaMismatch "id" (.malformed .partialMap)) := by cbv
  have hcall : Sets data call := by
    refine ⟨by cbv, by cbv, by cbv, .here (by cbv)⟩
  exact ⟨hdecode, decoding_stays_in_range.2.1 hdecode, hcall,
    decoding_stays_in_range.2.2.2.2.1 hcall⟩

end Record

end CborRecords
