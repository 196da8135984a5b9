import CborRecords.Proofs.Skipping

/-!
# More input

A reader stops at the first byte that decides what it gives. More bytes behind its input change nothing,
unless it had come to the end of the input: then it says that there is not enough data, or that tags are
followed by nothing.

* `Extends` : what a reader gives on some bytes, and on the same bytes with more behind them;
* `Cursor.extend`, `Content.extend`, `Item.extend` : the same place with more bytes behind it;
* `Argument.read_extends`, `Head.readString_extends`, `Chunks.measure_extends`, `Item.readBody_extends` :
  the readers of one item;
* `Item.open?_extends`, `Cursor.peek_extends`, `Cursor.reached_extends` : items and the items of a
  container;
* `Item.confined_skip` : skipping an item reads it to its end and no further.
-/

namespace CborRecords

/-- The start of a head that lacks its argument. -/
def Head.unfinished : Bytes := [Head.initial .unsigned 24]

/-- An error of the decoder that is reported as it is. -/
def DecodeError.plain (_ : Unit) (e : DecodeError) : DecodeError := e

/-- What a reader gives on some bytes, and on the same bytes with `more` behind them. A success stays, up
to the bytes that are left over, and so does an error, unless it says that the bytes ended. If they ended
behind tags, the start of a head leaves them ended at the same place. Errors of the decoder are reported
with their place, and only a reader that passes over `tags` can end behind them. -/
inductive Extends {ι ε α β : Type} (report : ι → DecodeError → ε) (tags : Prop) (more : Bytes) (f : α → β) :
    Except ε α → Except ε β → Prop
  | ok (a : α) : Extends report tags more f (.ok a) (.ok (f a))
  | error {e : ε} (h : ∀ place, e ≠ report place .justTags) : Extends report tags more f (.error e) (.error e)
  | ended (place : ι) (r : Except ε β) : Extends report tags more f (.error (report place .notEnoughData)) r
  | afterTags {r : Except ε β} (ht : tags) (place : ι)
      (hr : more = Head.unfinished → r = .error (report place .notEnoughData)) :
      Extends report tags more f (.error (report place .justTags)) r

namespace Extends
variable {ι ε α β γ δ : Type} {report : ι → DecodeError → ε} {tags : Prop} {more : Bytes} {f : α → β}
  {g : γ → δ} {r : Except ε α} {r' : Except ε β}

theorem of_eq {a : α} {b : β} (h : f a = b) : Extends report tags more f (.ok a) (.ok b) :=
  h ▸ .ok a

theorem fault {α β : Type} {f : α → β} {e : DecodeError} (h : e ≠ .justTags) :
    Extends .plain tags more f (.error e) (.error e) :=
  .error fun _ => h

theorem ite {p : Prop} [Decidable p] {s : Except ε α} {s' : Except ε β}
    (hpos : p → Extends report tags more f r r') (hneg : ¬ p → Extends report tags more f s s') :
    Extends report tags more f (if p then r else s) (if p then r' else s') := by
  by_cases h : p
  · rw [if_pos h, if_pos h]
    exact hpos h
  · rw [if_neg h, if_neg h]
    exact hneg h

theorem bind {k : α → Except ε γ} {k' : β → Except ε δ} (h : Extends report tags more f r r')
    (hk : ∀ a, r = .ok a → Extends report tags more g (k a) (k' (f a))) :
    Extends report tags more g (r.bind k) (r'.bind k') := by
  cases h with
  | ok a => exact hk a rfl
  | error h => exact .error h
  | ended place => exact .ended place _
  | afterTags ht place hr =>
    refine .afterTags ht place fun hmore => ?_
    rw [hr hmore]
    rfl

theorem map {k : α → γ} {k' : β → δ} (h : Extends report tags more f r r')
    (hk : ∀ a, r = .ok a → g (k a) = k' (f a)) : Extends report tags more g (r.map k) (r'.map k') := by
  cases h with
  | ok a => exact .of_eq (hk a rfl)
  | error h => exact .error h
  | ended place => exact .ended place _
  | afterTags ht place hr =>
    refine .afterTags ht place fun hmore => ?_
    rw [hr hmore]
    rfl

end Extends

/-! ## Arguments and strings -/

theorem Bytes.split?_append {n : Nat} {data front rest : Bytes} (h : split? n data = some (front, rest))
    (more : Bytes) : split? n (data ++ more) = some (front, rest ++ more) := by
  obtain ⟨rfl, hn⟩ := split?_eq_some_iff.1 h
  exact split?_eq_some_iff.2 ⟨List.append_assoc _ _ _, hn⟩

section Arguments
variable (rest more : Bytes)

theorem Argument.readFixed_extends (size least : Nat) :
    Extends .plain False more id (readFixed size least rest) (readFixed size least (rest ++ more)) := by
  unfold readFixed
  cases hs : Bytes.split? size rest with
  | none => exact .ended () _
  | some pair =>
    obtain ⟨front, after⟩ := pair
    rw [Bytes.split?_append hs]
    exact .ok _

theorem Argument.read_extends (info : Nat) :
    Extends .plain False more id (read info rest) (read info (rest ++ more)) := by
  unfold read
  refine .ite (fun _ => .ok _) fun _ => ?_
  refine .ite (fun _ => readFixed_extends rest more _ _) fun _ => ?_
  refine .ite (fun _ => readFixed_extends rest more _ _) fun _ => ?_
  refine .ite (fun _ => readFixed_extends rest more _ _) fun _ => ?_
  exact .ite (fun _ => readFixed_extends rest more _ _) fun _ => .fault nofun

variable {b : UInt8} {rest}

theorem Argument.size_le_of_read {argument : Argument} (h : read (Head.info b) rest = .ok argument) :
    argument.size ≤ rest.length := by
  obtain ⟨digits, after, rfl, hlen, -⟩ := written_of_read h
  rw [← hlen, List.length_append]
  omega

theorem Head.size_le_of_readString {content : Bytes} {size : Nat} {shortest : Bool}
    (h : readString (info b) rest = .ok (content, size, shortest)) : size ≤ rest.length := by
  obtain ⟨digits, after, rfl, rfl, -⟩ := written_of_readString h
  simp only [List.length_append]
  omega

theorem Head.readString_eq (info : Nat) (rest : Bytes) :
    readString info rest = (Argument.read info rest).bind fun a =>
      (Bytes.split? a.value.toNat (rest.drop a.size)).elim (.error .notEnoughData) fun s =>
        .ok (s.1, a.size + s.1.length, a.shortest) := by
  unfold readString
  rcases Argument.read info rest with e | a
  · rfl
  · dsimp only [Except.bind]
    rcases Bytes.split? a.value.toNat (rest.drop a.size) with _ | s <;> rfl

variable (b rest)

theorem Head.readString_extends :
    Extends .plain False more id (readString (info b) rest) (readString (info b) (rest ++ more)) := by
  rw [readString_eq, readString_eq]
  refine (Argument.read_extends rest more _).bind fun a ha => ?_
  rw [id, List.drop_append_of_le_length (Argument.size_le_of_read ha)]
  cases hs : Bytes.split? a.value.toNat (rest.drop a.size) with
  | none => exact .ended () _
  | some string =>
    rw [Bytes.split?_append hs]
    exact .ok _

end Arguments

/-! ## Tags and chunks -/

theorem Chunks.check_ne_justTags (m : Major) (content : Bytes) : check m content ≠ .error .justTags := by
  unfold check
  split
  · split <;> simp
  · simp

theorem Chunks.measure_extends (m : Major) (data more : Bytes) :
    Extends .plain False more id (measure m data) (measure m (data ++ more)) := by
  generalize hn : data.length = n
  induction n using Nat.strongRecOn generalizing data with
  | _ n ih =>
    cases data with
    | nil =>
      rw [measure]
      exact .ended () _
    | cons b rest =>
      rw [List.cons_append, measure, measure]
      split
      · exact .ok _
      split
      · exact .fault (by simp)
      have hread := Head.readString_extends rest more b
      generalize hs : Head.readString (Head.info b) rest = r at hread ⊢
      generalize Head.readString (Head.info b) (rest ++ more) = r' at hread ⊢
      cases hread with
      | error h => exact .error h
      | ended => exact .ended _ _
      | afterTags ht => exact ht.elim
      | ok chunk =>
        obtain ⟨content, size, shortest⟩ := chunk
        dsimp only [id]
        cases hc : check m content with
        | error e =>
          refine .fault fun he => ?_
          exact check_ne_justTags m content (he ▸ hc)
        | ok =>
          dsimp only
          rw [List.drop_append_of_le_length (Head.size_le_of_readString hs)]
          have hmore := ih _ (hn ▸ Bytes.length_drop_lt b rest size) (rest.drop size) rfl
          generalize measure m (rest.drop size) = r at hmore ⊢
          generalize measure m (rest.drop size ++ more) = r' at hmore ⊢
          cases hmore with
          | error h => exact .error h
          | ended => exact .ended _ _
          | afterTags ht => exact ht.elim
          | ok => exact .ok _

theorem Chunks.size_le_of_measure {m : Major} {data : Bytes} {chunks : Nat × Bool}
    (h : measure m data = .ok chunks) : chunks.1 ≤ data.length := by
  obtain ⟨parts, rest, rfl, hsize, -⟩ := written_of_measure h
  simp only [hsize, List.length_append, List.length_cons]
  omega

namespace Tags

/-- Heads of tags that are faulty stay so, unless the bytes ended inside one. -/
theorem measure_append_of_error {data : Bytes} {e : DecodeError} (h : measure data = .error e)
    (more : Bytes) : Extends (α := Nat) .plain False more id (.error e) (measure (data ++ more)) := by
  fun_induction measure data with
  | case1 => cases h
  | case2 b rest hm e' he =>
    cases h
    have hread := Argument.read_extends rest more (Head.info b)
    rw [List.cons_append, measure, if_pos hm]
    rw [he] at hread
    generalize Argument.read (Head.info b) (rest ++ more) = r at hread ⊢
    cases hread with
    | error h => exact .error h
    | ended => exact .ended _ _
    | afterTags ht => exact ht.elim
  | case3 b rest hm argument ha e' he ih =>
    cases h
    have hread := Argument.read_extends rest more (Head.info b)
    rw [List.cons_append, measure, if_pos hm]
    rw [ha] at hread
    generalize Argument.read (Head.info b) (rest ++ more) = r at hread ⊢
    cases hread with
    | ok =>
      dsimp only [id]
      have hmore := ih he
      rw [List.drop_append_of_le_length (Argument.size_le_of_read ha)]
      generalize measure (rest.drop argument.size ++ more) = r at hmore ⊢
      cases hmore with
      | error h => exact .error h
      | ended => exact .ended _ _
      | afterTags ht => exact ht.elim
  | case4 => cases h
  | case5 => cases h

end Tags

/-! ## Items -/

/-- The same place with more bytes behind it. -/
abbrev Cursor.extend (more : Bytes) : Cursor → Cursor :=
  Cursor.mapRest (· ++ more)

/-- The same content, in front of more bytes if it is a container. -/
abbrev Content.extend (more : Bytes) : Content → Content :=
  Content.mapRest (· ++ more)

/-- The same item in front of more bytes. -/
abbrev Item.extend (more : Bytes) : Item → Item :=
  Item.mapRest (· ++ more)

namespace Item

/-- The same content after an initial byte, in front of more bytes. -/
def extendBody (more : Bytes) (body : Body) : Body :=
  (body.1.extend more, body.2)

section Readers
variable (info : Nat) (b : UInt8) (rest more : Bytes)

theorem readInteger_eq (make : UInt64 → Content) :
    readInteger make info rest =
      (Argument.read info rest).map fun a => (make a.value, a.size, a.shortest) := by
  unfold readInteger
  rcases Argument.read info rest with e | a <;> rfl

theorem readInteger_extends {make : UInt64 → Content} (hmake : ∀ n, (make n).extend more = make n) :
    Extends .plain False more (extendBody more) (readInteger make info rest)
      (readInteger make info (rest ++ more)) := by
  rw [readInteger_eq, readInteger_eq]
  exact (Argument.read_extends rest more _).map fun _ _ => congrArg (·, _) (hmake _)

theorem readBytes_eq :
    readBytes info rest =
      if info = 31 then
        (Chunks.measure .bytes rest).map fun c => (.byteChunks ⟨rest.take c.1⟩, c.1, c.2)
      else (Head.readString info rest).map fun s => (.bytes s.1, s.2.1, s.2.2) := by
  unfold readBytes
  rcases Chunks.measure .bytes rest with e | c <;> rcases Head.readString info rest with e' | s <;> rfl

theorem readBytes_extends :
    Extends .plain False more (extendBody more) (readBytes (Head.info b) rest)
      (readBytes (Head.info b) (rest ++ more)) := by
  rw [readBytes_eq, readBytes_eq]
  refine .ite (fun _ => ?_) fun _ => ?_
  · refine (Chunks.measure_extends .bytes rest more).map fun c hc => ?_
    rw [id, List.take_append_of_le_length (Chunks.size_le_of_measure hc)]
    rfl
  · exact (Head.readString_extends rest more b).map fun _ _ => rfl

theorem readText_eq :
    readText info rest =
      if info = 31 then
        (Chunks.measure .text rest).map fun c => (.textChunks ⟨rest.take c.1⟩, c.1, c.2)
      else
        (Head.readString info rest).bind fun s =>
          ((Utf8.decode s.1).mapError .invalidUtf8).map fun text => (.text text, s.2.1, s.2.2) := by
  unfold readText
  rcases Chunks.measure .text rest with e | c <;> rcases Head.readString info rest with e' | s
  · rfl
  · dsimp only [Except.map, Except.bind]
    rcases Utf8.decode s.1 with fault | text <;> rfl
  · rfl
  · dsimp only [Except.map, Except.bind]
    rcases Utf8.decode s.1 with fault | text <;> rfl

theorem readText_extends :
    Extends .plain False more (extendBody more) (readText (Head.info b) rest)
      (readText (Head.info b) (rest ++ more)) := by
  rw [readText_eq, readText_eq]
  refine .ite (fun _ => ?_) fun _ => ?_
  · refine (Chunks.measure_extends .text rest more).map fun c hc => ?_
    rw [id, List.take_append_of_le_length (Chunks.size_le_of_measure hc)]
    rfl
  · refine (Head.readString_extends rest more b).bind fun s _ => ?_
    rw [id]
    cases Utf8.decode s.1 with
    | error fault => exact .fault nofun
    | ok text => exact .ok _

theorem readContainer_eq (kind : Container) (start : Nat) :
    readContainer kind start info rest =
      if info = 31 then .ok (.container ⟨kind, none, rest, start, 0⟩, 0, true)
      else
        (Argument.read info rest).bind fun a =>
          if a.value.toNat * kind.arity < 0x10000000000000000 then
            .ok (.container ⟨kind, some (a.value.toNat * kind.arity), rest.drop a.size, start + a.size, 0⟩,
              a.size, a.shortest)
          else .error .notEnoughData := by
  unfold readContainer
  rcases Argument.read info rest with e | a <;> rfl

theorem readContainer_extends (kind : Container) (start : Nat) :
    Extends .plain False more (extendBody more) (readContainer kind start (Head.info b) rest)
      (readContainer kind start (Head.info b) (rest ++ more)) := by
  rw [readContainer_eq, readContainer_eq]
  refine .ite (fun _ => .ok _) fun _ => ?_
  refine (Argument.read_extends rest more _).bind fun a ha => ?_
  rw [id, List.drop_append_of_le_length (Argument.size_le_of_read ha)]
  exact .ite (fun _ => .ok _) fun _ => .ended () _

theorem readFloat_extends (format : Format) (size : Nat) (shortest : Binary → Bool) :
    Extends .plain False more (extendBody more) (readFloat format size shortest rest)
      (readFloat format size shortest (rest ++ more)) := by
  unfold readFloat
  cases hs : Bytes.split? size rest with
  | none => exact .ended () _
  | some pair =>
    obtain ⟨front, after⟩ := pair
    rw [Bytes.split?_append hs]
    exact .ok _

theorem readSimple_extends :
    Extends .plain False more (extendBody more) (readSimple info rest) (readSimple info (rest ++ more)) := by
  unfold readSimple
  refine .ite (fun _ => .ok _) fun _ => ?_
  refine .ite (fun _ => .ok _) fun _ => ?_
  refine .ite (fun _ => .ok _) fun _ => ?_
  refine .ite (fun _ => .ok _) fun _ => ?_
  refine .ite (fun _ => .ok _) fun _ => ?_
  refine .ite (fun _ => ?_) fun _ => ?_
  · cases rest with
    | nil => exact .ended () _
    | cons value after => exact .ite (fun _ => .fault nofun) fun _ => .ok _
  refine .ite (fun _ => readFloat_extends _ _ _ _ _) fun _ => ?_
  refine .ite (fun _ => readFloat_extends _ _ _ _ _) fun _ => ?_
  exact .ite (fun _ => readFloat_extends _ _ _ _ _) fun _ => .fault nofun

/-- What follows an initial byte that is not the head of a tag. -/
theorem readBody_extends (start : Nat) {b : UInt8} (hb : Head.major b ≠ .tag) :
    Extends .plain False more (extendBody more) (readBody start b rest) (readBody start b (rest ++ more)) := by
  unfold readBody
  dsimp only
  split
  · exact readInteger_extends _ _ _ fun _ => rfl
  · exact readInteger_extends _ _ _ fun _ => rfl
  · exact readBytes_extends _ _ _
  · exact readText_extends _ _ _
  · exact readContainer_extends _ _ _ _ _
  · exact readContainer_extends _ _ _ _ _
  · rename_i hm
    exact absurd hm hb
  · exact readSimple_extends _ _ _

end Readers

section Opening
variable {numbers : List UInt64} {raw : Bytes}

theorem open?_behind_tags {b : UInt8} (ht : Tags.Written numbers raw) (hb : Head.major b ≠ .tag)
    (rest : Bytes) :
    open? (raw ++ b :: rest) = (readBody (raw.length + 1) b rest).map fun body =>
      some ⟨⟨raw⟩, body.2.2, body.1, raw.length + 1 + body.2.1⟩ := by
  have habs : Tags.Absent (b :: rest) := by
    rintro b' rest' ⟨rfl, rfl⟩
    exact hb
  rw [open?, Tags.read, Tags.measure_of_written ht habs]
  simp only [List.take_left, Tags.size, List.drop_left]
  cases readBody (raw.length + 1) b rest <;> rfl

theorem open?_only_tags (ht : Tags.Written numbers raw) (hraw : raw ≠ []) :
    open? raw = .error .justTags := by
  have habs : Tags.Absent [] := nofun
  have hmeasure := Tags.measure_of_written ht habs
  rw [List.append_nil] at hmeasure
  rw [open?, Tags.read, hmeasure]
  simp [Tags.size, Tags.isEmpty, hraw]

/-- The item at the front of some bytes. -/
theorem open?_extends (data more : Bytes) :
    Extends .plain True more (Item.extend more) (Cursor.require (open? data))
      (Cursor.require (open? (data ++ more))) := by
  cases hm : Tags.measure data with
  | error e =>
    have hmore := Tags.measure_append_of_error hm more
    unfold open? Tags.read
    rw [hm]
    generalize Tags.measure (data ++ more) = r at hmore ⊢
    cases hmore with
    | error h => exact .error h
    | ended => exact .ended _ _
    | afterTags ht => exact ht.elim
  | ok size =>
    obtain ⟨numbers, raw, rest, rfl, -, ht, habs⟩ := Tags.written_of_measure hm
    cases rest with
    | cons b rest =>
      have hb := habs b rest rfl
      rw [List.append_assoc, List.cons_append, open?_behind_tags ht hb, open?_behind_tags ht hb]
      have hread := readBody_extends rest more (raw.length + 1) hb
      generalize readBody (raw.length + 1) b rest = r at hread ⊢
      generalize readBody (raw.length + 1) b (rest ++ more) = r' at hread ⊢
      cases hread with
      | error h => exact .error h
      | ended => exact .ended _ _
      | afterTags ht => exact ht.elim
      | ok body => exact .ok _
    | nil =>
      rw [List.append_nil]
      by_cases hraw : raw = []
      · subst hraw
        rw [open?, Tags.read, Tags.measure]
        exact .ended () _
      · rw [open?_only_tags ht hraw]
        refine .afterTags trivial () ?_
        rintro rfl
        rw [Head.unfinished, open?_behind_tags ht (by decide)]
        rfl

theorem size_le_of_open? {data : Bytes} {item : Item} (h : open? data = .ok (some item)) :
    item.size ≤ data.length := by
  obtain ⟨numbers, front, rest, -, hdata, -, hsize⟩ := open?_eq_some_iff.1 h
  rw [hdata, hsize]
  simp only [List.length_append]
  omega

end Opening

end Item

/-! ## The items of a container -/

namespace Cursor
variable (more : Bytes)

theorem atEnd_extend (c : Cursor) :
    (c.atEnd.1 = .error .notEnoughData ∨
      (c.extend more).atEnd = (c.atEnd.1, c.atEnd.2.extend more)) ∧ c.atEnd.1 ≠ .error .justTags := by
  obtain ⟨kind, count, rest, offset, parsed⟩ := c
  cases count with
  | some n => exact ⟨.inr rfl, nofun⟩
  | none =>
    cases rest with
    | nil => exact ⟨.inl rfl, nofun⟩
    | cons b rest =>
      by_cases hb : b = Head.stop
      · by_cases hp : parsed % kind.arity = 0
        · simp [atEnd, mapRest, settle, hb, hp]
        · simp [atEnd, mapRest, hb, hp]
      · simp [atEnd, mapRest, hb]

theorem close_extends (c : Cursor) : Extends .plain True more id c.close (c.extend more).close := by
  unfold close
  obtain ⟨hend, htags⟩ := atEnd_extend more c
  rcases hc : c.atEnd with ⟨e | (_ | _), c'⟩
  · rw [hc] at hend htags
    rcases hend with hend | hend
    · cases hend
      exact .ended () _
    · rw [hend]
      exact .fault fun he => htags (he ▸ rfl)
  · rw [hc] at hend
    rw [hend.resolve_left nofun]
    exact .fault nofun
  · rw [hc] at hend
    rw [hend.resolve_left nofun]
    exact .ok _

/-- The item at a cursor that is not at the end of its container. -/
theorem peek_of_atEnd {c : Cursor} (h : c.atEnd = (.ok false, c)) :
    c.peek = ((require (Item.open? c.rest)).map some, c) := by
  unfold peek
  rw [h]
  dsimp only
  rcases Item.open? c.rest with e | (_ | item) <;> rfl

theorem peek_extends (c : Cursor) :
    Extends .plain True more (Prod.map (Option.map (Item.extend more)) (extend more))
      (c.peek.1.map (·, c.peek.2)) ((c.extend more).peek.1.map (·, (c.extend more).peek.2)) := by
  obtain ⟨hend, htags⟩ := atEnd_extend more c
  rcases hc : c.atEnd with ⟨e | (_ | _), c'⟩
  · rw [hc] at hend htags
    have hpeek : c.peek = (.error e, c') := by rw [peek, hc]
    rw [hpeek]
    rcases hend with hend | hend
    · cases hend
      exact .ended () _
    · rw [peek, hend]
      exact .fault fun he => htags (he ▸ rfl)
  · obtain rfl := (atEnd_eq_false_iff.1 hc).1
    rw [hc] at hend
    rw [peek_of_atEnd hc, peek_of_atEnd (hend.resolve_left nofun)]
    have hopen : Extends .plain True more (Option.map (Item.extend more))
        ((require (Item.open? c'.rest)).map some) ((require (Item.open? (c'.rest ++ more))).map some) :=
      (Item.open?_extends c'.rest more).map fun _ _ => rfl
    exact hopen.map fun _ _ => rfl
  · rw [hc] at hend
    have hpeek : c.peek = (.ok none, c') := by rw [peek, hc]
    rw [hpeek, peek, hend.resolve_left nofun]
    exact .ok (none, c')

end Cursor

/-- A visit that passes no more bytes than there are, and that reads no further than it has to. -/
structure Item.Confined (more : Bytes) (visit : Item → Except DecodeError Nat) : Prop where
  length_le {data : Bytes} {item : Item} {n : Nat} (ho : Item.open? data = .ok (some item))
    (hn : visit item = .ok n) : n ≤ data.length
  extends_visit {data : Bytes} {item : Item} (ho : Item.open? data = .ok (some item)) :
    Extends .plain True more id (visit item) (visit (item.extend more))

namespace Cursor

/-- Where a traversal ends, whatever is noted on the way. -/
def reached {β : Type} (visit : Item → List β × Except DecodeError Nat) (limit : Nat) (c : Cursor) :
    Except DecodeError Cursor :=
  (traverseFrom visit limit c).2.1.map fun _ => (traverseFrom visit limit c).2.2

section Traverse
variable {β : Type} {visit : Item → List β × Except DecodeError Nat}

theorem reached_eq (limit : Nat) (c : Cursor) :
    reached visit limit c = (c.peek.1.map (·, c.peek.2)).bind fun found =>
      found.1.elim (.ok found.2) fun item => (visit item).2.bind fun n =>
        if limit = 0 then .error .notEnoughData else reached visit (limit - 1) (found.2.advance n) := by
  unfold reached
  rw [traverseFrom.eq_def]
  dsimp only
  rcases c.peek with ⟨e | (_ | item), c'⟩
  · rfl
  · rfl
  · rcases hv : visit item with ⟨notes, e | n⟩
    · simp [Except.map, Except.bind, hv]
    · cases limit with
      | zero => simp [Except.map, Except.bind, hv]
      | succ limit => simp [Except.map, Except.bind, hv]

theorem peek_of_map_eq_ok {c c' : Cursor} {found : Option Item}
    (h : c.peek.1.map (·, c.peek.2) = .ok (found, c')) : c.peek = (.ok found, c') := by
  rcases hc : c.peek with ⟨e | found', c''⟩
  · rw [hc] at h
    cases h
  · rw [hc] at h
    cases h
    rfl

theorem advance_extend {c : Cursor} {n : Nat} (h : n ≤ c.rest.length) (more : Bytes) :
    (c.extend more).advance n = (c.advance n).extend more := by
  unfold advance extend mapRest
  dsimp only
  rw [List.drop_append_of_le_length h]

theorem reached_extends {more : Bytes} (hv : Item.Confined more fun item => (visit item).2)
    {limit limit' : Nat} (hle : limit ≤ limit') (c : Cursor) :
    Extends .plain True more (extend more) (reached visit limit c) (reached visit limit' (c.extend more)) := by
  induction limit using Nat.strongRecOn generalizing limit' c with
  | _ limit ih =>
    rw [reached_eq, reached_eq]
    refine (peek_extends more c).bind ?_
    rintro ⟨found, c'⟩ hfound
    cases found with
    | none => exact .ok c'
    | some item =>
      obtain ⟨rfl, -, ho⟩ := peek_eq_some_iff.1 (peek_of_map_eq_ok hfound)
      refine (hv.extends_visit ho).bind ?_
      intro n hn
      by_cases hzero : limit = 0
      · rw [if_pos hzero]
        exact .ended () _
      · rw [if_neg hzero, if_neg (by omega)]
        dsimp only [Prod.map, id]
        rw [advance_extend (hv.length_le ho hn)]
        exact ih (limit - 1) (by omega) (by omega) _

end Traverse

end Cursor

namespace Item

theorem extend_scalar {item : Item} (h : ∀ c, item.content ≠ .container c) (more : Bytes) :
    item.extend more = item :=
  mapRest_scalar _ h

theorem extend_container {item : Item} {start : Cursor} (h : item.content = .container start) (more : Bytes) :
    (item.extend more).content = .container (start.extend more) :=
  mapRest_container _ h

theorem length_le_of_skip {data : Bytes} {item : Item} {m n : Nat} (ho : open? data = .ok (some item))
    (hn : item.skip m = .ok n) : n ≤ data.length := by
  obtain ⟨t, bytes, rest, rfl, rfl, -⟩ := passes_skip m ho hn
  simp

/-- Skipping an item reads it to its end and no further. -/
theorem confined_skip (m : Nat) (more : Bytes) : Confined more (skip m) := by
  induction m with
  | zero =>
    refine ⟨length_le_of_skip, fun {data item} ho => ?_⟩
    by_cases hc : ∃ start, item.content = .container start
    · obtain ⟨start, hc⟩ := hc
      rw [skip_container_zero hc, skip_container_zero (extend_container hc more)]
      exact .fault nofun
    · have hs : ∀ c, item.content ≠ .container c := fun c h => hc ⟨c, h⟩
      rw [extend_scalar hs, skip_scalar 0 hs]
      exact .ok _
  | succ m ih =>
    refine ⟨length_le_of_skip, fun {data item} ho => ?_⟩
    by_cases hc : ∃ start, item.content = .container start
    · obtain ⟨start, hc⟩ := hc
      rw [skip_container hc, skip_container (extend_container hc more)]
      have hv : Confined more fun item => (([] : List Empty), item.skip m).2 := ih
      have hle : start.rest.length ≤ (start.extend more).rest.length := by simp [Cursor.mapRest]
      exact (Cursor.reached_extends hv hle start).bind fun c _ => c.close_extends more
    · have hs : ∀ c, item.content ≠ .container c := fun c h => hc ⟨c, h⟩
      rw [extend_scalar hs, skip_scalar _ hs]
      exact .ok _

end Item

end CborRecords
