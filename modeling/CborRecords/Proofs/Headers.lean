import CborRecords.Program
import CborRecords.Proofs.Passing
import CborRecords.Proofs.Extending

/-!
# Heads of containers alone

The head of an array or a map can be read without its items, or as the start of the item it is the head of. In
front of the same bytes both find the same head, of any width; they differ in two things. Tags are part of an
item and not of a head. And an item counts the items in it, two for each pair, so that it refuses a map of more
pairs than can be counted in 64 bits, whose head can still be read.

* `Container.Headed` : the heads of containers; `Container.readHead_eq_ok_iff` : these are read;
* `Item.HasHead` : an item that was opened as a container of so many entries, behind so many bytes;
  `Item.exists_hasHead_of_headed`, `Item.headed_of_hasHead` : this is what opening gives at such a head, if
  its items can be counted;
* `Item.open?_of_uncounted`, `Container.readHead_of_error`, `Item.open?_of_error` : the errors;
* `Entry.Hands` : the item that an entry is given; `Entry.hands_iff` : the item that was opened;
* `Container.head_agrees_with_item` : the two readings side by side.
-/

namespace CborRecords

/-! ## Heads -/

namespace Container
variable {kind : Container} {count : Option UInt64} {head data : Bytes} {b : UInt8} {rest : Bytes}

/-- The head of a container of so many entries, or of indefinite length. -/
inductive Headed (kind : Container) : Option UInt64 → Bytes → Prop
  | definite {n : UInt64} {head : Bytes} (h : Head.Written kind.major n.toNat head) : Headed kind (some n) head
  | indefinite : Headed kind none [Head.initial kind.major 31]

theorem Headed.exists_cons (h : kind.Headed count head) :
    ∃ b digits, head = b :: digits ∧ Head.major b = kind.major := by
  cases h with
  | definite h =>
    obtain ⟨b, digits, rfl, hm, -⟩ := h.exists_cons
    exact ⟨b, digits, rfl, hm⟩
  | indefinite => exact ⟨_, [], rfl, Head.major_initial _ (by decide)⟩

theorem major_ne_tag (kind : Container) : kind.major ≠ .tag := by
  cases kind <;> decide

theorem Headed.absent (h : kind.Headed count head) (rest : Bytes) : Tags.Absent (head ++ rest) := by
  obtain ⟨b, digits, rfl, hm⟩ := h.exists_cons
  rintro b' rest' ⟨rfl, rfl⟩
  rw [hm]
  exact kind.major_ne_tag

theorem readHead_of_major (hm : Head.major b = kind.major) (rest : Bytes) :
    kind.readHead (b :: rest) =
      if Head.info b = 31 then .ok (none, 1)
      else (Argument.read (Head.info b) rest).map fun a => (some a.value, 1 + a.size) := by
  rw [readHead, if_neg (not_not_intro hm)]
  cases Argument.read (Head.info b) rest <;> rfl

/-- Exactly the heads of containers of the kind are read, whatever follows them. -/
theorem readHead_eq_ok_iff {k : Nat} :
    kind.readHead data = .ok (count, k) ↔
      ∃ head rest, data = head ++ rest ∧ head.length = k ∧ kind.Headed count head := by
  constructor
  · intro h
    rcases data with _ | ⟨b, rest⟩
    · cases h
    by_cases hm : Head.major b = kind.major
    · rw [readHead_of_major hm] at h
      split at h
      · rename_i hinfo
        cases h
        obtain rfl := (Head.initial_eq_iff (by decide)).2 ⟨hm, hinfo⟩
        exact ⟨_, rest, rfl, rfl, .indefinite⟩
      · cases hread : Argument.read (Head.info b) rest with
        | error e =>
          rw [hread] at h
          cases h
        | ok a =>
          rw [hread] at h
          cases h
          obtain ⟨digits, after, rfl, hlen, hw, -⟩ := Argument.written_of_read hread
          rw [hm] at hw
          exact ⟨b :: digits, after, rfl, by rw [List.length_cons, hlen, Nat.add_comm], .definite hw⟩
    · rw [readHead, if_pos hm] at h
      cases h
  · rintro ⟨head, rest, rfl, rfl, hh⟩
    cases hh with
    | indefinite =>
      rw [List.singleton_append, readHead_of_major (Head.major_initial _ (by decide)),
        if_pos (Head.info_initial _ (by decide))]
      rfl
    | definite hw =>
      obtain ⟨b, digits, rfl, hm, hinfo⟩ := hw.exists_cons
      rw [List.cons_append, readHead_of_major hm, if_neg (by omega), Argument.read_of_written hw]
      simp only [Except.map, UInt64.ofNat_toNat, List.length_cons, Nat.add_comm]

/-- The head of a container that cannot be read: its additional information is not in use, or it is cut off. -/
inductive Broken (kind : Container) : Bytes → DecodeError → Prop
  | unused {b : UInt8} {rest : Bytes} (hm : Head.major b = kind.major) (h : 28 ≤ Head.info b)
      (h' : Head.info b ≤ 30) : Broken kind (b :: rest) (.invalidMinorValue (UInt8.ofNat (Head.info b)))
  | cut {b : UInt8} {rest : Bytes} (w : Width) (hm : Head.major b = kind.major) (h : Head.info b = w.info)
      (hrest : rest.length < w.bytes) : Broken kind (b :: rest) .notEnoughData

theorem Broken.exists_read {e : DecodeError} (h : kind.Broken data e) :
    ∃ b rest, data = b :: rest ∧ Head.major b = kind.major ∧ Head.info b ≠ 31 ∧
      Argument.read (Head.info b) rest = .error e := by
  cases h with
  | @unused b rest hm h h' => exact ⟨b, rest, rfl, hm, by omega, Argument.read_past h rest⟩
  | @cut b rest w hm h hrest =>
    have hinfo : Head.info b ≠ 31 := by
      rw [h]
      cases w <;> decide
    refine ⟨b, rest, rfl, hm, hinfo, ?_⟩
    rw [h, Argument.read_width, Argument.readFixed, Bytes.split?_eq_none_iff.2 hrest]

theorem readHead_of_error {e : DecodeError} (hm : Head.major b = kind.major) (hinfo : Head.info b ≠ 31)
    (he : Argument.read (Head.info b) rest = .error e) : kind.readHead (b :: rest) = .error e := by
  rw [readHead_of_major hm, if_neg hinfo, he]
  rfl

end Container

/-! ## Items at the same bytes -/

namespace Item
variable {kind : Container} {count : Option UInt64} {data : Bytes} {b : UInt8} {rest : Bytes} {k : Nat}

/-- The item was opened as a container of so many entries, and its items start behind so many bytes. -/
def HasHead (kind : Container) (count : Option UInt64) (k : Nat) (item : Item) : Prop :=
  ∃ c : Cursor, item.content = .container c ∧ c.kind = kind ∧ c.length? = count.map UInt64.toNat ∧ c.offset = k

theorem open?_of_major (hm : Head.major b = kind.major) (rest : Bytes) :
    open? (b :: rest) = (readContainer kind 1 (Head.info b) rest).map fun body =>
      some ⟨⟨[]⟩, body.2.2, body.1, 1 + body.2.1⟩ := by
  have hopen := open?_behind_tags Tags.Written.nil (by rw [hm]; exact kind.major_ne_tag) rest
  rw [List.nil_append, List.length_nil, Nat.zero_add] at hopen
  rw [hopen, readBody, hm]
  cases kind <;> rfl

theorem open?_of_error {e : DecodeError} (hm : Head.major b = kind.major) (hinfo : Head.info b ≠ 31)
    (he : Argument.read (Head.info b) rest = .error e) : open? (b :: rest) = .error e := by
  rw [open?_of_major hm, readContainer_eq, if_neg hinfo, he]
  rfl

/-- A container with more items than can be counted is refused before any of them is looked at. -/
theorem open?_of_uncounted {n : Nat} {head : Bytes} (hw : Head.Written kind.major n head)
    (hn : ¬ n * kind.arity < 0x10000000000000000) (rest : Bytes) : open? (head ++ rest) = .error .notEnoughData := by
  have hvalue : (UInt64.ofNat n).toNat = n := UInt64.toNat_ofNat_of_lt' hw.argument_lt
  obtain ⟨b, digits, rfl, hm, hinfo⟩ := hw.exists_cons
  rw [List.cons_append, open?_of_major hm, readContainer_eq, if_neg (by omega), Argument.read_of_written hw]
  simp only [Except.bind, hvalue, if_neg hn]
  rfl

theorem exists_hasHead_of_headed {head : Bytes} (hh : kind.Headed count head)
    (hcount : ∀ n, count = some n → n.toNat * kind.arity < 0x10000000000000000) (rest : Bytes) :
    ∃ item, open? (head ++ rest) = .ok (some item) ∧ item.HasHead kind count head.length := by
  cases hh with
  | indefinite =>
    have hopens : Content.Opens 0 rest _ _ _ := .indefinite kind
    exact ⟨_, open?_of_opens .nil hopens, _, rfl, rfl, rfl, rfl⟩
  | @definite n _ hw =>
    have hopens : Content.Opens 0 rest _ _ _ := .definite hw (hcount n rfl)
    refine ⟨_, open?_of_opens .nil hopens, _, rfl, rfl, ?_, Nat.zero_add _⟩
    exact congrArg some (Nat.mul_div_cancel _ kind.arity_pos)

theorem headed_of_hasHead {item : Item} (habs : Tags.Absent data) (ho : open? data = .ok (some item))
    (h : item.HasHead kind count k) :
    ∃ head rest, data = head ++ rest ∧ head.length = k ∧ kind.Headed count head ∧
      ∀ n, count = some n → n.toNat * kind.arity < 0x10000000000000000 := by
  obtain ⟨c, hc, rfl, hlength, rfl⟩ := h
  obtain ⟨numbers, front, rest, ht, rfl, hopens, -⟩ := open?_eq_some_iff.1 ho
  obtain ⟨⟨raw⟩, shortest, content, size⟩ := item
  dsimp only at ht hc habs hopens ⊢
  subst hc
  -- there are no tags in front
  cases ht with
  | cons hw _ =>
    obtain ⟨b, digits, rfl, hm, -⟩ := hw.exists_cons
    exact absurd hm (habs b _ rfl)
  | nil =>
    cases hopens with
    | scalar hw hs => exact absurd rfl (Tree.scalar?_ne_container hs _)
    | indefinite kind =>
      cases count with
      | some n => cases hlength
      | none =>
        refine ⟨_, rest, rfl, rfl, .indefinite, ?_⟩
        intro n hn
        cases hn
    | @definite kind n _ hw hn =>
      cases count with
      | none => cases hlength
      | some n' =>
        have hn' : n * kind.arity / kind.arity = n'.toNat := Option.some.inj hlength
        rw [Nat.mul_div_cancel _ kind.arity_pos] at hn'
        subst hn'
        refine ⟨front, rest, rfl, (Nat.zero_add _).symm, .definite hw, ?_⟩
        rintro _ ⟨⟩
        exact hn

end Item

/-! ## Entries -/

namespace Entry
variable {data : Bytes} {item : Item}

/-- The item at the front of the bytes is handed to what an entry does with it: the record of every run starts
with the item. -/
def Hands (data : Bytes) (item : Item) : Prop :=
  ∀ (scalar : Item → Except DecodeError Unit) (inside : Item → Program),
    ∃ events, ((meet scalar inside).run? data).1 = .entered 0 item :: events

theorem run?_of_error {e : DecodeError} (h : Item.open? data = .error e) (entry : Entry) :
    entry.run? data = ([], .error e) := by
  rw [run?, h]

theorem run?_fst (h : Item.open? data = .ok (some item)) (entry : Entry) :
    (entry.run? data).1 = (entry.visit item).1 := by
  rw [run?, h]
  rcases hvisit : entry.visit item with ⟨events, e | n⟩ <;> simp [hvisit]

theorem exists_events_of_open? (h : Item.open? data = .ok (some item))
    (scalar : Item → Except DecodeError Unit) (inside : Item → Program) :
    ∃ events, ((meet scalar inside).run? data).1 = .entered 0 item :: events := by
  rw [run?_fst h, visit, Program.entering]
  split
  · rename_i c hc
    rcases (inside item.bare).run 1 c with ⟨events, e | _, c'⟩
    · exact ⟨events, rfl⟩
    · exact ⟨events, rfl⟩
  · exact ⟨[], rfl⟩

theorem hands_iff : Hands data item ↔ Item.open? data = .ok (some item) := by
  constructor
  · intro h
    obtain ⟨events, hevents⟩ := h (fun _ => .ok ()) fun _ => .done
    rcases ho : Item.open? data with e | (_ | other)
    · rw [run?_of_error ho] at hevents
      cases hevents
    · rw [run?, ho] at hevents
      cases hevents
    · obtain ⟨events', hevents'⟩ := exists_events_of_open? ho (fun _ => .ok ()) fun _ => .done
      rw [hevents'] at hevents
      cases hevents
      rfl
  · intro h scalar inside
    exact exists_events_of_open? h scalar inside

end Entry

/-! ## Both readings -/

namespace Container
variable {data : Bytes}

/-- A head that is read is that of an item that is handed over, or it has more items than can be counted. -/
theorem readHead_eq_ok_iff_hands (kind : Container) (count : Option UInt64) (k : Nat) :
    kind.readHead data = .ok (count, k) ↔ Tags.Absent data ∧
      ((∃ item, Entry.Hands data item ∧ item.HasHead kind count k) ∨
        ∃ n head rest, count = some n ∧ 0xFFFFFFFFFFFFFFFF < n.toNat * kind.arity ∧ data = head ++ rest ∧
          head.length = k ∧ Head.Written kind.major n.toNat head ∧
          ∀ entry : Entry, entry.run? data = ([], .error .notEnoughData)) := by
  rw [readHead_eq_ok_iff]
  constructor
  · rintro ⟨head, rest, rfl, rfl, hh⟩
    refine ⟨hh.absent rest, ?_⟩
    by_cases hcount : ∀ n, count = some n → n.toNat * kind.arity < 0x10000000000000000
    · obtain ⟨item, ho, hitem⟩ := Item.exists_hasHead_of_headed hh hcount rest
      exact .inl ⟨item, Entry.hands_iff.2 ho, hitem⟩
    · cases hh with
      | indefinite => exact absurd (by simp) hcount
      | @definite n _ hw =>
        have hn : ¬ n.toNat * kind.arity < 0x10000000000000000 := by simpa using hcount
        exact .inr ⟨n, head, rest, rfl, by omega, rfl, rfl, hw,
          Entry.run?_of_error (Item.open?_of_uncounted hw hn rest)⟩
  · rintro ⟨habs, ⟨item, hhands, hitem⟩ | ⟨n, head, rest, rfl, -, rfl, rfl, hw, -⟩⟩
    · obtain ⟨head, rest, rfl, rfl, hh, -⟩ := Item.headed_of_hasHead habs (Entry.hands_iff.1 hhands) hitem
      exact ⟨head, rest, rfl, rfl, hh⟩
    · exact ⟨head, rest, rfl, rfl, .definite hw⟩

/-- Reading the head of an array alone gives what reading the array finds there, if no tags are in front. Reading
the head of a map does so too, and also gives a number of pairs whose items cannot be counted, at which reading the
map fails before it is handed over. A head that is not in use or is cut off is the same error to both. -/
theorem head_agrees_with_item (data : Bytes) :
    (∀ (count : Option UInt64) (k : Nat), Container.array.readHead data = .ok (count, k) ↔
      Tags.Absent data ∧ ∃ item, Entry.Hands data item ∧ item.HasHead .array count k) ∧
    (∀ (count : Option UInt64) (k : Nat), Container.map.readHead data = .ok (count, k) ↔
      Tags.Absent data ∧
        ((∃ item, Entry.Hands data item ∧ item.HasHead .map count k) ∨
          ∃ n head rest, count = some n ∧ 0xFFFFFFFFFFFFFFFF < 2 * n.toNat ∧ data = head ++ rest ∧
            head.length = k ∧ Head.Written .map n.toNat head ∧
            ∀ entry : Entry, entry.run? data = ([], .error .notEnoughData))) ∧
    ∀ (kind : Container) (e : DecodeError), kind.Broken data e →
      kind.readHead data = .error e ∧ ∀ entry : Entry, entry.run? data = ([], .error e) := by
  refine ⟨?_, ?_, ?_⟩
  · intro count k
    rw [readHead_eq_ok_iff_hands]
    refine and_congr_right fun _ => or_iff_left ?_
    -- the items of an array are its entries, which 64 bits can count
    rintro ⟨n, -, -, -, hn, -⟩
    have hlt : n.toNat < 0x10000000000000000 := n.toNat_lt
    rw [arity] at hn
    omega
  · intro count k
    rw [readHead_eq_ok_iff_hands]
    simp only [arity, major, Nat.mul_comm _ 2]
  · intro kind e hbroken
    obtain ⟨b, rest, rfl, hm, hinfo, hread⟩ := hbroken.exists_read
    exact ⟨readHead_of_error hm hinfo hread, Entry.run?_of_error (Item.open?_of_error hm hinfo hread)⟩

/-- The head of a map of `2 ^ 63` pairs, and the head of an array that ends before the four bytes of its argument. -/
theorem uncounted_map_and_cut_array :
    let pairs : Bytes := [0xBB, 0x80, 0, 0, 0, 0, 0, 0, 0]
    let cut : Bytes := [0x9A, 0, 0, 1]
    Container.map.readHead pairs = .ok (some 0x8000000000000000, 9) ∧
      (∀ entry : Entry, entry.run? pairs = ([], .error .notEnoughData)) ∧
      Container.array.Broken cut .notEnoughData ∧ Container.array.readHead cut = .error .notEnoughData ∧
      ∀ entry : Entry, entry.run? cut = ([], .error .notEnoughData) := by
  intro pairs cut
  have hpairs : Container.map.readHead pairs = .ok (some 0x8000000000000000, 9) := by decide +kernel
  have hcut : Container.array.Broken cut .notEnoughData := .cut .w32 (by decide) (by decide) (by decide)
  obtain ⟨-, ⟨item, hhands, -⟩ | ⟨-, -, -, -, -, -, -, -, hfails⟩⟩ :=
    ((head_agrees_with_item pairs).2.1 _ _).1 hpairs
  · have hopen : Item.open? pairs = .error .notEnoughData := by decide +kernel
    rw [Entry.hands_iff, hopen] at hhands
    cases hhands
  · exact ⟨hpairs, hfails, hcut, (head_agrees_with_item cut).2.2 .array _ hcut⟩

end Container

end CborRecords
