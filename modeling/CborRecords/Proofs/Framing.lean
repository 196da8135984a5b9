import CborRecords.Proofs.Keeping
import CborRecords.Proofs.Reading
import CborRecords.Proofs.Reaching

/-!
# Framing

Where an item ends does not depend on what is done with it. Whatever a program does inside a container,
and whatever fails in it, its cursor keeps to the items, and the item can only be left at its end.

* `Cursor.keeps_kept` : operations and programs keep to the items;
* `Entry.frames_visit` : what an entry passes is a well-formed item;
* `Frame.Sound` : what holds of every open container in every state; `Task.Reaches.kept` : why;
* `Entry.frames_item` : the length that a run gives is that of the one item there is, and all states on
  the way are sound.
-/

namespace CborRecords

open Cursor (Passed)

/-- Keeping to well-formed items, from the start of a container. -/
abbrev Cursor.Kept (start c : Cursor) : Prop :=
  ∃ items, Passed Tree.Written start items c

/-- A visit that gives the length of the item it was given. -/
abbrev Item.Frames (visit : Item → Except DecodeError Nat) : Prop :=
  Item.Passes Tree.Written visit

/-! ## Operations keep to the items -/

/-- Items that are passed are well-formed, and so is a container that is left at its end. -/
theorem Cursor.keeps_kept : Cursor.Keeps (Item.Covers Tree.Written) Cursor.Kept where
  moves start := Passed.moves Tree.Written start
  scalar hs := by
    intro data ho
    obtain ⟨t, bytes, rest, hdata, hlen, hw, -⟩ := Item.written_of_scalar ho hs
    exact ⟨t, bytes, rest, hdata, hlen, hw⟩
  close hc h hclose := by
    intro data ho
    obtain ⟨items, hpassed⟩ := h ⟨[], Item.passed_refl ho hc⟩
    obtain ⟨numbers, bytes, rest, hdata, hlen, hw⟩ := Item.written_of_close ho hc id hpassed hclose
    exact ⟨_, bytes, rest, hdata, hlen, hw⟩

theorem Entry.frames_visit (entry : Entry) : Item.Frames fun item => (entry.visit item).2 :=
  Item.passes_iff_gives.2 (Cursor.keeps_kept.gives_visit entry)

/-! ## States -/

/-- The byte that ends an indefinite container, once the cursor has passed it. -/
def Frame.ending (f : Frame) : Bytes :=
  if f.start.count.isNone && f.now.count.isSome then [Head.stop] else []

/-- In an open container the cursor lies between the end of the head and the end of the bytes. Between
the head and the cursor stand exactly the items that were passed, and the end of the container once it
has been passed. -/
structure Frame.Sound (f : Frame) : Prop where
  opened : ∃ item, Item.open? f.data = .ok (some item) ∧ item.content = .container f.start
  head_le : f.start.offset ≤ f.now.offset
  offset_le : f.now.offset ≤ f.data.length
  rest_eq : f.now.rest = f.data.drop f.now.offset
  passed : ∃ items : List (Tree × Bytes), (∀ i ∈ items, i.1.Written i.2) ∧
    items.length = f.now.parsed ∧
    (f.data.drop f.start.offset).take (f.now.offset - f.start.offset) =
      items.flatMap Prod.snd ++ f.ending
  parsed_le : ∀ n, f.now.count = some n → f.now.parsed ≤ n

/-- The cursor of an open container has kept to the items. -/
def Frame.Kept (f : Frame) : Prop :=
  (∃ item, Item.open? f.data = .ok (some item) ∧ item.content = .container f.start) ∧
    f.start.Kept f.now

namespace Frame
variable {f : Frame}

theorem kept_opened {data : Bytes} {item : Item} {start : Cursor} (ho : Item.open? data = .ok (some item))
    (hc : item.content = .container start) : Kept ⟨data, start, start⟩ :=
  ⟨⟨item, ho, hc⟩, [], Item.passed_refl ho hc⟩

theorem Kept.move (h : f.Kept) {c : Cursor} (hc : f.start.Kept f.now → f.start.Kept c) :
    (f.move c).Kept :=
  ⟨h.1, hc h.2⟩

theorem Kept.looked (h : f.Kept) : (f.move f.now.atEnd.2).Kept :=
  h.move fun ⟨items, hpassed⟩ => ⟨items, hpassed.atEnd⟩

theorem Kept.sound (h : f.Kept) : f.Sound := by
  obtain ⟨data, start, now⟩ := f
  obtain ⟨⟨item, ho, hc⟩, items, hpassed⟩ := h
  dsimp only at ho hc hpassed
  obtain ⟨numbers, front, rest, -, hdata, hopens, -⟩ := Item.open?_eq_some_iff.1 ho
  rw [hc] at hopens
  obtain ⟨rfl, hoffset, hparsed⟩ := hopens.cursor
  have hdrop : data.drop start.offset = start.rest := by
    rw [hdata, hoffset, ← List.length_append, ← List.append_assoc, List.drop_left]
  have hlen : data.length = start.offset + start.rest.length := by
    rw [hdata, hoffset, List.length_append, List.length_append, Nat.add_assoc]
  cases hpassed with
  | @among rest hitems hrest hcount =>
    rw [hrest] at hdrop
    rw [hrest, List.length_append] at hlen
    refine ⟨⟨item, ho, hc⟩, ?_, ?_, ?_, ⟨items, hitems, ?_, ?_⟩, hcount⟩
    · exact Nat.le_add_right _ _
    · simp only [Cursor.past]
      omega
    · simp only [Cursor.past]
      rw [← List.drop_drop, hdrop, List.drop_left]
    · simp only [Cursor.past, hparsed, Nat.zero_add]
    · have hending : (Frame.mk data start (start.past items rest)).ending = [] := by
        unfold ending Cursor.past
        cases start.count <;> rfl
      rw [hending, List.append_nil]
      simp only [Cursor.past, hdrop, Nat.add_sub_cancel_left, List.take_left]
  | @ended rest hitems hrest hcount harity =>
    rw [hrest] at hdrop
    rw [hrest, List.length_append, List.length_cons] at hlen
    refine ⟨⟨item, ho, hc⟩, ?_, ?_, ?_, ⟨items, hitems, ?_, ?_⟩, ?_⟩
    · simp only [Cursor.settle, Cursor.past]
      omega
    · simp only [Cursor.settle, Cursor.past]
      omega
    · simp only [Cursor.settle, Cursor.past, Nat.add_assoc]
      rw [← List.drop_drop, hdrop, ← List.drop_drop, List.drop_left]
    · simp only [Cursor.settle, Cursor.past, hparsed, Nat.zero_add]
    · have hending :
          (Frame.mk data start (start.past items (Head.stop :: rest)).settle).ending = [Head.stop] := by
        unfold ending Cursor.settle
        rw [hcount]
        rfl
      rw [hending]
      simp only [Cursor.settle, Cursor.past, hdrop, Nat.add_assoc, Nat.add_sub_cancel_left]
      simp [List.take_append, List.take_of_length_le]
    · rintro n ⟨⟩
      exact Nat.le_refl _

end Frame

namespace Task

theorem kept_perform {task : Task} {level : Nat} {start c : Cursor} (h : start.Kept c) :
    start.Kept (task.perform level c).2 := by
  have hk := Cursor.keeps_kept
  cases task with
  | program p =>
    cases p with
    | leave result => exact h
    | ask q next => exact hk.query q h
    | pass limit required next => exact hk.visit (hk.gives_skip limit) h
    | meet scalar inside required next =>
      exact hk.visit (hk.gives_entering (fun _ => hk.run) level scalar) h
    | meetArray inside required next => exact hk.visit (hk.gives_enteringArray (fun _ => hk.run) _) h
  | skip depth =>
    have hvisit : start.Kept (Program.visit (Program.skipping level depth) c).2.2 :=
      hk.visit (hk.gives_skip depth) h
    rw [perform]
    split <;> rename_i hv <;> rwa [hv] at hvisit

theorem Reaches.kept {level : Nat} {task : Task} {f : Frame} {stack : List Frame}
    (h : task.Reaches level f stack) (hf : f.Kept) : ∀ g ∈ stack, g.Kept := by
  induction h with
  | here =>
    intro g hg
    rwa [List.mem_singleton.1 hg]
  | looked =>
    intro g hg
    rw [List.mem_singleton.1 hg]
    exact hf.looked
  | inside hpeek hc he hi h ih =>
    intro g hg
    rcases List.mem_append.1 hg with hg | hg
    · exact ih (Frame.kept_opened (Cursor.peek_eq_some_iff.1 hpeek).2.2 hc) g hg
    · rwa [List.mem_singleton.1 hg]
  | within h ih => exact ih hf
  | after =>
    intro g hg
    rw [List.mem_singleton.1 hg]
    exact hf.move kept_perform
  | onward hleft h ih => exact ih (hf.move kept_perform)

end Task

theorem Entry.Reaches.kept {entry : Entry} {data : Bytes} {stack : List Frame}
    (h : entry.Reaches data stack) : ∀ f ∈ stack, f.Kept := by
  obtain ⟨ho, hc, hi, h⟩ := h
  exact h.kept (Frame.kept_opened ho hc)

theorem Entry.Reaches.sound {entry : Entry} {data : Bytes} {stack : List Frame}
    (h : entry.Reaches data stack) : ∀ f ∈ stack, f.Sound :=
  fun f hf => (h.kept f hf).sound

/-! ## Reading inside the bytes -/

/-- An item is opened from inside a byte string: its tags end in it, what follows them is not a further
tag, and what was read ends in it. -/
structure Item.ReadsWithin (data : Bytes) : Prop where
  tags_le : ∀ tags, Tags.read data = .ok tags → tags.size ≤ data.length
  major_ne : ∀ tags b rest, Tags.read data = .ok tags → data.drop tags.size = b :: rest →
    b.toNat / 32 < 8 ∧ Head.major b ≠ .tag
  size_le : ∀ item, Item.open? data = .ok (some item) → item.size ≤ data.length

theorem Tags.read_eq_ok {data : Bytes} {tags : Tags} (h : Tags.read data = .ok tags) :
    ∃ rest, data = tags.raw ++ rest ∧ Tags.Absent rest := by
  unfold Tags.read at h
  split at h
  · cases h
  · rename_i size hmeasure
    cases h
    obtain ⟨numbers, raw, rest, rfl, rfl, -, habs⟩ := Tags.written_of_measure hmeasure
    exact ⟨rest, by rw [List.take_left], habs⟩

theorem Item.readsWithin (data : Bytes) : Item.ReadsWithin data where
  tags_le tags h := by
    obtain ⟨rest, rfl, -⟩ := Tags.read_eq_ok h
    rw [List.length_append]
    exact Nat.le_add_right _ _
  major_ne tags b rest h hdrop := by
    obtain ⟨rest', rfl, habs⟩ := Tags.read_eq_ok h
    have hb := b.toNat_lt
    rw [Tags.size, List.drop_left] at hdrop
    exact ⟨by omega, habs b rest hdrop⟩
  size_le item h := by
    obtain ⟨numbers, front, rest, -, rfl, -, hsize⟩ := Item.open?_eq_some_iff.1 h
    rw [hsize, List.length_append, List.length_append]
    omega

/-! ## Runs -/

namespace Entry

/-- What a run gives as the length is that of the only item that stands at the front of the bytes, and
skipping the item gives the same. -/
theorem written_of_visit {entry : Entry} {data : Bytes} {item : Item} {n : Nat}
    (hdata : data.length < 0x10000000000000000) (ho : Item.open? data = .ok (some item))
    (hn : (entry.visit item).2 = .ok n) :
    n ≤ data.length ∧ ∃ t : Tree, t.Written (data.take n) ∧
      (∀ (t' : Tree) n', n' ≤ data.length → t'.Written (data.take n') → t' = t ∧ n' = n) ∧
      ∀ m, t.depth ≤ m → ((skip m).run data).2 = .ok n := by
  obtain ⟨t, bytes, rest, rfl, rfl, hw⟩ := entry.frames_visit ho hn
  rw [List.length_append] at hdata ⊢
  refine ⟨Nat.le_add_right _ _, t, by rwa [List.take_left], ?_, ?_⟩
  · intro t' n' hn' hw'
    have hlen : ((bytes ++ rest).take n').length = n' :=
      List.length_take_of_le (by rwa [List.length_append])
    obtain ⟨rfl, hbytes⟩ :=
      hw'.append_inj hw (by omega) (by omega) (List.take_append_drop n' (bytes ++ rest))
    exact ⟨rfl, by rw [← hlen, hbytes]⟩
  · intro m hd
    obtain ⟨item', ho', hskip⟩ := Item.skip_of_written hw (by omega) hd rest
    exact run_eq_ok_iff.2 ⟨item', ho', hskip⟩

/-- The length that a run gives does not depend on what it does with the item: it is that of the one
well-formed item at the front of the bytes, as skipping gives it. In every state that the run comes
through, every open container is sound; the states are those in which the run reports; and items are
opened from inside the bytes. -/
theorem frames_item (entry : Entry) (data : Bytes) (hdata : data.length < 0x10000000000000000) :
    (∀ n, (entry.run data).2 = .ok n ∨ (entry.run? data).2 = .ok (some n) →
      n ≤ data.length ∧ ∃ t : Tree, t.Written (data.take n) ∧
        (∀ (t' : Tree) n', n' ≤ data.length → t'.Written (data.take n') → t' = t ∧ n' = n) ∧
        ∀ m, t.depth ≤ m → ((skip m).run data).2 = .ok n) ∧
    (∀ stack, entry.Reaches data stack → ∀ f ∈ stack, f.Sound) ∧
    (∀ event ∈ (entry.run data).1,
      (∃ item, event = .entered 0 item ∧ Item.open? data = .ok (some item)) ∨
        ∃ stack, entry.Reaches data stack ∧ event.Shows 0 stack) ∧
    ∀ bytes, Item.ReadsWithin bytes := by
  refine ⟨?_, fun stack h => h.sound, fun event h => reaches_of_mem_run h, Item.readsWithin⟩
  intro n h
  have h : ∃ item, Item.open? data = .ok (some item) ∧ (entry.visit item).2 = .ok n := by
    rcases h with h | h
    · exact run_eq_ok_iff.1 h
    · exact run?_eq_some_iff.1 h
  obtain ⟨item, ho, hn⟩ := h
  exact written_of_visit hdata ho hn

/-- A program that asks the first item for a boolean, which it is not, goes on, enters the array behind
it and leaves it early, and passes what is left. -/
theorem frames_retried :
    let data : Bytes := [0x83, 0x18, 0x2A, 0x9F, 0x01, 0xFF, 0xA1, 0x00, 0xF5, 0x00]
    let entry : Entry := .item (.query (.scalar .bool) false (.query (.scalar (.int ⟨false, .w8⟩)) true
      (.array .done true false (.query (.skipToEnd 1) true .done))))
    data.length < 0x10000000000000000 ∧ (entry.run data).2 = .ok 9 ∧ 9 ≤ data.length ∧
      ∃ t : Tree, t.Written (data.take 9) ∧
        (∀ (t' : Tree) n', n' ≤ data.length → t'.Written (data.take n') → t' = t ∧ n' = 9) ∧
        ∀ m, t.depth ≤ m → ((skip m).run data).2 = .ok 9 := by
  intro data entry
  have hrun : (entry.run data).2 = .ok 9 := by decide +kernel
  exact ⟨by decide, hrun, (frames_item entry data (by decide)).1 9 (.inl hrun)⟩

end Entry

end CborRecords
