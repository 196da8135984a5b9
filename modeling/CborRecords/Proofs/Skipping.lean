import CborRecords.Proofs.Passing
import CborRecords.Program

/-!
# Skipping an item

Skipping reads an item to its end, and with it all that is nested in it, so it accepts exactly the
well-formed items whose containers are not nested too deep.

* `Item.skip_scalar`, `Item.skip_container` : skipping without its recursion on content;
* `Item.passes_skip` : what is skipped is a well-formed item;
* `Item.skip_of_written` : a well-formed item is skipped, whatever follows it;
* `Entry.run_eq_ok_iff`, `Entry.run?_eq_some_iff` : what an entry gives on a byte string;
* `Entry.skip_eq_ok_iff_written` : skipping decides the grammar.
-/

namespace CborRecords

namespace Item
variable {item : Item}

theorem skip_scalar (m : Nat) (h : ∀ c, item.content ≠ .container c) : item.skip m = .ok item.size := by
  obtain ⟨tags, shortest, content, size⟩ := item
  cases content with
  | container c => exact absurd rfl (h c)
  | _ => cases m <;> rfl

theorem skip_container_zero {start : Cursor} (h : item.content = .container start) :
    item.skip 0 = .error .maxRecursion := by
  rw [skip, h]
  rfl

/-- A container is skipped by skipping all its items and closing it. -/
theorem skip_container {start : Cursor} (h : item.content = .container start) (m : Nat) :
    item.skip (m + 1) = ((start.skipToEnd m).1.map fun _ => (start.skipToEnd m).2).bind Cursor.close := by
  have htraverse (visit : Item → List Empty × Except DecodeError Nat)
      (hvisit : ∀ inner, visit inner = ([], inner.skip m)) :
      start.traverse visit = start.traverse fun inner => ([], inner.skip m) := by
    rw [funext hvisit]
  unfold skip Cursor.skipToEnd
  rw [h, Content.skip, htraverse]
  · rcases start.traverse fun inner => (([] : List Empty), inner.skip m) with ⟨notes, e | u, c⟩ <;> rfl
  · intro inner
    unfold skip
    cases inner.content.skip m <;> rfl

theorem skip_container_eq_ok_iff {start : Cursor} {n : Nat} (h : item.content = .container start) (m : Nat) :
    item.skip (m + 1) = .ok n ↔ ∃ c, start.skipToEnd m = (.ok (), c) ∧ c.close = .ok n := by
  rw [skip_container h]
  rcases start.skipToEnd m with ⟨e | u, c⟩
  · simp [Except.map, Except.bind]
  · simp [Except.map, Except.bind]

/-! ## What is skipped is an item -/

theorem written_of_skip_scalar {data : Bytes} {m n : Nat} (ho : open? data = .ok (some item))
    (hs : ∀ c, item.content ≠ .container c) (hn : item.skip m = .ok n) :
    ∃ (t : Tree) (bytes rest : Bytes), data = bytes ++ rest ∧ bytes.length = n ∧ t.Written bytes ∧
      t.depth ≤ m := by
  rw [skip_scalar m hs] at hn
  cases hn
  obtain ⟨t, bytes, rest, hdata, hlen, hw, hd⟩ := written_of_scalar ho hs
  exact ⟨t, bytes, rest, hdata, hlen, hw, by omega⟩

theorem passes_skip (m : Nat) : Passes (fun t bytes => t.Written bytes ∧ t.depth ≤ m) (skip m) := by
  induction m with
  | zero =>
    intro data item n ho hn
    by_cases hc : ∃ start, item.content = .container start
    · obtain ⟨start, hc⟩ := hc
      rw [skip_container_zero hc] at hn
      cases hn
    · exact written_of_skip_scalar ho (fun c h => hc ⟨c, h⟩) hn
  | succ m ih =>
    intro data item n ho hn
    by_cases hc : ∃ start, item.content = .container start
    · obtain ⟨start, hc⟩ := hc
      obtain ⟨c, hskip, hclose⟩ := (skip_container_eq_ok_iff hc m).1 hn
      obtain ⟨items, hpassed⟩ :=
        (Cursor.Passed.moves _ start).skipToEnd (passes_iff_gives.1 ih) ⟨[], passed_refl ho hc⟩
      rw [hskip] at hpassed
      obtain ⟨numbers, bytes, rest, hdata, hlen, hw⟩ := written_of_close ho hc And.left hpassed hclose
      refine ⟨_, bytes, rest, hdata, hlen, hw, ?_⟩
      rw [Tree.depth_withTags, Tree.depth_container_le_iff]
      intro t ht
      obtain ⟨i, hi, rfl⟩ := List.mem_map.1 ht
      exact (hpassed.items_prop i hi).2
    · exact written_of_skip_scalar ho (fun c h => hc ⟨c, h⟩) hn

/-! ## Every item is skipped -/

theorem skip_of_written {t : Tree} {bytes : Bytes} {m : Nat} (h : t.Written bytes)
    (hlen : bytes.length < 0x10000000000000000) (hd : t.depth ≤ m) (rest : Bytes) :
    ∃ item, open? (bytes ++ rest) = .ok (some item) ∧ item.skip m = .ok bytes.length := by
  induction m generalizing t bytes rest with
  | zero =>
    obtain ⟨numbers, item, ho, -, ⟨leaf, body, -, -, hs, hsize⟩ | ⟨items, start, last, -, rfl, -⟩⟩ :=
      open?_of_written h hlen rest
    · refine ⟨item, ho, ?_⟩
      rw [skip_scalar 0 (Tree.scalar?_ne_container hs), hsize]
    · have := Tree.depth_container_pos start.kind start.isDefinite (items.map Prod.fst)
      rw [Tree.depth_withTags] at hd
      omega
  | succ m ih =>
    obtain ⟨numbers, item, ho, -, ⟨leaf, body, -, -, hs, hsize⟩ |
      ⟨items, start, last, hc, rfl, hholds, hlast, hshort⟩⟩ := open?_of_written h hlen rest
    · refine ⟨item, ho, ?_⟩
      rw [skip_scalar _ (Tree.scalar?_ne_container hs), hsize]
    · refine ⟨item, ho, ?_⟩
      rw [Tree.depth_withTags, Tree.depth_container_le_iff] at hd
      have hvisits : ∀ i ∈ items,
          Visits id (fun inner => (([] : List Empty), inner.skip m)) i.2 [] := by
        intro i hi rest
        obtain ⟨inner, ho, hn⟩ :=
          ih (hholds.written i hi) (hshort i hi) (hd i.1 (List.mem_map_of_mem hi)) rest
        exact ⟨inner, [], ho, congrArg (Prod.mk []) hn, rfl⟩
      have hholds' : start.Holds (items.map id) last := by rwa [List.map_id]
      obtain ⟨notes, htraverse, -⟩ := hholds'.traverse hvisits
      refine (skip_container_eq_ok_iff hc m).2 ⟨last, ?_, hholds.close_last.trans (congrArg _ hlast)⟩
      rw [Cursor.skipToEnd, htraverse]

end Item

/-! ## Entries -/

namespace Entry
variable {entry : Entry} {data : Bytes} {n : Nat}

theorem run?_eq_some_iff :
    (entry.run? data).2 = .ok (some n) ↔
      ∃ item, Item.open? data = .ok (some item) ∧ (entry.visit item).2 = .ok n := by
  unfold run?
  split
  · rename_i hopen
    simp [hopen]
  · rename_i hopen
    simp [hopen]
  · rename_i item hopen
    rcases hvisit : entry.visit item with ⟨events, e | length⟩ <;> simp [hopen, hvisit]

theorem run_eq_ok_iff :
    (entry.run data).2 = .ok n ↔
      ∃ item, Item.open? data = .ok (some item) ∧ (entry.visit item).2 = .ok n := by
  rw [← run?_eq_some_iff]
  unfold run
  rcases entry.run? data with ⟨events, e | (_ | length)⟩ <;> simp [Cursor.require]

/-- Skipping the item at the front notes the item, if there is one, and gives its length. -/
theorem run_skip (m : Nat) (data : Bytes) :
    (skip m).run data =
      ((Cursor.require (Item.open? data)).toOption.toList.map (Event.entered 0),
        (Cursor.require (Item.open? data)).bind (Item.skip m)) := by
  unfold run run?
  rcases Item.open? data with e | (_ | item)
  · rfl
  · rfl
  · dsimp only [visit, Program.skipping, Cursor.require, Except.bind]
    cases item.skip m <;> rfl

/-- Skipping with a limit on the depth accepts exactly the byte strings that start with one well-formed
item of at most that depth, and gives its length. No item starts with the byte that ends containers or
with additional information that is not in use. -/
theorem skip_eq_ok_iff_written (m : Nat) (hdata : data.length < 0x10000000000000000) :
    (((skip m).run data).2 = .ok n ↔
      n ≤ data.length ∧ ∃ t : Tree, t.Written (data.take n) ∧ t.depth ≤ m) ∧
    ∀ (t : Tree) (b : UInt8) (rest : Bytes), t.Written (b :: rest) →
      b ≠ Head.stop ∧ (Head.info b < 28 ∨ Head.info b = 31) := by
  constructor
  · rw [run_eq_ok_iff]
    constructor
    · rintro ⟨item, ho, hn⟩
      obtain ⟨t, bytes, rest, rfl, rfl, hw, hd⟩ := Item.passes_skip m ho hn
      refine ⟨by simp, t, ?_, hd⟩
      rwa [List.take_left]
    · rintro ⟨hn, t, hw, hd⟩
      have hlen : (data.take n).length = n := List.length_take_of_le hn
      obtain ⟨item, ho, hskip⟩ := Item.skip_of_written hw (by omega) hd (data.drop n)
      rw [List.take_append_drop] at ho
      rw [hlen] at hskip
      exact ⟨item, ho, hskip⟩
  · intro t b rest h
    obtain ⟨b', rest', he, -, hstop, hinfo⟩ := h.starts
    obtain ⟨rfl, rfl⟩ := List.cons.inj he
    exact ⟨hstop, hinfo⟩

/-- A tag, an array of indefinite length, and in it an array with a string in chunks and a map with a
float, in front of a byte that is no part of the item. -/
theorem skip_nested :
    let data : Bytes :=
      [0xC1, 0x9F, 0x82, 0x18, 0x01, 0x5F, 0x41, 0x00, 0xFF, 0xA1, 0x61, 0x61, 0xF9, 0x3C, 0x00, 0xFF, 0xFF]
    data.length < 0x10000000000000000 ∧ 16 ≤ data.length ∧
      ∃ t : Tree, t.Written (data.take 16) ∧ t.depth ≤ 2 :=
  ⟨by decide, (skip_eq_ok_iff_written 2 (by decide)).1.1 (by decide +kernel)⟩

end Entry

end CborRecords
