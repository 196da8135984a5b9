import CborRecords.Proofs.Reading

/-!
# Sequences of items

The items of a byte string stand one after another, with nothing between them. Reading their trees
accepts exactly the byte strings that are such a sequence of items none of which is too high, and the only
thing it finds wrong with a sequence of well-formed items is an item that is.

* `Tree.Sequence` : the items of a byte string, with their bytes;
* `Item.traverseAll_of_visits`, `Item.traverseAll_refused` : visiting the items of a sequence;
* `Item.exists_sequence_of_traverseAllFrom` : what can be worked through to its end is a sequence;
* `Item.passes_tree` : what is read as a tree is a well-formed item, and not too high;
* `Tree.readAll_eq_ok_iff`, `Tree.readAll_of_higher` : the trees of a byte string.
-/

namespace CborRecords

/-- The bytes are these items, one after another. -/
def Tree.Sequence (items : List (Tree × Bytes)) (data : Bytes) : Prop :=
  data = items.flatMap Prod.snd ∧ ∀ i ∈ items, i.1.Written i.2

theorem Tree.Sequence.cons_iff {i : Tree × Bytes} {items : List (Tree × Bytes)} {data : Bytes} :
    Tree.Sequence (i :: items) data ↔
      ∃ rest, data = i.2 ++ rest ∧ i.1.Written i.2 ∧ Tree.Sequence items rest := by
  simp only [Tree.Sequence, List.flatMap_cons, List.forall_mem_cons]
  constructor
  · rintro ⟨hdata, hw, h⟩
    exact ⟨_, hdata, hw, rfl, h⟩
  · rintro ⟨rest, hdata, hw, rfl, h⟩
    exact ⟨hdata, hw, h⟩

/-- Every item of a sequence is no longer than the sequence. -/
theorem Tree.Sequence.length_le {items : List (Tree × Bytes)} {data : Bytes} (h : Tree.Sequence items data) :
    ∀ i ∈ items, i.2.length ≤ data.length := by
  intro i hi
  rw [h.1, List.flatMap]
  exact (List.sublist_flatten_of_mem (List.mem_map_of_mem hi)).length_le

namespace Item

theorem open?_eq_none_iff {data : Bytes} : open? data = .ok none ↔ data = [] := by
  constructor
  · intro h
    unfold open? at h
    split at h
    · cases h
    · rename_i tags _
      split at h
      · rename_i hdrop
        split at h
        · rename_i hempty
          rw [Tags.size, List.isEmpty_iff.1 hempty] at hdrop
          exact hdrop
        · cases h
      · split at h <;> cases h
  · rintro rfl
    rw [open?, Tags.read, Tags.measure]
    rfl

/-! ## Visiting the items of a sequence -/

section Traverse
variable {β : Type} {visit : Item → List β × Except DecodeError Nat} {items : List (Tree × Bytes)}
  {data : Bytes}

theorem traverseAllFrom_of_visits {note : Tree × Bytes → List β} (h : Tree.Sequence items data)
    (hv : ∀ i ∈ items, Visits id visit i.2 (note i)) {limit : Nat} (hlimit : items.length ≤ limit)
    (passed : Nat) :
    traverseAllFrom visit limit passed data = (items.flatMap note, .ok (passed + data.length)) := by
  induction items generalizing data limit passed with
  | nil =>
    obtain rfl : data = [] := h.1
    unfold traverseAllFrom
    rw [open?_eq_none_iff.2 rfl]
    rfl
  | cons i items ih =>
    obtain ⟨rest, rfl, -, hrest⟩ := Tree.Sequence.cons_iff.1 h
    obtain ⟨item, taken, ho, hvisit, htaken⟩ := hv i (by simp) rest
    rw [List.map_id] at htaken
    cases limit with
    | zero => simp at hlimit
    | succ limit =>
      have hmore := ih hrest (fun j hj => hv j (by simp [hj])) (Nat.le_of_succ_le_succ hlimit)
        (passed + i.2.length)
      unfold traverseAllFrom
      rw [ho]
      simp only [hvisit, List.drop_left, hmore, htaken, List.flatMap_cons, List.length_append, Nat.add_assoc]

theorem traverseAllFrom_refused {e : DecodeError} (h : Tree.Sequence items data)
    (hv : ∀ i ∈ items, (∃ notes, Visits id visit i.2 notes) ∨ Refuses visit i.2 e)
    (hrefused : ∃ i ∈ items, Refuses visit i.2 e) {limit : Nat} (hlimit : items.length ≤ limit)
    (passed : Nat) : (traverseAllFrom visit limit passed data).2 = .error e := by
  induction items generalizing data limit passed with
  | nil => simp at hrefused
  | cons i items ih =>
    obtain ⟨rest, rfl, -, hrest⟩ := Tree.Sequence.cons_iff.1 h
    unfold traverseAllFrom
    rcases hv i (by simp) with ⟨notes, hpass⟩ | hbad
    · obtain ⟨item, taken, ho, hvisit, -⟩ := hpass rest
      obtain ⟨j, hj, hbad⟩ := hrefused
      have hj : j ∈ items := by
        rcases List.mem_cons.1 hj with rfl | hj
        · obtain ⟨item', taken', ho', hvisit'⟩ := hbad rest
          rw [ho] at ho'
          cases ho'
          rw [hvisit] at hvisit'
          cases hvisit'
        · exact hj
      cases limit with
      | zero => simp at hlimit
      | succ limit =>
        have hmore := ih hrest (fun k hk => hv k (by simp [hk])) ⟨j, hj, hbad⟩
          (Nat.le_of_succ_le_succ hlimit) (passed + i.2.length)
        rw [ho]
        simp only [hvisit, List.drop_left]
        exact hmore
    · obtain ⟨item, taken, ho, hvisit⟩ := hbad rest
      rw [ho]
      simp only [hvisit]

theorem traverseAll_of_visits {note : Tree × Bytes → List β} (h : Tree.Sequence items data)
    (hv : ∀ i ∈ items, Visits id visit i.2 (note i)) :
    traverseAll visit data = (items.flatMap note, .ok data.length) := by
  have hle := Tree.length_le_of_written h.2
  rw [← h.1] at hle
  rw [traverseAll, traverseAllFrom_of_visits h hv hle, Nat.zero_add]

theorem traverseAll_refused {e : DecodeError} (h : Tree.Sequence items data)
    (hv : ∀ i ∈ items, (∃ notes, Visits id visit i.2 notes) ∨ Refuses visit i.2 e)
    (hrefused : ∃ i ∈ items, Refuses visit i.2 e) : (traverseAll visit data).2 = .error e := by
  have hle := Tree.length_le_of_written h.2
  rw [← h.1] at hle
  exact traverseAllFrom_refused h hv hrefused hle 0

/-- Bytes that can be worked through to their end are items that the visits pass. -/
theorem exists_sequence_of_traverseAllFrom {P : Tree → Bytes → Prop}
    (hv : Passes (fun t bytes => t.Written bytes ∧ P t bytes) fun item => (visit item).2)
    {limit passed n : Nat} (h : (traverseAllFrom visit limit passed data).2 = .ok n) :
    ∃ items, Tree.Sequence items data ∧ ∀ i ∈ items, P i.1 i.2 := by
  fun_induction traverseAllFrom visit limit passed data with
  | case1 limit passed data e ho => cases h
  | case2 limit passed data ho =>
    obtain rfl := open?_eq_none_iff.1 ho
    exact ⟨[], ⟨rfl, nofun⟩, nofun⟩
  | case3 limit passed data item ho notes e hvisit => cases h
  | case4 passed data item ho notes length hvisit => cases h
  | case5 passed data item ho notes length hvisit limit more result hmore ih =>
    obtain ⟨t, bytes, rest, rfl, rfl, hw, hp⟩ := hv ho (congrArg Prod.snd hvisit)
    rw [List.drop_left] at hmore ih
    obtain ⟨items, hitems, hall⟩ := ih (by rw [hmore]; exact h)
    refine ⟨(t, bytes) :: items, Tree.Sequence.cons_iff.2 ⟨rest, rfl, hw, hitems⟩, ?_⟩
    rw [List.forall_mem_cons]
    exact ⟨hp, hall⟩

end Traverse

/-! ## Trees -/

/-- What is read as a tree is a well-formed item, and not too high. -/
theorem passes_tree (height : Nat) :
    Passes (fun t bytes => t.Written bytes ∧ t.height ≤ height) fun item => (gather height item).2 := by
  induction height with
  | zero =>
    intro data item n ho hn
    cases hn
  | succ height ih =>
    intro data item n ho hn
    change (item.tree (height + 1)).map Prod.snd = .ok n at hn
    by_cases hc : ∃ start, item.content = .container start
    · obtain ⟨start, hc⟩ := hc
      rw [tree_container_eq hc] at hn
      have hpassed := (Cursor.Passed.moves _ start).traverseFrom (passes_iff_gives.1 ih) start.rest.length
        ⟨[], passed_refl ho hc⟩
      change ∃ items, Cursor.Passed _ start items (start.traverse (gather height)).2.2 at hpassed
      rcases htraverse : start.traverse (gather height) with ⟨notes, e | u, last⟩
      · rw [htraverse] at hn
        cases hn
      · rw [htraverse] at hn hpassed
        obtain ⟨items, hpassed⟩ := hpassed
        have hclose : last.close = .ok n := by
          rcases hlast : last.close with e | m
          · rw [hlast] at hn
            cases hn
          · rw [hlast] at hn
            exact hn
        obtain ⟨numbers, bytes, rest, hdata, hlen, hw⟩ := written_of_close ho hc And.left hpassed hclose
        refine ⟨_, bytes, rest, hdata, hlen, hw, ?_⟩
        rw [Tree.height_withTags, Tree.height_container_le_iff]
        intro t ht
        obtain ⟨i, hi, rfl⟩ := List.mem_map.1 ht
        exact (hpassed.items_prop i hi).2
    · have hs : ∀ c, item.content ≠ .container c := fun c h => hc ⟨c, h⟩
      obtain ⟨t, bytes, rest, hdata, hlen, hw, hd⟩ := written_of_scalar ho hs
      have hsize : item.size = n := by
        rw [tree_scalar_eq hs] at hn
        rcases hleaf : item.content.leaf with e | leaf
        · rw [hleaf] at hn
          cases hn
        · rw [hleaf] at hn
          exact Except.ok.inj hn
      have hle := t.height_le_depth
      exact ⟨t, bytes, rest, hdata, hlen.trans hsize, hw, by omega⟩

end Item

namespace Tree
variable {data : Bytes} {items : List (Tree × Bytes)} {height : Nat}

/-- The trees of a byte string are gathered from its items. -/
theorem readAll_eq (height : Nat) (data : Bytes) :
    readAll height data = (Item.traverseAll (Item.gather height) data).2.map fun _ =>
      (Item.traverseAll (Item.gather height) data).1 := by
  have htraverse (visit : Item → List Tree × Except DecodeError Nat)
      (hvisit : ∀ item, visit item = Item.gather height item) :
      Item.traverseAll visit data = Item.traverseAll (Item.gather height) data := by
    rw [funext hvisit]
  rw [readAll, htraverse]
  · rcases Item.traverseAll (Item.gather height) data with ⟨notes, e | n⟩ <;> rfl
  · intro item
    unfold Item.gather
    rcases item.tree height with e | ⟨t, n⟩ <;> rfl

theorem readAll_of_sequence (h : Sequence items data) (hlen : data.length < 0x10000000000000000)
    (hheight : ∀ i ∈ items, i.1.height ≤ height) : readAll height data = .ok (items.map Prod.fst) := by
  have hvisits : ∀ i ∈ items, Item.Visits id (Item.gather height) i.2 [i.1] := by
    intro i hi
    have hshort := h.length_le i hi
    exact (Item.gather_of_written (Item.tree_of_written (h.2 i hi) (by omega) height)).1 (hheight i hi)
  rw [readAll_eq, Item.traverseAll_of_visits h hvisits, List.map_eq_flatMap]
  rfl

/-- Sequences that hold a higher item are refused for that, and for nothing else. -/
theorem readAll_of_higher (h : Sequence items data) (hlen : data.length < 0x10000000000000000)
    (hhigher : ∃ i ∈ items, height < i.1.height) : readAll height data = .error .maxRecursion := by
  have hinner : ∀ i ∈ items, _ := fun i hi =>
    Item.gather_of_written
      (Item.tree_of_written (h.2 i hi) (Nat.lt_of_le_of_lt (h.length_le i hi) hlen) height)
  have hrefused : (Item.traverseAll (Item.gather height) data).2 = .error .maxRecursion := by
    apply Item.traverseAll_refused h
    · intro i hi
      by_cases hle : i.1.height ≤ height
      · exact .inl ⟨_, (hinner i hi).1 hle⟩
      · exact .inr ((hinner i hi).2 hle)
    · obtain ⟨i, hi, hhigh⟩ := hhigher
      exact ⟨i, hi, (hinner i hi).2 (Nat.not_le.2 hhigh)⟩
  rw [readAll_eq, hrefused]
  rfl

/-- The trees that are read are those of the items that the byte string consists of, and no item is
too high. -/
theorem readAll_eq_ok_iff (hlen : data.length < 0x10000000000000000) {trees : List Tree} :
    readAll height data = .ok trees ↔
      ∃ items, Sequence items data ∧ (∀ i ∈ items, i.1.height ≤ height) ∧ trees = items.map Prod.fst := by
  constructor
  · intro h
    have hall : ∃ n, (Item.traverseAll (Item.gather height) data).2 = .ok n := by
      rw [readAll_eq] at h
      rcases htraverse : (Item.traverseAll (Item.gather height) data).2 with e | n
      · rw [htraverse] at h
        cases h
      · exact ⟨n, rfl⟩
    obtain ⟨n, hn⟩ := hall
    obtain ⟨items, hitems, hheight⟩ := Item.exists_sequence_of_traverseAllFrom (Item.passes_tree height) hn
    rw [readAll_of_sequence hitems hlen hheight] at h
    exact ⟨items, hitems, hheight, (Except.ok.inj h).symm⟩
  · rintro ⟨items, hitems, hheight, rfl⟩
    exact readAll_of_sequence hitems hlen hheight

end Tree

end CborRecords
