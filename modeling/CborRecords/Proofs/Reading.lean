import CborRecords.Proofs.Passing

/-!
# Reading trees

A reader that keeps all it meets gives back the tree that an item was written from. Since it gives one
answer, the bytes of an item have one tree, and no item is the start of another.

* `Iterates` : what a reader that is asked again and again gives, and where it ends; `Tags.iterates_of_written`,
  `Chunks.iterates_of_valid` : tags and chunks are read again from the bytes that were kept;
* `Content.leaf_of_scalar` : the tree of a scalar;
* `Tree.height` : how far down a reader has to go;
* `Item.Refuses`, `Cursor.Holds.traverse_refused` : a traversal ends at the first item that is refused;
* `Item.tree_of_written` : what a reader with a limit gives for an item, whatever follows it;
* `Tree.Written.append_inj` : at the front of a byte string stands at most one item.
-/

namespace CborRecords

/-! ## Tags and chunks -/

/-- Asked again and again for the next one, a reader gives these values, and then nothing more at `last`. -/
inductive Iterates {σ α : Type} (next? : σ → Option (α × σ)) : σ → List α → σ → Prop
  | done {s : σ} (h : next? s = none) : Iterates next? s [] s
  | step {s more last : σ} {a : α} {rest : List α} (h : next? s = some (a, more))
      (hrest : Iterates next? more rest last) : Iterates next? s (a :: rest) last

theorem Iterates.collect_eq {σ α : Type} {next? : σ → Option (α × σ)} {size : σ → Nat} {s last : σ} {values : List α}
    (h : Iterates next? s values last) (hsize : ∀ s a more, next? s = some (a, more) → size more < size s) :
    collect next? size hsize s = values := by
  induction h with
  | done h =>
    unfold collect
    split
    · rfl
    · rename_i hnext
      rw [h] at hnext
      cases hnext
  | step h hrest ih =>
    unfold collect
    split
    · rename_i hnext
      rw [h] at hnext
      cases hnext
    · rename_i hnext
      rw [h] at hnext
      cases hnext
      rw [ih]

namespace Tags
variable {numbers : List UInt64} {raw : Bytes}

theorem next?_of_written {n : UInt64} {head : Bytes} (h : Head.Written .tag n.toNat head) (raw : Bytes) :
    next? ⟨head ++ raw⟩ = some (n, ⟨raw⟩) := by
  obtain ⟨b, digits, rfl, -, -⟩ := h.exists_cons
  unfold next?
  rw [List.cons_append]
  simp only [Argument.read_of_written h, UInt64.ofNat_toNat, List.drop_left]

/-- Heads of tags are read again one after another, until no bytes are left. -/
theorem iterates_of_written (h : Tags.Written numbers raw) : Iterates next? ⟨raw⟩ numbers ⟨[]⟩ := by
  induction h with
  | nil => exact .done rfl
  | cons hh h ih => exact .step (next?_of_written hh _) ih

theorem toList_of_written (h : Tags.Written numbers raw) : toList ⟨raw⟩ = numbers :=
  (iterates_of_written h).collect_eq length_next?_lt

end Tags

namespace Chunks
variable {m : Major} {chunks : List (Bytes × Bytes)}

/-- The head of a chunk says where its content ends, whatever bytes are in it. -/
theorem next?_of_valid {c : Bytes × Bytes} (h : Valid m c) (raw : Bytes) :
    next? ⟨c.1 ++ (c.2 ++ raw)⟩ = some (c.2, ⟨raw⟩) := by
  obtain ⟨head, content⟩ := c
  have hw := h.1
  obtain ⟨b, digits, rfl, -, hi⟩ := hw.exists_cons
  have hstop : b ≠ Head.stop := by
    rintro rfl
    exact absurd hi (by decide)
  have hdrop : (digits ++ (content ++ raw)).drop (digits.length + content.length) = raw := by
    rw [← List.append_assoc, ← List.length_append, List.drop_left]
  unfold next?
  simp only [List.cons_append, if_neg hstop, Head.readString_of_written hw, hdrop]

/-- Chunks are read again one after another, up to the byte that ends them. -/
theorem iterates_of_valid (h : ∀ c ∈ chunks, Valid m c) :
    Iterates next? ⟨join chunks ++ [Head.stop]⟩ (chunks.map Prod.snd) ⟨[Head.stop]⟩ := by
  induction chunks with
  | nil => exact .done rfl
  | cons c chunks ih =>
    rw [join_cons, List.append_assoc, List.append_assoc]
    exact .step (next?_of_valid (h c (by simp)) _) (ih fun d hd => h d (by simp [hd]))

theorem toList_of_written (h : ∀ c ∈ chunks, Valid m c) :
    toList ⟨join chunks ++ [Head.stop]⟩ = chunks.map Prod.snd :=
  (iterates_of_valid h).collect_eq length_next?_lt

theorem texts_encode (contents : List String) : texts (contents.map Utf8.encode) = .ok contents := by
  induction contents with
  | nil => rfl
  | cons text contents ih => rw [List.map_cons, texts, Utf8.decode_encode]; simp only [ih]

end Chunks

/-! ## Trees -/

theorem Content.leaf_of_scalar {leaf : Tree} {body : Bytes} {content : Content} (h : leaf.Written body)
    (hs : leaf.scalar? body = some content) : content.leaf = .ok leaf := by
  cases h with
  | @byteChunks chunks h =>
    cases hs
    exact congrArg (fun contents => Except.ok (Tree.byteChunks contents))
      (Chunks.toList_of_written (Chunks.valid_bytes h))
  | @textChunks texts h =>
    cases hs
    have hlist : Chunks.toList ⟨texts.flatMap (fun c => c.1 ++ Utf8.encode c.2) ++ [Head.stop]⟩ =
        (texts.map Prod.snd).map Utf8.encode := by
      rw [← Chunks.join_encoded, Chunks.toList_of_written (Chunks.valid_encoded h)]
      simp [Chunks.encoded]
    rw [Content.leaf, List.cons_append, List.drop_one, List.tail_cons, hlist, Chunks.texts_encode]
  | definite | indefinite | tagged => cases hs
  | _ =>
    cases hs
    rfl

/-! ## Height -/

namespace Tree

mutual

/-- The height of a tree: one for a scalar, and for a container one more than the height of the highest
of its items. -/
def height : Tree → Nat
  | .container _ _ items => 1 + highest items
  | .tagged _ inner => inner.height
  | _ => 1

/-- The height of the highest of the trees. -/
def highest : List Tree → Nat
  | [] => 0
  | t :: rest => max t.height (highest rest)

end

theorem highest_le_iff {items : List Tree} {n : Nat} :
    highest items ≤ n ↔ ∀ t ∈ items, t.height ≤ n := by
  induction items with
  | nil => simp [highest]
  | cons t rest ih => rw [highest, Nat.max_le, ih, List.forall_mem_cons]

theorem height_container_le_iff {kind : Container} {definite : Bool} {items : List Tree} {n : Nat} :
    (container kind definite items).height ≤ n + 1 ↔ ∀ t ∈ items, t.height ≤ n := by
  rw [height, ← highest_le_iff]
  omega

@[simp] theorem height_withTags (tags : List UInt64) (t : Tree) :
    (t.withTags tags).height = t.height := by
  induction tags with
  | nil => rfl
  | cons n tags ih => exact ih

theorem height_scalar {t : Tree} {front : Bytes} {content : Content} (h : t.scalar? front = some content) :
    t.height = 1 := by
  cases t with
  | container | tagged => cases h
  | _ => rfl

theorem height_pos (t : Tree) : 0 < t.height := by
  cases t with
  | container kind definite items =>
    rw [height]
    omega
  | tagged n inner => exact inner.height_pos
  | _ => exact Nat.one_pos

mutual

/-- Containers in containers make a tree high, and a scalar in the deepest one more. -/
theorem height_le_depth (t : Tree) : t.height ≤ t.depth + 1 := by
  cases t with
  | container kind definite items =>
    have hitems := highest_le_maxDepth items
    rw [height, depth]
    omega
  | tagged n inner => exact inner.height_le_depth
  | _ => exact Nat.le_refl _

theorem highest_le_maxDepth (items : List Tree) : highest items ≤ maxDepth items + 1 := by
  cases items with
  | nil => exact Nat.zero_le _
  | cons t rest =>
    have hfirst := t.height_le_depth
    have hrest := highest_le_maxDepth rest
    rw [highest, maxDepth]
    omega

end

end Tree

/-! ## Refusals -/

/-- A visit fails on an item that is written in `bytes`, whatever follows it. -/
def Item.Refuses {β : Type} (visit : Item → List β × Except DecodeError Nat) (bytes : Bytes)
    (e : DecodeError) : Prop :=
  ∀ rest, ∃ item taken, Item.open? (bytes ++ rest) = .ok (some item) ∧ visit item = (taken, .error e)

/-- A traversal in which a visit may fail with one error, and one does. -/
theorem Cursor.Holds.traverse_refused {β : Type} {visit : Item → List β × Except DecodeError Nat}
    {c last : Cursor} {items : List (Tree × Bytes)} {e : DecodeError} (h : c.Holds items last)
    (hv : ∀ i ∈ items, (∃ notes, Item.Visits id visit i.2 notes) ∨ Item.Refuses visit i.2 e)
    (hrefused : ∃ i ∈ items, Item.Refuses visit i.2 e) :
    ∃ notes after, c.traverse visit = (notes, .error e, after) := by
  have hle := h.length_le
  unfold Cursor.traverse
  generalize c.rest.length = limit at hle
  induction h generalizing limit with
  | nil => simp at hrefused
  | @cons c last i items rest hend hrest hw h ih =>
    unfold Cursor.traverseFrom
    rcases hv i (by simp) with ⟨notes, hpass⟩ | hbad
    · obtain ⟨item, taken, ho, hvisit, -⟩ := hpass rest
      -- the item at the cursor is passed, so that a later one is refused
      obtain ⟨j, hj, hbad⟩ := hrefused
      have hj : j ∈ items := by
        rcases List.mem_cons.1 hj with rfl | hj
        · obtain ⟨item', taken', ho', hvisit'⟩ := hbad rest
          rw [ho] at ho'
          cases ho'
          rw [hvisit] at hvisit'
          cases hvisit'
        · exact hj
      rw [← hrest] at ho
      rw [Cursor.peek_eq_some_iff.2 ⟨rfl, hend, ho⟩]
      cases limit with
      | zero => simp at hle
      | succ limit =>
        obtain ⟨notes, after, hmore⟩ :=
          ih (fun k hk => hv k (by simp [hk])) ⟨j, hj, hbad⟩ limit (Nat.le_of_succ_le_succ hle)
        exact ⟨taken ++ notes, after, by simp only [hvisit, hmore]⟩
    · obtain ⟨item, taken, ho, hvisit⟩ := hbad rest
      rw [← hrest] at ho
      rw [Cursor.peek_eq_some_iff.2 ⟨rfl, hend, ho⟩]
      exact ⟨taken, c, by simp only [hvisit]⟩

namespace Item

/-- What a reader of trees notes of an item, and the length of the item. -/
def gather (height : Nat) (item : Item) : List Tree × Except DecodeError Nat :=
  (((item.tree height).map fun read => [read.1]).toOption.getD [], (item.tree height).map Prod.snd)

theorem gather_of_ok {item : Item} {height n : Nat} {t : Tree} (h : item.tree height = .ok (t, n)) :
    gather height item = ([t], .ok n) := by
  rw [gather, h]
  rfl

theorem gather_of_error {item : Item} {height : Nat} {e : DecodeError} (h : item.tree height = .error e) :
    gather height item = ([], .error e) := by
  rw [gather, h]
  rfl

theorem tree_scalar_eq {item : Item} (hs : ∀ c, item.content ≠ .container c) (height : Nat) :
    item.tree (height + 1) = item.content.leaf.map fun leaf => (leaf.withTags item.tags.toList, item.size) := by
  unfold tree
  split
  · rename_i c hc
    exact absurd hc (hs c)
  · cases item.content.leaf <;> rfl

theorem tree_scalar {item : Item} {leaf : Tree} (hs : ∀ c, item.content ≠ .container c)
    (hleaf : item.content.leaf = .ok leaf) (height : Nat) :
    item.tree (height + 1) = .ok (leaf.withTags item.tags.toList, item.size) := by
  rw [tree_scalar_eq hs, hleaf]
  rfl

/-- A container is read by gathering the trees of its items and closing it. -/
theorem tree_container_eq {item : Item} {start : Cursor} (hc : item.content = .container start)
    (height : Nat) :
    item.tree (height + 1) = (start.traverse (gather height)).2.1.bind fun _ =>
      (start.traverse (gather height)).2.2.close.map fun n =>
        ((Tree.container start.kind start.isDefinite (start.traverse (gather height)).1).withTags
          item.tags.toList, n) := by
  -- The visit is left open, so that it need not be written out as it stands in `Item.tree`.
  have htraverse (visit : Item → List Tree × Except DecodeError Nat)
      (hvisit : ∀ inner, visit inner = gather height inner) :
      start.traverse visit = start.traverse (gather height) := by
    rw [funext hvisit]
  rw [tree, hc]
  dsimp only
  rw [htraverse]
  · rcases start.traverse (gather height) with ⟨notes, e | u, c⟩
    · rfl
    · dsimp only [Except.bind]
      cases c.close <;> rfl
  · intro inner
    unfold gather
    rcases inner.tree height with e | ⟨t, n⟩ <;> rfl

/-- The tree of a container has the trees of its items. -/
theorem tree_container {item : Item} {start last : Cursor} {items : List (Tree × Bytes)} {height : Nat}
    (hc : item.content = .container start) (h : start.Holds items last)
    (htree : ∀ i ∈ items, Visits id (gather height) i.2 [i.1]) :
    item.tree (height + 1) =
      .ok ((Tree.container start.kind start.isDefinite (items.map Prod.fst)).withTags item.tags.toList,
        last.offset) := by
  have hholds : start.Holds (items.map id) last := by rwa [List.map_id]
  obtain ⟨notes, hnoted, hnotes⟩ := hholds.traverse htree
  rw [List.map_id] at hnotes
  have htrees : notes = items.map Prod.fst := by rw [hnotes, List.map_eq_flatMap]
  rw [tree_container_eq hc, hnoted, htrees]
  dsimp only [Except.bind]
  rw [h.close_last]
  rfl

/-- What is gathered from an item: its tree if it is not too high. -/
theorem gather_of_written {t : Tree} {bytes : Bytes} {height : Nat}
    (h : ∀ rest, ∃ item, open? (bytes ++ rest) = .ok (some item) ∧
      item.tree height = if t.height ≤ height then .ok (t, bytes.length) else .error .maxRecursion) :
    (t.height ≤ height → Visits id (gather height) bytes [t]) ∧
      (¬ t.height ≤ height → Refuses (gather height) bytes .maxRecursion) := by
  constructor
  · intro hle rest
    obtain ⟨item, ho, ht⟩ := h rest
    rw [if_pos hle] at ht
    exact ⟨item, [t], ho, gather_of_ok ht, rfl⟩
  · intro hle rest
    obtain ⟨item, ho, ht⟩ := h rest
    rw [if_neg hle] at ht
    exact ⟨item, [], ho, gather_of_error ht⟩

/-- A reader gives the tree of an item that is not too high, and refuses one that is. -/
theorem tree_of_written {t : Tree} {bytes : Bytes} (h : t.Written bytes)
    (hlen : bytes.length < 0x10000000000000000) (height : Nat) (rest : Bytes) :
    ∃ item, open? (bytes ++ rest) = .ok (some item) ∧
      item.tree height = if t.height ≤ height then .ok (t, bytes.length) else .error .maxRecursion := by
  induction height generalizing t bytes rest with
  | zero =>
    obtain ⟨numbers, item, ho, -⟩ := open?_of_written h hlen rest
    have hpos := t.height_pos
    exact ⟨item, ho, by rw [tree, if_neg (by omega)]⟩
  | succ height ih =>
    obtain ⟨numbers, item, ho, htags, ⟨leaf, body, rfl, hw, hs, hsize⟩ |
      ⟨items, start, last, hc, rfl, hholds, hlast, hshort⟩⟩ := open?_of_written h hlen rest
    · refine ⟨item, ho, ?_⟩
      have hone : leaf.height = 1 := Tree.height_scalar hs
      rw [tree_scalar (Tree.scalar?_ne_container hs) (Content.leaf_of_scalar hw hs),
        Tags.toList_of_written htags, hsize, Tree.height_withTags, if_pos (by omega)]
    · refine ⟨item, ho, ?_⟩
      have hinner := fun i hi => gather_of_written (ih (hholds.written i hi) (hshort i hi))
      rw [Tree.height_withTags]
      by_cases hlow : ∀ i ∈ items, i.1.height ≤ height
      · have hheight : (Tree.container start.kind start.isDefinite (items.map Prod.fst)).height ≤
            height + 1 := by
          rw [Tree.height_container_le_iff]
          simpa using hlow
        rw [if_pos hheight, tree_container hc hholds fun i hi => (hinner i hi).1 (hlow i hi),
          Tags.toList_of_written htags, hlast]
      · have hheight : ¬ (Tree.container start.kind start.isDefinite (items.map Prod.fst)).height ≤
            height + 1 := by
          rw [Tree.height_container_le_iff]
          simpa using hlow
        obtain ⟨i, hi, hhigh⟩ : ∃ i ∈ items, ¬ i.1.height ≤ height := by simpa using hlow
        obtain ⟨notes, after, hnoted⟩ := hholds.traverse_refused
          (fun j hj => (em (j.1.height ≤ height)).imp (fun hle => ⟨_, (hinner j hj).1 hle⟩) (hinner j hj).2)
          ⟨i, hi, (hinner i hi).2 hhigh⟩
        rw [if_neg hheight, tree_container_eq hc, hnoted]
        rfl

end Item

/-- At the front of a byte string stands at most one item, and it has one tree. -/
theorem Tree.Written.append_inj {t t' : Tree} {bytes bytes' rest rest' : Bytes} (h : t.Written bytes)
    (h' : t'.Written bytes') (hlen : bytes.length < 0x10000000000000000)
    (hlen' : bytes'.length < 0x10000000000000000) (e : bytes ++ rest = bytes' ++ rest') :
    t = t' ∧ bytes = bytes' := by
  -- one height is enough for both trees, and then the reader gives one answer
  obtain ⟨item, ho, ht⟩ := Item.tree_of_written h hlen (max t.height t'.height) rest
  obtain ⟨item', ho', ht'⟩ := Item.tree_of_written h' hlen' (max t.height t'.height) rest'
  rw [e, ho'] at ho
  cases ho
  rw [if_pos (Nat.le_max_left _ _), ht', if_pos (Nat.le_max_right _ _)] at ht
  obtain ⟨rfl, hl⟩ : t' = t ∧ bytes'.length = bytes.length := by simpa using ht
  exact ⟨rfl, (List.append_inj e hl.symm).1⟩

end CborRecords
