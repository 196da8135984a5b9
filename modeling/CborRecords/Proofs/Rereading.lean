import CborRecords.Proofs.ErrorRange
import CborRecords.Proofs.Keeping
import CborRecords.Proofs.Printing

/-!
# Reading again

The tags and chunks of an item are checked when it is opened, and kept as bytes. Whoever asks for them reads
the bytes again, with a loop that takes bytes it cannot read for the end. It never meets such bytes: it gives all
that was checked and stops where the check did.

* `Tags.Rereads`, `Chunks.Rereads`, `Item.Rereads` : what is read again is what was written, to its end;
* `Item.rereads_of_open?` : so it is for every item that opened;
* `DecodeError.MetIn` : an error about text that was found by opening an item;
* `Item.reports_tree`, `Tree.reports_readAll` : trees are refused for no other error about text;
* `Item.rereading_agrees_with_checking` : reading again after checking.
-/

namespace CborRecords

/-! ## Tags and chunks -/

/-- The bytes are heads of tags, and reading them again gives each tag number and then comes to their end. -/
def Tags.Rereads (tags : Tags) : Prop :=
  ∃ numbers, Tags.Written numbers tags.raw ∧ Iterates Tags.next? tags numbers ⟨[]⟩ ∧ tags.toList = numbers

theorem Tags.rereads_of_written {numbers : List UInt64} {raw : Bytes} (h : Tags.Written numbers raw) :
    Tags.Rereads ⟨raw⟩ :=
  ⟨numbers, h, iterates_of_written h, toList_of_written h⟩

theorem Tags.rereads_of_read {data : Bytes} {tags : Tags} (h : Tags.read data = .ok tags) :
    tags.Rereads ∧ ∃ rest, data = tags.raw ++ rest ∧ Tags.Absent rest := by
  unfold Tags.read at h
  split at h
  · cases h
  · rename_i size hmeasure
    cases h
    obtain ⟨numbers, raw, rest, rfl, rfl, hw, habsent⟩ := written_of_measure hmeasure
    rw [List.take_left]
    exact ⟨rereads_of_written hw, rest, rfl, habsent⟩

namespace Chunks
variable {m : Major}

/-- The bytes are chunks, each a head and a content, and the byte that ends them. Reading them again gives the
content of each and then comes to that byte. -/
def Rereads (m : Major) (chunks : Chunks) : Prop :=
  ∃ parts, chunks.raw = join parts ++ [Head.stop] ∧ (∀ c ∈ parts, Valid m c) ∧
    Iterates next? chunks (parts.map Prod.snd) ⟨[Head.stop]⟩ ∧ chunks.toList = parts.map Prod.snd

theorem rereads_of_valid {parts : List (Bytes × Bytes)} (h : ∀ c ∈ parts, Valid m c) :
    Rereads m ⟨join parts ++ [Head.stop]⟩ :=
  ⟨parts, rfl, h, iterates_of_valid h, toList_of_written h⟩

theorem rereads_of_measure {data : Bytes} {size : Nat} {shortest : Bool}
    (h : measure m data = .ok (size, shortest)) : size ≤ data.length ∧ Rereads m ⟨data.take size⟩ := by
  obtain ⟨parts, rest, rfl, rfl, hv, -⟩ := written_of_measure h
  rw [take_join]
  constructor
  · simp only [List.length_append, List.length_cons]
    omega
  · exact rereads_of_valid hv

/-- Chunks of text are text when they are read again. -/
theorem Rereads.exists_texts {chunks : Chunks} (h : chunks.Rereads .text) :
    ∃ contents, chunks.toList = contents.map Utf8.encode ∧ Chunks.texts chunks.toList = .ok contents := by
  obtain ⟨parts, -, hv, -, hlist⟩ := h
  obtain ⟨texts, rfl, -⟩ := Chunks.exists_texts hv
  have hmap : chunks.toList = (texts.map Prod.snd).map Utf8.encode := by
    rw [hlist, encoded]
    simp
  exact ⟨texts.map Prod.snd, hmap, hmap ▸ texts_encode _⟩

end Chunks

/-! ## Items -/

namespace Item

/-- All that an item keeps as bytes is read again as it was checked, and no scalar is refused for it. -/
structure Rereads (item : Item) : Prop where
  tags : item.tags.Rereads
  byteChunks : ∀ chunks, item.content = .byteChunks chunks → chunks.Rereads .bytes
  textChunks : ∀ chunks, item.content = .textChunks chunks → chunks.Rereads .text ∧
    ∃ contents, chunks.toList = contents.map Utf8.encode ∧ Chunks.texts chunks.toList = .ok contents
  leaf : (∀ c, item.content ≠ .container c) → ∃ leaf, item.content.leaf = .ok leaf

theorem rereads_bytes_of_scalar {t : Tree} {front : Bytes} {chunks : Chunks} (h : t.Written front)
    (hs : t.scalar? front = some (.byteChunks chunks)) : chunks.Rereads .bytes := by
  cases h with
  | byteChunks h =>
    cases hs
    exact Chunks.rereads_of_valid (Chunks.valid_bytes h)
  | _ => cases hs

theorem rereads_text_of_scalar {t : Tree} {front : Bytes} {chunks : Chunks} (h : t.Written front)
    (hs : t.scalar? front = some (.textChunks chunks)) : chunks.Rereads .text := by
  cases h with
  | textChunks h =>
    cases hs
    rw [List.cons_append, List.drop_one, List.tail_cons, ← Chunks.join_encoded]
    exact Chunks.rereads_of_valid (Chunks.valid_encoded h)
  | _ => cases hs

theorem rereads_of_open? {data : Bytes} {item : Item} (ho : open? data = .ok (some item)) : item.Rereads := by
  obtain ⟨numbers, front, rest, ht, -, hopens, -⟩ := open?_eq_some_iff.1 ho
  obtain ⟨tags, shortest, content, size⟩ := item
  dsimp only at ht hopens
  have htags := Tags.rereads_of_written ht
  cases hopens with
  | @scalar t _ _ h hc =>
    refine ⟨htags, ?_, ?_, fun _ => ⟨t, Content.leaf_of_scalar h hc⟩⟩
    · rintro chunks rfl
      exact rereads_bytes_of_scalar h hc
    · rintro chunks rfl
      have hchunks := rereads_text_of_scalar h hc
      exact ⟨hchunks, hchunks.exists_texts⟩
  | definite | indefinite =>
    refine ⟨htags, ?_, ?_, fun hs => absurd rfl (hs _)⟩
    · intro chunks hc
      cases hc
    · intro chunks hc
      cases hc

end Item

/-! ## Errors about text -/

/-- The error is not about text, or it is met in opening an item somewhere in the bytes. -/
def DecodeError.MetIn (data : Bytes) (e : DecodeError) : Prop :=
  (∀ fault, e ≠ .invalidUtf8 fault) ∨ ∃ rest, rest <:+ data ∧ Item.open? rest = .error e

open DecodeError (MetIn)

theorem DecodeError.MetIn.of_ne {data : Bytes} {e : DecodeError} (h : ∀ fault, e ≠ .invalidUtf8 fault) :
    e.MetIn data :=
  .inl h

namespace Cursor
variable {data : Bytes}

theorem reports_peek_metIn {c : Cursor} (hc : c.rest <:+ data) : Reports (MetIn data) c.peek.1 :=
  reports_peek (.of_ne (by simp)) (.of_ne (by simp)) fun _ ho => .inr ⟨_, hc, ho⟩

theorem reports_close_metIn (c : Cursor) : Reports (MetIn data) c.close := by
  unfold close
  rcases hend : c.atEnd with ⟨e | (_ | _), c'⟩
  · exact .error (reports_atEnd (.of_ne (by simp)) (.of_ne (by simp)) c e (by rw [hend]))
  · exact .error (.of_ne (by simp))
  · exact .ok _

end Cursor

namespace Item

theorem cursor_suffix {data : Bytes} {item : Item} {start : Cursor} (ho : open? data = .ok (some item))
    (hc : item.content = .container start) : start.rest <:+ data := by
  obtain ⟨numbers, front, rest, -, rfl, hopens, -⟩ := open?_eq_some_iff.1 ho
  rw [hc] at hopens
  rw [hopens.cursor.1, ← List.append_assoc]
  exact List.suffix_append _ _

/-- A tree is not refused for text that was taken for text when its item was opened. -/
theorem reports_tree {data rest : Bytes} {item : Item} (ho : open? rest = .ok (some item)) (hrest : rest <:+ data)
    (height : Nat) : Reports (MetIn data) (item.tree height) := by
  induction height generalizing rest item with
  | zero => exact .error (.of_ne (by simp))
  | succ height ih =>
    rcases item.container_or_scalar with ⟨start, hc⟩ | hs
    · have hstart := (cursor_suffix ho hc).trans hrest
      have hvisit {rest : Bytes} {inner : Item} (hi : open? rest = .ok (some inner)) (hrest : rest <:+ data) :
          Reports (MetIn data) (gather height inner).2 :=
        (ih hi hrest).map _
      have hreached := Cursor.reports_reached_of_suffix (.of_ne (by simp)) Cursor.reports_peek_metIn
        hvisit start.rest.length hstart
      rw [tree_container_eq hc]
      refine .bind ?_ fun _ _ => (Cursor.reports_close_metIn _).map _
      intro e he
      apply hreached e
      unfold Cursor.reached
      rw [show (start.traverseFrom (gather height) start.rest.length).2.1 = .error e from he]
      rfl
    · obtain ⟨leaf, hleaf⟩ := (rereads_of_open? ho).leaf hs
      rw [tree_scalar hs hleaf]
      exact .ok _

theorem reports_traverseAllFrom {β : Type} {visit : Item → List β × Except DecodeError Nat} {data : Bytes}
    (hvisit : ∀ {rest : Bytes} {item : Item}, open? rest = .ok (some item) → rest <:+ data →
      Reports (MetIn data) (visit item).2) (limit passed : Nat) {rest : Bytes} (hrest : rest <:+ data) :
    Reports (MetIn data) (traverseAllFrom visit limit passed rest).2 := by
  fun_induction traverseAllFrom visit limit passed rest with
  | case1 limit passed rest e ho => exact .error (.inr ⟨rest, hrest, ho⟩)
  | case2 limit passed rest ho => exact .ok _
  | case3 limit passed rest item ho notes e hv =>
    have hreports := hvisit ho hrest
    rw [hv] at hreports
    exact hreports
  | case4 passed rest item ho notes length hv => exact .error (.of_ne (by simp))
  | case5 passed rest item ho notes length hv limit more result hmore ih =>
    have hreports := ih ((List.drop_suffix length rest).trans hrest)
    rw [hmore] at hreports
    exact hreports

end Item

theorem Tree.reports_readAll (height : Nat) (data : Bytes) : Reports (MetIn data) (readAll height data) := by
  rw [readAll_eq]
  refine (Item.reports_traverseAllFrom ?_ _ _ (List.suffix_refl data)).map _
  intro rest item ho hrest
  exact (Item.reports_tree ho hrest height).map _

theorem Notation.reports_format (hex : HexCodec) (data : Bytes) : Reports (MetIn data) (formatWith hex data) := by
  rw [formatWith_eq]
  exact (Tree.reports_readAll _ _).map _

/-! ## Reading after checking -/

namespace Item

/-- Tags that were passed over are read again one by one with their numbers, up to their last byte. So are chunks
that were passed over with their contents, up to the byte that ends them, whatever bytes are in the contents. All
that an opened item keeps is of this kind, so that its chunks of text are text and its tree is not refused for
them; and what the notation of a byte string says is wrong with a text was found where an item was opened. -/
theorem rereading_agrees_with_checking :
    (∀ (data : Bytes) (tags : Tags), Tags.read data = .ok tags →
      tags.Rereads ∧ ∃ rest, data = tags.raw ++ rest ∧ Tags.Absent rest) ∧
    (∀ (m : Major) (data : Bytes) (size : Nat) (shortest : Bool), Chunks.measure m data = .ok (size, shortest) →
      size ≤ data.length ∧ Chunks.Rereads m ⟨data.take size⟩) ∧
    (∀ (data : Bytes) (item : Item), open? data = .ok (some item) → item.Rereads) ∧
    (∀ (data : Bytes) (fault : Utf8.Fault), Notation.format data = .error (.invalidUtf8 fault) →
      ∃ rest, rest <:+ data ∧ open? rest = .error (.invalidUtf8 fault)) := by
  refine ⟨fun _ _ => Tags.rereads_of_read, fun _ _ _ _ => Chunks.rereads_of_measure, fun _ _ => rereads_of_open?, ?_⟩
  intro data fault h
  rcases Notation.reports_format Hex.codec data _ h with hne | hmet
  · exact absurd rfl (hne fault)
  · exact hmet

/-- Two tags, chunks that hold the byte that ends them, and a chunk of text that is none. -/
theorem stops_inside_chunks_are_kept :
    let tags : Tags := ⟨[0xC1, 0xD8, 0x20]⟩
    let chunks : Chunks := ⟨[0x42, 0xFF, 0xFF, 0x41, 0x00, 0xFF]⟩
    let item : Item := ⟨tags, true, .byteChunks chunks, 10⟩
    let data : Bytes := [0xC1, 0xD8, 0x20, 0x5F, 0x42, 0xFF, 0xFF, 0x41, 0x00, 0xFF, 0x07]
    let bad : Bytes := [0x81, 0x7F, 0x61, 0xFF, 0xFF]
    (Tags.read data = .ok tags ∧ tags.Rereads ∧ tags.toList = [1, 32]) ∧
    (Chunks.measure .bytes (data.drop 4) = .ok (6, true) ∧ chunks.Rereads .bytes ∧
      chunks.toList = [[0xFF, 0xFF], [0x00]]) ∧
    (open? data = .ok (some item) ∧ item.Rereads) ∧
    Notation.format bad = .error (.invalidUtf8 ⟨0, some 1⟩) ∧
      ∃ rest, rest <:+ bad ∧ open? rest = .error (.invalidUtf8 ⟨0, some 1⟩) := by
  intro tags chunks item data bad
  obtain ⟨htags, hchunks, hitem, hformat⟩ := rereading_agrees_with_checking
  have hread : Tags.read data = .ok tags := by cbv
  have hmeasure : Chunks.measure .bytes (data.drop 4) = .ok (6, true) := by cbv
  have hopen : open? data = .ok (some item) := by cbv
  have hbad : Notation.format bad = .error (.invalidUtf8 ⟨0, some 1⟩) := by cbv
  exact ⟨⟨hread, (htags _ _ hread).1, by cbv⟩, ⟨hmeasure, (hchunks _ _ _ _ hmeasure).2, by cbv⟩,
    ⟨hopen, hitem _ _ hopen⟩, hbad, hformat _ _ hbad⟩

end Item

end CborRecords
