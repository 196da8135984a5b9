import CborRecords.Tree
import CborRecords.Proofs.Head

/-!
# The grammar of items

An item can be written in many ways: every head in up to five widths, strings whole or in chunks,
containers with their number of entries in front or with a byte that ends them. The grammar relates a
tree to all byte strings that are one well-formed item with that tree.

* `Tree.Written t bytes` : `bytes` is a way to write `t`, with one rule for each form of item;
* `Tree.depth` : how deep containers are nested;
* `Tags.Written` : a run of heads of tags; `Tree.Written.exists_tags` takes the tags off an item and
  `Tree.Written.withTags` puts them on;
* `Tree.Written.starts`, `Tree.Written.exists_parts` : how an item can start, and what a container
  consists of.
-/

namespace CborRecords

theorem Container.major_inj {kind kind' : Container} (h : kind.major = kind'.major) : kind = kind' := by
  cases kind <;> cases kind' <;> cases h <;> rfl

namespace Tree

/-! ## Depth -/

mutual

/-- How deep containers are nested in a tree: not at all in a scalar, and in a container one deeper
than in the deepest of its items. -/
def depth : Tree → Nat
  | .container _ _ items => 1 + maxDepth items
  | .tagged _ inner => inner.depth
  | _ => 0

/-- The depth of the deepest of the trees. -/
def maxDepth : List Tree → Nat
  | [] => 0
  | t :: rest => max t.depth (maxDepth rest)

end

theorem maxDepth_le_iff {items : List Tree} {m : Nat} :
    maxDepth items ≤ m ↔ ∀ t ∈ items, t.depth ≤ m := by
  induction items with
  | nil => simp [maxDepth]
  | cons t rest ih => rw [maxDepth, Nat.max_le, ih, List.forall_mem_cons]

theorem depth_container_le_iff {kind : Container} {definite : Bool} {items : List Tree} {m : Nat} :
    (container kind definite items).depth ≤ m + 1 ↔ ∀ t ∈ items, t.depth ≤ m := by
  rw [depth, ← maxDepth_le_iff]
  omega

theorem depth_lt_container {items : List Tree} {t : Tree} (h : t ∈ items) (kind : Container)
    (definite : Bool) : t.depth < (container kind definite items).depth := by
  have := maxDepth_le_iff.1 (Nat.le_refl (maxDepth items)) t h
  rw [depth]
  omega

theorem depth_container_pos (kind : Container) (definite : Bool) (items : List Tree) :
    0 < (container kind definite items).depth := by
  rw [depth]
  omega

@[simp] theorem depth_withTags (tags : List UInt64) (t : Tree) : (t.withTags tags).depth = t.depth := by
  induction tags with
  | nil => rfl
  | cons n tags ih => exact ih

/-! ## Items -/

open Head (initial stop)

/-- The bytes are one well-formed item with this tree. Chunks are pairs of a head and a content, and
the items of a container are pairs of a tree and its bytes. -/
inductive Written : Tree → Bytes → Prop
  | unsigned {n : UInt64} {head : Bytes} (h : Head.Written .unsigned n.toNat head) :
      Written (.unsigned n) head
  | negative {n : UInt64} {head : Bytes} (h : Head.Written .negative n.toNat head) :
      Written (.negative n) head
  | bytes {content head : Bytes} (h : Head.Written .bytes content.length head) :
      Written (.bytes content) (head ++ content)
  | text {content : String} {head : Bytes} (h : Head.Written .text (Utf8.size content) head) :
      Written (.text content) (head ++ Utf8.encode content)
  | byteChunks {chunks : List (Bytes × Bytes)}
      (h : ∀ c ∈ chunks, Head.Written .bytes c.2.length c.1) :
      Written (.byteChunks (chunks.map Prod.snd))
        (initial .bytes 31 :: (chunks.flatMap fun c => c.1 ++ c.2) ++ [stop])
  | textChunks {chunks : List (Bytes × String)}
      (h : ∀ c ∈ chunks, Head.Written .text (Utf8.size c.2) c.1) :
      Written (.textChunks (chunks.map Prod.snd))
        (initial .text 31 :: (chunks.flatMap fun c => c.1 ++ Utf8.encode c.2) ++ [stop])
  | definite {kind : Container} {n : Nat} {head : Bytes} {items : List (Tree × Bytes)}
      (hh : Head.Written kind.major n head) (hn : items.length = n * kind.arity)
      (h : ∀ i ∈ items, Written i.1 i.2) :
      Written (.container kind true (items.map Prod.fst)) (head ++ items.flatMap Prod.snd)
  | indefinite {kind : Container} {items : List (Tree × Bytes)}
      (hn : items.length % kind.arity = 0) (h : ∀ i ∈ items, Written i.1 i.2) :
      Written (.container kind false (items.map Prod.fst))
        (initial kind.major 31 :: items.flatMap Prod.snd ++ [stop])
  | bool (b : Bool) : Written (.bool b) [initial .simple (if b then 21 else 20)]
  | null : Written .null [initial .simple 22]
  | undefined : Written .undefined [initial .simple 23]
  | simple {v : UInt8} (h : v.toNat < 20) : Written (.simple v) [initial .simple v.toNat]
  | simpleByte {v : UInt8} (h : 32 ≤ v.toNat) : Written (.simple v) [initial .simple 24, v]
  | half {content : Bytes} (h : content.length = 2) :
      Written (.float (.ofBinary (Format.half.decode (Bytes.toNat content))))
        (initial .simple 25 :: content)
  | single {content : Bytes} (h : content.length = 4) :
      Written (.float (.ofBinary (Format.single.decode (Bytes.toNat content))))
        (initial .simple 26 :: content)
  | double {content : Bytes} (h : content.length = 8) :
      Written (.float (.ofBinary (Format.double.decode (Bytes.toNat content))))
        (initial .simple 27 :: content)
  | tagged {n : UInt64} {head bytes : Bytes} {inner : Tree} (hh : Head.Written .tag n.toNat head)
      (h : Written inner bytes) : Written (.tagged n inner) (head ++ bytes)

/-! ## First bytes -/

/-- The major type that a tree is written with. -/
def major : Tree → Major
  | .unsigned _ => .unsigned
  | .negative _ => .negative
  | .bytes _ | .byteChunks _ => .bytes
  | .text _ | .textChunks _ => .text
  | .container kind _ _ => kind.major
  | .tagged _ _ => .tag
  | .bool _ | .null | .undefined | .simple _ | .float _ => .simple

/-- How an item of a major type can start: not with the byte that ends containers, and with additional
information that announces an argument or an indefinite length. -/
def Starts (m : Major) (bytes : Bytes) : Prop :=
  ∃ b rest, bytes = b :: rest ∧ Head.major b = m ∧ b ≠ stop ∧ (Head.info b < 28 ∨ Head.info b = 31)

theorem starts_head {m : Major} {n : Nat} {head : Bytes} (h : Head.Written m n head) (rest : Bytes) :
    Starts m (head ++ rest) := by
  obtain ⟨b, digits, rfl, hm, hi⟩ := h.exists_cons
  refine ⟨b, digits ++ rest, rfl, hm, ?_, .inl hi⟩
  rintro rfl
  exact absurd hi (by decide)

theorem starts_simple {i : Nat} (hi : i < 28) (rest : Bytes) :
    Starts .simple (initial .simple i :: rest) := by
  refine ⟨_, _, rfl, Head.major_initial _ (by omega), ?_, .inl (by rwa [Head.info_initial _ (by omega)])⟩
  rw [Head.stop_eq]
  intro e
  have := congrArg Head.info e
  rw [Head.info_initial _ (by omega), Head.info_initial _ (by omega)] at this
  omega

theorem Written.starts {t : Tree} {bytes : Bytes} (h : t.Written bytes) : Starts t.major bytes := by
  cases h with
  | unsigned h =>
    have := starts_head h []
    rwa [List.append_nil] at this
  | negative h =>
    have := starts_head h []
    rwa [List.append_nil] at this
  | bytes h => exact starts_head h _
  | text h => exact starts_head h _
  | byteChunks h => exact ⟨_, _, rfl, rfl, by decide, .inr rfl⟩
  | textChunks h => exact ⟨_, _, rfl, rfl, by decide, .inr rfl⟩
  | definite hh hn h => exact starts_head hh _
  | @indefinite kind items hn h =>
    refine ⟨_, _, rfl, Head.major_initial _ (by decide), ?_, .inr (Head.info_initial _ (by decide))⟩
    cases kind <;> decide
  | bool b => exact starts_simple (by split <;> omega) _
  | null => exact starts_simple (by omega) _
  | undefined => exact starts_simple (by omega) _
  | simple h => exact starts_simple (by omega) _
  | simpleByte h => exact starts_simple (by omega) _
  | half h => exact starts_simple (by omega) _
  | single h => exact starts_simple (by omega) _
  | double h => exact starts_simple (by omega) _
  | tagged hh h => exact starts_head hh _

theorem Written.length_pos {t : Tree} {bytes : Bytes} (h : t.Written bytes) : 0 < bytes.length := by
  obtain ⟨b, rest, rfl, -⟩ := h.starts
  exact Nat.succ_pos _

theorem Written.major_of_append {t : Tree} {bytes x rest : Bytes} {b : UInt8} (h : t.Written bytes)
    (he : bytes ++ x = b :: rest) : t.major = Head.major b := by
  obtain ⟨b', rest', rfl, hm, -⟩ := h.starts
  obtain ⟨rfl, -⟩ := List.cons.inj he
  exact hm.symm

/-- An item with the major type of a container is one. -/
theorem Written.exists_parts {t : Tree} {bytes : Bytes} {kind : Container} (h : t.Written bytes)
    (hm : t.major = kind.major) :
    ∃ parts : List (Tree × Bytes), (∀ i ∈ parts, i.1.Written i.2) ∧
      ((∃ n head, Head.Written kind.major n head ∧ parts.length = n * kind.arity ∧
          bytes = head ++ parts.flatMap Prod.snd) ∨
        (parts.length % kind.arity = 0 ∧
          bytes = Head.initial kind.major 31 :: parts.flatMap Prod.snd ++ [Head.stop])) := by
  cases h with
  | @definite kind' n head parts hh hn h =>
    obtain rfl : kind' = kind := Container.major_inj hm
    exact ⟨parts, h, .inl ⟨n, head, hh, hn, rfl⟩⟩
  | @indefinite kind' parts hn h =>
    obtain rfl : kind' = kind := Container.major_inj hm
    exact ⟨parts, h, .inr ⟨hn, rfl⟩⟩
  | _ => cases kind <;> cases hm

/-- Every item takes a byte. -/
theorem length_le_of_written {items : List (Tree × Bytes)} (h : ∀ i ∈ items, i.1.Written i.2) :
    items.length ≤ (items.flatMap Prod.snd).length := by
  induction items with
  | nil => exact Nat.le_refl _
  | cons i items ih =>
    have hi := (h i (by simp)).length_pos
    have := ih fun j hj => h j (by simp [hj])
    rw [List.flatMap_cons, List.length_append, List.length_cons]
    omega

end Tree

/-! ## Tags -/

/-- The bytes are heads of tags with these numbers. -/
inductive Tags.Written : List UInt64 → Bytes → Prop
  | nil : Written [] []
  | cons {n : UInt64} {tags : List UInt64} {head raw : Bytes} (hh : Head.Written .tag n.toNat head)
      (h : Written tags raw) : Written (n :: tags) (head ++ raw)

namespace Tree

theorem eq_tagged_of_major {t : Tree} (h : t.major = .tag) : ∃ n inner, t = .tagged n inner := by
  cases t with
  | tagged n inner => exact ⟨n, inner, rfl⟩
  | container kind => cases kind <;> cases h
  | _ => cases h

theorem Written.withTags {t : Tree} {bytes raw : Bytes} {tags : List UInt64} (h : t.Written bytes)
    (ht : Tags.Written tags raw) : (t.withTags tags).Written (raw ++ bytes) := by
  induction ht with
  | nil => exact h
  | cons hh _ ih =>
    rw [List.append_assoc]
    exact .tagged hh ih

/-- An item is one that is not tagged, with tags in front of it. -/
theorem Written.exists_tags {t : Tree} {bytes : Bytes} (h : t.Written bytes) :
    ∃ tags raw inner body, t = Tree.withTags tags inner ∧ bytes = raw ++ body ∧
      Tags.Written tags raw ∧ inner.Written body ∧ inner.major ≠ .tag := by
  -- each tag takes a byte, so the number of bytes bounds the number of tags
  generalize hsize : bytes.length = size
  induction size using Nat.strongRecOn generalizing t bytes with
  | _ size ih =>
    by_cases hm : t.major = .tag
    · obtain ⟨n, inner, rfl⟩ := eq_tagged_of_major hm
      cases h with
      | @tagged _ head body _ hh h =>
        have hpos := List.length_pos_iff.2 hh.ne_nil
        rw [List.length_append] at hsize
        obtain ⟨tags, raw, core, body', rfl, rfl, ht, hb, hm'⟩ := ih body.length (by omega) h rfl
        exact ⟨n :: tags, head ++ raw, core, body', rfl, by simp, .cons hh ht, hb, hm'⟩
    · exact ⟨[], [], t, bytes, rfl, rfl, .nil, h, hm⟩

end Tree

end CborRecords
