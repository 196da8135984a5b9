import CborRecords.Walk
import CborRecords.Proofs.Encoding
import CborRecords.Proofs.Reading

/-!
# Values read back

What was encoded reads back as it was, whatever follows it: the same tree, and on a walk through it the
same items in the same order, each without tags, in its shortest form, and with the announced number of
entries.

* `Visit.placeless` : a line of a walk without the place of the items;
* `Value.lines` : the lines of a walk through a value;
* `Value.visits_encoding` : a walk through the bytes of a value gives them;
* `Value.reads_back` : the round trip.
-/

namespace CborRecords

/-! ## Lines -/

/-- The cursor without its place. -/
def Cursor.placeless (c : Cursor) : Cursor :=
  ⟨c.kind, c.count, [], 0, 0⟩

/-- The content without the place of the items. -/
def Content.placeless : Content → Content
  | .container c => .container c.placeless
  | content => content

/-- The line without the place of the items. -/
def Visit.placeless : Visit → Visit
  | .item depth opened length => .item depth { opened with content := opened.content.placeless } length
  | .finish depth c => .finish depth c.placeless

namespace Value

mutual

/-- The lines of a walk through a value at a depth. -/
def lines (depth : Nat) : Value → List Visit
  | .container kind count items =>
    let v := container kind count items
    .item depth ⟨⟨[]⟩, true, v.content, v.front.length⟩ (some v.encoding.length) ::
      (linesAll (depth + 1) items ++ [.finish depth ⟨kind, some items.length, [], 0, 0⟩])
  | v => [.item depth ⟨⟨[]⟩, true, v.content, v.front.length⟩ (some v.encoding.length)]

/-- The lines of a walk through values. -/
def linesAll (depth : Nat) : List Value → List Visit
  | [] => []
  | v :: rest => v.lines depth ++ linesAll depth rest

end

theorem linesAll_eq (depth : Nat) (items : List Value) :
    linesAll depth items = items.flatMap (lines depth) := by
  induction items with
  | nil => rfl
  | cons v rest ih => rw [linesAll, ih, List.flatMap_cons]

theorem lines_scalar {v : Value} (hs : ∀ kind count items, v ≠ container kind count items)
    (depth : Nat) :
    v.lines depth = [.item depth ⟨⟨[]⟩, true, v.content, v.encoding.length⟩ (some v.encoding.length)] := by
  cases v with
  | container kind count items => exact absurd rfl (hs kind count items)
  | _ => rfl

end Value

/-! ## Walks -/

theorem Content.placeless_scalar {content : Content} (h : ∀ c, content ≠ .container c) :
    content.placeless = content := by
  cases content with
  | container c => exact absurd rfl (h c)
  | _ => rfl

theorem Walk.visit_scalar {item : Item} (h : ∀ c, item.content ≠ .container c) (budget depth : Nat) :
    visit budget depth item = ([.item depth item (some item.size)], .ok item.size) := by
  unfold visit
  split
  · rename_i c hc
    exact absurd hc (h c)
  · rfl

theorem Walk.visit_container {item : Item} {start last : Cursor} {inner : List Visit}
    {budget depth n : Nat} (hc : item.content = .container start)
    (htraverse : start.traverse (visit budget (depth + 1)) = (inner, .ok (), last))
    (hclose : last.close = .ok n) :
    visit (budget + 1) depth item =
      (.item depth item (some n) :: (inner ++ [.finish depth last]), .ok n) := by
  unfold visit
  rw [hc]
  simp only [htraverse, hclose]

namespace Value

theorem visits_scalar {v : Value} (h : v.Encodable)
    (hs : ∀ kind count items, v ≠ container kind count items) (budget depth : Nat) :
    Item.Visits Visit.placeless (Walk.visit budget depth) v.encoding (v.lines depth) := by
  intro rest
  refine ⟨_, _, open?_scalar h hs rest, Walk.visit_scalar (content_scalar hs) budget depth, ?_⟩
  rw [lines_scalar hs, List.map_singleton, Visit.placeless,
    Content.placeless_scalar (content_scalar hs)]

/-- A walk through the bytes of a value gives its lines, whatever follows the bytes. -/
theorem visits_encoding {v : Value} (h : v.Encodable) {budget : Nat} (hd : v.tree.depth ≤ budget)
    (depth : Nat) : Item.Visits Visit.placeless (Walk.visit budget depth) v.encoding (v.lines depth) := by
  induction budget generalizing v depth with
  | zero =>
    refine visits_scalar h ?_ 0 depth
    rintro kind count items rfl
    have := Tree.depth_container_pos kind count.isSome (trees items)
    rw [tree] at hd
    omega
  | succ budget ih =>
    by_cases hs : ∃ kind count items, v = container kind count items
    · obtain ⟨kind, count, items, rfl⟩ := hs
      rw [tree, Tree.depth_container_le_iff, trees_eq] at hd
      have hitems : ∀ v ∈ items,
          Item.Visits Visit.placeless (Walk.visit budget (depth + 1)) v.encoding (v.lines (depth + 1)) := by
        intro v hv
        exact ih (h.of_mem v hv) (hd _ (List.mem_map_of_mem hv)) (depth + 1)
      intro rest
      have ho := open?_container h (encodings items ++ (Container.ending count ++ rest))
      have hholds := holds_items h (kind.head count).length rest
      obtain ⟨inner, htraverse, hinner⟩ := hholds.traverse hitems
      rw [encoding_container, length_encoding_container]
      refine ⟨_, _, ho, Walk.visit_container rfl htraverse hholds.close_last, ?_⟩
      rw [List.map_cons, List.map_append, hinner, ← linesAll_eq, lines, length_encoding_container]
      rfl
    · exact visits_scalar h (fun kind count items he => hs ⟨kind, count, items, he⟩) _ depth

/-! ## Trees -/

theorem leaf_content {v : Value} (h : v.Encodable)
    (hs : ∀ kind count items, v ≠ container kind count items) : v.content.leaf = .ok v.tree := by
  obtain ⟨hw, hc, -⟩ := h.recovered hs
  exact Content.leaf_of_scalar hw hc

/-- The tree of a value is read back from its bytes, whatever follows them. -/
theorem tree_encoding {v : Value} (h : v.Encodable) {height : Nat} (hd : v.tree.depth < height)
    (rest : Bytes) :
    ∃ item, Item.open? (v.encoding ++ rest) = .ok (some item) ∧
      item.tree height = .ok (v.tree, v.encoding.length) := by
  induction height generalizing v rest with
  | zero => exact absurd hd (Nat.not_lt_zero _)
  | succ height ih =>
    by_cases hs : ∃ kind count items, v = container kind count items
    · obtain ⟨kind, count, items, rfl⟩ := hs
      rw [encoding_container, length_encoding_container]
      refine ⟨_, open?_container h _, ?_⟩
      rw [Item.tree_container rfl (holds_items h _ rest), map_parts, Tags.toList_of_written .nil]
      · cases count <;> rfl
      · intro i hi rest
        obtain ⟨v, hv, rfl⟩ := List.mem_map.1 hi
        have hmem : v.tree ∈ trees items := by
          rw [trees_eq]
          exact List.mem_map_of_mem hv
        have := Tree.depth_lt_container hmem kind count.isSome
        rw [tree] at hd
        obtain ⟨inner, ho, ht⟩ := ih (h.of_mem v hv) (by omega) rest
        exact ⟨inner, [v.tree], ho, Item.gather_of_ok ht, rfl⟩
    · have hs : ∀ kind count items, v ≠ container kind count items :=
        fun kind count items he => hs ⟨kind, count, items, he⟩
      refine ⟨_, open?_scalar h hs rest, ?_⟩
      rw [Item.tree_scalar (content_scalar hs) (leaf_content h hs), Tags.toList_of_written .nil]
      rfl

/-- The tree of an integer of any type is that of the integer. -/
theorem tree_ofInteger {t : IntType} {n : Int} (h : t.contains n) : (ofInteger t n).tree = .ofInt n := by
  obtain ⟨signed, width⟩ := t
  simp only [IntType.contains, Bool.and_eq_true, decide_eq_true_eq] at h
  cases signed with
  | true =>
    have hrange : -0x8000000000000000 ≤ n ∧ n < 0x8000000000000000 := by
      cases width <;> simp [IntType.min, IntType.max, Width.minSigned, Width.maxSigned] at h <;> omega
    simp only [ofInteger, if_true, tree]
    rw [Int64.toInt_ofInt_of_le hrange.1 hrange.2]
  | false =>
    have hpos : 0 ≤ n := h.1
    rw [Tree.ofInt, if_pos hpos]
    rfl

/-- A value that can be encoded is written as some bytes, as many as were counted, and from them, whatever
follows, it reads back: its tree, and on a walk through it its lines, in which no item has tags and every
item is in its shortest form. Integers of all types have the tree of the integer. -/
theorem reads_back {v : Value} (h : v.Encodable) :
    (∃ e : Bytes, v.encodedLength = .ok e.length ∧
      (∀ buffer : Bytes, e.length ≤ buffer.length →
        v.encode buffer = (.ok e.length, e ++ buffer.drop e.length)) ∧
      ∀ rest : Bytes, ∃ item, Item.open? (e ++ rest) = .ok (some item) ∧
        (∀ height, v.tree.depth < height → item.tree height = .ok (v.tree, e.length)) ∧
        ∀ budget, v.tree.depth ≤ budget → ∃ lines,
          Walk.visit budget 0 item = (lines, .ok e.length) ∧ lines.map Visit.placeless = v.lines 0) ∧
    ∀ (t : IntType) (n : Int), t.contains n → (ofInteger t n).tree = .ofInt n := by
  refine ⟨⟨v.encoding, encodedLength_eq h, fun buffer => encode_eq h, ?_⟩, fun t n => tree_ofInteger⟩
  intro rest
  obtain ⟨item, ho, -⟩ := tree_encoding h (Nat.lt_succ_self _) rest
  refine ⟨item, ho, ?_, ?_⟩
  · intro height hd
    obtain ⟨item', ho', ht⟩ := tree_encoding h hd rest
    rw [ho] at ho'
    cases ho'
    exact ht
  · intro budget hd
    obtain ⟨item', lines, ho', hvisit, hlines⟩ := visits_encoding h hd 0 rest
    rw [ho] at ho'
    cases ho'
    exact ⟨lines, hvisit, hlines⟩

/-- A map of indefinite length with a text as key and an array of three items as value. -/
theorem map_reads_back :
    let v : Value := .container .map none
      [.text "é", .container .array (some 3) [.signed (-500), .simple 255, .container .array none []]]
    v.Encodable ∧ ∃ e : Bytes, v.encodedLength = .ok e.length ∧
      ∀ rest : Bytes, ∃ item, Item.open? (e ++ rest) = .ok (some item) ∧
        item.tree 4 = .ok (v.tree, e.length) := by
  intro v
  have hv : v.Encodable := by
    refine .indefinite rfl ?_
    simp only [List.forall_mem_cons, List.not_mem_nil, false_imp_iff, implies_true, and_true]
    refine ⟨.text (by decide), .definite rfl (by decide) ?_⟩
    simp only [List.forall_mem_cons, List.not_mem_nil, false_imp_iff, implies_true, and_true]
    exact ⟨.signed _, .simple (by decide), .indefinite rfl nofun⟩
  obtain ⟨e, hlen, -, hread⟩ := (reads_back hv).1
  refine ⟨hv, e, hlen, ?_⟩
  intro rest
  obtain ⟨item, ho, htree, -⟩ := hread rest
  exact ⟨item, ho, htree 4 (by decide)⟩

end Value

end CborRecords
