import CborRecords.Proofs.Opening

/-!
# Passing over the items of a container

A cursor starts behind the head of a container and moves over one item after another. Whatever is done
with the items, the bytes it has moved over are items, and where they end the container ends.

* `Cursor.atEnd_eq_true_iff`, `Cursor.atEnd_eq_false_iff`, `Cursor.peek_eq_some_iff` : what a cursor
  finds where it stands;
* `Cursor.mapRest`, `Content.mapRest`, `Item.mapRest` : the same with other bytes behind;
* `Cursor.Moves` : what is kept where a cursor moves, by whatever operation; `Cursor.Moves.traverseFrom`
  and others : why;
* `Cursor.Passed` : how a cursor stands to the start of its container. It is kept by every operation,
  as long as a visit gives the length of the item it was given (`Item.Passes`);
* `Item.written_of_scalar`, `Item.written_of_close` : a scalar, or a container that was closed, was one
  well-formed item;
* `Cursor.Holds` : the items that stand between a cursor and the end of its container;
  `Cursor.Holds.traverseFrom` : a traversal visits exactly them;
* `Item.open?_scalar`, `Item.open?_container` : a well-formed item opens, whatever follows it.
-/

namespace CborRecords

/-! ## What a cursor finds -/

namespace Cursor
variable {c c' : Cursor}

theorem require_eq_ok_iff {α : Type} {result : Except DecodeError (Option α)} {a : α} :
    require result = .ok a ↔ result = .ok (some a) := by
  rcases result with e | (_ | a') <;> simp [require]

theorem atEnd_eq_true_iff :
    c.atEnd = (.ok true, c') ↔
      (∃ n, c.count = some n ∧ n ≤ c.parsed ∧ c' = c) ∨
        (c.count = none ∧ c.parsed % c.kind.arity = 0 ∧ c' = c.settle ∧
          ∃ rest, c.rest = Head.stop :: rest) := by
  unfold atEnd
  split
  · rename_i n hn
    simp [hn, eq_comm]
  · rename_i hn
    split
    · rename_i hr
      simp [hn, hr]
    · rename_i b rest hr
      by_cases hb : b = Head.stop
      · by_cases hp : c.parsed % c.kind.arity = 0
        · simp [hn, hr, hb, hp, eq_comm]
        · simp [hn, hb, hp]
      · simp [hn, hr, hb]

theorem atEnd_eq_false_iff :
    c.atEnd = (.ok false, c') ↔
      c' = c ∧ ((∃ n, c.count = some n ∧ c.parsed < n) ∨
        (c.count = none ∧ ∃ b rest, c.rest = b :: rest ∧ b ≠ Head.stop)) := by
  unfold atEnd
  split
  · rename_i n hn
    simp [hn, eq_comm, and_comm]
  · rename_i hn
    split
    · rename_i hr
      simp [hn, hr]
    · rename_i b rest hr
      by_cases hb : b = Head.stop
      · by_cases hp : c.parsed % c.kind.arity = 0
        · simp [hn, hr, hb, hp]
        · simp [hn, hr, hb, hp]
      · simp [hn, hr, hb, eq_comm]

theorem atEnd_error {e : DecodeError} (h : c.atEnd = (.error e, c')) : c' = c := by
  unfold atEnd at h
  split at h
  · cases h
  · split at h
    · cases h
      rfl
    · split at h
      · split at h <;> cases h
        rfl
      · cases h

/-- The end of a container stays its end. -/
theorem atEnd_of_atEnd (h : c.atEnd = (.ok true, c')) : c'.atEnd = (.ok true, c') := by
  rw [atEnd_eq_true_iff]
  rcases atEnd_eq_true_iff.1 h with ⟨n, hn, hle, rfl⟩ | ⟨-, -, rfl, -⟩
  · exact .inl ⟨n, hn, hle, rfl⟩
  · exact .inl ⟨c.parsed, rfl, Nat.le_refl _, rfl⟩

theorem exists_count_of_atEnd (h : c.atEnd = (.ok true, c)) : ∃ n, c.count = some n ∧ n ≤ c.parsed := by
  rcases atEnd_eq_true_iff.1 h with ⟨n, hn, hle, -⟩ | ⟨hn, -, hsettle, -⟩
  · exact ⟨n, hn, hle⟩
  · rw [hsettle] at hn
    cases hn

theorem close_of_atEnd (h : c.atEnd = (.ok true, c')) : c.close = .ok c'.offset := by
  rw [close, h]

theorem atEnd_of_close {n : Nat} (h : c.close = .ok n) :
    ∃ c', c.atEnd = (.ok true, c') ∧ c'.offset = n := by
  unfold close at h
  split at h
  · cases h
  · cases h
  · rename_i c' hc
    cases h
    exact ⟨c', hc, rfl⟩

theorem peek_snd (c : Cursor) : c.peek.2 = c.atEnd.2 := by
  unfold peek
  rcases c.atEnd with ⟨_ | (_ | _), c'⟩
  · rfl
  · dsimp only
    split <;> rfl
  · rfl

theorem peek_eq_some_iff {item : Item} :
    c.peek = (.ok (some item), c') ↔
      c' = c ∧ c.atEnd = (.ok false, c) ∧ Item.open? c.rest = .ok (some item) := by
  unfold peek
  split
  · rename_i hend
    simp [hend]
  · rename_i hend
    simp [hend]
  · rename_i c'' hend
    obtain ⟨rfl, -⟩ := atEnd_eq_false_iff.1 hend
    split <;> rename_i h <;> simp [h, hend, eq_comm, and_comm]

theorem peek_eq_none_iff : c.peek = (.ok none, c') ↔ c.atEnd = (.ok true, c') := by
  unfold peek
  rcases c.atEnd with ⟨_ | (_ | _), c''⟩
  · simp
  · dsimp only
    split <;> simp
  · simp

section Traverse
variable {β : Type} {visit : Item → List β × Except DecodeError Nat} {item : Item} {notes : List β}

theorem traverseFrom_of_peek_error (limit : Nat) {e : DecodeError} (hpeek : c.peek = (.error e, c')) :
    traverseFrom visit limit c = ([], .error e, c') := by
  unfold traverseFrom
  rw [hpeek]

theorem traverseFrom_of_none (limit : Nat) (hpeek : c.peek = (.ok none, c')) :
    traverseFrom visit limit c = ([], .ok (), c') := by
  unfold traverseFrom
  rw [hpeek]

theorem traverseFrom_of_error (limit : Nat) {e : DecodeError} (hpeek : c.peek = (.ok (some item), c))
    (hvisit : visit item = (notes, .error e)) : traverseFrom visit limit c = (notes, .error e, c) := by
  unfold traverseFrom
  rw [hpeek]
  dsimp only
  rw [hvisit]

theorem traverseFrom_of_ok (limit : Nat) {n : Nat} (hpeek : c.peek = (.ok (some item), c))
    (hvisit : visit item = (notes, .ok n)) :
    traverseFrom visit (limit + 1) c =
      (notes ++ (traverseFrom visit limit (c.advance n)).1, (traverseFrom visit limit (c.advance n)).2) := by
  rw [traverseFrom, hpeek]
  dsimp only
  rw [hvisit]

end Traverse

end Cursor

/-! ## Other bytes behind the same place -/

section MapRest
variable (f : Bytes → Bytes) {item : Item}

theorem Content.mapRest_scalar {content : Content} (h : ∀ c, content ≠ .container c) :
    content.mapRest f = content := by
  cases content with
  | container c => exact absurd rfl (h c)
  | _ => rfl

theorem Item.mapRest_scalar (h : ∀ c, item.content ≠ .container c) : item.mapRest f = item := by
  rw [mapRest, Content.mapRest_scalar f h]

theorem Item.mapRest_container {start : Cursor} (h : item.content = .container start) :
    (item.mapRest f).content = .container (start.mapRest f) := by
  rw [mapRest, h]
  rfl

theorem Item.mapRest_mapRest (item : Item) (g : Bytes → Bytes) :
    (item.mapRest f).mapRest g = item.mapRest fun rest => g (f rest) := by
  obtain ⟨tags, shortest, content, size⟩ := item
  cases content <;> rfl

end MapRest

/-! ## Moving a cursor -/

/-- A visit that succeeds only with a length that the item may be passed by. -/
def Item.Gives (Q : Item → Nat → Prop) (visit : Item → Except DecodeError Nat) : Prop :=
  ∀ item n, visit item = .ok n → Q item n

/-- A cursor moves in two ways: over the byte that ends its container, and over an item by a length that
`Q` allows. Both keep `P`. -/
structure Cursor.Moves (Q : Item → Nat → Prop) (P : Cursor → Prop) : Prop where
  atEnd {c : Cursor} (h : P c) : P c.atEnd.2
  advance {c : Cursor} {item : Item} {n : Nat} (h : P c) (hpeek : c.peek = (.ok (some item), c))
    (hn : Q item n) : P (c.advance n)

namespace Cursor.Moves
variable {Q : Item → Nat → Prop} {P : Cursor → Prop} {c : Cursor}

theorem peek (hm : Moves Q P) (h : P c) : P c.peek.2 := by
  rw [peek_snd]
  exact hm.atEnd h

/-- The item at the cursor is passed. -/
theorem advance_visit (hm : Moves Q P) {item : Item} {c' : Cursor} {n : Nat} (h : P c)
    (hpeek : c.peek = (.ok (some item), c')) (hn : Q item n) : P (c'.advance n) := by
  obtain ⟨rfl, -⟩ := peek_eq_some_iff.1 hpeek
  exact hm.advance h hpeek hn

theorem next? (hm : Moves Q P) {α : Type} {visit : Item → Except DecodeError (α × Nat)}
    (hv : Item.Gives Q fun item => (visit item).map Prod.snd) (h : P c) : P (c.next? visit).2 := by
  unfold Cursor.next?
  have hpeek := hm.peek h
  split
  · rename_i hc
    rwa [hc] at hpeek
  · rename_i hc
    rwa [hc] at hpeek
  · rename_i item c' hc
    split
    · rwa [hc] at hpeek
    · rename_i a length hvisit
      exact hm.advance_visit h hc (hv item length (congrArg (Except.map Prod.snd) hvisit))

theorem traverseFrom (hm : Moves Q P) {β : Type} {visit : Item → List β × Except DecodeError Nat}
    (hv : Item.Gives Q fun item => (visit item).2) (limit : Nat) (h : P c) :
    P (Cursor.traverseFrom visit limit c).2.2 := by
  fun_induction Cursor.traverseFrom visit limit c with
  | case1 limit c e c' hc =>
    have hpeek := hm.peek h
    rwa [hc] at hpeek
  | case2 limit c c' hc =>
    have hpeek := hm.peek h
    rwa [hc] at hpeek
  | case3 limit c item c' hc notes e hvisit =>
    have hpeek := hm.peek h
    rwa [hc] at hpeek
  | case4 c item c' hc notes length hvisit =>
    have hpeek := hm.peek h
    rwa [hc] at hpeek
  | case5 c item c' hc notes length hvisit limit more result hmore ih =>
    have hmoved := ih (hm.advance_visit h hc (hv item length (congrArg Prod.snd hvisit)))
    rwa [hmore] at hmoved

theorem skipToEnd (hm : Moves Q P) {m : Nat} (hv : Item.Gives Q (Item.skip m)) (h : P c) :
    P (c.skipToEnd m).2 :=
  hm.traverseFrom hv c.rest.length h

end Cursor.Moves

/-! ## Keeping to the items -/

/-- The item's bytes are so many, whatever it was opened from, and they have the property. -/
def Item.Covers (P : Tree → Bytes → Prop) (item : Item) (n : Nat) : Prop :=
  ∀ data, Item.open? data = .ok (some item) →
    ∃ t bytes rest, data = bytes ++ rest ∧ bytes.length = n ∧ P t bytes

/-- A visit that gives the length of the item it is given, which has the property. -/
def Item.Passes (P : Tree → Bytes → Prop) (visit : Item → Except DecodeError Nat) : Prop :=
  ∀ {data item n}, Item.open? data = .ok (some item) → visit item = .ok n →
    ∃ t bytes rest, data = bytes ++ rest ∧ bytes.length = n ∧ P t bytes

theorem Item.passes_iff_gives {P : Tree → Bytes → Prop} {visit : Item → Except DecodeError Nat} :
    Item.Passes P visit ↔ Item.Gives (Item.Covers P) visit :=
  ⟨fun h _ _ hn _ ho => h ho hn, fun h _ _ _ ho hn => h _ _ hn _ ho⟩

namespace Cursor

/-- The cursor behind some items, in front of `rest`. -/
def past (c : Cursor) (items : List (Tree × Bytes)) (rest : Bytes) : Cursor :=
  { c with
    rest := rest
    offset := c.offset + (items.flatMap Prod.snd).length
    parsed := c.parsed + items.length }

/-- From the start of a container a cursor has passed exactly these items, all with the property; in an
indefinite container perhaps also the byte that ends it. -/
inductive Passed (P : Tree → Bytes → Prop) (start : Cursor) (items : List (Tree × Bytes)) : Cursor → Prop
  | among {rest : Bytes} (hitems : ∀ i ∈ items, P i.1 i.2)
      (hrest : start.rest = items.flatMap Prod.snd ++ rest)
      (hcount : ∀ n, start.count = some n → start.parsed + items.length ≤ n) :
      Passed P start items (start.past items rest)
  | ended {rest : Bytes} (hitems : ∀ i ∈ items, P i.1 i.2)
      (hrest : start.rest = items.flatMap Prod.snd ++ Head.stop :: rest)
      (hcount : start.count = none) (harity : (start.parsed + items.length) % start.kind.arity = 0) :
      Passed P start items (start.past items (Head.stop :: rest)).settle

namespace Passed
variable {P : Tree → Bytes → Prop} {start c : Cursor} {items : List (Tree × Bytes)}

theorem refl (hcount : ∀ n, start.count = some n → start.parsed ≤ n) : Passed P start [] start :=
  .among nofun rfl hcount

theorem items_prop (h : Passed P start items c) : ∀ i ∈ items, P i.1 i.2 := by
  cases h with
  | among hitems => exact hitems
  | ended hitems => exact hitems

theorem atEnd (h : Passed P start items c) : Passed P start items c.atEnd.2 := by
  rcases hend : c.atEnd with ⟨e | (_ | _), c'⟩
  · rwa [atEnd_error hend]
  · rwa [(atEnd_eq_false_iff.1 hend).1]
  · rcases atEnd_eq_true_iff.1 hend with ⟨n, hn, hle, rfl⟩ | ⟨hn, hp, rfl, rest, hrest⟩
    · exact h
    · cases h with
      | @among rest' hitems hr hcount =>
        obtain rfl : rest' = Head.stop :: rest := hrest
        exact .ended hitems hr hn hp
      | ended hitems hr hcount harity => cases hn

theorem advance {t : Tree} {bytes rest : Bytes} (h : Passed P start items c)
    (hend : c.atEnd = (.ok false, c)) (hrest : c.rest = bytes ++ rest) (ht : P t bytes) :
    Passed P start (items ++ [(t, bytes)]) (c.advance bytes.length) := by
  have hstep := (atEnd_eq_false_iff.1 hend).2
  cases h with
  | @among rest' hitems hr hcount =>
    obtain rfl : rest' = bytes ++ rest := hrest
    have hpast : (start.past items (bytes ++ rest)).advance bytes.length =
        start.past (items ++ [(t, bytes)]) rest := by
      simp [Cursor.advance, past, Nat.add_assoc]
    rw [hpast]
    refine .among ?_ ?_ ?_
    · intro i hi
      rcases List.mem_append.1 hi with hi | hi
      · exact hitems i hi
      · rw [List.mem_singleton.1 hi]
        exact ht
    · simpa using hr
    · intro n hn
      rcases hstep with ⟨n', hn', hlt⟩ | ⟨hnone, -⟩
      · obtain rfl : n' = n := Option.some.inj (hn'.symm.trans hn)
        rw [List.length_append, List.length_singleton]
        exact hlt
      · cases hnone.symm.trans hn
  | ended hitems hr hcount harity =>
    rcases hstep with ⟨n, hn, hlt⟩ | ⟨hnone, -⟩
    · cases hn
      exact absurd hlt (Nat.lt_irrefl _)
    · cases hnone

/-- Wherever a cursor is moved to by passing such items, it has passed such items. -/
theorem moves (P : Tree → Bytes → Prop) (start : Cursor) :
    Cursor.Moves (Item.Covers P) fun c => ∃ items, Passed P start items c where
  atEnd := by
    rintro c ⟨items, h⟩
    exact ⟨items, h.atEnd⟩
  advance := by
    rintro c item n ⟨items, h⟩ hpeek hn
    obtain ⟨-, hend, hopen⟩ := peek_eq_some_iff.1 hpeek
    obtain ⟨t, bytes, rest, hrest, rfl, ht⟩ := hn _ hopen
    exact ⟨_, h.advance hend hrest ht⟩

end Passed

end Cursor

/-! ## Closing -/

theorem Container.arity_pos (kind : Container) : 0 < kind.arity := by
  cases kind <;> decide

theorem Tree.scalar?_ne_container {t : Tree} {front : Bytes} {content : Content}
    (h : t.scalar? front = some content) : ∀ c, content ≠ .container c := by
  rintro c rfl
  cases t <;> cases h

theorem Content.Opens.cursor {start : Nat} {rest front : Bytes} {c : Cursor} {shortest : Bool}
    (h : Content.Opens start rest front (.container c) shortest) :
    c.rest = rest ∧ c.offset = start + front.length ∧ c.parsed = 0 := by
  cases h with
  | scalar h hc => exact absurd rfl (Tree.scalar?_ne_container hc _)
  | definite h hn => exact ⟨rfl, rfl, rfl⟩
  | indefinite kind => exact ⟨rfl, rfl, rfl⟩

/-- The items that the head of a container announces make up whole entries. -/
theorem Content.Opens.exists_entries {start : Nat} {rest front : Bytes} {c : Cursor} {shortest : Bool}
    (h : Content.Opens start rest front (.container c) shortest) {n : Nat} (hn : c.count = some n) :
    ∃ entries, n = entries * c.kind.arity := by
  cases h with
  | scalar h hc => exact absurd rfl (Tree.scalar?_ne_container hc _)
  | @definite kind k _ h hk => exact ⟨k, (Option.some.inj hn).symm⟩
  | indefinite kind => cases hn

namespace Item
variable {P : Tree → Bytes → Prop} {data : Bytes} {item : Item}

/-- An item that opened and is no container is a scalar behind tags, written in the bytes that were
read. -/
theorem written_of_scalar (ho : open? data = .ok (some item)) (hs : ∀ c, item.content ≠ .container c) :
    ∃ (t : Tree) (bytes rest : Bytes), data = bytes ++ rest ∧ bytes.length = item.size ∧
      t.Written bytes ∧ t.depth = 0 := by
  obtain ⟨numbers, front, rest, ht, rfl, hopens, hsize⟩ := open?_eq_some_iff.1 ho
  obtain ⟨⟨raw⟩, shortest, content, size⟩ := item
  dsimp only at ht hs hopens hsize ⊢
  cases hopens with
  | @scalar t _ _ h hc =>
    refine ⟨t.withTags numbers, raw ++ front, rest, by simp, by simp [hsize], h.withTags ht, ?_⟩
    rw [Tree.depth_withTags]
    cases t with
    | container | tagged => cases hc
    | _ => rfl
  | definite | indefinite => exact absurd rfl (hs _)

theorem passed_refl {c : Cursor} (ho : open? data = .ok (some item)) (hc : item.content = .container c) :
    Cursor.Passed P c [] c := by
  obtain ⟨numbers, front, rest, -, -, hopens, -⟩ := open?_eq_some_iff.1 ho
  rw [hc] at hopens
  apply Cursor.Passed.refl
  intro n _
  rw [hopens.cursor.2.2]
  exact Nat.zero_le n

/-- A container that was worked through and closed is one item, and its items are those that were
passed. -/
theorem written_of_close {start c : Cursor} {items : List (Tree × Bytes)} {n : Nat}
    (ho : open? data = .ok (some item)) (hc : item.content = .container start)
    (hP : ∀ {t bytes}, P t bytes → t.Written bytes) (h : Cursor.Passed P start items c)
    (hclose : c.close = .ok n) :
    ∃ numbers bytes rest, data = bytes ++ rest ∧ bytes.length = n ∧
      (Tree.withTags numbers
        (.container start.kind start.isDefinite (items.map Prod.fst))).Written bytes := by
  obtain ⟨numbers, front, rest, ht, rfl, hopens, -⟩ := open?_eq_some_iff.1 ho
  obtain ⟨⟨raw⟩, shortest, content, size⟩ := item
  dsimp only at ht hc hopens ⊢
  subst hc
  obtain ⟨last, hlast, rfl⟩ := Cursor.atEnd_of_close hclose
  have hend := h.atEnd
  rw [hlast] at hend
  have hpassed := Cursor.exists_count_of_atEnd (Cursor.atEnd_of_atEnd hlast)
  refine ⟨numbers, ?_⟩
  cases hopens with
  | scalar h hc => exact absurd rfl (Tree.scalar?_ne_container hc _)
  | @definite kind k _ hh hk =>
    cases hend with
    | @among after hitems hrest hcount =>
      obtain ⟨m, ⟨⟩, hle⟩ := hpassed
      have hle' : 0 + items.length ≤ k * kind.arity := hcount _ rfl
      have hle : k * kind.arity ≤ 0 + items.length := hle
      dsimp only at hrest
      subst hrest
      have hw : (Tree.container kind true (items.map Prod.fst)).Written
          (front ++ items.flatMap Prod.snd) :=
        .definite hh (by omega) fun i hi => hP (hitems i hi)
      exact ⟨_, after, by simp, by simp; omega, hw.withTags ht⟩
    | ended hitems hrest hcount harity => cases hcount
  | indefinite kind =>
    cases hend with
    | among => obtain ⟨m, ⟨⟩, -⟩ := hpassed
    | @ended after hitems hrest hcount harity =>
      simp only [Nat.zero_add] at hrest harity
      subst hrest
      have hw : (Tree.container kind false (items.map Prod.fst)).Written
          (Head.initial kind.major 31 :: items.flatMap Prod.snd ++ [Head.stop]) :=
        .indefinite harity fun i hi => hP (hitems i hi)
      exact ⟨_, after, by simp, by simp [Cursor.past]; omega, hw.withTags ht⟩

end Item

/-! ## The items in front of a cursor -/

namespace Cursor

/-- Between a cursor and the end of its container stand exactly these items; `last` is the cursor at the
end. -/
inductive Holds : Cursor → List (Tree × Bytes) → (last : Cursor) → Prop
  | nil {c last : Cursor} (h : c.atEnd = (.ok true, last)) : Holds c [] last
  | cons {c last : Cursor} {i : Tree × Bytes} {items : List (Tree × Bytes)} {rest : Bytes}
      (hend : c.atEnd = (.ok false, c)) (hrest : c.rest = i.2 ++ rest) (hw : i.1.Written i.2)
      (h : Holds (c.advance i.2.length) items last) : Holds c (i :: items) last

end Cursor

/-- A visit succeeds on an item that is written in `bytes`, whatever follows it; seen through `view`,
the notes it takes are `notes`. -/
def Item.Visits {β γ : Type} (view : β → γ) (visit : Item → List β × Except DecodeError Nat)
    (bytes : Bytes) (notes : List γ) : Prop :=
  ∀ rest, ∃ item taken, Item.open? (bytes ++ rest) = .ok (some item) ∧
    visit item = (taken, .ok bytes.length) ∧ taken.map view = notes

namespace Cursor
namespace Holds
variable {c last : Cursor} {items : List (Tree × Bytes)}

theorem written (h : Holds c items last) : ∀ i ∈ items, i.1.Written i.2 := by
  induction h with
  | nil => nofun
  | cons hend hrest hw h ih =>
    intro i hi
    rcases List.mem_cons.1 hi with rfl | hi
    · exact hw
    · exact ih i hi

theorem close_last (h : Holds c items last) : last.close = .ok last.offset := by
  induction h with
  | nil h => exact close_of_atEnd (atEnd_of_atEnd h)
  | cons hend hrest hw h ih => exact ih

theorem length_le (h : Holds c items last) : items.length ≤ c.rest.length := by
  induction h with
  | nil => exact Nat.zero_le _
  | @cons c last i items rest hend hrest hw h ih =>
    have := hw.length_pos
    rw [hrest, List.length_append, List.length_cons]
    simp only [advance, hrest, List.drop_left] at ih
    omega

/-- A traversal visits the items in order and ends where the container does. The items may come from
other data, of which `part` is the tree and its bytes and `note` what a visit notes. -/
theorem traverseFrom {α β γ : Type} {view : β → γ} {visit : Item → List β × Except DecodeError Nat}
    {xs : List α} {part : α → Tree × Bytes} {note : α → List γ} (h : Holds c (xs.map part) last)
    (hv : ∀ x ∈ xs, Item.Visits view visit (part x).2 (note x)) {limit : Nat}
    (hlimit : xs.length ≤ limit) :
    ∃ notes, Cursor.traverseFrom visit limit c = (notes, .ok (), last) ∧
      notes.map view = xs.flatMap note := by
  induction xs generalizing c limit with
  | nil =>
    cases h with
    | nil h =>
      refine ⟨[], ?_, rfl⟩
      unfold Cursor.traverseFrom
      rw [peek_eq_none_iff.2 h]
  | cons x xs ih =>
    cases h with
    | @cons _ _ _ _ rest hend hrest hw h =>
      obtain ⟨item, taken, hopen, hvisit, htaken⟩ := hv x (by simp) rest
      rw [← hrest] at hopen
      cases limit with
      | zero => simp at hlimit
      | succ limit =>
        obtain ⟨notes, hmore, hnotes⟩ :=
          ih h (fun y hy => hv y (by simp [hy])) (Nat.le_of_succ_le_succ hlimit)
        refine ⟨taken ++ notes, ?_, by rw [List.map_append, htaken, hnotes, List.flatMap_cons]⟩
        unfold Cursor.traverseFrom
        rw [peek_eq_some_iff.2 ⟨rfl, hend, hopen⟩]
        simp only [hvisit, hmore]

theorem traverse {α β γ : Type} {view : β → γ} {visit : Item → List β × Except DecodeError Nat}
    {xs : List α} {part : α → Tree × Bytes} {note : α → List γ} (h : Holds c (xs.map part) last)
    (hv : ∀ x ∈ xs, Item.Visits view visit (part x).2 (note x)) :
    ∃ notes, c.traverse visit = (notes, .ok (), last) ∧ notes.map view = xs.flatMap note := by
  have hle := h.length_le
  rw [List.length_map] at hle
  exact h.traverseFrom hv hle

end Holds

theorem past_advance (c : Cursor) (i : Tree × Bytes) (items : List (Tree × Bytes)) (rest : Bytes) :
    (c.advance i.2.length).past items rest = c.past (i :: items) rest := by
  simp only [past, advance, List.flatMap_cons, List.length_append, List.length_cons, Nat.add_assoc,
    Nat.add_comm 1]

/-- The items of a definite container. -/
theorem holds_of_count {c : Cursor} {items : List (Tree × Bytes)} {rest : Bytes}
    (hcount : c.count = some (c.parsed + items.length)) (hrest : c.rest = items.flatMap Prod.snd ++ rest)
    (hw : ∀ i ∈ items, i.1.Written i.2) : c.Holds items (c.past items rest) := by
  induction items generalizing c with
  | nil =>
    refine .nil (atEnd_eq_true_iff.2 (.inl ⟨_, hcount, Nat.le_refl _, ?_⟩))
    obtain ⟨kind, count, rest', offset, parsed⟩ := c
    obtain rfl : rest' = rest := hrest
    rfl
  | cons i items ih =>
    rw [List.flatMap_cons, List.append_assoc] at hrest
    have hend : c.atEnd = (.ok false, c) :=
      atEnd_eq_false_iff.2 ⟨rfl, .inl ⟨_, hcount, by simp⟩⟩
    rw [← past_advance]
    refine .cons hend hrest (hw i (by simp)) (ih ?_ ?_ fun j hj => hw j (by simp [hj]))
    · rw [advance, hcount, List.length_cons, Nat.add_assoc, Nat.add_comm 1]
    · rw [advance, hrest, List.drop_left]

/-- The items of an indefinite container. -/
theorem holds_of_stop {c : Cursor} {items : List (Tree × Bytes)} {rest : Bytes}
    (hcount : c.count = none) (hrest : c.rest = items.flatMap Prod.snd ++ Head.stop :: rest)
    (harity : (c.parsed + items.length) % c.kind.arity = 0)
    (hw : ∀ i ∈ items, i.1.Written i.2) :
    c.Holds items (c.past items (Head.stop :: rest)).settle := by
  induction items generalizing c with
  | nil =>
    refine .nil (atEnd_eq_true_iff.2 (.inr ⟨hcount, harity, ?_, rest, hrest⟩))
    obtain ⟨kind, count, rest', offset, parsed⟩ := c
    obtain rfl : rest' = Head.stop :: rest := hrest
    rfl
  | cons i items ih =>
    rw [List.flatMap_cons, List.append_assoc] at hrest
    have hstop : ∃ b more, c.rest = b :: more ∧ b ≠ Head.stop := by
      obtain ⟨b, more, hb, -, hne, -⟩ := (hw i (by simp)).starts
      rw [hb] at hrest
      exact ⟨b, _, hrest, hne⟩
    have hend : c.atEnd = (.ok false, c) := atEnd_eq_false_iff.2 ⟨rfl, .inr ⟨hcount, hstop⟩⟩
    rw [← past_advance]
    refine .cons hend hrest (hw i (by simp)) (ih hcount ?_ ?_ fun j hj => hw j (by simp [hj]))
    · rw [advance, hrest, List.drop_left]
    · rwa [advance, Nat.add_assoc, Nat.add_comm 1, ← List.length_cons]

end Cursor

/-! ## Well-formed items open -/

namespace Item
variable {numbers : List UInt64} {raw : Bytes}

theorem open?_of_opens {front rest : Bytes} {content : Content} {shortest : Bool}
    (ht : Tags.Written numbers raw) (h : Content.Opens raw.length rest front content shortest) :
    open? (raw ++ (front ++ rest)) =
      .ok (some ⟨⟨raw⟩, shortest, content, raw.length + front.length⟩) :=
  open?_eq_some_iff.2 ⟨numbers, front, rest, ht, rfl, h, rfl⟩

/-- A container opens as one that holds its items. The number of its bytes bounds the number of its
items, which must not need more than 64 bits. -/
theorem open?_container {kind : Container} {definite : Bool} {trees : List Tree} {body : Bytes}
    (ht : Tags.Written numbers raw) (h : (Tree.container kind definite trees).Written body)
    (hlen : body.length < 0x10000000000000000) (rest : Bytes) :
    ∃ items start last shortest size, trees = items.map Prod.fst ∧
      open? (raw ++ (body ++ rest)) = .ok (some ⟨⟨raw⟩, shortest, .container start, size⟩) ∧
      start.kind = kind ∧ start.isDefinite = definite ∧ start.Holds items last ∧
      last.offset = raw.length + body.length ∧ ∀ i ∈ items, i.2.length < body.length := by
  have hshort {items : List (Tree × Bytes)} {i : Tree × Bytes} (hi : i ∈ items) :
      i.2.length ≤ (items.flatMap Prod.snd).length := by
    rw [List.flatMap]
    exact (List.sublist_flatten_of_mem (List.mem_map_of_mem hi)).length_le
  cases h with
  | @definite _ n head items hh hn hw =>
    have hpos := List.length_pos_iff.2 hh.ne_nil
    have hle := Tree.length_le_of_written hw
    rw [List.length_append] at hlen ⊢
    have ho : Content.Opens raw.length (items.flatMap Prod.snd ++ rest) head _ _ :=
      .definite hh (by omega)
    have hopen := open?_of_opens ht ho
    rw [← List.append_assoc head] at hopen
    refine ⟨items, _, _, _, _, rfl, hopen, rfl, rfl,
      Cursor.holds_of_count (by rw [hn, Nat.zero_add]) rfl hw, ?_, ?_⟩
    · simp only [Cursor.past, Nat.add_assoc]
    · intro i hi
      have := hshort hi
      omega
  | @indefinite _ items hn hw =>
    have ho : Content.Opens raw.length (items.flatMap Prod.snd ++ Head.stop :: rest) _ _ _ :=
      .indefinite kind
    have hbytes : Head.initial kind.major 31 :: items.flatMap Prod.snd ++ [Head.stop] ++ rest =
        [Head.initial kind.major 31] ++ (items.flatMap Prod.snd ++ Head.stop :: rest) := by
      simp
    rw [hbytes]
    refine ⟨items, _, _, _, _, rfl, open?_of_opens ht ho, rfl, rfl,
      Cursor.holds_of_stop rfl rfl (by rwa [Nat.zero_add]) hw, ?_, ?_⟩
    · simp only [Cursor.settle, Cursor.past, List.length_append, List.length_cons, List.length_nil]
      omega
    · intro i hi
      have := hshort hi
      simp only [List.length_append, List.length_cons, List.length_nil]
      omega

/-- A well-formed item opens whatever follows it: a scalar whole, and a container as one that holds its
items and ends where the item does. -/
theorem open?_of_written {t : Tree} {bytes : Bytes} (h : t.Written bytes)
    (hlen : bytes.length < 0x10000000000000000) (rest : Bytes) :
    ∃ numbers item, open? (bytes ++ rest) = .ok (some item) ∧ Tags.Written numbers item.tags.raw ∧
      ((∃ leaf body, t = Tree.withTags numbers leaf ∧ leaf.Written body ∧
          leaf.scalar? body = some item.content ∧ item.size = bytes.length) ∨
        ∃ items start last, item.content = .container start ∧
          t = Tree.withTags numbers (.container start.kind start.isDefinite (items.map Prod.fst)) ∧
          start.Holds items last ∧ last.offset = bytes.length ∧
          ∀ i ∈ items, i.2.length < 0x10000000000000000) := by
  obtain ⟨numbers, raw, inner, body, rfl, rfl, ht, hw, hm⟩ := h.exists_tags
  rw [List.length_append] at hlen
  refine ⟨numbers, ?_⟩
  rw [List.append_assoc]
  by_cases hc : ∃ kind definite trees, inner = .container kind definite trees
  · obtain ⟨kind, definite, trees, rfl⟩ := hc
    obtain ⟨items, start, last, shortest, size, rfl, ho, rfl, rfl, hholds, hlast, hitems⟩ :=
      open?_container ht hw (by omega) rest
    refine ⟨_, ho, ht, .inr ⟨items, start, last, rfl, rfl, hholds, by simp [hlast], ?_⟩⟩
    intro i hi
    have := hitems i hi
    omega
  · have hs : ∃ content, inner.scalar? body = some content := by
      cases inner with
      | container kind definite trees => exact absurd ⟨_, _, _, rfl⟩ hc
      | tagged => exact absurd rfl hm
      | _ => exact ⟨_, rfl⟩
    obtain ⟨content, hs⟩ := hs
    exact ⟨_, open?_of_opens ht (.scalar hw hs), ht, .inl ⟨inner, body, rfl, hw, hs, by simp⟩⟩

end Item

end CborRecords
