import CborRecords.Proofs.Keeping

/-!
# Where items end

Whether the items of a container can all be passed, and where the container then ends, is decided by the
cursor alone: what a program does with the items has no part in it. The bytes that are passed can be
passed in the same way whatever follows them.

* `Cursor.EndsAt`, `Item.EndsAfter` : the items from a cursor on, or an item, with all that is nested in
  them; there is one end (`Cursor.EndsAt.unique`, `Item.EndsAfter.unique`);
* `Cursor.Leads`, `Cursor.keeps_leads` : however a cursor moves, it comes to the one end, and visits give
  where their items end;
* `Item.Stands` : bytes that are one item whatever follows; `Item.EndsAfter.exists_stands` : those that an
  item ends after are.
-/

namespace CborRecords

/-! ## Ends -/

/-- The items from a cursor to the end of its container can be passed, with all that is nested in them,
and `last` is the cursor at the end. -/
inductive Cursor.EndsAt : Cursor → (last : Cursor) → Prop
  | nil {c last : Cursor} (h : c.atEnd = (.ok true, last)) : EndsAt c last
  | scalar {c last : Cursor} {item : Item} (hpeek : c.peek = (.ok (some item), c))
      (hs : ∀ start, item.content ≠ .container start) (h : EndsAt (c.advance item.size) last) :
      EndsAt c last
  | container {c last start inner : Cursor} {item : Item} (hpeek : c.peek = (.ok (some item), c))
      (hc : item.content = .container start) (hinner : EndsAt start inner)
      (h : EndsAt (c.advance inner.offset) last) : EndsAt c last

/-- The item can be passed, with all that is nested in it, and it ends after so many bytes. -/
inductive Item.EndsAfter (item : Item) : Nat → Prop
  | scalar (hs : ∀ start, item.content ≠ .container start) : EndsAfter item item.size
  | container {start last : Cursor} (hc : item.content = .container start) (h : start.EndsAt last) :
      EndsAfter item last.offset

namespace Cursor
variable {c last last' : Cursor} {item : Item} {n : Nat}

theorem EndsAt.cons (hpeek : c.peek = (.ok (some item), c)) (hi : item.EndsAfter n)
    (h : (c.advance n).EndsAt last) : c.EndsAt last := by
  cases hi with
  | scalar hs => exact .scalar hpeek hs h
  | container hc hinner => exact .container hpeek hc hinner h

/-- A cursor is at the end, or it is in front of an item behind which the rest can be passed. -/
theorem EndsAt.step (h : c.EndsAt last) :
    c.atEnd = (.ok true, last) ∨
      ∃ item n, c.peek = (.ok (some item), c) ∧ item.EndsAfter n ∧ (c.advance n).EndsAt last := by
  cases h with
  | nil h => exact .inl h
  | scalar hpeek hs h => exact .inr ⟨_, _, hpeek, .scalar hs, h⟩
  | container hpeek hc hinner h => exact .inr ⟨_, _, hpeek, .container hc hinner, h⟩

theorem atEnd_ne_of_peek (hpeek : c.peek = (.ok (some item), c)) : c.atEnd ≠ (.ok true, last) := by
  rw [(peek_eq_some_iff.1 hpeek).2.1]
  simp

/-- Passing items is a matter of the cursor: the end is the same however they are passed. -/
theorem EndsAt.unique (h : c.EndsAt last) (h' : c.EndsAt last') : last = last' := by
  induction h generalizing last' with
  | nil h =>
    rcases h'.step with hend | ⟨item, n, hpeek, -, -⟩
    · rw [h] at hend
      exact congrArg Prod.snd hend
    · exact absurd h (atEnd_ne_of_peek hpeek)
  | scalar hpeek hs h ih =>
    rcases h'.step with hend | ⟨item', n, hpeek', hi, h'⟩
    · exact absurd hend (atEnd_ne_of_peek hpeek)
    · rw [hpeek] at hpeek'
      cases hpeek'
      cases hi with
      | scalar => exact ih h'
      | container hc => exact absurd hc (hs _)
  | container hpeek hc hinner h ihinner ih =>
    rcases h'.step with hend | ⟨item', n, hpeek', hi, h'⟩
    · exact absurd hend (atEnd_ne_of_peek hpeek)
    · rw [hpeek] at hpeek'
      cases hpeek'
      cases hi with
      | scalar hs => exact absurd hc (hs _)
      | container hc' hinner' =>
        rw [hc] at hc'
        cases hc'
        obtain rfl := ihinner hinner'
        exact ih h'

end Cursor

theorem Item.EndsAfter.unique {item : Item} {n n' : Nat} (h : item.EndsAfter n) (h' : item.EndsAfter n') :
    n = n' := by
  cases h with
  | scalar hs =>
    cases h' with
    | scalar => rfl
    | container hc => exact absurd hc (hs _)
  | container hc h =>
    cases h' with
    | scalar hs => exact absurd hc (hs _)
    | container hc' h' =>
      rw [hc] at hc'
      cases hc'
      rw [h.unique h']

/-! ## Visits give where items end -/

/-- From `c` one comes to `c'` by passing items: the end from `c'` on is the end from `c` on. -/
def Cursor.Leads (c c' : Cursor) : Prop :=
  ∀ last, c'.EndsAt last → c.EndsAt last

theorem Cursor.Leads.trans {c c' c'' : Cursor} (h : c.Leads c') (h' : c'.Leads c'') : c.Leads c'' :=
  fun last hlast => h last (h' last hlast)

theorem Cursor.leads_atEnd (c : Cursor) : c.Leads c.atEnd.2 := by
  rcases hend : c.atEnd with ⟨e | (_ | _), c'⟩
  · rw [atEnd_error hend]
    exact fun _ h => h
  · rw [(atEnd_eq_false_iff.1 hend).1]
    exact fun _ h => h
  · intro last hlast
    have hat : c'.EndsAt c' := .nil (atEnd_of_atEnd hend)
    rw [hlast.unique hat]
    exact .nil hend

/-- Whatever a program does with the items of a container, its cursor comes to the one end, and a visit
that succeeds gives where the item ends. -/
theorem Cursor.keeps_leads : Cursor.Keeps Item.EndsAfter Cursor.Leads where
  moves start := {
    atEnd := fun {c} h => h.trans c.leads_atEnd
    advance := fun h hpeek hn last hlast => h last (.cons hpeek hn hlast) }
  scalar := .scalar
  close {item start c n} hc h hclose := by
    obtain ⟨last, hlast, rfl⟩ := atEnd_of_close hclose
    exact .container hc (h (fun _ hlast => hlast) last (.nil hlast))

/-! ## The same bytes in front of others -/

/-- The same place in front of other bytes. -/
abbrev Cursor.onto (rest : Bytes) (c : Cursor) : Cursor :=
  c.mapRest fun _ => rest

/-- The same item; the items of a container are in front of other bytes. -/
abbrev Item.onto (rest : Bytes) (item : Item) : Item :=
  item.mapRest fun _ => rest

/-- Bytes that are one item, whatever follows them. -/
def Item.Stands (bytes : Bytes) : Prop :=
  bytes ≠ [] ∧ ∀ more, ∃ item, Item.open? (bytes ++ more) = .ok (some item) ∧ item.EndsAfter bytes.length

/-- Between a cursor and the end of its container stand the same bytes, whatever follows them. -/
def Cursor.Framed (c last : Cursor) : Prop :=
  ∃ passed, c.rest = passed ++ last.rest ∧ last.offset = c.offset + passed.length ∧
    ∀ more, (c.onto (passed ++ more)).EndsAt (last.onto more)

namespace Item

/-- What is read to open an item opens it in front of other bytes. -/
theorem open?_onto {data : Bytes} {item : Item} (ho : open? data = .ok (some item)) :
    ∃ front rest, front ≠ [] ∧ data = front ++ rest ∧ front.length = item.size ∧
      (∀ start, item.content = .container start → start.rest = rest ∧ start.offset = front.length) ∧
      ∀ more, open? (front ++ more) = .ok (some (item.onto more)) := by
  obtain ⟨numbers, front, rest, ht, rfl, hopens, hsize⟩ := open?_eq_some_iff.1 ho
  obtain ⟨⟨raw⟩, shortest, content, size⟩ := item
  dsimp only at ht hopens hsize
  have hfront : front ≠ [] := by
    cases hopens with
    | scalar hw => exact List.length_pos_iff.1 hw.length_pos
    | definite hw => exact hw.ne_nil
    | indefinite => exact List.cons_ne_nil _ _
  refine ⟨raw ++ front, rest, by simp [hfront], by simp, by simp [hsize], ?_, ?_⟩
  · rintro start rfl
    obtain ⟨hrest, hoffset, -⟩ := hopens.cursor
    exact ⟨hrest, by simp [hoffset]⟩
  · intro more
    have hopens' : Content.Opens raw.length more front (content.mapRest fun _ => more) shortest := by
      cases hopens with
      | scalar hw hc =>
        rw [Content.mapRest_scalar _ (Tree.scalar?_ne_container hc)]
        exact .scalar hw hc
      | definite hw hn => exact .definite hw hn
      | indefinite kind => exact .indefinite kind
    rw [List.append_assoc]
    exact (open?_of_opens ht hopens').trans (by rw [onto, mapRest, hsize])

theorem stands_scalar {data : Bytes} {item : Item} (ho : open? data = .ok (some item))
    (hs : ∀ start, item.content ≠ .container start) :
    ∃ bytes rest, data = bytes ++ rest ∧ bytes.length = item.size ∧ Stands bytes := by
  obtain ⟨front, rest, hfront, hdata, hsize, -, hopen⟩ := open?_onto ho
  refine ⟨front, rest, hdata, hsize, hfront, fun more => ⟨item, ?_, ?_⟩⟩
  · rw [hopen, onto, mapRest_scalar _ hs]
  · rw [hsize]
    exact .scalar hs

theorem stands_container {data : Bytes} {item : Item} {start last : Cursor}
    (ho : open? data = .ok (some item)) (hc : item.content = .container start)
    (h : start.Framed last) :
    ∃ bytes rest, data = bytes ++ rest ∧ bytes.length = last.offset ∧ Stands bytes := by
  obtain ⟨front, rest, hfront, hdata, hsize, hstart, hopen⟩ := open?_onto ho
  obtain ⟨rfl, hoffset⟩ := hstart start hc
  obtain ⟨passed, hrest, hlast, hends⟩ := h
  have hlen : (front ++ passed).length = last.offset := by
    rw [List.length_append, hlast, hoffset]
  refine ⟨front ++ passed, last.rest, ?_, hlen, by simp [hfront], fun more => ?_⟩
  · rw [hdata, hrest, List.append_assoc]
  · rw [List.append_assoc, hlen]
    refine ⟨item.onto (passed ++ more), hopen _, ?_⟩
    have hcontent : (item.onto (passed ++ more)).content = .container (start.onto (passed ++ more)) :=
      mapRest_container _ hc
    have hends' : (item.onto (passed ++ more)).EndsAfter (last.onto more).offset :=
      .container hcontent (hends more)
    exact hends'

end Item

namespace Cursor
variable {c last : Cursor}

/-- An item in front of others that can be passed. -/
theorem Framed.cons {bytes rest : Bytes} (hend : c.atEnd = (.ok false, c)) (hrest : c.rest = bytes ++ rest)
    (hb : Item.Stands bytes) (h : (c.advance bytes.length).Framed last) : c.Framed last := by
  obtain ⟨passed, hpassed, hoffset, hends⟩ := h
  refine ⟨bytes ++ passed, ?_, ?_, fun more => ?_⟩
  · dsimp only [advance] at hpassed
    rw [hrest, List.drop_left] at hpassed
    rw [hrest, hpassed, List.append_assoc]
  · rw [hoffset, advance, List.length_append, Nat.add_assoc]
  · obtain ⟨hne, hopen⟩ := hb
    obtain ⟨item, ho, hi⟩ := hopen (passed ++ more)
    rw [List.append_assoc]
    have hend' : (c.onto (bytes ++ (passed ++ more))).atEnd = (.ok false, c.onto (bytes ++ (passed ++ more))) := by
      refine atEnd_eq_false_iff.2 ⟨rfl, ?_⟩
      rcases (atEnd_eq_false_iff.1 hend).2 with hcount | ⟨hcount, b, after, hb, hstop⟩
      · exact .inl hcount
      · obtain ⟨b', bytes, rfl⟩ := List.exists_cons_of_ne_nil hne
        rw [hrest] at hb
        cases hb
        exact .inr ⟨hcount, _, _, rfl, hstop⟩
    have hadvance : (c.onto (bytes ++ (passed ++ more))).advance bytes.length =
        (c.advance bytes.length).onto (passed ++ more) := by
      simp only [advance, mapRest, List.drop_left]
    refine .cons (peek_eq_some_iff.2 ⟨rfl, hend', ho⟩) hi ?_
    rw [hadvance]
    exact hends more

/-- What can be passed can be passed whatever follows it. -/
theorem EndsAt.framed (h : c.EndsAt last) : c.Framed last := by
  induction h with
  | nil h =>
    rcases atEnd_eq_true_iff.1 h with ⟨n, hn, hle, rfl⟩ | ⟨hn, hp, rfl, rest, hrest⟩
    · exact ⟨[], rfl, rfl, fun more => .nil (atEnd_eq_true_iff.2 (.inl ⟨n, hn, hle, rfl⟩))⟩
    · refine ⟨[Head.stop], ?_, rfl, fun more => .nil (atEnd_eq_true_iff.2 (.inr ⟨hn, hp, rfl, more, rfl⟩))⟩
      rw [settle, hrest]
      rfl
  | scalar hpeek hs h ih =>
    obtain ⟨-, hend, ho⟩ := peek_eq_some_iff.1 hpeek
    obtain ⟨bytes, rest, hrest, hlen, hb⟩ := Item.stands_scalar ho hs
    rw [← hlen] at ih
    exact .cons hend hrest hb ih
  | container hpeek hc hinner h ihinner ih =>
    obtain ⟨-, hend, ho⟩ := peek_eq_some_iff.1 hpeek
    obtain ⟨bytes, rest, hrest, hlen, hb⟩ := Item.stands_container ho hc ihinner
    rw [← hlen] at ih
    exact .cons hend hrest hb ih

end Cursor

/-- The bytes of an item are one whatever follows them. -/
theorem Item.EndsAfter.exists_stands {data : Bytes} {item : Item} {n : Nat}
    (ho : Item.open? data = .ok (some item)) (h : item.EndsAfter n) :
    ∃ bytes rest, data = bytes ++ rest ∧ bytes.length = n ∧ Item.Stands bytes := by
  cases h with
  | scalar hs => exact Item.stands_scalar ho hs
  | container hc h => exact Item.stands_container ho hc h.framed

end CborRecords
