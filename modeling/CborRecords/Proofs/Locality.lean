import CborRecords.Proofs.Ending
import CborRecords.Proofs.Extending
import CborRecords.Proofs.Headers

/-!
# Reading no further than the item

As long as the items from a cursor on can all be passed, no operation looks at what stands behind them,
whether it succeeds or fails. A run that succeeds shows that its item is such an item, so bytes behind the
item could have been any others.

* `Cursor.Whole`, `Item.Whole` : items that can be passed, with all that is nested in them;
* `Cursor.Stable`, `Item.Stable` : operations and visits that more bytes behind such items do not change;
* `Item.skip_extend`, `Query.stable_run`, `Program.stable_run` : all of them are;
* `Event.map_bare_extend` : what a program sees of the record does not depend on the bytes behind;
* `Entry.reads_no_further` : runs on the same item in front of any bytes.
-/

namespace CborRecords

/-! ## Whole items -/

/-- The items from a cursor on can be passed, with all that is nested in them. -/
def Cursor.Whole (c : Cursor) : Prop :=
  ∃ last, c.EndsAt last

/-- The item can be passed, with all that is nested in it. -/
def Item.Whole (item : Item) : Prop :=
  ∃ n, item.EndsAfter n

theorem Item.Whole.cursor {item : Item} {start : Cursor} (h : item.Whole)
    (hc : item.content = .container start) : start.Whole := by
  obtain ⟨n, h⟩ := h
  cases h with
  | scalar hs => exact absurd hc (hs _)
  | container hc' h =>
    rw [hc] at hc'
    cases hc'
    exact ⟨_, h⟩

/-- What opened opens the same in front of more bytes. -/
theorem Item.open?_append {data : Bytes} {item : Item} (ho : Item.open? data = .ok (some item)) (more : Bytes) :
    Item.open? (data ++ more) = .ok (some (item.extend more)) := by
  have hextends := Item.open?_extends data more
  rw [ho] at hextends
  rcases hopen : Item.open? (data ++ more) with e | (_ | item')
  · rw [hopen] at hextends
    cases hextends
  · rw [hopen] at hextends
    cases hextends
  · rw [hopen] at hextends
    cases hextends
    rfl

namespace Cursor
variable {c : Cursor}

/-- A cursor whose items are whole knows whether it is at the end. -/
theorem Whole.atEnd (h : c.Whole) (more : Bytes) :
    ∃ b c', c.atEnd = (.ok b, c') ∧ (c.extend more).atEnd = (.ok b, c'.extend more) ∧ c'.Whole := by
  obtain ⟨last, h⟩ := h
  have hextend := (atEnd_extend more c).1
  rcases h.step with hend | ⟨item, n, hpeek, -, -⟩
  · rw [hend] at hextend
    exact ⟨true, last, hend, hextend.resolve_left nofun, last, .nil (atEnd_of_atEnd hend)⟩
  · obtain ⟨-, hend, -⟩ := peek_eq_some_iff.1 hpeek
    rw [hend] at hextend
    exact ⟨false, c, hend, hextend.resolve_left nofun, last, h⟩

/-- What stands at a cursor whose items are whole: their end, or an item that is whole and that can be
passed. -/
theorem Whole.peek (h : c.Whole) (more : Bytes) :
    (∃ last, c.peek = (.ok none, last) ∧ (c.extend more).peek = (.ok none, last.extend more) ∧
      last.Whole) ∨
    ∃ item, c.peek = (.ok (some item), c) ∧
      (c.extend more).peek = (.ok (some (item.extend more)), c.extend more) ∧ item.Whole ∧
      ∀ n, item.EndsAfter n → 0 < n ∧ n ≤ c.rest.length ∧ (c.advance n).Whole := by
  obtain ⟨b, c', hend, hend', hwhole⟩ := h.atEnd more
  obtain ⟨last, h⟩ := h
  rcases h.step with hlast | ⟨item, n, hpeek, hi, hnext⟩
  · rw [hend] at hlast
    cases hlast
    exact .inl ⟨c', peek_eq_none_iff.2 hend, peek_eq_none_iff.2 hend', hwhole⟩
  · obtain ⟨-, hfalse, ho⟩ := peek_eq_some_iff.1 hpeek
    rw [hfalse] at hend
    cases hend
    refine .inr ⟨item, hpeek, peek_eq_some_iff.2 ⟨rfl, hend', Item.open?_append ho more⟩, ⟨n, hi⟩, ?_⟩
    intro n' hi'
    obtain rfl := hi.unique hi'
    obtain ⟨bytes, rest, hrest, rfl, hne, -⟩ := hi.exists_stands ho
    refine ⟨List.length_pos_iff.2 hne, ?_, last, hnext⟩
    rw [hrest, List.length_append]
    omega

theorem Whole.close_extend (h : c.Whole) (more : Bytes) : (c.extend more).close = c.close := by
  obtain ⟨b, c', hend, hend', -⟩ := h.atEnd more
  rw [close, close, hend, hend']
  cases b <;> rfl

end Cursor

/-! ## Operations that look no further -/

/-- The same line of the record, with more bytes behind an item that was opened. -/
def Event.extend (more : Bytes) : Event → Event
  | .entered depth item => .entered depth (item.extend more)
  | .enteredArray depth item => .enteredArray depth (item.extend more)
  | .finished depth operation outcome offset => .finished depth operation outcome offset

theorem Item.bare_extend (item : Item) (more : Bytes) : (item.extend more).bare = item.bare :=
  item.mapRest_mapRest _ _

/-- Nothing of the bytes behind is shown to a program. -/
theorem Event.map_bare_extend (more : Bytes) (events : List Event) :
    (events.map (Event.extend more)).map Event.bare = events.map Event.bare := by
  rw [List.map_map]
  refine List.map_congr_left fun event _ => ?_
  cases event with
  | entered | enteredArray => simp only [Function.comp, extend, bare, Item.bare_extend]
  | finished => rfl

/-- What an operation notes, gives and leaves, with more bytes behind. -/
def Cursor.extendRun {α β : Type} (more : Bytes) (note : β → β) (run : List β × α × Cursor) :
    List β × α × Cursor :=
  (run.1.map note, run.2.1, run.2.2.extend more)

/-- An operation on a cursor whose items are whole: with more bytes behind them it gives the same, up to
what it notes of these, and what is left of the items is whole. -/
def Cursor.Stable {α β : Type} (more : Bytes) (note : β → β) (operation : Cursor → List β × α × Cursor) :
    Prop :=
  ∀ c : Cursor, c.Whole →
    operation (c.extend more) = extendRun more note (operation c) ∧ (operation c).2.2.Whole

/-- A visit of an item that is whole: with more bytes behind the item it gives the same, up to what it
notes of these. -/
def Item.Stable {β : Type} (more : Bytes) (note : β → β) (visit : Item → List β × Except DecodeError Nat) :
    Prop :=
  ∀ item : Item, item.Whole → visit (item.extend more) = ((visit item).1.map note, (visit item).2)

namespace Cursor
variable {α β γ : Type} {more : Bytes} {note : β → β}

/-- What comes next may depend on what was noted, as long as it does not on the bytes behind. -/
theorem Stable.bind {first : Cursor → List β × α × Cursor}
    {next : List β → α → Cursor → List β × γ × Cursor} (hfirst : Stable more note first)
    (hnext : ∀ notes a, Stable more note (next notes a)) (hnotes : ∀ notes, next (notes.map note) = next notes) :
    Stable more note fun c =>
      ((first c).1 ++ (next (first c).1 (first c).2.1 (first c).2.2).1,
        (next (first c).1 (first c).2.1 (first c).2.2).2) := by
  intro c h
  obtain ⟨hrun, hwhole⟩ := hfirst c h
  obtain ⟨hrun', hwhole'⟩ := hnext (first c).1 (first c).2.1 (first c).2.2 hwhole
  refine ⟨?_, hwhole'⟩
  dsimp only
  rw [hrun]
  dsimp only [extendRun]
  rw [hnotes, hrun', List.map_append]
  rfl

section Traverse
variable {visit : Item → List β × Except DecodeError Nat} {c : Cursor}

/-- There is a byte for each item that is whole, so the limits do not matter. -/
theorem stable_traverseFrom (hends : Item.Gives Item.EndsAfter fun item => (visit item).2)
    (hstable : Item.Stable more note visit) {limit limit' : Nat} (hlimit : c.rest.length ≤ limit)
    (hlimit' : c.rest.length ≤ limit') (h : c.Whole) :
    traverseFrom visit limit' (c.extend more) = extendRun more note (traverseFrom visit limit c) ∧
      (traverseFrom visit limit c).2.2.Whole := by
  generalize hk : c.rest.length = k at hlimit hlimit'
  induction k using Nat.strongRecOn generalizing c limit limit' with
  | _ k ih =>
    rcases h.peek more with ⟨last, hpeek, hpeek', hlast⟩ | ⟨item, hpeek, hpeek', hitem, hnext⟩
    · rw [traverseFrom_of_none _ hpeek, traverseFrom_of_none _ hpeek']
      exact ⟨rfl, hlast⟩
    · have hvisit' := hstable item hitem
      rcases hvisit : visit item with ⟨notes, e | n⟩
      · rw [hvisit] at hvisit'
        rw [traverseFrom_of_error _ hpeek hvisit, traverseFrom_of_error _ hpeek' hvisit']
        exact ⟨rfl, h⟩
      · obtain ⟨hpos, hle, hwhole⟩ := hnext n (hends item n (congrArg Prod.snd hvisit))
        obtain ⟨limit, rfl⟩ : ∃ l, limit = l + 1 := ⟨limit - 1, by omega⟩
        obtain ⟨limit', rfl⟩ : ∃ l, limit' = l + 1 := ⟨limit' - 1, by omega⟩
        have hlen : (c.advance n).rest.length = k - n := by
          rw [advance, List.length_drop, hk]
        obtain ⟨hmore, hend⟩ := ih (k - n) (by omega) hwhole hlen (by omega : k - n ≤ limit)
          (by omega : k - n ≤ limit')
        rw [hvisit] at hvisit'
        rw [traverseFrom_of_ok _ hpeek hvisit, traverseFrom_of_ok _ hpeek' hvisit', advance_extend hle, hmore]
        refine ⟨?_, hend⟩
        simp only [extendRun, List.map_append]

end Traverse

theorem skipToEnd_extend {m : Nat}
    (hskip : ∀ {item : Item}, item.Whole → (item.extend more).skip m = item.skip m) {c : Cursor}
    (h : c.Whole) :
    (c.extend more).skipToEnd m = ((c.skipToEnd m).1, (c.skipToEnd m).2.extend more) ∧
      (c.skipToEnd m).2.Whole := by
  have hstable : Item.Stable more id fun item => (([] : List Empty), item.skip m) := by
    intro item hitem
    dsimp only
    rw [hskip hitem]
    rfl
  have hlimit : c.rest.length ≤ (c.extend more).rest.length := by
    simp [extend, mapRest]
  obtain ⟨hrun, hwhole⟩ := stable_traverseFrom (Cursor.keeps_leads.gives_skip m) hstable (Nat.le_refl _) hlimit h
  exact ⟨congrArg Prod.snd hrun, hwhole⟩

end Cursor

/-- Skipping an item that is whole. -/
theorem Item.skip_extend (m : Nat) {item : Item} (h : item.Whole) (more : Bytes) :
    (item.extend more).skip m = item.skip m := by
  induction m generalizing item with
  | zero =>
    rcases item.container_or_scalar with ⟨start, hc⟩ | hs
    · rw [skip_container_zero hc, skip_container_zero (extend_container hc more)]
    · rw [extend_scalar hs]
  | succ m ih =>
    rcases item.container_or_scalar with ⟨start, hc⟩ | hs
    · rw [skip_container hc, skip_container (extend_container hc more)]
      obtain ⟨hrun, hwhole⟩ := Cursor.skipToEnd_extend ih (h.cursor hc)
      rw [hrun]
      rcases hskip : start.skipToEnd m with ⟨e | _, c⟩
      · rfl
      · rw [hskip] at hwhole
        exact hwhole.close_extend more
    · rw [extend_scalar hs]

/-! ## Queries -/

namespace Item

theorem typeName_extend (item : Item) (more : Bytes) : (item.extend more).typeName = item.typeName := by
  obtain ⟨tags, shortest, content, size⟩ := item
  cases content with
  | bool b => cases b <;> rfl
  | _ => rfl

theorem scalar_extend (t : ScalarType) (item : Item) (more : Bytes) :
    (item.extend more).scalar t = item.scalar t := by
  rcases item.container_or_scalar with ⟨start, hc⟩ | hs
  · -- no container is read as a scalar, and the error names its type
    have hname := item.typeName_extend more
    have hc' := extend_container hc more
    cases t with
    | int t => simp only [scalar, integer, unsigned64, signed64, hc, hc', hname]
    | float | bool => simp only [scalar, hc, hc', hname]
  · rw [extend_scalar hs]

end Item

namespace Cursor
variable {c last : Cursor} {item : Item} {t : ScalarType}

theorem scalar?_of_none (hpeek : c.peek = (.ok none, last)) : c.scalar? t = (.ok none, last) := by
  unfold scalar? next?
  rw [hpeek]

theorem scalar?_of_error {e : DecodeError} (hpeek : c.peek = (.ok (some item), c))
    (hvalue : item.scalar t = .error e) : c.scalar? t = (.error e, c) := by
  unfold scalar? next?
  rw [hpeek]
  dsimp only
  rw [hvalue]

theorem scalar?_of_ok {value : Scalar} (hpeek : c.peek = (.ok (some item), c))
    (hvalue : item.scalar t = .ok value) : c.scalar? t = (.ok (some value), c.advance item.size) := by
  unfold scalar? next?
  rw [hpeek]
  dsimp only
  rw [hvalue]

theorem scalar?_extend (t : ScalarType) (h : c.Whole) (more : Bytes) :
    (c.extend more).scalar? t = ((c.scalar? t).1, (c.scalar? t).2.extend more) ∧
      (c.scalar? t).2.Whole := by
  rcases h.peek more with ⟨last, hpeek, hpeek', hlast⟩ | ⟨item, hpeek, hpeek', hitem, hnext⟩
  · rw [scalar?_of_none hpeek, scalar?_of_none hpeek']
    exact ⟨rfl, hlast⟩
  · have hvalue' := item.scalar_extend t more
    cases hvalue : item.scalar t with
    | error e =>
      rw [hvalue] at hvalue'
      rw [scalar?_of_error hpeek hvalue, scalar?_of_error hpeek' hvalue']
      exact ⟨rfl, h⟩
    | ok value =>
      rw [hvalue] at hvalue'
      obtain ⟨-, hle, hwhole⟩ := hnext _ (.scalar (Item.scalar_ne_container hvalue))
      rw [scalar?_of_ok hpeek hvalue, scalar?_of_ok hpeek' hvalue']
      refine ⟨?_, hwhole⟩
      rw [← advance_extend hle]
      rfl

end Cursor

theorem Query.stable_run {more : Bytes} (q : Query) :
    Cursor.Stable more (Event.extend more) fun c => ([], q.run c) := by
  intro c h
  cases q with
  | length | isEmpty | isDefinite => exact ⟨rfl, h⟩
  | atEnd =>
    obtain ⟨b, c', hend, hend', hwhole⟩ := h.atEnd more
    simp only [run, hend, hend']
    exact ⟨rfl, hwhole⟩
  | skipToEnd depth =>
    obtain ⟨hrun, hwhole⟩ := Cursor.skipToEnd_extend (fun hitem => Item.skip_extend depth hitem more) h
    simp only [run, hrun]
    exact ⟨rfl, hwhole⟩
  | scalar t =>
    obtain ⟨hrun, hwhole⟩ := Cursor.scalar?_extend t h more
    simp only [run, Cursor.scalar, hrun]
    exact ⟨rfl, hwhole⟩
  | scalar? t =>
    obtain ⟨hrun, hwhole⟩ := Cursor.scalar?_extend t h more
    simp only [run, hrun]
    exact ⟨rfl, hwhole⟩

/-! ## Programs -/

namespace Program
variable {more : Bytes} {inside : Item → List Event × Except DecodeError Nat} {c last : Cursor} {item : Item}
  {events : List Event}

theorem visit_of_none (hpeek : c.peek = (.ok none, last)) : visit inside c = ([], .ok none, last) := by
  rw [visit, hpeek]

theorem visit_of_error {e : DecodeError} (hpeek : c.peek = (.ok (some item), c))
    (hinside : inside item = (events, .error e)) : visit inside c = (events, .error e, c) := by
  rw [visit, hpeek]
  dsimp only
  rw [hinside]

theorem visit_of_ok {n : Nat} (hpeek : c.peek = (.ok (some item), c))
    (hinside : inside item = (events, .ok n)) : visit inside c = (events, .ok (some n), c.advance n) := by
  rw [visit, hpeek]
  dsimp only
  rw [hinside]

/-- A visit of the item at a cursor, which is passed if the visit succeeds. -/
theorem stable_visit (hends : Item.Gives Item.EndsAfter fun item => (inside item).2)
    (hstable : Item.Stable more (Event.extend more) inside) :
    Cursor.Stable more (Event.extend more) (visit inside) := by
  intro c h
  rcases h.peek more with ⟨last, hpeek, hpeek', hlast⟩ | ⟨item, hpeek, hpeek', hitem, hnext⟩
  · rw [visit_of_none hpeek, visit_of_none hpeek']
    exact ⟨rfl, hlast⟩
  · have hinside' := hstable item hitem
    rcases hinside : inside item with ⟨events, e | n⟩
    · rw [hinside] at hinside'
      rw [visit_of_error hpeek hinside, visit_of_error hpeek' hinside']
      exact ⟨rfl, h⟩
    · rw [hinside] at hinside'
      obtain ⟨-, hle, hwhole⟩ := hnext n (hends item n (congrArg Prod.snd hinside))
      rw [visit_of_ok hpeek hinside, visit_of_ok hpeek' hinside']
      refine ⟨?_, hwhole⟩
      rw [Cursor.advance_extend hle]
      rfl

theorem stable_proceed {next : Cursor → Run} (hnext : Cursor.Stable more (Event.extend more) next)
    (level : Nat) (operation : Operation) (outcome : Except DecodeError Answer) :
    Cursor.Stable more (Event.extend more) fun c => proceed level operation outcome c next := by
  intro c h
  obtain ⟨hrun, hwhole⟩ := hnext c h
  refine ⟨?_, hwhole⟩
  dsimp only [proceed]
  rw [hrun]
  rfl

/-- A visit and what follows it. -/
theorem stable_follow {first : Cursor → List Event × Except DecodeError (Option Nat) × Cursor}
    {next : List Event → Except DecodeError Answer → Program} {level : Nat}
    (hfirst : Cursor.Stable more (Event.extend more) first)
    (hnext : ∀ events outcome, Cursor.Stable more (Event.extend more) ((next events outcome).run level))
    (entering : Entering) (required : Bool) :
    Cursor.Stable more (Event.extend more) fun c =>
      follow level entering required (first c) fun events outcome => (next events outcome).run level := by
  have hproceed (events : List Event) (result : Except DecodeError (Option Nat)) :=
    stable_proceed (hnext (events.map Event.bare) (answer required result)) level (.visit entering required)
      (answer required result)
  refine hfirst.bind hproceed ?_
  intro events
  rw [Event.map_bare_extend]

theorem stable_skipping (level depth : Nat) : Item.Stable more (Event.extend more) (skipping level depth) := by
  intro item h
  rw [skipping, skipping, Item.skip_extend depth h]
  rfl

section Entering
variable {level : Nat} {scalar : Item → Except DecodeError Unit} {note : Item → List Event}
  {inside : Item → Cursor → Run} {start : Cursor}

theorem entering_scalar (hs : ∀ start, item.content ≠ .container start) :
    entering level scalar inside item =
      ([.entered level item], (scalar item.bare).map fun () => item.size) := by
  unfold entering
  split
  · rename_i start hc
    exact absurd hc (hs start)
  · rfl

theorem entering_container (hc : item.content = .container start) :
    entering level scalar inside item =
      (.entered level item :: (inside item.bare start).1,
        (inside item.bare start).2.1.bind fun _ => (inside item.bare start).2.2.close) := by
  unfold entering
  rw [hc]
  dsimp only
  rcases inside item.bare start with ⟨events, e | _, c⟩ <;> rfl

theorem enteringArray_array (hc : item.content = .container start) (hkind : start.kind = .array) :
    enteringArray note inside item =
      (note item ++ (inside item.bare start).1,
        (inside item.bare start).2.1.bind fun _ => (inside item.bare start).2.2.close) := by
  unfold enteringArray
  rw [hc]
  dsimp only
  rw [if_pos hkind]
  rcases inside item.bare start with ⟨events, e | _, c⟩ <;> rfl

theorem enteringArray_other (h : ∀ start, item.content = .container start → start.kind ≠ .array) :
    enteringArray note inside item = ([], .error (.incorrectType "Array" item.typeName)) := by
  unfold enteringArray
  split
  · rename_i start hc
    rw [if_neg (h start hc)]
  · rfl

/-- Running a program in a container and closing it. -/
theorem stable_inside {inside : Cursor → Run} (hinside : Cursor.Stable more (Event.extend more) inside)
    (h : start.Whole) :
    (inside (start.extend more)).1 = (inside start).1.map (Event.extend more) ∧
      ((inside (start.extend more)).2.1.bind fun _ => (inside (start.extend more)).2.2.close) =
        (inside start).2.1.bind fun _ => (inside start).2.2.close := by
  obtain ⟨hrun, hwhole⟩ := hinside start h
  rw [hrun]
  dsimp only [Cursor.extendRun]
  rw [hwhole.close_extend]
  exact ⟨rfl, rfl⟩

theorem stable_entering (hinside : ∀ item, Cursor.Stable more (Event.extend more) (inside item)) (level : Nat)
    (scalar : Item → Except DecodeError Unit) :
    Item.Stable more (Event.extend more) (entering level scalar inside) := by
  intro item h
  rcases item.container_or_scalar with ⟨start, hc⟩ | hs
  · obtain ⟨hevents, hclose⟩ := stable_inside (hinside item.bare) (h.cursor hc)
    rw [entering_container hc, entering_container (Item.extend_container hc more), item.bare_extend, hevents,
      hclose]
    rfl
  · rw [entering_scalar hs, Item.extend_scalar hs, entering_scalar hs, List.map_singleton, Event.extend,
      Item.extend_scalar hs]

theorem stable_enteringArray (hinside : ∀ item, Cursor.Stable more (Event.extend more) (inside item))
    (hnote : ∀ item : Item, note (item.extend more) = (note item).map (Event.extend more)) :
    Item.Stable more (Event.extend more) (enteringArray note inside) := by
  intro item h
  by_cases harray : ∃ start, item.content = .container start ∧ start.kind = .array
  · obtain ⟨start, hc, hkind⟩ := harray
    obtain ⟨hevents, hclose⟩ := stable_inside (hinside item.bare) (h.cursor hc)
    have hkind' : (start.extend more).kind = .array := hkind
    rw [enteringArray_array hc hkind, enteringArray_array (Item.extend_container hc more) hkind',
      item.bare_extend, hevents, hclose, hnote, List.map_append]
  · have hother : ∀ start, item.content = .container start → start.kind ≠ .array :=
      fun start hc hkind => harray ⟨start, hc, hkind⟩
    have hother' : ∀ start, (item.extend more).content = .container start → start.kind ≠ .array := by
      intro start' hc'
      rcases item.container_or_scalar with ⟨start, hc⟩ | hs
      · rw [Item.extend_container hc more] at hc'
        cases hc'
        exact hother start hc
      · rw [Item.extend_scalar hs] at hc'
        exact hother start' hc'
    rw [enteringArray_other hother, enteringArray_other hother', item.typeName_extend]
    rfl

end Entering

/-- No step of a program looks behind the items of its container, whether it succeeds or fails. -/
theorem stable_run (p : Program) (level : Nat) : Cursor.Stable more (Event.extend more) (p.run level) := by
  have hk := Cursor.keeps_leads
  induction p generalizing level with
  | leave result => exact fun c h => ⟨rfl, h⟩
  | ask q next ih =>
    exact q.stable_run.bind (fun _ outcome => stable_proceed (ih outcome level) level (.query q) outcome)
      fun _ => rfl
  | pass limit required next ih =>
    exact stable_follow (stable_visit (hk.gives_skip limit) (stable_skipping level limit))
      (fun events outcome => ih events outcome level) .skip required
  | meet scalar inside required next ih ih' =>
    exact stable_follow
      (stable_visit (hk.gives_entering (fun _ => hk.run) level scalar)
        (stable_entering (fun item => ih item _) level scalar))
      (fun events outcome => ih' events outcome level) .item required
  | meetArray inside required next ih ih' =>
    exact stable_follow
      (stable_visit (hk.gives_enteringArray (fun _ => hk.run) _)
        (stable_enteringArray (fun item => ih item _) fun _ => rfl))
      (fun events outcome => ih' events outcome level) .array required

end Program

theorem Entry.stable_visit {more : Bytes} (entry : Entry) :
    Item.Stable more (Event.extend more) entry.visit := by
  cases entry with
  | skip depth => exact Program.stable_skipping 0 depth
  | meet scalar inside => exact Program.stable_entering (fun item => (inside item).stable_run 1) 0 scalar
  | meetArray inside => exact Program.stable_enteringArray (fun item => (inside item).stable_run 1) fun _ => rfl

/-! ## Runs -/

/-- An item with an end opens in front of any bytes as it would in front of none. -/
theorem Item.EndsAfter.exists_base {data : Bytes} {item : Item} {n : Nat}
    (ho : Item.open? data = .ok (some item)) (h : item.EndsAfter n) :
    ∃ (base : Item) (rest : Bytes), item = base.extend rest ∧ base.Whole ∧
      ∀ more, Item.open? (data.take n ++ more) = .ok (some (base.extend more)) := by
  obtain ⟨bytes, rest, rfl, rfl, -, hstands⟩ := h.exists_stands ho
  obtain ⟨base, hbase, hends⟩ := hstands []
  rw [List.append_nil] at hbase
  rw [List.take_left]
  refine ⟨base, rest, ?_, ⟨_, hends⟩, Item.open?_append hbase⟩
  rw [Item.open?_append hbase] at ho
  simp only [Except.ok.injEq, Option.some.injEq] at ho
  exact ho.symm

namespace Entry
variable {entry : Entry} {data : Bytes} {item : Item} {n : Nat}

theorem run?_of_open (ho : Item.open? data = .ok (some item)) :
    entry.run? data = ((entry.visit item).1, (entry.visit item).2.map some) := by
  rw [run?, ho]
  dsimp only
  rcases entry.visit item with ⟨events, e | length⟩ <;> rfl

/-- A visit that succeeds does the same with the item in front of other bytes. -/
theorem run?_elsewhere (h : (entry.run? data).2 = .ok (some n)) (more : Bytes) :
    (entry.run? (data.take n ++ more)).2 = .ok (some n) ∧
      (entry.run? (data.take n ++ more)).1.map Event.bare = (entry.run? data).1.map Event.bare := by
  obtain ⟨item, ho, hn⟩ := run?_eq_some_iff.1 h
  obtain ⟨base, rest, rfl, hwhole, hopen⟩ := (Cursor.keeps_leads.gives_visit entry _ _ hn).exists_base ho
  rw [run?_of_open ho, run?_of_open (hopen more), entry.stable_visit base hwhole,
    entry.stable_visit base hwhole]
  dsimp only
  rw [entry.stable_visit base hwhole] at hn
  dsimp only at hn
  rw [hn, Event.map_bare_extend, Event.map_bare_extend]
  exact ⟨rfl, rfl⟩

theorem run_elsewhere (h : (entry.run data).2 = .ok n) (more : Bytes) :
    (entry.run (data.take n ++ more)).2 = .ok n ∧
      (entry.run (data.take n ++ more)).1.map Event.bare = (entry.run data).1.map Event.bare := by
  have hrun (data : Bytes) : entry.run data = ((entry.run? data).1, Cursor.require (entry.run? data).2) := rfl
  rw [hrun] at h ⊢
  rw [hrun]
  obtain ⟨hresult, hevents⟩ := run?_elsewhere (Cursor.require_eq_ok_iff.1 h) more
  exact ⟨Cursor.require_eq_ok_iff.2 hresult, hevents⟩

end Entry

namespace ScalarType
variable {t : ScalarType} {data : Bytes} {item : Item} {read : Scalar × Bool × Nat}

theorem read?_of_open (ho : Item.open? data = .ok (some item)) :
    t.read? data =
      (item.scalar t).map fun value => some (value, item.shortest && item.tags.isEmpty, item.size) := by
  rw [read?, ho]
  dsimp only
  cases item.scalar t <;> rfl

theorem read?_elsewhere (h : t.read? data = .ok (some read)) (more : Bytes) :
    t.read? (data.take read.2.2 ++ more) = .ok (some read) := by
  rcases ho : Item.open? data with e | (_ | item)
  · rw [read?, ho] at h
    cases h
  · rw [read?, ho] at h
    cases h
  · rw [read?_of_open ho] at h
    cases hvalue : item.scalar t with
    | error e =>
      rw [hvalue] at h
      cases h
    | ok value =>
      rw [hvalue] at h
      cases h
      have hends : item.EndsAfter item.size := .scalar (Item.scalar_ne_container hvalue)
      obtain ⟨base, rest, rfl, -, hopen⟩ := hends.exists_base ho
      rw [Item.scalar_extend] at hvalue
      rw [read?_of_open (hopen more), Item.scalar_extend, hvalue]
      rfl

end ScalarType

theorem Container.readHead_elsewhere {kind : Container} {data : Bytes} {count : Option UInt64} {n : Nat}
    (h : kind.readHead data = .ok (count, n)) (more : Bytes) :
    kind.readHead (data.take n ++ more) = .ok (count, n) := by
  obtain ⟨head, rest, rfl, rfl, hh⟩ := readHead_eq_ok_iff.1 h
  rw [List.take_left]
  exact readHead_eq_ok_iff.2 ⟨head, more, rfl, rfl, hh⟩

/-- A run that succeeds with a length reads no further: on as many bytes in front of any others, every
entry gives the same length and leaves the same record, with the same values and errors, lengths, offsets
and types. The same holds of the readers of scalars and of the heads of containers. -/
theorem Entry.reads_no_further :
    (∀ {entry : Entry} {data : Bytes} {n : Nat}, (entry.run data).2 = .ok n → ∀ more : Bytes,
      (entry.run (data.take n ++ more)).2 = .ok n ∧
        (entry.run (data.take n ++ more)).1.map Event.bare = (entry.run data).1.map Event.bare) ∧
    (∀ {entry : Entry} {data : Bytes} {n : Nat}, (entry.run? data).2 = .ok (some n) → ∀ more : Bytes,
      (entry.run? (data.take n ++ more)).2 = .ok (some n) ∧
        (entry.run? (data.take n ++ more)).1.map Event.bare = (entry.run? data).1.map Event.bare) ∧
    (∀ {t : ScalarType} {data : Bytes} {read : Scalar × Bool × Nat}, t.read data = .ok read →
      ∀ more : Bytes, t.read (data.take read.2.2 ++ more) = .ok read) ∧
    (∀ {t : ScalarType} {data : Bytes} {read : Scalar × Bool × Nat}, t.read? data = .ok (some read) →
      ∀ more : Bytes, t.read? (data.take read.2.2 ++ more) = .ok (some read)) ∧
    ∀ {kind : Container} {data : Bytes} {count : Option UInt64} {n : Nat},
      kind.readHead data = .ok (count, n) →
        ∀ more : Bytes, kind.readHead (data.take n ++ more) = .ok (count, n) := by
  refine ⟨run_elsewhere, run?_elsewhere, ?_, ScalarType.read?_elsewhere, Container.readHead_elsewhere⟩
  intro t data read h more
  exact Cursor.require_eq_ok_iff.2 (ScalarType.read?_elsewhere (Cursor.require_eq_ok_iff.1 h) more)

/-- A program that accepts no scalar and no boolean in the first place of a container: it goes on since an integer
stands there, fails to enter the map behind it as an array, enters it as an item and passes what is left, in front
of the start of a further item. -/
theorem Entry.retried_elsewhere :
    let data : Bytes := [0x9F, 0x18, 0x2A, 0xA1, 0x00, 0x81, 0xF5, 0xFF, 0x83]
    let rest : Program := .query (.scalar (.int ⟨false, .w8⟩)) true (.array .done true false
      (.skip 1 true false (.item (.query (.skipToEnd 1) true .done) true true (.query .atEnd true .done))))
    let entry : Entry := .meet (fun item => .error (.incorrectType "Array" item.typeName)) fun item =>
      if item.tags.isEmpty then .ask (.scalar .bool) fun outcome =>
        if outcome.isOk then .leave (.error (.incorrectType "Number" "Boolean")) else rest
      else .done
    (entry.run data).2 = .ok 8 ∧ (entry.run (data.take 8 ++ [0xFF, 0xFF])).2 = .ok 8 ∧
      (entry.run (data.take 8 ++ [0xFF, 0xFF])).1.map Event.bare = (entry.run data).1.map Event.bare := by
  intro data rest entry
  have hrun : (entry.run data).2 = .ok 8 := by decide +kernel
  exact ⟨hrun, reads_no_further.1 hrun _⟩

end CborRecords
