import CborRecords.Proofs.Skipping

/-!
# What programs keep

Whatever a program does in a container, its cursor moves only over items that were visited with success
and over the end of the container. So what these moves keep holds wherever the program leaves its cursor,
also where an operation has failed, and what is known of a container that is left at its end is known of
every item that is passed.

* `Cursor.Keeps` : how a cursor stands to the start of its container, and what is known of an item that is
  passed by a length, such that each follows from the other;
* `Cursor.Keeps.query`, `Cursor.Keeps.run` : queries and programs keep the first;
* `Cursor.Keeps.gives_skip`, `Cursor.Keeps.gives_visit` : the second holds of what skipping and entries pass.
-/

namespace CborRecords

/-- Only scalars are read as a scalar. -/
theorem Item.scalar_ne_container {t : ScalarType} {item : Item} {value : Scalar}
    (h : item.scalar t = .ok value) : ∀ c, item.content ≠ .container c := by
  intro c hc
  unfold scalar at h
  cases t with
  | int t =>
    have herror : ∃ e, item.integer t = .error e := by
      cases hsigned : t.signed <;> simp [integer, unsigned64, signed64, hc, hsigned]
    obtain ⟨e, he⟩ := herror
    simp [he] at h
  | float => simp [hc] at h
  | bool => simp [hc] at h

theorem Item.container_or_scalar (item : Item) :
    (∃ start, item.content = .container start) ∨ ∀ start, item.content ≠ .container start := by
  by_cases h : ∃ start, item.content = .container start
  · exact .inl h
  · exact .inr fun start hc => h ⟨start, hc⟩

theorem Cursor.scalar?_snd (t : ScalarType) (c : Cursor) :
    (c.scalar? t).2 = (c.next? fun item => match item.scalar t with
      | .error e => .error e
      | .ok value => .ok (value, item.size)).2 := by
  unfold Cursor.scalar?
  dsimp only
  split <;> rename_i hnext <;> exact (congrArg Prod.snd hnext).symm

/-- Two properties that follow from each other: `R` relates a cursor to the start of its container, and
`Q` an item to the length it was passed by. `R` is kept by passing such items; scalars have `Q`, and so has
a container that is closed where `R` holds. -/
structure Cursor.Keeps (Q : Item → Nat → Prop) (R : (start c : Cursor) → Prop) : Prop where
  moves (start : Cursor) : Moves Q (R start)
  scalar {item : Item} (hs : ∀ start, item.content ≠ .container start) : Q item item.size
  close {item : Item} {start c : Cursor} {n : Nat} (hc : item.content = .container start)
    (h : R start start → R start c) (hclose : c.close = .ok n) : Q item n

namespace Cursor.Keeps
variable {Q : Item → Nat → Prop} {R : Cursor → Cursor → Prop} {start c : Cursor}

/-! ## Queries -/

theorem gives_skip (hk : Keeps Q R) (m : Nat) : Item.Gives Q (Item.skip m) := by
  induction m with
  | zero =>
    intro item n hn
    rcases item.container_or_scalar with ⟨start, hc⟩ | hs
    · rw [Item.skip_container_zero hc] at hn
      cases hn
    · rw [Item.skip_scalar 0 hs] at hn
      cases hn
      exact hk.scalar hs
  | succ m ih =>
    intro item n hn
    rcases item.container_or_scalar with ⟨start, hc⟩ | hs
    · obtain ⟨c, hskip, hclose⟩ := (Item.skip_container_eq_ok_iff hc m).1 hn
      refine hk.close hc ?_ hclose
      intro hstart
      have hmoved := (hk.moves start).skipToEnd ih hstart
      rwa [hskip] at hmoved
    · rw [Item.skip_scalar _ hs] at hn
      cases hn
      exact hk.scalar hs

theorem scalar? (hk : Keeps Q R) (t : ScalarType) (h : R start c) : R start (c.scalar? t).2 := by
  rw [scalar?_snd]
  apply (hk.moves start).next? _ h
  intro item n hn
  dsimp only at hn
  split at hn
  · cases hn
  · rename_i value hvalue
    cases hn
    exact hk.scalar (Item.scalar_ne_container hvalue)

theorem query (hk : Keeps Q R) (q : Query) (h : R start c) : R start (q.run c).2 := by
  cases q with
  | length | isEmpty | isDefinite => exact h
  | atEnd => exact (hk.moves start).atEnd h
  | skipToEnd depth => exact (hk.moves start).skipToEnd (hk.gives_skip depth) h
  | scalar t | scalar? t => exact hk.scalar? t h

/-! ## Programs -/

theorem visit (hk : Keeps Q R) {inside : Item → List Event × Except DecodeError Nat}
    (hinside : Item.Gives Q fun item => (inside item).2) (h : R start c) :
    R start (Program.visit inside c).2.2 := by
  unfold Program.visit
  have hpeek := (hk.moves start).peek h
  split
  · rename_i hc
    rwa [hc] at hpeek
  · rename_i hc
    rwa [hc] at hpeek
  · rename_i item c' hc
    split
    · rwa [hc] at hpeek
    · rename_i events length hvisit
      exact (hk.moves start).advance_visit h hc (hinside item length (congrArg Prod.snd hvisit))

section Entering
variable {inside : Item → Cursor → Program.Run}

theorem gives_entering (hk : Keeps Q R)
    (hinside : ∀ (item : Item) {start c : Cursor}, R start c → R start (inside item c).2.2) (level : Nat)
    (scalar : Item → Except DecodeError Unit) :
    Item.Gives Q fun item => (Program.entering level scalar inside item).2 := by
  intro item n hn
  dsimp only at hn
  unfold Program.entering at hn
  split at hn
  · rename_i start hc
    split at hn
    · cases hn
    · rename_i events c hrun
      refine hk.close hc ?_ hn
      intro hstart
      have hleft := hinside item.bare hstart
      rwa [hrun] at hleft
  · rename_i hs
    cases hdecided : scalar item.bare with
    | error e =>
      rw [hdecided] at hn
      cases hn
    | ok accepted =>
      rw [hdecided] at hn
      cases hn
      exact hk.scalar hs

theorem gives_enteringArray (hk : Keeps Q R)
    (hinside : ∀ (item : Item) {start c : Cursor}, R start c → R start (inside item c).2.2)
    (note : Item → List Event) :
    Item.Gives Q fun item => (Program.enteringArray note inside item).2 := by
  intro item n hn
  dsimp only at hn
  unfold Program.enteringArray at hn
  split at hn
  · rename_i start hc
    split at hn
    · split at hn
      · cases hn
      · rename_i events c hrun
        refine hk.close hc ?_ hn
        intro hstart
        have hleft := hinside item.bare hstart
        rwa [hrun] at hleft
    · cases hn
  · cases hn

end Entering

/-- Whatever a program does, and whatever fails in it, its cursor stands to the start as before. -/
theorem run (hk : Keeps Q R) {p : Program} {level : Nat} {start c : Cursor} (h : R start c) :
    R start (p.run level c).2.2 := by
  induction p generalizing level start c with
  | leave result => exact h
  | ask q next ih => exact ih _ (hk.query q h)
  | pass limit required next ih => exact ih _ _ (hk.visit (hk.gives_skip limit) h)
  | meet scalar inside required next ih ih' =>
    exact ih' _ _ (hk.visit (hk.gives_entering (fun item => ih item) level scalar) h)
  | meetArray inside required next ih ih' =>
    exact ih' _ _ (hk.visit (hk.gives_enteringArray (fun item => ih item) _) h)

theorem gives_visit (hk : Keeps Q R) (entry : Entry) : Item.Gives Q fun item => (entry.visit item).2 := by
  cases entry with
  | skip depth => exact hk.gives_skip depth
  | meet scalar inside => exact hk.gives_entering (fun _ => hk.run) 0 scalar
  | meetArray inside => exact hk.gives_enteringArray (fun _ => hk.run) _

end Cursor.Keeps

end CborRecords
