import CborRecords.Proofs.Passing
import CborRecords.Program

/-!
# The states of a run

While a program runs, one container is open for each level it has gone down. A state of the run is the
stack of these containers with their cursors, innermost first. What fails on the way does not undo what
a cursor has done, so the states are collected along the operations, failed ones included.

* `Frame` : an open container; `Task` : what is still to be done with its items;
* `Task.entry?`, `Entry.inside?` : what an operation does inside the container it meets;
* `Task.perform` : the first operation of a task, with what is left to do and the cursor after it;
* `Task.Reaches`, `Entry.Reaches` : the states that a task, and a whole run, come through;
* `Event.Shows`, `Entry.reaches_of_mem_run` : whatever a run reports, it reports in such a state.
-/

namespace CborRecords

/-! ## States -/

/-- An open container: the bytes from the start of its item on, its cursor as it was opened, and its
cursor as it stands. -/
structure Frame where
  data : Bytes
  start : Cursor
  now : Cursor

namespace Frame

/-- The container with its cursor moved. -/
def move (f : Frame) (c : Cursor) : Frame :=
  { f with now := c }

/-- The container that was opened at the cursor of `f`. -/
def enter (f : Frame) (start : Cursor) : Frame :=
  ⟨f.now.rest, start, start⟩

end Frame

/-- What is still to be done with the items of a container: a program, or passing all of them. -/
inductive Task
  | program (p : Program)
  | skip (depth : Nat)

/-- How the first operation of a task meets an item, if it visits one. -/
def Task.entry? : Task → Option Entry
  | .skip depth => some (.skip depth)
  | .program (.pass depth _ _) => some (.skip depth)
  | .program (.meet scalar inside _ _) => some (.meet scalar inside)
  | .program (.meetArray inside _ _) => some (.meetArray inside)
  | .program (.leave _) => none
  | .program (.ask _ _) => none

/-- What is done inside a container that is met, if it is entered. -/
def Entry.inside? : Entry → Item → Cursor → Option Task
  | .skip 0, _, _ => none
  | .skip (depth + 1), _, _ => some (.skip depth)
  | .meet _ inside, item, _ => some (.program (inside item.bare))
  | .meetArray inside, item, start =>
    if start.kind = .array then some (.program (inside item.bare)) else none

/-- What is left to do after a visit, and the cursor. -/
def Program.left (required : Bool) (visited : List Event × Except DecodeError (Option Nat) × Cursor)
    (next : List Event → Except DecodeError Answer → Program) : Option Task × Cursor :=
  let (events, result, c) := visited
  (some (.program (next (events.map Event.bare) (answer required result))), c)

/-- The first operation of a task: what is left to do, and the cursor after it. -/
def Task.perform (level : Nat) (c : Cursor) : Task → Option Task × Cursor
  | .program (.leave _) => (none, c)
  | .program (.ask q next) =>
    let (outcome, c) := q.run c
    (some (.program (next outcome)), c)
  | .program (.pass limit required next) =>
    Program.left required (Program.visit (Program.skipping level limit) c) next
  | .program (.meet scalar inside required next) =>
    Program.left required
      (Program.visit (Program.entering level scalar fun opened => (inside opened).run (level + 1)) c) next
  | .program (.meetArray inside required next) =>
    let note (opened : Item) := [Event.enteredArray level opened]
    Program.left required
      (Program.visit (Program.enteringArray note fun opened => (inside opened).run (level + 1)) c) next
  | .skip depth =>
    match Program.visit (Program.skipping level depth) c with
    | (_, .ok (some _), c) => (some (.skip depth), c)
    | (_, _, c) => (none, c)

/-- The states that a task comes through, from a container whose items are at a level. -/
inductive Task.Reaches : (level : Nat) → Task → Frame → List Frame → Prop
  | here {level : Nat} {task : Task} {f : Frame} : Reaches level task f [f]
  /-- After looking whether all items have been passed. -/
  | looked {level : Nat} {task : Task} {f : Frame} : Reaches level task f [f.move f.now.atEnd.2]
  /-- In a container that the first operation enters, while the cursor stands at it. -/
  | inside {level : Nat} {task inner : Task} {f : Frame} {item : Item} {entry : Entry} {start : Cursor}
      {stack : List Frame} (hpeek : f.now.peek = (.ok (some item), f.now))
      (hc : item.content = .container start) (he : task.entry? = some entry)
      (hi : entry.inside? item start = some inner) (h : Reaches (level + 1) inner (f.enter start) stack) :
      Reaches level task f (stack ++ [f])
  /-- Within a query that passes all items. -/
  | within {level depth : Nat} {next : Except DecodeError Answer → Program} {f : Frame}
      {stack : List Frame} (h : Reaches level (.skip depth) f stack) :
      Reaches level (.program (.ask (.skipToEnd depth) next)) f stack
  /-- After the first operation, failed or not. -/
  | after {level : Nat} {task : Task} {f : Frame} :
      Reaches level task f [f.move (task.perform level f.now).2]
  /-- In what is left to do after the first operation. -/
  | onward {level : Nat} {task left : Task} {f : Frame} {stack : List Frame}
      (hleft : (task.perform level f.now).1 = some left)
      (h : Reaches level left (f.move (task.perform level f.now).2) stack) : Reaches level task f stack

/-- The states that a run on a byte string comes through. -/
inductive Entry.Reaches (entry : Entry) (data : Bytes) : List Frame → Prop
  | inside {item : Item} {start : Cursor} {inner : Task} {stack : List Frame}
      (ho : Item.open? data = .ok (some item)) (hc : item.content = .container start)
      (hi : entry.inside? item start = some inner) (h : inner.Reaches 1 ⟨data, start, start⟩ stack) :
      Reaches entry data stack

/-! ## What is reported -/

/-- A state in which an event is reported, with `around` more containers around it: an item is opened at
the cursor of the innermost container, and an operation ended with that cursor. -/
def Event.Shows (around : Nat) (stack : List Frame) : Event → Prop
  | .entered level item | .enteredArray level item =>
    around + stack.length = level ∧
      ∃ f outer, stack = f :: outer ∧ Item.open? f.now.rest = .ok (some item)
  | .finished level _ _ offset =>
    around + stack.length = level ∧ ∃ f outer, stack = f :: outer ∧ f.now.offset = offset

theorem Event.Shows.append {around : Nat} {stack : List Frame} {event : Event}
    (h : event.Shows (around + 1) stack) (f : Frame) : event.Shows around (stack ++ [f]) := by
  cases event with
  | entered | enteredArray | finished =>
    obtain ⟨hlevel, g, outer, rfl, hg⟩ := h
    refine ⟨?_, g, outer ++ [f], rfl, hg⟩
    rw [List.length_append, List.length_singleton]
    omega

namespace Program
variable {level : Nat} {event : Event} {c : Cursor}

theorem mem_visit {inside : Item → List Event × Except DecodeError Nat}
    (h : event ∈ (visit inside c).1) :
    ∃ item, c.peek = (.ok (some item), c) ∧ event ∈ (inside item).1 := by
  unfold visit at h
  split at h
  · cases h
  · cases h
  · rename_i item c' hpeek
    obtain ⟨rfl, -⟩ := Cursor.peek_eq_some_iff.1 hpeek
    refine ⟨item, hpeek, ?_⟩
    split at h <;> rename_i hinside <;> rwa [hinside]

theorem mem_entering {scalar : Item → Except DecodeError Unit} {inside : Item → Cursor → Run} {item : Item}
    (h : event ∈ (entering level scalar inside item).1) :
    event = .entered level item ∨
      ∃ start, item.content = .container start ∧ event ∈ (inside item.bare start).1 := by
  unfold entering at h
  split at h
  · rename_i start hc
    split at h <;> rename_i hinside <;>
      exact (List.mem_cons.1 h).imp_right fun h => ⟨start, hc, by rwa [hinside]⟩
  · exact .inl (List.mem_singleton.1 h)

theorem mem_enteringArray {note : Item → List Event} {inside : Item → Cursor → Run} {item : Item}
    (h : event ∈ (enteringArray note inside item).1) :
    event ∈ note item ∨
      ∃ start, item.content = .container start ∧ start.kind = .array ∧
        event ∈ (inside item.bare start).1 := by
  unfold enteringArray at h
  split at h
  · rename_i start hc
    split at h
    · rename_i hk
      split at h <;> rename_i hinside <;>
        exact (List.mem_append.1 h).imp_right fun h => ⟨start, hc, hk, by rwa [hinside]⟩
    · cases h
  · cases h

theorem reaches_of_mem_proceed {task : Task} {next : Program} {around : Nat} {f : Frame}
    {operation : Operation} {outcome : Except DecodeError Answer}
    (hperform : task.perform (around + 1) f.now = (some (.program next), c))
    (hnext : ∀ {f : Frame}, event ∈ (next.run (around + 1) f.now).1 →
      ∃ stack, (Task.program next).Reaches (around + 1) f stack ∧ event.Shows around stack)
    (h : event ∈ (proceed (around + 1) operation outcome c (next.run (around + 1))).1) :
    ∃ stack, task.Reaches (around + 1) f stack ∧ event.Shows around stack := by
  rcases List.mem_cons.1 h with rfl | h
  · refine ⟨_, .after, rfl, _, [], rfl, ?_⟩
    rw [hperform]
    rfl
  · obtain ⟨stack, hr, hs⟩ := hnext (f := f.move c) h
    refine ⟨stack, .onward (congrArg Prod.fst hperform) ?_, hs⟩
    rw [hperform]
    exact hr

/-- Whatever a program reports, it reports in a state that it comes through. -/
theorem reaches_of_mem_run {p : Program} {around : Nat} {f : Frame}
    (h : event ∈ (p.run (around + 1) f.now).1) :
    ∃ stack, (Task.program p).Reaches (around + 1) f stack ∧ event.Shows around stack := by
  induction p generalizing around f with
  | leave result => cases h
  | ask q next ih => exact reaches_of_mem_proceed rfl (ih _) h
  | pass limit required next ih =>
    rcases List.mem_append.1 h with h | h
    · obtain ⟨item, hpeek, h⟩ := mem_visit h
      obtain rfl := List.mem_singleton.1 h
      exact ⟨[f], .here, rfl, f, [], rfl, (Cursor.peek_eq_some_iff.1 hpeek).2.2⟩
    · exact reaches_of_mem_proceed rfl (ih _ _) h
  | meet scalar inside required next ih ih' =>
    rcases List.mem_append.1 h with h | h
    · obtain ⟨item, hpeek, h⟩ := mem_visit h
      rcases mem_entering h with rfl | ⟨start, hc, h⟩
      · exact ⟨[f], .here, rfl, f, [], rfl, (Cursor.peek_eq_some_iff.1 hpeek).2.2⟩
      · obtain ⟨stack, hr, hs⟩ := ih item.bare (f := f.enter start) h
        exact ⟨stack ++ [f], .inside hpeek hc rfl rfl hr, hs.append f⟩
    · exact reaches_of_mem_proceed rfl (ih' _ _) h
  | meetArray inside required next ih ih' =>
    rcases List.mem_append.1 h with h | h
    · obtain ⟨item, hpeek, h⟩ := mem_visit h
      rcases mem_enteringArray h with h | ⟨start, hc, hk, h⟩
      · obtain rfl := List.mem_singleton.1 h
        exact ⟨[f], .here, rfl, f, [], rfl, (Cursor.peek_eq_some_iff.1 hpeek).2.2⟩
      · obtain ⟨stack, hr, hs⟩ := ih item.bare (f := f.enter start) h
        exact ⟨stack ++ [f], .inside hpeek hc rfl (if_pos hk) hr, hs.append f⟩
    · exact reaches_of_mem_proceed rfl (ih' _ _) h

end Program

/-- Whatever a run reports, it reports in a state that it comes through; the item that it starts with is
reported before any container is open. -/
theorem Entry.reaches_of_mem_run {entry : Entry} {data : Bytes} {event : Event}
    (h : event ∈ (entry.run data).1) :
    (∃ item, event = .entered 0 item ∧ Item.open? data = .ok (some item)) ∨
      ∃ stack, entry.Reaches data stack ∧ event.Shows 0 stack := by
  have h : event ∈ (entry.run? data).1 := h
  unfold run? at h
  split at h
  · cases h
  · cases h
  · rename_i item ho
    have h : event ∈ (entry.visit item).1 := by
      split at h <;> rename_i hvisit <;> rwa [hvisit]
    cases entry with
    | skip depth =>
      obtain rfl := List.mem_singleton.1 h
      exact .inl ⟨item, rfl, ho⟩
    | meet scalar inside =>
      rcases Program.mem_entering h with rfl | ⟨start, hc, h⟩
      · exact .inl ⟨item, rfl, ho⟩
      · obtain ⟨stack, hr, hs⟩ := Program.reaches_of_mem_run (f := ⟨data, start, start⟩) h
        exact .inr ⟨stack, .inside ho hc rfl hr, hs⟩
    | meetArray inside =>
      rcases Program.mem_enteringArray h with h | ⟨start, hc, hk, h⟩
      · cases h
      · obtain ⟨stack, hr, hs⟩ := Program.reaches_of_mem_run (f := ⟨data, start, start⟩) h
        exact .inr ⟨stack, .inside ho hc (if_pos hk) hr, hs⟩

end CborRecords
