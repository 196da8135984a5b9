import CborRecords.Proofs.Counting

/-!
# Writes, one by one

A run goes on when a write has failed, so smaller writes may succeed behind a greater one that did not, and an
item may be left half written. What holds at every moment of a run is said of its writes, in the order they are
made: this is a tree, since what is written next depends on how the last write went and on nothing else but the
position.

* `Writing` : what is done to a sink, write after write; `Writing.run` : the outcome, `Writing.attempts` : the
  writes that are made, each with the sink as it was;
* `Value.writing`, `Script.writing`, `TopStep.writings` : the writes of values, scripts and whole runs;
  `TopStep.asRun_writings` : a run is the run of its writes;
* `Sink.Holds` : a buffer holds exactly what was taken, in front of what it held; `Writing.last_eq_filled` : so
  it does after every write;
* `Writing.findIdx?_fails`, `Writing.view_take` : up to its first failure a run makes the writes that a counter
  is given, and the first that fails is the first that ends too far there;
* `TopStep.buffer_holds_what_was_taken` : all of this for whole runs.
-/

namespace CborRecords

/-! ## Trees of writes -/

/-- What is done to a sink: nothing more, a look at the position, or a write, by whose outcome it goes on. -/
inductive Writing (α : Type)
  | done (result : α)
  | position (next : Nat → Writing α)
  | write (bytes : Bytes) (next : Except Stop Unit → Writing α)

/-- A write that was made, with the sink as it was before. -/
structure Attempt where
  sink : Sink
  bytes : Bytes

namespace Attempt

/-- How the write went. -/
def outcome (a : Attempt) : Except Stop Unit :=
  (a.sink.write a.bytes).1

/-- The sink after the write. -/
def after (a : Attempt) : Sink :=
  (a.sink.write a.bytes).2

/-- The position at which the bytes end, if they are taken. -/
def endPosition (a : Attempt) : Nat :=
  a.sink.position + a.bytes.length

/-- The bytes were not taken. -/
def fails (a : Attempt) : Bool :=
  !a.outcome.isOk

/-- The bytes of a write and where they go. -/
def view (a : Attempt) : Nat × Bytes :=
  (a.sink.position, a.bytes)

/-- The sink after some writes, the first of which was made on `start`. -/
def last (start : Sink) (made : List Attempt) : Sink :=
  made.foldl (fun _ a => a.after) start

/-- The bytes that were taken, one write after another. -/
def taken (made : List Attempt) : Bytes :=
  (made.filter fun a => !a.fails).flatMap bytes

theorem last_append (start : Sink) (made : List Attempt) (a : Attempt) : last start (made ++ [a]) = a.after := by
  simp [last]

theorem taken_append (made : List Attempt) (a : Attempt) :
    taken (made ++ [a]) = taken made ++ if a.fails then [] else a.bytes := by
  cases h : a.fails <;> simp [taken, h]

end Attempt

namespace Writing
variable {α β γ : Type}

/-- The outcome and the sink that is left. -/
def run : Writing α → Sink → α × Sink
  | .done a, sink => (a, sink)
  | .position next, sink => (next sink.position).run sink
  | .write bytes next, sink => (next (sink.write bytes).1).run (sink.write bytes).2

/-- The writes that are made, in order. -/
def attempts : Writing α → Sink → List Attempt
  | .done _, _ => []
  | .position next, sink => (next sink.position).attempts sink
  | .write bytes next, sink => ⟨sink, bytes⟩ :: (next (sink.write bytes).1).attempts (sink.write bytes).2

/-- One after another; what comes second may depend on the outcome of the first. -/
def bind : Writing α → (α → Writing β) → Writing β
  | .done a, f => f a
  | .position next, f => .position fun n => (next n).bind f
  | .write bytes next, f => .write bytes fun result => (next result).bind f

/-- One write. -/
def one (bytes : Bytes) : Writing (Except Stop Unit) :=
  .write bytes .done

/-- Goes on with `next` unless it was stopped. -/
def andThen (w next : Writing (Except Stop Unit)) : Writing (Except Stop Unit) :=
  w.bind fun
    | .ok () => next
    | .error stop => .done (.error stop)

theorem run_bind (w : Writing α) (f : α → Writing β) (sink : Sink) :
    (w.bind f).run sink = (f (w.run sink).1).run (w.run sink).2 := by
  induction w generalizing sink with
  | done a => rfl
  | position next ih => exact ih _ sink
  | write bytes next ih => exact ih _ _

theorem run_one (bytes : Bytes) (sink : Sink) : (one bytes).run sink = sink.write bytes := rfl

theorem run_andThen (w next : Writing (Except Stop Unit)) (sink : Sink) :
    (w.andThen next).run sink = Sink.andThen (w.run sink) next.run := by
  rw [andThen, run_bind]
  rcases w.run sink with ⟨stop | u, after⟩ <;> rfl

end Writing

/-! ## The writes of values -/

/-- The end of a container after `index` items. -/
def Container.finishing (limit : Option Nat) (index : Nat) : Writing (Except Stop Unit) :=
  match limit with
  | some expected => .done (if index = expected then .ok () else .error (.misuse (.missingItems index expected)))
  | none => .one [Head.stop]

theorem Container.run_finishing (limit : Option Nat) (index : Nat) (sink : Sink) :
    (finishing limit index).run sink = finish limit index sink := by
  cases limit with
  | none => rfl
  | some expected =>
    simp only [finishing, finish, Writing.run]
    split <;> rfl

namespace Value

mutual

/-- The writes of a value. A string is written in two, its head and its content. -/
def writing : Value → Writing (Except Stop Unit)
  | .unsigned n => .one (Head.encode .unsigned n)
  | .signed n =>
    if 0 ≤ n then .one (Head.encode .unsigned n.toUInt64) else .one (Head.encode .negative (~~~n.toUInt64))
  | .bool b => .one [Head.initial .simple (if b then 21 else 20)]
  | .null => .one [Head.initial .simple 22]
  | .undefined => .one [Head.initial .simple 23]
  | .simple v =>
    if 20 ≤ v ∧ v ≤ 31 then .done (.error (.error (.invalidSimpleValue v)))
    else .one (Head.encode .simple v.toUInt64)
  | .text content =>
    (Writing.one (Head.encode .text (UInt64.ofNat (Utf8.encode content).length))).andThen
      (.one (Utf8.encode content))
  | .bytes content =>
    (Writing.one (Head.encode .bytes (UInt64.ofNat content.length))).andThen (.one content)
  | .container kind count items =>
    (Writing.one (kind.head count)).andThen (writingItems (kind.limit count) 0 items)

/-- The writes of the items of a container from the one numbered `index` on, and of its end. -/
def writingItems (limit : Option Nat) (index : Nat) : List Value → Writing (Except Stop Unit)
  | [] => Container.finishing limit index
  | item :: rest =>
    match Container.nextIndex limit index with
    | .error stop => .done (.error stop)
    | .ok index => item.writing.andThen (writingItems limit index rest)

end

mutual

theorem run_writing (v : Value) (sink : Sink) : v.writing.run sink = v.emit sink := by
  cases v with
  | unsigned | bool | null | undefined => rfl
  | signed n =>
    simp only [writing, emit]
    split <;> rfl
  | simple s =>
    simp only [writing, emit]
    split <;> rfl
  | text content =>
    rw [writing, Writing.run_andThen, emit]
    rfl
  | bytes content =>
    rw [writing, Writing.run_andThen, emit]
    rfl
  | container kind count items =>
    rw [writing, Writing.run_andThen, emit, funext (run_writingItems items (kind.limit count) 0)]
    rfl

theorem run_writingItems (items : List Value) (limit : Option Nat) (index : Nat) (sink : Sink) :
    (writingItems limit index items).run sink = emitItems limit index items sink := by
  cases items with
  | nil =>
    rw [writingItems, emitItems]
    exact Container.run_finishing limit index sink
  | cons v items =>
    rw [writingItems, emitItems]
    cases Container.nextIndex limit index with
    | error stop => rfl
    | ok index =>
      dsimp only
      rw [Writing.run_andThen, run_writing v sink, funext (run_writingItems items limit index)]

end

end Value

/-! ## The writes of scripts -/

namespace Script
variable {α : Type}

/-- The note of a step that ended somehow, and what follows it unless it is to end here. -/
def proceeding (depth start : Nat) (step : Step) (strict : Bool) (result : Except Stop Unit)
    (next : Writing (List Note × Except Stop α)) : Writing (List Note × Except Stop α) :=
  .position fun position =>
    let note (error : Option EncodeError) : Note := ⟨depth, step, error, position - start⟩
    let noted (error : Option EncodeError) : Writing (List Note × Except Stop α) :=
      next.bind fun run => .done (note error :: run.1, run.2)
    match result with
    | .error (.misuse m) => .done ([], .error (.misuse m))
    | .error (.error e) => if strict then .done ([note (some e)], .error (.error e)) else noted (some e)
    | .ok () => noted none

/-- The writes of a container: its head, what `inside` writes, and its end. -/
def enclosing (kind : Container) (count : Option UInt64) (inside : Writing (List Note × Except Stop Nat)) :
    Writing (List Note × Except Stop Unit) :=
  (Writing.one (kind.head count)).bind fun
    | .error stop => .done ([], .error stop)
    | .ok () => inside.bind fun
      | (notes, .error stop) => .done (notes, .error stop)
      | (notes, .ok index) =>
        (Container.finishing (kind.limit count) index).bind fun result => .done (notes, result)

/-- The writes of a script in a container that starts at `start`, after `index` items of at most `limit`. -/
def writing (script : Script) (depth start : Nat) (limit : Option Nat) (index : Nat) :
    Writing (List Note × Except Stop Nat) :=
  match script with
  | .done => .done ([], .ok index)
  | .mark next => proceeding depth start .mark false (.ok ()) (next.writing depth start limit index)
  | .emit value strict next =>
    match Container.nextIndex limit index with
    | .error stop => .done ([], .error stop)
    | .ok index =>
      value.writing.bind fun result =>
        proceeding depth start .emit strict result (next.writing depth start limit index)
  | .container kind count inside strict next =>
    match Container.nextIndex limit index with
    | .error stop => .done ([], .error stop)
    | .ok index =>
      .position fun position =>
        (enclosing kind count (inside.writing (depth + 1) position (kind.limit count) 0)).bind fun inner =>
          (proceeding depth start (.container kind) strict inner.2
            (next.writing depth start limit index)).bind fun run => .done (inner.1 ++ run.1, run.2)

/-- A run of writes whose outcome has notes. -/
def asRun (w : Writing (List Note × Except Stop α)) (sink : Sink) : Run α :=
  ((w.run sink).1.1, (w.run sink).1.2, (w.run sink).2)

theorem asRun_position (next : Nat → Writing (List Note × Except Stop α)) (sink : Sink) :
    asRun (.position next) sink = asRun (next sink.position) sink := rfl

theorem asRun_bind {β : Type} (w : Writing β) (f : β → Writing (List Note × Except Stop α)) (sink : Sink) :
    asRun (w.bind f) sink = asRun (f (w.run sink).1) (w.run sink).2 := by
  rw [asRun, Writing.run_bind]
  rfl

/-- Notes that were taken before. -/
theorem asRun_noted (notes : List Note) (w : Writing (List Note × Except Stop α)) (sink : Sink) :
    asRun (w.bind fun run => .done (notes ++ run.1, run.2)) sink =
      (notes ++ (asRun w sink).1, (asRun w sink).2) := by
  rw [asRun_bind]
  rfl

theorem asRun_proceeding (depth start : Nat) (step : Step) (strict : Bool) (result : Except Stop Unit)
    (next : Writing (List Note × Except Stop α)) (sink : Sink) :
    asRun (proceeding depth start step strict result next) sink =
      proceed depth start step strict (result, sink) (asRun next) := by
  rcases result with (e | m) | u
  · cases strict <;> simp [asRun, proceeding, proceed, Writing.run, Writing.run_bind]
  · rfl
  · simp [asRun, proceeding, proceed, Writing.run, Writing.run_bind]

theorem asRun_enclosing (kind : Container) (count : Option UInt64)
    (inside : Writing (List Note × Except Stop Nat)) (sink : Sink) :
    asRun (enclosing kind count inside) sink = enclose kind count (asRun inside) sink := by
  rw [asRun, enclosing, Writing.run_bind, Writing.run_one, enclose]
  rcases sink.write (kind.head count) with ⟨stop | u, opened⟩
  · rfl
  · dsimp only [asRun]
    rw [Writing.run_bind]
    rcases inside.run opened with ⟨⟨notes, stop | index⟩, filled⟩
    · rfl
    · dsimp only
      rw [Writing.run_bind, Container.run_finishing]
      rfl

theorem asRun_writing (script : Script) (depth start : Nat) (limit : Option Nat) (index : Nat) (sink : Sink) :
    asRun (script.writing depth start limit index) sink = script.run depth start limit index sink := by
  induction script generalizing depth start limit index sink with
  | done => rfl
  | mark next ih =>
    rw [writing, asRun_proceeding, run, funext (ih depth start limit index)]
  | emit value strict next ih =>
    rw [writing, run]
    cases Container.nextIndex limit index with
    | error stop => rfl
    | ok index =>
      dsimp only
      rw [asRun_bind, asRun_proceeding, value.run_writing, funext (ih depth start limit index)]
  | container kind count inside strict next ih_inside ih =>
    rw [writing, run]
    cases Container.nextIndex limit index with
    | error stop => rfl
    | ok index =>
      dsimp only
      rw [asRun_position, asRun_bind]
      have henclose := asRun_enclosing kind count
        (inside.writing (depth + 1) sink.position (kind.limit count) 0) sink
      rw [funext (ih_inside (depth + 1) sink.position (kind.limit count) 0)] at henclose
      rw [← henclose, asRun_noted, asRun_proceeding, funext (ih depth start limit index)]
      rfl

end Script

/-! ## The writes of whole runs -/

namespace TopStep
open Script (Note asRun proceeding enclosing)

/-- The writes of one step at the outermost level. -/
def writing : TopStep → Writing (List Note × Except Stop Unit)
  | .emit value => value.writing.bind fun result => .done ([], result)
  | .container kind count inside =>
    .position fun position => enclosing kind count (inside.writing 1 position (kind.limit count) 0)
  | .head kind count => .write (kind.head count) fun result => .done ([], result)

/-- The writes of steps one after another. -/
def writings : List TopStep → Writing (List Note × Except Stop Unit)
  | [] => .done ([], .ok ())
  | step :: rest =>
    step.writing.bind fun inner =>
      (proceeding 0 0 step.label false inner.2 (writings rest)).bind fun run => .done (inner.1 ++ run.1, run.2)

theorem asRun_writing (step : TopStep) (sink : Sink) : asRun step.writing sink = step.run sink := by
  cases step with
  | emit value =>
    rw [writing, Script.asRun_bind, value.run_writing]
    rfl
  | head kind count => rfl
  | container kind count inside =>
    rw [writing, Script.asRun_position, Script.asRun_enclosing,
      funext (inside.asRun_writing 1 sink.position (kind.limit count) 0)]
    rfl

/-- A run is the run of its writes. -/
theorem asRun_writings (steps : List TopStep) (sink : Sink) : asRun (writings steps) sink = runAll steps sink := by
  induction steps generalizing sink with
  | nil => rfl
  | cons step rest ih =>
    rw [writings, Script.asRun_bind, Script.asRun_noted, Script.asRun_proceeding, funext ih, runAll,
      ← asRun_writing]
    rfl

end TopStep

/-! ## A buffer that is written to -/

namespace Sink
variable {buffer front bytes : Bytes}

/-- A buffer after bytes were written from its start on. -/
def filled (buffer front : Bytes) : Sink :=
  .buffer front (buffer.drop front.length)

theorem write_filled (h : front.length + bytes.length ≤ buffer.length) :
    (filled buffer front).write bytes = (.ok (), filled buffer (front ++ bytes)) := by
  have hroom : bytes.length ≤ (buffer.drop front.length).length := by
    rw [List.length_drop]
    omega
  rw [filled, write, if_pos hroom, filled, List.drop_drop, List.length_append]

theorem write_filled_of_lt (hfront : front.length ≤ buffer.length)
    (h : buffer.length < front.length + bytes.length) :
    (filled buffer front).write bytes =
      (.error (.error (.bufferTooSmall (front.length + bytes.length) buffer.length)), filled buffer front) := by
  have hroom : ¬ bytes.length ≤ (buffer.drop front.length).length := by
    rw [List.length_drop]
    omega
  rw [filled, write, if_neg hroom, List.length_drop, Nat.add_sub_cancel' hfront]

/-- What a buffer holds after some writes: in front of the position the bytes that were taken, and behind it what
was there from the start. -/
structure Holds (buffer : Bytes) (made : List Attempt) (sink : Sink) : Prop where
  length_contents : sink.contents.length = buffer.length
  position_le : sink.position ≤ buffer.length
  front : sink.contents.take sink.position = Attempt.taken made
  rest : sink.contents.drop sink.position = buffer.drop sink.position

theorem holds_filled {made : List Attempt} (h : (Attempt.taken made).length ≤ buffer.length) :
    Holds buffer made (filled buffer (Attempt.taken made)) where
  length_contents := by
    simp only [filled, contents, List.length_append, List.length_drop]
    omega
  position_le := h
  front := List.take_left
  rest := List.drop_left

end Sink

namespace Attempt
variable {buffer front bytes : Bytes}

/-- A write to a buffer fails if it ends behind it, and then changes nothing. -/
theorem outcome_filled (hfront : front.length ≤ buffer.length) :
    outcome ⟨.filled buffer front, bytes⟩ =
      if buffer.length < front.length + bytes.length
      then .error (.error (.bufferTooSmall (front.length + bytes.length) buffer.length)) else .ok () := by
  by_cases h : buffer.length < front.length + bytes.length
  · rw [if_pos h, outcome, Sink.write_filled_of_lt hfront h]
  · rw [if_neg h, outcome, Sink.write_filled (Nat.not_lt.1 h)]

theorem fails_filled_iff (hfront : front.length ≤ buffer.length) :
    fails ⟨.filled buffer front, bytes⟩ = true ↔ buffer.length < front.length + bytes.length := by
  rw [fails, outcome_filled hfront]
  split <;> simp [Except.isOk, Except.toBool, *]

theorem after_filled (hfront : front.length ≤ buffer.length) :
    after ⟨.filled buffer front, bytes⟩ =
      .filled buffer (front ++ if fails ⟨.filled buffer front, bytes⟩ then [] else bytes) := by
  by_cases h : buffer.length < front.length + bytes.length
  · rw [if_pos ((fails_filled_iff hfront).2 h), List.append_nil, after, Sink.write_filled_of_lt hfront h]
  · rw [if_neg (fun hf => h ((fails_filled_iff hfront).1 hf)), after, Sink.write_filled (Nat.not_lt.1 h)]

end Attempt

namespace Writing
variable {α : Type} {w : Writing α} {sink : Sink} {made rest : List Attempt} {a : Attempt} {buffer front : Bytes}

/-- Every write is made on the sink that the writes before it left. -/
theorem sink_of_attempts (h : w.attempts sink = made ++ a :: rest) : a.sink = Attempt.last sink made := by
  induction w generalizing sink made with
  | done _ =>
    rw [attempts] at h
    simp at h
  | position next ih => exact ih _ h
  | write bytes next ih =>
    rw [attempts] at h
    cases made with
    | nil =>
      cases h
      rfl
    | cons first made =>
      obtain ⟨rfl, hrest⟩ := List.cons.inj h
      have hlast : a.sink = Attempt.last _ made := ih _ hrest
      exact hlast

theorem run_snd (w : Writing α) (sink : Sink) : (w.run sink).2 = Attempt.last sink (w.attempts sink) := by
  induction w generalizing sink with
  | done _ => rfl
  | position next ih => exact ih _ sink
  | write bytes next ih => exact ih _ _

/-- After every write the buffer has the bytes that were taken, and there was room for them. -/
theorem last_eq_filled (h : w.attempts (.ofBuffer buffer) = made ++ rest) :
    Attempt.last (.ofBuffer buffer) made = .filled buffer (Attempt.taken made) ∧
      (Attempt.taken made).length ≤ buffer.length := by
  induction made using List.reverseRecOn generalizing rest with
  | nil => exact ⟨rfl, Nat.zero_le _⟩
  | append_singleton made a ih =>
    rw [List.append_assoc, List.singleton_append] at h
    obtain ⟨hlast, hlen⟩ := ih h
    obtain ⟨sink, bytes⟩ := a
    obtain rfl : sink = .filled buffer (Attempt.taken made) := (sink_of_attempts h).trans hlast
    rw [Attempt.last_append, Attempt.taken_append, Attempt.after_filled hlen]
    refine ⟨rfl, ?_⟩
    split
    · rwa [List.append_nil]
    · rename_i hf
      rw [Attempt.fails_filled_iff hlen] at hf
      rw [List.length_append]
      exact Nat.not_lt.1 hf

theorem exists_filled_of_mem (h : a ∈ w.attempts (.ofBuffer buffer)) :
    ∃ front, a.sink = .filled buffer front ∧ front.length ≤ buffer.length := by
  obtain ⟨made, rest, hsplit⟩ := List.append_of_mem h
  obtain ⟨hlast, hlen⟩ := last_eq_filled hsplit
  exact ⟨_, (sink_of_attempts hsplit).trans hlast, hlen⟩

/-! ## A buffer beside a counter -/

/-- The first write that fails is the first that, on a counter, ends behind the buffer. -/
theorem findIdx?_fails (w : Writing α) (hfront : front.length ≤ buffer.length) :
    (w.attempts (.filled buffer front)).findIdx? Attempt.fails =
      (w.attempts (.counter front.length)).findIdx? fun a => buffer.length < a.endPosition := by
  induction w generalizing front with
  | done _ => rfl
  | position next ih => exact ih _ hfront
  | write bytes next ih =>
    have hend : Attempt.endPosition ⟨.counter front.length, bytes⟩ = front.length + bytes.length := rfl
    rw [attempts, attempts, List.findIdx?_cons, List.findIdx?_cons, hend]
    by_cases h : buffer.length < front.length + bytes.length
    · rw [if_pos ((Attempt.fails_filled_iff hfront).2 h), if_pos (decide_eq_true h)]
    · have hroom := Nat.not_lt.1 h
      rw [if_neg (fun hf => h ((Attempt.fails_filled_iff hfront).1 hf)), if_neg (by simpa using h),
        Sink.write_filled hroom]
      rw [← List.length_append] at hroom
      have hmore := ih (.ok ()) hroom
      rw [List.length_append] at hmore
      rw [hmore]
      rfl

/-- Up to the first write that fails, and with it, the same bytes are written at the same positions. -/
theorem view_take (w : Writing α) (hfront : front.length ≤ buffer.length) {i : Nat}
    (h : ∀ a ∈ (w.attempts (.filled buffer front)).take i, a.fails = false) :
    ((w.attempts (.filled buffer front)).take (i + 1)).map Attempt.view =
      ((w.attempts (.counter front.length)).take (i + 1)).map Attempt.view := by
  induction w generalizing front i with
  | done _ => rfl
  | position next ih => exact ih _ hfront h
  | write bytes next ih =>
    rw [attempts, attempts, List.take_succ_cons, List.take_succ_cons, List.map_cons, List.map_cons]
    refine congrArg _ ?_
    cases i with
    | zero => rfl
    | succ i =>
      rw [attempts, List.take_succ_cons, List.forall_mem_cons] at h
      have hroom : front.length + bytes.length ≤ buffer.length := by
        have hf := h.1
        rw [← Bool.not_eq_true, Attempt.fails_filled_iff hfront] at hf
        omega
      rw [Sink.write_filled hroom] at h ⊢
      rw [← List.length_append] at hroom
      have hmore := ih (.ok ()) hroom h.2
      rw [List.length_append] at hmore
      exact hmore

/-- What holds of a buffer that is written to, from the first write to the last. -/
structure Disciplined (w : Writing α) (buffer : Bytes) : Prop where
  /-- After each write the buffer has the bytes that were taken, and behind them what it had. -/
  holds : ∀ made rest, w.attempts (.ofBuffer buffer) = made ++ rest →
    (Attempt.last (.ofBuffer buffer) made).Holds buffer made
  /-- Each write finds the sink as the writes before it left it, and so does the end. -/
  sink_eq : ∀ made a rest, w.attempts (.ofBuffer buffer) = made ++ a :: rest →
    a.sink = Attempt.last (.ofBuffer buffer) made
  run_eq : (w.run (.ofBuffer buffer)).2 = Attempt.last (.ofBuffer buffer) (w.attempts (.ofBuffer buffer))
  /-- A write fails exactly if it ends behind the buffer, and then nothing changes. -/
  outcome : ∀ a ∈ w.attempts (.ofBuffer buffer), a.outcome =
    if buffer.length < a.endPosition then .error (.error (.bufferTooSmall a.endPosition buffer.length)) else .ok ()
  after : ∀ a ∈ w.attempts (.ofBuffer buffer), a.fails = true → a.after = a.sink
  /-- The first write that fails is the first that ends behind the buffer when all of them are counted. Up to it
  the writes are those that are counted. -/
  first : (w.attempts (.ofBuffer buffer)).findIdx? Attempt.fails =
    (w.attempts (.counter 0)).findIdx? fun a => buffer.length < a.endPosition
  same : ∀ i, (∀ a ∈ (w.attempts (.ofBuffer buffer)).take i, a.fails = false) →
    ((w.attempts (.ofBuffer buffer)).take (i + 1)).map Attempt.view =
      ((w.attempts (.counter 0)).take (i + 1)).map Attempt.view

theorem disciplined (w : Writing α) (buffer : Bytes) : w.Disciplined buffer where
  holds := by
    intro made rest h
    obtain ⟨hlast, hlen⟩ := last_eq_filled h
    rw [hlast]
    exact Sink.holds_filled hlen
  sink_eq := fun _ _ _ h => sink_of_attempts h
  run_eq := w.run_snd _
  outcome := by
    rintro ⟨sink, bytes⟩ h
    obtain ⟨front, rfl, hfront⟩ := exists_filled_of_mem h
    exact Attempt.outcome_filled hfront
  after := by
    rintro ⟨sink, bytes⟩ h hf
    obtain ⟨front, rfl, hfront⟩ := exists_filled_of_mem h
    rw [Attempt.after_filled hfront, if_pos hf, List.append_nil]
  first := w.findIdx?_fails (Nat.zero_le _)
  same := fun _ h => w.view_take (Nat.zero_le _) h

end Writing

namespace TopStep
open Script (asRun)

/-- Whatever is written to a buffer, and whatever fails on the way: the run is that of its writes, on every sink. At
every moment the buffer has, up to its position, the bytes of exactly those writes that succeeded, in order, and
behind it what it had at the start; a write that fails changes nothing; and the first that does is the first that
ends behind the buffer where the same steps are only counted. -/
theorem buffer_holds_what_was_taken (steps : List TopStep) (buffer : Bytes) :
    (∀ sink, asRun (writings steps) sink = runAll steps sink) ∧ (writings steps).Disciplined buffer :=
  ⟨asRun_writings steps, (writings steps).disciplined buffer⟩

/-- An array of indefinite length with a byte string and a number in a buffer of three bytes: the head of the string
is taken and its content is not, the number fills the room that is left, and the end of the array fails again. -/
theorem number_follows_head_of_string :
    let steps : List TopStep :=
      [.container .array none (.emit (.bytes [1, 2, 3, 4, 5]) false (.emit (.unsigned 7) false .done))]
    let buffer : Bytes := [0xAA, 0xAA, 0xAA]
    ((writings steps).attempts (.ofBuffer buffer)).map (fun a => (a.bytes, a.fails)) =
        [([0x9F], false), ([0x45], false), ([1, 2, 3, 4, 5], true), ([7], false), ([0xFF], true)] ∧
      (asRun (writings steps) (.ofBuffer buffer)).2.2.contents = [0x9F, 0x45, 7] ∧
      (runAll steps (.ofBuffer buffer)).2.2.contents = [0x9F, 0x45, 7] ∧
      ((writings steps).attempts (.counter 0)).findIdx? (fun a => buffer.length < a.endPosition) = some 2 := by
  intro steps buffer
  have hcontents : (asRun (writings steps) (.ofBuffer buffer)).2.2.contents = [0x9F, 0x45, 7] := by
    decide +kernel
  have hfirst : ((writings steps).attempts (.ofBuffer buffer)).findIdx? Attempt.fails = some 2 := by
    decide +kernel
  obtain ⟨hrun, hdisciplined⟩ := buffer_holds_what_was_taken steps buffer
  exact ⟨by decide +kernel, hcontents, hrun (.ofBuffer buffer) ▸ hcontents, hdisciplined.first ▸ hfirst⟩

end TopStep

end CborRecords
