import CborRecords.Value

/-!
# Encoding scripts

A script says what is written into a container, step after step. A step that fails is noted and the
next one runs, unless it is strict: then its error ends the script. A misuse ends everything.

* `Script` : the steps inside a container, `Script.run` : the notes, how it ended and the sink;
* `TopStep` : a step outside any container, `TopStep.runAll` : a list of them.
-/

namespace CborRecords

/-- What is written into a container. -/
inductive Script
  | done
  | emit (value : Value) (strict : Bool) (next : Script)
  | container (kind : Container) (count : Option UInt64) (inside : Script) (strict : Bool)
      (next : Script)
  /-- Only notes the position. -/
  | mark (next : Script)

/-- A step outside any container. -/
inductive TopStep
  | emit (value : Value)
  | container (kind : Container) (count : Option UInt64) (inside : Script)
  /-- The head of a container alone. -/
  | head (kind : Container) (count : Option UInt64)

namespace Script

/-- What a note is about. -/
inductive Step
  | emit
  | container (kind : Container)
  | head (kind : Container)
  | mark
  deriving DecidableEq, Repr

/-- A note of a step: its depth, the error it ended with, if any, and the position after it, counted
from the start of its container. -/
structure Note where
  depth : Nat
  step : Step
  error : Option EncodeError
  offset : Nat
  deriving DecidableEq, Repr

/-- Notes, how a run ended, and the sink it left. -/
abbrev Run (α : Type) := List Note × Except Stop α × Sink

/-- Notes how a step ended and goes on with `next`, unless it is to end here. -/
def proceed {α : Type} (depth start : Nat) (step : Step) (strict : Bool)
    (outcome : Except Stop Unit × Sink) (next : Sink → Run α) : Run α :=
  let note (error : Option EncodeError) (sink : Sink) : Note :=
    ⟨depth, step, error, sink.position - start⟩
  match outcome with
  | (.error (.misuse m), sink) => ([], .error (.misuse m), sink)
  | (.error (.error e), sink) =>
    if strict then ([note (some e) sink], .error (.error e), sink)
    else
      let (notes, result) := next sink
      (note (some e) sink :: notes, result)
  | (.ok (), sink) =>
    let (notes, result) := next sink
    (note none sink :: notes, result)

/-- Writes a container: its head, what `inside` writes, and its end. -/
def enclose (kind : Container) (count : Option UInt64) (inside : Sink → Run Nat) (sink : Sink) :
    Run Unit :=
  match sink.write (kind.head count) with
  | (.error stop, sink) => ([], .error stop, sink)
  | (.ok (), sink) =>
    match inside sink with
    | (notes, .error stop, sink) => (notes, .error stop, sink)
    | (notes, .ok index, sink) => (notes, Container.finish (kind.limit count) index sink)

/-- Runs a script in a container that starts at `start`, after `index` items of at most `limit`. The
result is the number of items in the end. -/
def run (script : Script) (depth start : Nat) (limit : Option Nat) (index : Nat) (sink : Sink) :
    Run Nat :=
  match script with
  | .done => ([], .ok index, sink)
  | .mark next => proceed depth start .mark false (.ok (), sink) (next.run depth start limit index)
  | .emit value strict next =>
    match Container.nextIndex limit index with
    | .error stop => ([], .error stop, sink)
    | .ok index =>
      proceed depth start .emit strict (value.emit sink) (next.run depth start limit index)
  | .container kind count inside strict next =>
    match Container.nextIndex limit index with
    | .error stop => ([], .error stop, sink)
    | .ok index =>
      let (inner, outcome) :=
        enclose kind count (inside.run (depth + 1) sink.position (kind.limit count) 0) sink
      let (notes, result) :=
        proceed depth start (.container kind) strict outcome (next.run depth start limit index)
      (inner ++ notes, result)

end Script

namespace TopStep
open Script

/-- Runs one step at the outermost level. -/
def run (step : TopStep) (sink : Sink) : Run Unit :=
  match step with
  | .emit value => ([], value.emit sink)
  | .container kind count inside =>
    enclose kind count (inside.run 1 sink.position (kind.limit count) 0) sink
  | .head kind count => ([], sink.write (kind.head count))

/-- What a note says the step was. -/
def label : TopStep → Step
  | .emit _ => .emit
  | .container kind _ _ => .container kind
  | .head kind _ => .head kind

/-- Runs steps one after another; only a misuse ends them early. -/
def runAll : List TopStep → Sink → Run Unit
  | [], sink => ([], .ok (), sink)
  | step :: rest, sink =>
    let (inner, outcome) := step.run sink
    let (notes, result) := proceed 0 0 step.label false outcome (runAll rest)
    (inner ++ notes, result)

end TopStep

end CborRecords
