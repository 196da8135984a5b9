import CborRecords.Command.World
import CborRecords.Log

/-!
# Plans

A plan says what a program asks of its surroundings, step by step, and what it does with the answers.

* `Plan` : reading variables, files and the standard input, writing files and the standard output,
  logging, and ending with a failure;
* `Plan.simulate` : what a plan does in a world, as a `Run`; `Plan.simulate_bind` : what two plans do, one
  after the other.
-/

namespace CborRecords.Command

/-- What a program asks for, and how it goes on. -/
inductive Plan (α : Type)
  | done (result : α)
  | fail (failure : Failure)
  | getVariable (name : String) (next : Option String → Plan α)
  | getVariables (next : List (String × String) → Plan α)
  | readFile (path : String) (next : Except FileError Bytes → Plan α)
  /-- The content of a file that is no device, if there is one. -/
  | findFile (path : String) (next : Option Bytes → Plan α)
  | readInput (next : Bytes → Plan α)
  | writeFile (path : String) (content : Bytes) (next : Except FileError Unit → Plan α)
  | print (content : Bytes) (next : Plan α)
  | log (line : LogLine) (next : Plan α)

namespace Plan
variable {α β : Type}

/-- One plan, then another that depends on its result. -/
def bind : Plan α → (α → Plan β) → Plan β
  | .done result, f => f result
  | .fail failure, _ => .fail failure
  | .getVariable name next, f => .getVariable name fun answer => bind (next answer) f
  | .getVariables next, f => .getVariables fun answer => bind (next answer) f
  | .readFile path next, f => .readFile path fun answer => bind (next answer) f
  | .findFile path next, f => .findFile path fun answer => bind (next answer) f
  | .readInput next, f => .readInput fun answer => bind (next answer) f
  | .writeFile path content next, f => .writeFile path content fun answer => bind (next answer) f
  | .print content next, f => .print content (bind next f)
  | .log line next, f => .log line (bind next f)

instance : Monad Plan where
  pure := .done
  bind := bind

/-- A result, or the end of the plan. -/
def ofExcept : Except Failure α → Plan α
  | .ok result => .done result
  | .error failure => .fail failure

/-- Logs lines in order. -/
def logAll : List LogLine → Plan Unit
  | [] => .done ()
  | line :: rest => .log line (logAll rest)

/-- What can be read at a path, or the end of the plan. -/
def contentOf (path : String) : Plan Bytes :=
  .readFile path fun
    | .ok content => .done content
    | .error e => .fail (.file e)

/-- Writes a file, or ends the plan. -/
def write (path : String) (content : Bytes) : Plan Unit :=
  .writeFile path content fun
    | .ok () => .done ()
    | .error e => .fail (.file e)

end Plan

/-! ## Runs -/

/-- The world a program is in, what it has printed and what it has logged. -/
structure Run where
  world : World
  printed : Bytes
  log : List LogLine
  deriving DecidableEq, Repr

/-- What a plan does. -/
def Plan.simulate {α : Type} : Plan α → Run → Except Failure α × Run
  | .done result, run => (.ok result, run)
  | .fail failure, run => (.error failure, run)
  | .getVariable name next, run => simulate (next (run.world.environment.lookup name)) run
  | .getVariables next, run => simulate (next run.world.environment) run
  | .readFile path next, run => simulate (next (run.world.read path)) run
  | .findFile path next, run => simulate (next (run.world.find? path)) run
  | .readInput next, run =>
    simulate (next run.world.input) { run with world := { run.world with input := [] } }
  | .writeFile path content next, run =>
    match run.world.write path content with
    | .ok (world, shown) =>
      simulate (next (.ok ())) { run with world := world, printed := run.printed ++ shown }
    | .error e => simulate (next (.error e)) run
  | .print content next, run => simulate next { run with printed := run.printed ++ content }
  | .log line next, run => simulate next { run with log := run.log ++ [line] }

/-- A plan after another does what it does in the world that the first leaves, with its result. -/
theorem Plan.simulate_bind {α β : Type} (p : Plan α) (f : α → Plan β) (run : Run) :
    (p.bind f).simulate run =
      match p.simulate run with
      | (.ok result, run) => (f result).simulate run
      | (.error failure, run) => (.error failure, run) := by
  induction p generalizing run with
  | done result => rfl
  | fail failure => rfl
  | getVariable name next ih => exact ih _ run
  | getVariables next ih => exact ih _ run
  | readFile path next ih => exact ih _ run
  | findFile path next ih => exact ih _ run
  | readInput next ih => exact ih _ _
  | writeFile path content next ih =>
    simp only [bind, simulate]
    split
    · exact ih _ _
    · exact ih _ run
  | print content next ih => exact ih _
  | log line next ih => exact ih _

end CborRecords.Command
