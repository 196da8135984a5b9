import CborRecords.Command.Program

/-!
# Runs of the command

A task of the command reads its input and gives its output some content. What it gives depends on the settings and
on the content of the input, and on nothing else in the world. Tasks stand here with their arguments read, and the
codecs are any.

* `Reads`, `Delivers` : the content of an input, and what an output is given;
* `Task.Turns` : a task that turns one content into another, in every world; `Task.turns_named`,
  `Task.turns_json`, `Task.turns_length`, `Task.turns_decode` : the tasks for persons.
-/

namespace CborRecords.Command

/-! ## Plans -/

namespace Plan
variable {α β : Type}

theorem simulate_bind_of_ok {p : Plan α} {f : α → Plan β} {result : α} {run run' : Run}
    (h : p.simulate run = (.ok result, run')) : (p >>= f).simulate run = (f result).simulate run' := by
  show (p.bind f).simulate run = _
  simp only [simulate_bind, h]

theorem simulate_logAll (lines : List LogLine) (run : Run) :
    (logAll lines).simulate run = (.ok (), { run with log := run.log ++ lines }) := by
  induction lines generalizing run with
  | nil =>
    rw [List.append_nil]
    rfl
  | cons line lines ih =>
    show (logAll lines).simulate { run with log := run.log ++ [line] } = _
    rw [ih, List.append_assoc]
    rfl

end Plan

/-- What is logged changes only the log. -/
theorem Settings.simulate_log (settings : Settings) (lines : List LogLine) (world : World) (log : List LogLine) :
    ∃ log', (settings.log lines).simulate ⟨world, [], log⟩ = (.ok (), ⟨world, [], log'⟩) :=
  ⟨_, Plan.simulate_logAll _ _⟩

/-! ## Inputs and outputs -/

/-- The content of the input of a task, and the world after it was read: a standard input is used up. Without an
input there is nothing. -/
inductive Reads : Option Input → World → Bytes → World → Prop
  | nothing (world : World) : Reads none world [] world
  | standard (world : World) : Reads (some .standard) world world.input { world with input := [] }
  | file {path : String} {world : World} {content : Bytes} (h : world.read path = .ok content) :
      Reads (some (.file path)) world content world

theorem Reads.simulate {input : Input} {world after : World} {content : Bytes}
    (h : Reads (some input) world content after) (log : List LogLine) :
    input.read.simulate ⟨world, [], log⟩ = (.ok content, ⟨after, [], log⟩) := by
  cases h with
  | standard => rfl
  | file h =>
    unfold Input.read Plan.contentOf Plan.simulate
    rw [h]
    rfl

/-- An output is given some content: it is printed, or it is written to a path, if that can be written to. -/
inductive Delivers (content : Bytes) (world : World) : Output → Ending × Run → Prop
  | printed (log : List LogLine) : Delivers content world .standard (.finished, ⟨world, content, log⟩)
  | written {path : String} {world' : World} {shown : Bytes} (log : List LogLine)
      (h : world.write path content = .ok (world', shown)) :
      Delivers content world (.file path) (.finished, ⟨world', shown, log⟩)
  | refused {path : String} {e : FileError} (log : List LogLine) (h : world.write path content = .error e) :
      Delivers content world (.file path) (.failed (.file e), ⟨world, [], log⟩)

theorem Delivers.exists_log {content : Bytes} {world : World} {result : Ending × Run}
    (h : Delivers content world .standard result) : ∃ log, result = (.finished, ⟨world, content, log⟩) := by
  cases h with
  | printed log => exact ⟨log, rfl⟩

/-- A line as it is written to an output: only on the standard output it ends. -/
def Output.line (text : String) : Output → Bytes
  | .standard => Utf8.encode (text ++ "\n")
  | .file _ => Utf8.encode text

theorem Output.writeLine_eq (text : String) (output : Output) :
    output.writeLine text = output.write (output.line text) := by
  cases output with
  | standard => rfl
  | file path => rfl

/-- A record as it is written to an output. -/
def Output.record (hex : HexCodec) (bytes : Bytes) (output : Output) : WireFormat → Bytes
  | .binary => bytes
  | .hex => output.line (hex.encode bytes)

/-- A plan that comes down to writing to an output. -/
theorem delivers_execute {p : Plan Unit} {world after : World} {output : Output} {content : Bytes}
    {log : List LogLine}
    (h : p.simulate ⟨world, [], []⟩ = (output.write content).simulate ⟨after, [], log⟩) :
    Delivers content after output (p.execute world) := by
  unfold Plan.execute
  rw [h]
  cases output with
  | standard => exact .printed log
  | file path =>
    rcases hwrite : after.write path content with e | ⟨world', shown⟩
    · simp only [Output.write, Plan.write, Plan.simulate, hwrite]
      exact .refused log hwrite
    · simp only [Output.write, Plan.write, Plan.simulate, hwrite, List.nil_append]
      exact .written log hwrite

/-! ## Tasks -/

namespace Task

/-- The input of a task, if it has one. -/
def input? : Task → Option Input
  | .encode (.named _ _) _ _ => none
  | .encode (.json input) _ _ => some input
  | .decode _ _ input _ => some input
  | .length _ _ => none
  | .inspect _ input _ => some input

/-- The output of a task. -/
def output : Task → Output
  | .encode _ _ output => output
  | .decode _ _ _ output => output
  | .length _ _ => .standard
  | .inspect _ _ output => output

/-- With any settings, in every world where the input of the task has `given` in it, its output is given what the
settings ask for. -/
def Turns (codecs : Codecs) (task : Task) (given : Bytes) (content : Settings → Bytes) : Prop :=
  ∀ (settings : Settings) (world after : World), Reads task.input? world given after →
    Delivers (content settings) after task.output ((task.plan codecs settings).execute world)

theorem personNamed_fst (name : String) (id : UInt8) : (personNamed name id).1 = Person.ofText name id := by
  unfold personNamed
  dsimp only
  split <;> rfl

variable (codecs : Codecs)

section Encode
variable {p : Person} {bytes : Bytes} (format : Option WireFormat) (output : Output)

theorem delivers_encode {subject : Subject} {settings : Settings} {world after : World} {log : List LogLine}
    (hperson : (subject.person codecs settings).simulate ⟨world, [], []⟩ = (.ok p, ⟨after, [], log⟩))
    (h : encoded p = .ok bytes) :
    Delivers (output.record codecs.hex bytes (format.getD settings.format)) after output
      (((Task.encode subject format output).plan codecs settings).execute world) := by
  obtain ⟨log', hlog⟩ := settings.simulate_log _ after log
  refine delivers_execute (?_ : _ = Plan.simulate _ ⟨after, [], log'⟩)
  unfold plan
  rewrite [Plan.simulate_bind_of_ok hperson, h]
  dsimp only
  rewrite [Plan.simulate_bind_of_ok hlog]
  cases format.getD settings.format with
  | binary => rfl
  | hex =>
    rewrite [Output.writeLine_eq]
    rfl

theorem turns_named {name : String} {id : UInt8} (h : encoded (Person.ofText name id) = .ok bytes) :
    (Task.encode (.named name id) format output).Turns codecs [] fun settings =>
      output.record codecs.hex bytes (format.getD settings.format) := by
  intro settings world after hreads
  cases hreads
  obtain ⟨log, hlog⟩ := settings.simulate_log (personNamed name id).2 world []
  have hperson : ((Subject.named name id).person codecs settings).simulate ⟨world, [], []⟩ =
      (.ok (Person.ofText name id), ⟨world, [], log⟩) := by
    unfold Subject.person
    dsimp only
    rw [Plan.simulate_bind_of_ok hlog]
    show (Except.ok (personNamed name id).1, _) = _
    rw [personNamed_fst]
  exact delivers_encode codecs format output hperson h

theorem turns_json {given : Bytes} (hread : codecs.json.toPerson given = .ok p) (h : encoded p = .ok bytes)
    (input : Input) :
    (Task.encode (.json input) format output).Turns codecs given fun settings =>
      output.record codecs.hex bytes (format.getD settings.format) := by
  intro settings world after hreads
  have hperson : ((Subject.json input).person codecs settings).simulate ⟨world, [], []⟩ =
      (.ok p, ⟨after, [], []⟩) := by
    unfold Subject.person
    rw [Plan.simulate_bind_of_ok (hreads.simulate []), hread]
    rfl
  exact delivers_encode codecs format output hperson h

end Encode

theorem turns_length (name : String) (id : UInt8) :
    (Task.length name id).Turns codecs [] fun _ =>
      Output.standard.line (toString (Record.encodedLength (Person.ofText name id))) := by
  intro settings world after hreads
  cases hreads
  obtain ⟨log, hlog⟩ := settings.simulate_log (personNamed name id).2 world []
  refine delivers_execute (?_ : _ = Plan.simulate _ ⟨world, [], log⟩)
  unfold plan
  dsimp only
  rewrite [Plan.simulate_bind_of_ok hlog, personNamed_fst, Output.writeLine_eq]
  rfl

/-- The bytes that the input of a task holds, perhaps as hexadecimal text. -/
inductive Holds (given bytes : Bytes) : (hex : Bool) → Prop
  | plain (h : given = bytes) : Holds given bytes false
  | hex (h : ofHexText codecs.hex given = .ok bytes) : Holds given bytes true

theorem simulate_readBytes {given bytes : Bytes} {hex : Bool} {input : Input} {world after : World}
    (hgiven : Holds codecs given bytes hex) (hreads : Reads (some input) world given after) :
    (input.readBytes codecs hex).simulate ⟨world, [], []⟩ = (.ok bytes, ⟨after, [], []⟩) := by
  unfold Input.readBytes
  rw [Plan.simulate_bind_of_ok (hreads.simulate [])]
  cases hgiven with
  | plain h =>
    subst h
    rfl
  | hex h =>
    rw [if_pos rfl, h]
    rfl

theorem turns_decode {given bytes : Bytes} {hex : Bool} {p : Person} {format : ViewFormat} {text : String}
    (hgiven : Holds codecs given bytes hex) (hdecoded : Record.decodeDiagnosed Person bytes = .ok p)
    (hview : view codecs.json format p = .ok text) (input : Input) (output : Output) :
    (Task.decode format hex input output).Turns codecs given fun _ => output.line text := by
  intro settings world after hreads
  have hdata := simulate_readBytes codecs hgiven hreads
  refine delivers_execute (?_ : _ = Plan.simulate _ ⟨after, [], []⟩)
  unfold plan
  rw [Plan.simulate_bind_of_ok hdata, decoded, hdecoded]
  show (Plan.ofExcept (view codecs.json format p) >>= fun text => output.writeLine text).simulate ⟨after, [], []⟩ = _
  rewrite [hview]
  show (output.writeLine text).simulate ⟨after, [], []⟩ = _
  rewrite [Output.writeLine_eq]
  rfl

end Task

end CborRecords.Command
