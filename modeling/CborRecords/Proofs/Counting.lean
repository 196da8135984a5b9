import CborRecords.Script
import CborRecords.Proofs.Encoding

/-!
# Counting before writing

A counter takes every write and a buffer only what it has room for. As long as there is room, the two
cannot be told apart: whatever is written, with errors passed on or not, and even if it ends in a misuse,
goes the same way in both and comes to the same position. So it is enough to count first.

* `Script.Goes` : the way a run goes from a position: its notes, how it ends, and the bytes it writes,
  in every sink that has room for them; `Script.Uniform` : there is one from every position;
* `Script.Uniform.bind` : one run after another; `Script.uniform_enclose`, `Script.Uniform.proceed` : the
  parts of a script's run;
* `Value.uniform_emit`, `Script.uniform_run`, `TopStep.uniform_runAll` : values, scripts and whole runs;
* `Script.Uniform.exists_bytes`, `Value.exists_emit` : the same run over a counter and over a buffer;
* `TopStep.counter_foretells_buffer` : a run over a counter says how the run over a buffer goes, and
  counting a value says whether it fits.
-/

namespace CborRecords

/-! ## Runs that do not depend on the sink -/

namespace Script
variable {α β : Type}

/-- Something other than a lack of room is the outcome. -/
def HasRoom (result : Except Stop α) : Prop :=
  ∀ needed available, result ≠ .error (.error (.bufferTooSmall needed available))

/-- From a position the run takes these notes, ends this way and writes these bytes, in every sink that
has room for them, and nothing in it fails for lack of room. -/
structure Goes (run : Sink → Run α) (position : Nat) (notes : List Note) (result : Except Stop α)
    (bytes : Bytes) : Prop where
  notes_room : ∀ note ∈ notes, ∀ needed available, note.error ≠ some (.bufferTooSmall needed available)
  result_room : HasRoom result
  run_eq : ∀ {sink after : Sink}, sink.position = position → sink.write bytes = (.ok (), after) →
    run sink = (notes, result, after)

/-- From every position the run goes one way, whatever takes the bytes. -/
def Uniform (run : Sink → Run α) : Prop :=
  ∀ position, ∃ notes result bytes, Goes run position notes result bytes

theorem uniform_write (bytes : Bytes) : Uniform fun sink => ([], sink.write bytes) := by
  intro position
  refine ⟨[], .ok (), bytes, nofun, nofun, ?_⟩
  intro sink after _ hwrite
  rw [hwrite]

/-- Nothing is written, and the run ends as it does. -/
theorem uniform_pure {result : Except Stop α} (h : HasRoom result) :
    Uniform fun sink => ([], result, sink) := by
  intro position
  refine ⟨[], result, [], nofun, h, ?_⟩
  intro sink after _ hwrite
  rw [Sink.write_nil] at hwrite
  cases hwrite
  rfl

/-- One run after another. What comes second may depend on how the first one ended. -/
theorem Uniform.bind {first : Sink → Run α} {next : Except Stop α → Sink → Run β} (hfirst : Uniform first)
    (hnext : ∀ result, HasRoom result → Uniform (next result)) :
    Uniform fun sink =>
      ((first sink).1 ++ (next (first sink).2.1 (first sink).2.2).1,
        (next (first sink).2.1 (first sink).2.2).2) := by
  intro position
  obtain ⟨notes, result, bytes, hgoes⟩ := hfirst position
  obtain ⟨notes', result', bytes', hgoes'⟩ := hnext result hgoes.result_room (position + bytes.length)
  refine ⟨notes ++ notes', result', bytes ++ bytes', ?_, hgoes'.result_room, ?_⟩
  · intro note hnote
    rcases List.mem_append.1 hnote with hnote | hnote
    · exact hgoes.notes_room note hnote
    · exact hgoes'.notes_room note hnote
  · intro sink after hposition hwrite
    obtain ⟨mid, hmid, hafter⟩ := Sink.write_append.1 hwrite
    have hat : mid.position = position + bytes.length := by
      rw [Sink.position_of_write hmid, hposition]
    rw [hgoes.run_eq hposition hmid]
    dsimp only
    rw [hgoes'.run_eq hat hafter]

/-- A run that looks at the position it starts from. -/
theorem Uniform.of_position {run : Nat → Sink → Run α} (h : ∀ position, Uniform (run position)) :
    Uniform fun sink => run sink.position sink := by
  intro position
  obtain ⟨notes, result, bytes, hgoes⟩ := h position position
  refine ⟨notes, result, bytes, hgoes.notes_room, hgoes.result_room, ?_⟩
  intro sink after hposition hwrite
  rw [hposition]
  exact hgoes.run_eq hposition hwrite

/-- From the same start, a counter and a buffer with room for the bytes come to the same end. -/
theorem Uniform.exists_bytes {run : Sink → Run α} (h : Uniform run) :
    ∃ notes result bytes, HasRoom result ∧ run (.counter 0) = (notes, result, .counter bytes.length) ∧
      ∀ buffer : Bytes, bytes.length ≤ buffer.length →
        run (.ofBuffer buffer) = (notes, result, .buffer bytes (buffer.drop bytes.length)) := by
  obtain ⟨notes, result, bytes, hgoes⟩ := h 0
  refine ⟨notes, result, bytes, hgoes.result_room, hgoes.run_eq rfl ?_, ?_⟩
  · rw [Sink.write, Nat.zero_add]
  · intro buffer hroom
    exact hgoes.run_eq rfl (Sink.write_buffer hroom)

/-! ## Parts of a run -/

theorem uniform_finish (limit : Option Nat) (index : Nat) :
    Uniform fun sink => ([], Container.finish limit index sink) := by
  unfold Container.finish
  cases limit with
  | none => exact uniform_write _
  | some expected =>
    by_cases h : index = expected
    · simp only [if_pos h]
      exact uniform_pure nofun
    · simp only [if_neg h]
      exact uniform_pure nofun

theorem hasRoom_nextIndex (limit : Option Nat) (index : Nat) : HasRoom (Container.nextIndex limit index) := by
  unfold Container.nextIndex
  cases limit with
  | none => exact nofun
  | some most =>
    dsimp only
    split <;> exact nofun

/-- What goes on after an outcome that went well. -/
theorem Uniform.andThen {first next : Sink → Except Stop Unit × Sink}
    (hfirst : Uniform fun sink => ([], first sink)) (hnext : Uniform fun sink => ([], next sink)) :
    Uniform fun sink => ([], Sink.andThen (first sink) next) := by
  have hrest : ∀ result : Except Stop Unit, HasRoom result →
      Uniform fun sink => ([], Sink.andThen (result, sink) next) := by
    intro result hresult
    cases result with
    | error stop => exact uniform_pure hresult
    | ok => exact hnext
  exact hfirst.bind hrest

/-- A container around what is written into it. -/
theorem uniform_enclose {inside : Sink → Run Nat} (h : Uniform inside) (kind : Container)
    (count : Option UInt64) : Uniform (enclose kind count inside) := by
  intro position
  obtain ⟨notes, result, bytes, hgoes⟩ := h (position + (kind.head count).length)
  have hopened {sink opened : Sink} (hposition : sink.position = position)
      (hhead : sink.write (kind.head count) = (.ok (), opened)) :
      opened.position = position + (kind.head count).length := by
    rw [Sink.position_of_write hhead, hposition]
  cases result with
  | error stop =>
    refine ⟨notes, .error stop, kind.head count ++ bytes, hgoes.notes_room, ?_, ?_⟩
    · intro needed available he
      cases he
      exact hgoes.result_room needed available rfl
    · intro sink after hposition hwrite
      obtain ⟨opened, hhead, hafter⟩ := Sink.write_append.1 hwrite
      rw [enclose, hhead]
      dsimp only
      rw [hgoes.run_eq (hopened hposition hhead) hafter]
  | ok index =>
    obtain ⟨notes', result', bytes', hgoes'⟩ :=
      uniform_finish (kind.limit count) index (position + (kind.head count).length + bytes.length)
    refine ⟨notes, result', kind.head count ++ (bytes ++ bytes'), hgoes.notes_room, hgoes'.result_room, ?_⟩
    intro sink after hposition hwrite
    obtain ⟨opened, hhead, hrest⟩ := Sink.write_append.1 hwrite
    obtain ⟨filled, hinside, hafter⟩ := Sink.write_append.1 hrest
    have hfilled : filled.position = position + (kind.head count).length + bytes.length := by
      rw [Sink.position_of_write hinside, hopened hposition hhead]
    rw [enclose, hhead]
    dsimp only
    rw [hgoes.run_eq (hopened hposition hhead) hinside]
    exact congrArg (fun run => (notes, run.2)) (hgoes'.run_eq hfilled hafter)

/-- The note of a step that ended somehow, and what follows it unless its error ends the script. -/
theorem Uniform.proceed {next : Sink → Run α} (hnext : Uniform next) (depth start : Nat) (step : Step)
    (strict : Bool) {result : Except Stop Unit} (hresult : HasRoom result) :
    Uniform fun sink => Script.proceed depth start step strict (result, sink) next := by
  -- a note that is followed by other steps
  have hnoted (error : Option EncodeError)
      (herror : ∀ needed available, error ≠ some (.bufferTooSmall needed available)) :
      Uniform fun sink =>
        (⟨depth, step, error, sink.position - start⟩ :: (next sink).1, (next sink).2) := by
    intro position
    obtain ⟨notes, result, bytes, hgoes⟩ := hnext position
    refine ⟨⟨depth, step, error, position - start⟩ :: notes, result, bytes, ?_, hgoes.result_room, ?_⟩
    · rw [List.forall_mem_cons]
      exact ⟨herror, hgoes.notes_room⟩
    · intro sink after hposition hwrite
      rw [hposition, hgoes.run_eq hposition hwrite]
  cases result with
  | ok => exact hnoted none nofun
  | error stop =>
    cases stop with
    | misuse m => exact uniform_pure nofun
    | error e =>
      have he : ∀ needed available, some e ≠ some (.bufferTooSmall needed available) := by
        intro needed available he
        cases he
        exact hresult needed available rfl
      cases strict with
      | false => exact hnoted (some e) he
      | true =>
        intro position
        refine ⟨[⟨depth, step, some e, position - start⟩], .error (.error e), [], ?_, ?_, ?_⟩
        · rw [List.forall_mem_singleton]
          exact he
        · intro needed available h
          cases h
          exact he needed available rfl
        · intro sink after hposition hwrite
          rw [Sink.write_nil] at hwrite
          cases hwrite
          rw [← hposition]
          rfl

end Script

/-! ## Values -/

namespace Value
open Script (Uniform HasRoom uniform_write uniform_pure uniform_finish)

theorem uniform_emitString (m : Major) (content : Bytes) :
    Uniform fun sink => ([], emitString m content sink) :=
  (uniform_write _).andThen (uniform_write content)

mutual

/-- A value is written the same way by whatever takes it. -/
theorem uniform_emit (v : Value) : Uniform fun sink => ([], v.emit sink) := by
  cases v with
  | unsigned n => exact uniform_write _
  | signed n =>
    simp only [emit]
    split
    · exact uniform_write _
    · exact uniform_write _
  | bool b => exact uniform_write _
  | null => exact uniform_write _
  | undefined => exact uniform_write _
  | simple s =>
    simp only [emit]
    split
    · exact uniform_pure nofun
    · exact uniform_write _
  | text content => exact uniform_emitString _ _
  | bytes content => exact uniform_emitString _ _
  | container kind count items =>
    simp only [emit]
    exact (uniform_write _).andThen (uniform_emitItems items (kind.limit count) 0)

theorem uniform_emitItems (items : List Value) (limit : Option Nat) (index : Nat) :
    Uniform fun sink => ([], emitItems limit index items sink) := by
  cases items with
  | nil =>
    simp only [emitItems]
    exact uniform_finish limit index
  | cons v items =>
    simp only [emitItems]
    have hroom := Script.hasRoom_nextIndex limit index
    cases hindex : Container.nextIndex limit index with
    | error stop =>
      refine uniform_pure ?_
      intro needed available he
      cases he
      exact hroom needed available hindex
    | ok index => exact (uniform_emit v).andThen (uniform_emitItems items limit index)

end

/-- A value is emitted to a counter and to a buffer with room for its bytes with the same end. -/
theorem exists_emit (v : Value) :
    ∃ result bytes, HasRoom result ∧ v.emit (.counter 0) = (result, .counter bytes.length) ∧
      ∀ buffer : Bytes, bytes.length ≤ buffer.length →
        v.emit (.ofBuffer buffer) = (result, .buffer bytes (buffer.drop bytes.length)) := by
  obtain ⟨notes, result, bytes, hroom, hcounter, hbuffer⟩ := v.uniform_emit.exists_bytes
  refine ⟨result, bytes, hroom, congrArg Prod.snd hcounter, ?_⟩
  intro buffer hlen
  exact congrArg Prod.snd (hbuffer buffer hlen)

end Value

/-! ## Scripts -/

namespace Script

/-- A step that is counted in before it is written is refused without being noted, or is counted. -/
theorem uniform_of_nextIndex {limit : Option Nat} {index : Nat} {run : Sink → Run Nat}
    (hstop : ∀ stop, Container.nextIndex limit index = .error stop → run = fun sink => ([], .error stop, sink))
    (hnext : ∀ next, Container.nextIndex limit index = .ok next → Uniform run) : Uniform run := by
  have hroom := hasRoom_nextIndex limit index
  cases hindex : Container.nextIndex limit index with
  | ok next => exact hnext next hindex
  | error stop =>
    rw [hstop stop hindex]
    rw [hindex] at hroom
    exact uniform_pure fun needed available he => hroom needed available (congrArg _ (Except.error.inj he))

theorem uniform_run (script : Script) (depth start : Nat) (limit : Option Nat) (index : Nat) :
    Uniform (script.run depth start limit index) := by
  induction script generalizing depth start limit index with
  | done => exact uniform_pure nofun
  | mark next ih => exact (ih depth start limit index).proceed depth start .mark false nofun
  | emit value strict next ih =>
    apply uniform_of_nextIndex
    · intro stop hstop
      funext sink
      rw [run, hstop]
    · intro index' hindex
      have hstep := value.uniform_emit.bind fun result hresult =>
        (ih depth start limit index').proceed depth start .emit strict hresult
      simp only [run, hindex]
      exact hstep
  | container kind count inside strict next ih_inside ih =>
    apply uniform_of_nextIndex
    · intro stop hstop
      funext sink
      rw [run, hstop]
    · intro index' hindex
      -- offsets inside are counted from where the container starts
      have henclose : Uniform fun sink =>
          enclose kind count (inside.run (depth + 1) sink.position (kind.limit count) 0) sink :=
        .of_position fun position =>
          uniform_enclose (ih_inside (depth + 1) position (kind.limit count) 0) kind count
      have hstep := henclose.bind fun result hresult =>
        (ih depth start limit index').proceed depth start (.container kind) strict hresult
      simp only [run, hindex]
      exact hstep

end Script

namespace TopStep
open Script (Uniform)

theorem uniform_run (step : TopStep) : Uniform step.run := by
  cases step with
  | emit value => exact value.uniform_emit
  | head kind count => exact Script.uniform_write _
  | container kind count inside =>
    exact .of_position fun position =>
      Script.uniform_enclose (inside.uniform_run 1 position (kind.limit count) 0) kind count

theorem uniform_runAll (steps : List TopStep) : Uniform (runAll steps) := by
  induction steps with
  | nil => exact Script.uniform_pure nofun
  | cons step rest ih =>
    exact step.uniform_run.bind fun result hresult => ih.proceed 0 0 step.label false hresult

end TopStep

/-! ## Counting says what fits -/

namespace Value

/-- What counting a value says about writing it to a buffer. -/
structure Foretold (v : Value) (buffer : Bytes) : Prop where
  /-- A misuse is met while counting, before anything is written. -/
  misuse : ∀ m, v.encodedLength = .error m → v.encode buffer = (.error (.misuse m), buffer)
  /-- There is no room exactly if less is there than was counted, and then the buffer is left alone. -/
  tooSmall_iff : ∀ needed, v.encodedLength = .ok needed →
    ((∃ n available, (v.encode buffer).1 = .error (.error (.bufferTooSmall n available))) ↔
      buffer.length < needed)
  tooSmall : ∀ needed, v.encodedLength = .ok needed → buffer.length < needed →
    v.encode buffer = (.error (.error (.bufferTooSmall needed buffer.length)), buffer)
  /-- Otherwise as many bytes are written as were counted, up to an error of the value's own. -/
  fits : ∀ needed, v.encodedLength = .ok needed → needed ≤ buffer.length →
    ((v.encode buffer).1 = .ok needed ∨
      ∃ s, (v.emit (.counter 0)).1 = .error (.error (.invalidSimpleValue s)) ∧
        (v.encode buffer).1 = .error (.error (.invalidSimpleValue s))) ∧
    ∃ bytes, bytes.length = needed ∧ (v.encode buffer).2 = bytes ++ buffer.drop needed

/-- A value that is not misused is counted up to an error of its own, and so it is written. -/
theorem encode_of_emit {v : Value} {result : Except Stop Unit} {bytes : Bytes}
    (hcounter : v.emit (.counter 0) = (result, .counter bytes.length))
    (hbuffer : ∀ buffer : Bytes, bytes.length ≤ buffer.length →
      v.emit (.ofBuffer buffer) = (result, .buffer bytes (buffer.drop bytes.length)))
    (hmisuse : ∀ m, result ≠ .error (.misuse m)) :
    v.encodedLength = .ok bytes.length ∧ ∀ buffer : Bytes,
      v.encode buffer = if buffer.length < bytes.length
        then (.error (.error (.bufferTooSmall bytes.length buffer.length)), buffer)
        else (result.map fun _ => bytes.length, bytes ++ buffer.drop bytes.length) := by
  have hlength : v.encodedLength = .ok bytes.length := by
    rw [encodedLength, hcounter]
    rcases result with (e | m) | u
    · rfl
    · exact absurd rfl (hmisuse m)
    · rfl
  refine ⟨hlength, ?_⟩
  intro buffer
  rw [encode, hlength]
  dsimp only
  by_cases h : buffer.length < bytes.length
  · rw [if_pos h, if_pos h]
  · rw [if_neg h, if_neg h, hbuffer buffer (Nat.not_lt.1 h)]
    rcases result with stop | u <;> rfl

theorem foretold (v : Value) (buffer : Bytes) : v.Foretold buffer := by
  obtain ⟨result, bytes, hroom, hcounter, hbuffer⟩ := v.exists_emit
  by_cases hmisuse : ∃ m, result = .error (.misuse m)
  · obtain ⟨m, rfl⟩ := hmisuse
    have hlength : v.encodedLength = .error m := by rw [encodedLength, hcounter]
    have hnot (needed : Nat) : v.encodedLength ≠ .ok needed := by
      rw [hlength]
      simp
    refine ⟨?_, fun n h => absurd h (hnot n), fun n h => absurd h (hnot n), fun n h => absurd h (hnot n)⟩
    intro m' hm'
    rw [hlength] at hm'
    cases hm'
    rw [encode, hlength]
  · obtain ⟨hlength, hencode⟩ := encode_of_emit hcounter hbuffer fun m h => hmisuse ⟨m, h⟩
    have hcount {needed : Nat} (h : v.encodedLength = .ok needed) : bytes.length = needed :=
      Except.ok.inj (hlength.symm.trans h)
    refine ⟨?_, ?_, ?_, ?_⟩
    · intro m hm
      rw [hlength] at hm
      cases hm
    · intro needed hneeded
      obtain rfl := hcount hneeded
      rw [hencode]
      by_cases h : buffer.length < bytes.length
      · simp [h]
      · rw [if_neg h]
        refine ⟨?_, fun h' => absurd h' h⟩
        rintro ⟨n, available, hresult⟩
        rcases result with stop | u
        · cases hresult
          exact absurd rfl (hroom n available)
        · cases hresult
    · intro needed hneeded h
      obtain rfl := hcount hneeded
      rw [hencode, if_pos h]
    · intro needed hneeded h
      obtain rfl := hcount hneeded
      rw [hencode, if_neg (Nat.not_lt.2 h), hcounter]
      refine ⟨?_, bytes, rfl, rfl⟩
      rcases result with (e | m) | u
      · cases e with
        | bufferTooSmall n available => exact absurd rfl (hroom n available)
        | invalidSimpleValue s => exact .inr ⟨s, rfl, rfl⟩
      · exact absurd ⟨m, rfl⟩ hmisuse
      · exact .inl rfl

end Value

namespace TopStep

/-- If a run over a counter ends, in whatever way, at a position that a buffer reaches, the run over the
buffer has the same outcome in every step, at the same offsets, and ends the same way at the same position.
So counting a value says whether there is room for it, and once there is, only an error of its own can stop
it. A position is a number of 64 bits, so this is about runs whose count does not pass them. -/
theorem counter_foretells_buffer :
    (∀ (steps : List TopStep) (buffer : Bytes),
      (runAll steps (.counter 0)).2.2.position < 0x10000000000000000 →
      (runAll steps (.counter 0)).2.2.position ≤ buffer.length →
        (runAll steps (.ofBuffer buffer)).1 = (runAll steps (.counter 0)).1 ∧
        (runAll steps (.ofBuffer buffer)).2.1 = (runAll steps (.counter 0)).2.1 ∧
        (runAll steps (.ofBuffer buffer)).2.2.position = (runAll steps (.counter 0)).2.2.position) ∧
    ∀ (v : Value) (buffer : Bytes), (v.emit (.counter 0)).2.position < 0x10000000000000000 →
      v.Foretold buffer := by
  refine ⟨?_, fun v buffer _ => v.foretold buffer⟩
  intro steps buffer _ hroom
  obtain ⟨notes, result, bytes, -, hcounter, hbuffer⟩ := (uniform_runAll steps).exists_bytes
  rw [hcounter] at hroom ⊢
  rw [hbuffer buffer hroom]
  exact ⟨rfl, rfl, rfl⟩

/-- An error that is passed over in an array of indefinite length, the head of a map, and an array that is
short of its item. -/
theorem passed_over_and_short_foretold :
    let steps : List TopStep := [
      .container .array none (.emit (.simple 24) false (.emit (.unsigned 1) true .done)),
      .head .map (some 2), .container .array (some 1) (.mark .done)]
    let buffer : Bytes := [0, 0, 0, 0, 0]
    (runAll steps (.counter 0)).2.2.position < 0x10000000000000000 ∧
      (runAll steps (.counter 0)).2.2.position ≤ buffer.length ∧
      (runAll steps (.counter 0)).2.1 = .error (.misuse (.missingItems 0 1)) ∧
      (runAll steps (.ofBuffer buffer)).1 = (runAll steps (.counter 0)).1 ∧
      (runAll steps (.ofBuffer buffer)).2.1 = (runAll steps (.counter 0)).2.1 ∧
      (runAll steps (.ofBuffer buffer)).2.2.position = (runAll steps (.counter 0)).2.2.position := by
  intro steps buffer
  have hcount : (runAll steps (.counter 0)).2.2.position < 0x10000000000000000 := by decide +kernel
  have hroom : (runAll steps (.counter 0)).2.2.position ≤ buffer.length := by decide +kernel
  exact ⟨hcount, hroom, by decide +kernel, counter_foretells_buffer.1 steps buffer hcount hroom⟩

end TopStep

end CborRecords
