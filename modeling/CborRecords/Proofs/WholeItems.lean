import CborRecords.Script
import CborRecords.Proofs.Encoding
import CborRecords.Proofs.Reading
import CborRecords.Proofs.Skipping

/-!
# What calls of the encoder write

A call that writes an item, or a container around what further calls write, and that passes on the first
error it meets, has written the bytes of one value when it ends well. These are one well-formed item if
every map in it was given whole pairs, as many as announced. There are two ways to end well without that.
Nothing counts the items of a map of indefinite length, which may be left with a key alone. And the items
that a definite map announces are counted in 64 bits, so that one of `0x8000000000000000` pairs or more is
content with fewer. In both cases the bytes are no item.

* `Script.Calls`, `TopStep.Calls` : calls that pass on errors, with the values they are to write;
* `Script.Calls.emitItems`, `TopStep.Calls.emit` : such a run writes these values;
* `Value.Counted` : what emitting checks of a value; `Value.emit_eq_ok` : a value that was emitted was
  counted, and its bytes were written;
* `Value.Paired` : maps hold whole pairs, as many as announced; `Value.Counted.encodable`,
  `Value.Counted.paired_of_written` : what that adds, and that a well-formed item needs it;
* `TopStep.writes_item_iff_paired` : when a call has written one item;
* `TopStep.key_alone_is_no_item` : a map that was given a key alone.
-/

namespace CborRecords

/-! ## Calls -/

namespace Script

/-- What is written into a container by calls that pass on the first error they meet, and the values it
is to hold. -/
inductive Calls : Script → List Value → Prop
  | done : Calls .done []
  | emit {value : Value} {next : Script} {items : List Value} (h : Calls next items) :
      Calls (.emit value true next) (value :: items)
  | container {kind : Container} {count : Option UInt64} {inside next : Script} {inner items : List Value}
      (hinside : Calls inside inner) (h : Calls next items) :
      Calls (.container kind count inside true next) (.container kind count inner :: items)
  | mark {next : Script} {items : List Value} (h : Calls next items) : Calls (.mark next) items

theorem proceed_strict {α : Type} {depth start : Nat} {step : Step} {outcome : Except Stop Unit × Sink}
    {next : Sink → Run α} {a : α} {after : Sink}
    (h : (proceed depth start step true outcome next).2 = (.ok a, after)) :
    ∃ mid, outcome = (.ok (), mid) ∧ (next mid).2 = (.ok a, after) := by
  rcases outcome with ⟨(e | m) | u, mid⟩
  · cases h
  · cases h
  · exact ⟨mid, rfl, h⟩

/-- A container is written by writing its head, what is in it, and its end. -/
theorem enclose_eq_ok {kind : Container} {count : Option UInt64} {inside : Sink → Run Nat}
    {sink after : Sink} (h : (enclose kind count inside sink).2 = (.ok (), after)) :
    ∃ opened n filled, sink.write (kind.head count) = (.ok (), opened) ∧
      (inside opened).2 = (.ok n, filled) ∧
      Container.finish (kind.limit count) n filled = (.ok (), after) := by
  unfold enclose at h
  rcases hhead : sink.write (kind.head count) with ⟨stop | u, opened⟩
  · rw [hhead] at h
    cases h
  · rw [hhead] at h
    dsimp only at h
    rcases hinside : inside opened with ⟨notes, stop | n, filled⟩
    · rw [hinside] at h
      cases h
    · rw [hinside] at h
      exact ⟨opened, n, filled, rfl, congrArg Prod.snd hinside, h⟩

namespace Calls
variable {script : Script} {items : List Value}

theorem emit_enclose {kind : Container} {count : Option UInt64} {depth start : Nat} {sink after : Sink}
    (hscript : ∀ {depth start : Nat} {limit : Option Nat} {index n : Nat} {sink after : Sink},
      (script.run depth start limit index sink).2 = (.ok n, after) →
        Value.emitItems limit index items sink = Container.finish limit n after)
    (h : (enclose kind count (script.run depth start (kind.limit count) 0) sink).2 = (.ok (), after)) :
    (Value.container kind count items).emit sink = (.ok (), after) := by
  obtain ⟨opened, n, filled, hhead, hinside, hfinish⟩ := enclose_eq_ok h
  rw [Value.emit, hhead]
  exact (hscript hinside).trans hfinish

/-- Calls in a container that end well have written their values. -/
theorem emitItems (hc : script.Calls items) {depth start : Nat} {limit : Option Nat} {index n : Nat}
    {sink after : Sink} (h : (script.run depth start limit index sink).2 = (.ok n, after)) :
    Value.emitItems limit index items sink = Container.finish limit n after := by
  induction hc generalizing depth start limit index n sink after with
  | done =>
    cases h
    rw [Value.emitItems]
  | mark hc ih => exact ih h
  | @emit value next items hc ih =>
    rw [run] at h
    rw [Value.emitItems]
    cases hindex : Container.nextIndex limit index with
    | error stop =>
      rw [hindex] at h
      cases h
    | ok index =>
      rw [hindex] at h
      obtain ⟨mid, hemit, hnext⟩ := proceed_strict h
      dsimp only
      rw [hemit]
      exact ih hnext
  | @container kind count inside next inner items hinside hc ih_inside ih =>
    rw [run] at h
    rw [Value.emitItems]
    cases hindex : Container.nextIndex limit index with
    | error stop =>
      rw [hindex] at h
      cases h
    | ok index =>
      rw [hindex] at h
      obtain ⟨mid, henclose, hnext⟩ := proceed_strict h
      dsimp only
      rw [emit_enclose ih_inside henclose]
      exact ih hnext

end Calls

end Script

namespace TopStep

/-- A call outside any container that passes on the first error it meets, and the value it is to
write. -/
inductive Calls : TopStep → Value → Prop
  | emit (value : Value) : Calls (.emit value) value
  | container {kind : Container} {count : Option UInt64} {inside : Script} {items : List Value}
      (h : inside.Calls items) : Calls (.container kind count inside) (.container kind count items)

theorem Calls.emit_value {step : TopStep} {v : Value} {sink after : Sink} (hc : step.Calls v)
    (h : (step.run sink).2 = (.ok (), after)) : v.emit sink = (.ok (), after) := by
  cases hc with
  | emit => exact h
  | container hinside => exact Script.Calls.emit_enclose hinside.emitItems h

end TopStep

/-! ## What emitting checks -/

theorem Container.eq_of_nextIndex {limit : Option Nat} {index next : Nat}
    (h : Container.nextIndex limit index = .ok next) : next = index + 1 := by
  unfold Container.nextIndex at h
  cases limit with
  | none =>
    cases h
    rfl
  | some most =>
    dsimp only at h
    split at h
    · cases h
    · cases h
      rfl

namespace Value

/-- What emitting a value checks: no simple value that stands for something else, and definite containers
with as many items as the limit says. Strings are of a length that can be written. -/
inductive Counted : Value → Prop
  | scalar {v : Value} (hs : ∀ kind count items, v ≠ container kind count items) (h : v.Encodable) : Counted v
  | definite {kind : Container} {count : UInt64} {items : List Value}
      (hn : kind.limit (some count) = some items.length) (h : ∀ v ∈ items, Counted v) :
      Counted (.container kind (some count) items)
  | indefinite {kind : Container} {items : List Value} (h : ∀ v ∈ items, Counted v) :
      Counted (.container kind none items)

/-- Every map in the value holds whole pairs: one of indefinite length has a value for each key, and a
definite one announces fewer than `0x8000000000000000` pairs, whose items 64 bits can count. -/
inductive Paired : Value → Prop
  | scalar {v : Value} (hs : ∀ kind count items, v ≠ container kind count items) : Paired v
  | definite {kind : Container} {count : UInt64} {items : List Value}
      (hn : count.toNat * kind.arity < 0x10000000000000000) (h : ∀ v ∈ items, Paired v) :
      Paired (.container kind (some count) items)
  | indefinite {kind : Container} {items : List Value} (hn : items.length % kind.arity = 0)
      (h : ∀ v ∈ items, Paired v) : Paired (.container kind none items)

theorem Counted.encodable {v : Value} (h : v.Counted) (hp : v.Paired) : v.Encodable := by
  induction h with
  | scalar hs h => exact h
  | definite hlimit h ih =>
    cases hp with
    | scalar hs => exact absurd rfl (hs _ _ _)
    | definite hn hp =>
      rw [Container.limit_of_lt hn] at hlimit
      have hlen := Option.some.inj hlimit
      exact .definite hlen.symm (hlen ▸ hn) fun v hv => ih v hv (hp v hv)
  | indefinite h ih =>
    cases hp with
    | scalar hs => exact absurd rfl (hs _ _ _)
    | indefinite hn hp => exact .indefinite hn fun v hv => ih v hv (hp v hv)

/-- A scalar that was emitted can be encoded, and its bytes were written. -/
theorem emit_scalar_eq_ok {v : Value} (hs : ∀ kind count items, v ≠ container kind count items)
    {sink after : Sink} (h : v.emit sink = (.ok (), after)) :
    sink.write v.encoding = (.ok (), after) ∧ (v.encoding.length < 0x10000000000000000 → v.Encodable) := by
  cases v with
  | unsigned n => exact ⟨h, fun _ => .unsigned n⟩
  | signed n =>
    refine ⟨?_, fun _ => .signed n⟩
    rw [emit] at h
    show sink.write (if 0 ≤ n then _ else _) = _
    split at h <;> rename_i hn
    · rwa [if_pos hn]
    · rwa [if_neg hn]
  | bool b => exact ⟨h, fun _ => .bool b⟩
  | null => exact ⟨h, fun _ => .null⟩
  | undefined => exact ⟨h, fun _ => .undefined⟩
  | simple v =>
    rw [emit] at h
    split at h
    · cases h
    · rename_i hv
      exact ⟨h, fun _ => .simple hv⟩
  | text content =>
    rw [emit, emitString, Sink.andThen_eq_ok] at h
    refine ⟨Sink.write_append.2 h, fun hlen => .text ?_⟩
    rw [encoding_scalar hs, front, List.length_append] at hlen
    show (Utf8.encode content).length < _
    omega
  | bytes content =>
    rw [emit, emitString, Sink.andThen_eq_ok] at h
    refine ⟨Sink.write_append.2 h, fun hlen => .bytes ?_⟩
    rw [encoding_scalar hs, front, List.length_append] at hlen
    omega
  | container kind count items => exact absurd rfl (hs kind count items)

mutual

/-- A value that was emitted was counted, and its bytes were written. -/
theorem emit_eq_ok (v : Value) {sink after : Sink} (h : v.emit sink = (.ok (), after)) :
    sink.write v.encoding = (.ok (), after) ∧ (v.encoding.length < 0x10000000000000000 → v.Counted) := by
  cases v with
  | container kind count items =>
    rw [emit, Sink.andThen_eq_ok] at h
    obtain ⟨opened, hhead, hitems⟩ := h
    obtain ⟨hwrite, hcount, hcounted⟩ := emitItems_eq_ok items hitems
    have hending : Container.ending (kind.limit count) = Container.ending count := by
      cases count <;> rfl
    rw [hending] at hwrite
    refine ⟨Sink.write_append.2 ⟨opened, hhead, hwrite⟩, fun hlen => ?_⟩
    have hle := length_le_encodings items
    rw [length_encoding_container, List.length_append] at hlen
    have hall := hcounted (by omega)
    cases count with
    | none => exact .indefinite hall
    | some n =>
      refine .definite ?_ hall
      rw [← Nat.zero_add items.length, ← hcount _ rfl]
      rfl
  | _ =>
    obtain ⟨hwrite, hv⟩ := emit_scalar_eq_ok (by nofun) h
    exact ⟨hwrite, fun hlen => .scalar (by nofun) (hv hlen)⟩

/-- Items that were emitted are as many as announced. -/
theorem emitItems_eq_ok (items : List Value) {limit : Option Nat} {index : Nat} {sink after : Sink}
    (h : emitItems limit index items sink = (.ok (), after)) :
    sink.write (encodings items ++ Container.ending limit) = (.ok (), after) ∧
      (∀ n, limit = some n → n = index + items.length) ∧
      ((encodings items).length < 0x10000000000000000 → ∀ v ∈ items, v.Counted) := by
  cases items with
  | nil =>
    rw [emitItems, Container.finish.eq_def] at h
    cases limit with
    | none => exact ⟨h, nofun, fun _ => nofun⟩
    | some expected =>
      dsimp only at h
      split at h
      · rename_i hindex
        refine ⟨(Sink.write_nil sink).trans h, ?_, fun _ => nofun⟩
        rintro n ⟨⟩
        exact hindex.symm
      · cases h
  | cons v items =>
    rw [emitItems] at h
    cases hindex : Container.nextIndex limit index with
    | error stop =>
      rw [hindex] at h
      cases h
    | ok index' =>
      rw [hindex] at h
      obtain ⟨mid, hv, hitems⟩ := Sink.andThen_eq_ok.1 h
      obtain ⟨hwrite, hcounted⟩ := emit_eq_ok v hv
      obtain ⟨hwrites, hcount, hall⟩ := emitItems_eq_ok items hitems
      have hnext := Container.eq_of_nextIndex hindex
      refine ⟨?_, ?_, ?_⟩
      · rw [encodings, List.append_assoc]
        exact Sink.write_append.2 ⟨mid, hwrite, hwrites⟩
      · intro n hn
        rw [hcount n hn, hnext, List.length_cons]
        omega
      · intro hlen w hw
        rw [encodings, List.length_append] at hlen
        rcases List.mem_cons.1 hw with rfl | hw
        · exact hcounted (by omega)
        · exact hall (by omega) w hw

end

/-! ## Whole pairs -/

/-- Items that stand where the bytes of values do are as many, if their number is known or the byte that
ends containers follows both; and the values hold whole pairs if each of them does as soon as an item
stands where it does. -/
theorem paired_of_flatMap {items : List Value} {parts : List (Tree × Bytes)} {x y : Bytes}
    (hitems : ∀ v ∈ items, v.Counted ∧ ∀ {t : Tree} {bytes x y : Bytes}, t.Written bytes →
      (v.encoding ++ y).length < 0x10000000000000000 → bytes ++ x = v.encoding ++ y → v.Paired)
    (hparts : ∀ i ∈ parts, i.1.Written i.2) (hlen : (encodings items ++ y).length < 0x10000000000000000)
    (he : parts.flatMap Prod.snd ++ x = encodings items ++ y)
    (hend : parts.length = items.length ∨ ((∃ x', x = Head.stop :: x') ∧ ∃ y', y = Head.stop :: y')) :
    (∀ v ∈ items, v.Paired) ∧ parts.length = items.length := by
  induction items generalizing parts with
  | nil =>
    cases parts with
    | nil => exact ⟨nofun, rfl⟩
    | cons i parts =>
      rcases hend with hend | ⟨-, y', rfl⟩
      · cases hend
      · obtain ⟨b, rest, hb, -, hstop, -⟩ := (hparts i List.mem_cons_self).starts
        rw [List.flatMap_cons, hb] at he
        exact absurd (List.cons.inj he).1 hstop
  | cons v items ih =>
    cases parts with
    | nil =>
      rcases hend with hend | ⟨⟨x', rfl⟩, -⟩
      · cases hend
      · obtain ⟨b, rest, hb, hstop⟩ := v.encoding_starts
        rw [encodings, hb] at he
        exact absurd (List.cons.inj he).1.symm hstop
    | cons i parts =>
      rw [List.flatMap_cons, encodings, List.append_assoc, List.append_assoc] at he
      rw [encodings, List.append_assoc] at hlen
      obtain ⟨hcounted, hpaired⟩ := hitems v List.mem_cons_self
      have hi := hparts i List.mem_cons_self
      have hv : v.Paired := hpaired hi hlen he
      have hlens := congrArg List.length he
      simp only [List.length_append] at hlen hlens
      obtain ⟨-, hbytes⟩ :=
        hi.append_inj (written_encoding (hcounted.encodable hv)) (by omega) (by omega) he
      rw [hbytes] at he
      have hrest := List.append_cancel_left he
      have hend' : parts.length = items.length ∨
          ((∃ x', x = Head.stop :: x') ∧ ∃ y', y = Head.stop :: y') := by
        rcases hend with hend | hend
        · exact .inl (Nat.succ.inj hend)
        · exact .inr hend
      obtain ⟨hall, hcount⟩ := ih (fun w hw => hitems w (List.mem_cons_of_mem _ hw))
        (fun j hj => hparts j (List.mem_cons_of_mem _ hj)) (by rw [List.length_append]; omega) hrest hend'
      refine ⟨?_, congrArg (· + 1) hcount⟩
      intro w hw
      rcases List.mem_cons.1 hw with rfl | hw
      · exact hv
      · exact hall w hw

/-- Where a well-formed item stands at the start of the bytes of a value, the value holds whole pairs. -/
theorem Counted.paired_of_written {v : Value} (hv : v.Counted) {t : Tree} {bytes x y : Bytes}
    (hw : t.Written bytes) (hlen : (v.encoding ++ y).length < 0x10000000000000000)
    (he : bytes ++ x = v.encoding ++ y) : v.Paired := by
  induction hv generalizing t bytes x y with
  | scalar hs h => exact .scalar hs
  | @definite kind count items hlimit h ih =>
    have hhead := Head.encode_written kind.major count
    obtain ⟨b, digits, hb, hmajor, hinfo⟩ := hhead.exists_cons
    rw [encoding_container] at he hlen
    change bytes ++ x = Head.encode kind.major count ++ (encodings items ++ y) at he
    change (Head.encode kind.major count ++ (encodings items ++ y)).length < _ at hlen
    have hm : t.major = kind.major := by
      rw [hb] at he
      rw [hw.major_of_append he, hmajor]
    obtain ⟨parts, hparts, ⟨n, head, hn', hcount, rfl⟩ | ⟨-, rfl⟩⟩ := hw.exists_parts hm
    · rw [List.append_assoc] at he
      obtain ⟨rfl, hrest⟩ := Head.Written.append_inj hn' hhead he
      have hsum : parts.length = count.toNat * kind.arity := by rw [hcount, hn'.unique hhead]
      rw [List.length_append] at hlen
      -- the items that stand there take a byte each, so 64 bits can count them
      have hlt : count.toNat * kind.arity < 0x10000000000000000 := by
        have hle := Tree.length_le_of_written hparts
        have hlens := congrArg List.length hrest
        rw [List.length_append] at hlens
        omega
      have hsame : parts.length = items.length := by
        rw [Container.limit_of_lt hlt] at hlimit
        rw [hsum, Option.some.inj hlimit]
      refine .definite hlt (paired_of_flatMap ?_ hparts (by omega) hrest (.inl hsame)).1
      exact fun v hv => ⟨h v hv, ih v hv⟩
    · -- the initial byte announces a count, and not an indefinite length
      rw [hb] at he
      obtain ⟨rfl, -⟩ := List.cons.inj he
      rw [Head.info_initial _ (by decide)] at hinfo
      omega
  | @indefinite kind items h ih =>
    rw [encoding_container] at he hlen
    change bytes ++ x = Head.initial kind.major 31 :: (encodings items ++ Head.stop :: y) at he
    change (Head.initial kind.major 31 :: (encodings items ++ Head.stop :: y)).length < _ at hlen
    have hm : t.major = kind.major := by
      rw [hw.major_of_append he, Head.major_initial _ (by decide)]
    obtain ⟨parts, hparts, ⟨n, head, hn', -, rfl⟩ | ⟨hpairs, rfl⟩⟩ := hw.exists_parts hm
    · obtain ⟨b, digits, rfl, -, hinfo⟩ := hn'.exists_cons
      obtain ⟨rfl, -⟩ := List.cons.inj he
      rw [Head.info_initial _ (by decide)] at hinfo
      omega
    · have hrest : parts.flatMap Prod.snd ++ Head.stop :: x = encodings items ++ Head.stop :: y := by
        rw [List.cons_append, List.cons_append, List.append_assoc] at he
        exact (List.cons.inj he).2
      rw [List.length_cons] at hlen
      have hitems := paired_of_flatMap (fun v hv => ⟨h v hv, ih v hv⟩) hparts (by omega) hrest
        (.inr ⟨⟨x, rfl⟩, y, rfl⟩)
      refine .indefinite ?_ hitems.1
      rw [← hitems.2]
      exact hpairs

end Value

/-! ## Calls and items -/

namespace TopStep

/-- A call that passes on the first error it meets and ends well has written one well-formed item if it
gave whole pairs to every map of indefinite length and announced fewer than `0x8000000000000000` pairs to
every other: skipping takes all of it, with any limit from its depth on. If it did not, no limit accepts
anything of what was written. Positions are counted in 64 bits. -/
theorem writes_item_iff_paired {step : TopStep} {v : Value} {sink after : Sink} (hcalls : step.Calls v)
    (hrun : (step.run sink).2 = (.ok (), after)) (hposition : after.position < 0x10000000000000000) :
    ∃ bytes, sink.write bytes = (.ok (), after) ∧
      (v.Paired → ∀ m, v.tree.depth ≤ m → ((Entry.skip m).run bytes).2 = .ok bytes.length) ∧
      (¬ v.Paired → ∀ m n, ((Entry.skip m).run bytes).2 ≠ .ok n) := by
  obtain ⟨hwrite, hcounted⟩ := v.emit_eq_ok (hcalls.emit_value hrun)
  have hlen : v.encoding.length < 0x10000000000000000 := by
    have := Sink.position_of_write hwrite
    omega
  refine ⟨v.encoding, hwrite, ?_, ?_⟩
  · intro hpaired m hm
    have hw := Value.written_encoding ((hcounted hlen).encodable hpaired)
    obtain ⟨item, hopen, hskip⟩ := Item.skip_of_written hw hlen hm []
    rw [List.append_nil] at hopen
    exact Entry.run_eq_ok_iff.2 ⟨item, hopen, hskip⟩
  · intro hpaired m n hskip
    obtain ⟨item, hopen, hn⟩ := Entry.run_eq_ok_iff.1 hskip
    obtain ⟨t, bytes, rest, hbytes, -, hw, -⟩ := Item.passes_skip m hopen hn
    have he : bytes ++ rest = v.encoding ++ [] := by rw [← hbytes, List.append_nil]
    exact hpaired ((hcounted hlen).paired_of_written hw (by rwa [List.append_nil]) he)

/-- An array of a definite length that holds a map of indefinite length with a pair. -/
theorem nested_map_is_item :
    let step : TopStep := .container .array (some 1)
      (.container .map none (.emit (.text "a") true (.emit (.unsigned 1) true .done)) true .done)
    let v : Value := .container .array (some 1) [.container .map none [.text "a", .unsigned 1]]
    let after : Sink := .buffer [0x81, 0xBF, 0x61, 0x61, 0x01, 0xFF] []
    step.Calls v ∧ v.Paired ∧ (step.run (.ofBuffer [0, 0, 0, 0, 0, 0])).2 = (.ok (), after) ∧
      ∃ bytes, (Sink.ofBuffer [0, 0, 0, 0, 0, 0]).write bytes = (.ok (), after) ∧
        ∀ m, v.tree.depth ≤ m → ((Entry.skip m).run bytes).2 = .ok bytes.length := by
  intro step v after
  have hcalls : step.Calls v := .container (.container (.emit (.emit .done)) .done)
  have hpaired : v.Paired := by
    refine .definite (by decide) ?_
    rintro _ (_ | ⟨_, ⟨⟩⟩)
    refine .indefinite rfl ?_
    rintro _ (_ | ⟨_, _ | ⟨_, ⟨⟩⟩⟩)
    · exact .scalar nofun
    · exact .scalar nofun
  have hrun : (step.run (.ofBuffer [0, 0, 0, 0, 0, 0])).2 = (.ok (), after) := by decide +kernel
  obtain ⟨bytes, hwrite, hitem, -⟩ := writes_item_iff_paired hcalls hrun (by decide)
  exact ⟨hcalls, hpaired, hrun, bytes, hwrite, hitem hpaired⟩

/-- A map that announces so many pairs that none is asked for ends well behind its head. -/
example :
    (run (.container .map (some 0x8000000000000000) .done) (.ofBuffer [1, 2, 3, 4, 5, 6, 7, 8, 9])).2 =
      (.ok (), .buffer [0xBB, 0x80, 0, 0, 0, 0, 0, 0, 0] []) := by
  decide +kernel

/-- A map of indefinite length that is given a key alone is written without complaint, and read as a map
that ends too soon. -/
theorem key_alone_is_no_item :
    let step : TopStep := .container .map none (.emit (.unsigned 1) true .done)
    (step.run (.ofBuffer [0, 0, 0])).2 = (.ok (), .buffer [0xBF, 0x01, 0xFF] []) ∧
      ∀ m n, ((Entry.skip m).run [0xBF, 0x01, 0xFF]).2 ≠ .ok n := by
  refine ⟨by decide +kernel, ?_⟩
  intro m n hskip
  obtain ⟨item, hopen, hn⟩ := Entry.run_eq_ok_iff.1 hskip
  obtain ⟨t, bytes, rest, hbytes, -, hw, -⟩ := Item.passes_skip m hopen hn
  have hcounted : (Value.container .map none [.unsigned 1]).Counted := by
    refine .indefinite ?_
    rintro _ (_ | ⟨_, ⟨⟩⟩)
    exact .scalar nofun (.unsigned 1)
  have hpaired := hcounted.paired_of_written (y := []) hw (by decide) hbytes.symm
  cases hpaired with
  | scalar hs => exact absurd rfl (hs _ _ _)
  | indefinite hpairs _ => exact absurd hpairs (by decide)

end TopStep

end CborRecords
