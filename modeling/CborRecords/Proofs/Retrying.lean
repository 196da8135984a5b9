import CborRecords.Proofs.Framing

/-!
# Trying again

A cursor is still good after an operation on it has failed. The operation leaves the cursor where it stood,
however far it got inside the item there; only the end of a container of indefinite length is passed once it
has been found, also by an operation that asked for an item. So whatever failed can be tried again, and at the
end nothing more happens.

* `Operation.run` : the outcome of an operation with any callback, and the cursor after it;
* `Cursor.StaysOrEnds` : where a cursor is left when an item was asked for in vain;
* `Operation.eq_of_offers`, `Operation.staysOrEnds_of_demands` : where a failed operation leaves it;
* `Cursor.Refuses`, `Cursor.exists_past_of_skipToEnd` : where skipping all items fails;
* `Operation.atEnd_of_report` : what reports the end has found it;
* `Operation.run_at_end`, `Program.run_at_end` : operations and programs at the end;
* `Entry.failed_operations_can_be_retried` : all of this in every state that a run comes through.
-/

namespace CborRecords

/-! ## Operations -/

namespace Operation

/-- The outcome of an operation and the cursor after it. A visit does with the item whatever `inside` does, which
gives the events to keep and the item's length. -/
def run (inside : Item → List Event × Except DecodeError Nat) (c : Cursor) :
    Operation → Except DecodeError Answer × Cursor
  | .query q => q.run c
  | .visit _ required =>
    (Program.answer required (Program.visit inside c).2.1, (Program.visit inside c).2.2)

/-- The operation fails where there is no item. -/
inductive Demands : Operation → Prop
  | scalar (t : ScalarType) : Demands (.query (.scalar t))
  | visit (entering : Entering) : Demands (.visit entering true)

/-- The operation looks whether there is an item, and says so if there is none. -/
inductive Offers : Operation → Prop
  | atEnd : Offers (.query .atEnd)
  | scalar? (t : ScalarType) : Offers (.query (.scalar? t))
  | visit (entering : Entering) : Offers (.visit entering false)

/-- What an operation gives at the end of a container. -/
def reportAtEnd (c : Cursor) : Operation → Except DecodeError Answer
  | .query .length => .ok (.length c.length?)
  | .query .isEmpty => .ok (.holds c.isEmpty)
  | .query .isDefinite | .query .atEnd => .ok (.holds true)
  | .query (.skipToEnd _) => .ok .done
  | .query (.scalar _) => .error .notEnoughData
  | .query (.scalar? _) => .ok .absent
  | .visit _ required => if required then .error .notEnoughData else .ok .absent

end Operation

/-! ## Failed visits -/

namespace Cursor
variable {c c' : Cursor} {e : DecodeError}

/-- The cursor stands on the byte that ends its container of indefinite length, with complete pairs in a
map. -/
def StandsOnEnd (c : Cursor) : Prop :=
  c.count = none ∧ c.parsed % c.kind.arity = 0 ∧ ∃ rest, c.rest = Head.stop :: rest

theorem StandsOnEnd.atEnd (h : c.StandsOnEnd) : c.atEnd = (.ok true, c.settle) :=
  atEnd_eq_true_iff.2 (.inr ⟨h.1, h.2.1, rfl, h.2.2⟩)

/-- Elsewhere the end is found without a move. -/
theorem eq_of_atEnd (hc : ¬ c.StandsOnEnd) (h : c.atEnd = (.ok true, c')) : c' = c := by
  rcases atEnd_eq_true_iff.1 h with ⟨n, -, -, rfl⟩ | ⟨hcount, hparsed, -, hrest⟩
  · rfl
  · exact absurd ⟨hcount, hparsed, hrest⟩ hc

/-- Where a cursor is left when an item was asked for in vain: where it stood, or behind the end it stood on. -/
def StaysOrEnds (c c' : Cursor) : Prop :=
  (c.StandsOnEnd ∧ c.atEnd = (.ok true, c')) ∨ (¬ c.StandsOnEnd ∧ c' = c)

theorem staysOrEnds_of_atEnd (h : c.atEnd = (.ok true, c')) : c.StaysOrEnds c' := by
  by_cases hc : c.StandsOnEnd
  · exact .inl ⟨hc, h⟩
  · exact .inr ⟨hc, eq_of_atEnd hc h⟩

theorem staysOrEnds_refl (h : ∀ last, c.atEnd ≠ (.ok true, last)) : c.StaysOrEnds c :=
  .inr ⟨fun hc => h _ hc.atEnd, rfl⟩

theorem peek_error (h : c.peek = (.error e, c')) : c' = c := by
  have hsnd : c' = c.atEnd.2 := by rw [← c.peek_snd, h]
  rcases hend : c.atEnd with ⟨e' | (_ | _), c''⟩
  · rw [hsnd, hend, atEnd_error hend]
  · rw [hsnd, hend, (atEnd_eq_false_iff.1 hend).1]
  · rw [peek_eq_none_iff.2 hend] at h
    cases h

section Next
variable {α : Type} {visit : Item → Except DecodeError (α × Nat)}

theorem next?_error (h : c.next? visit = (.error e, c')) : c' = c := by
  unfold next? at h
  rcases hpeek : c.peek with ⟨e' | (_ | item), c''⟩
  · rw [hpeek] at h
    cases h
    exact peek_error hpeek
  · rw [hpeek] at h
    cases h
  · obtain ⟨rfl, -⟩ := peek_eq_some_iff.1 hpeek
    rw [hpeek] at h
    dsimp only at h
    rcases hvisit : visit item with e' | ⟨a, n⟩
    · rw [hvisit] at h
      cases h
      rfl
    · rw [hvisit] at h
      cases h

theorem next?_eq_none_iff : c.next? visit = (.ok none, c') ↔ c.atEnd = (.ok true, c') := by
  rw [← peek_eq_none_iff]
  unfold next?
  rcases c.peek with ⟨e' | (_ | item), c''⟩
  · simp
  · simp
  · dsimp only
    rcases visit item with e' | ⟨a, n⟩ <;> simp

theorem staysOrEnds_of_next (h : c.next visit = (.error e, c')) : c.StaysOrEnds c' := by
  rcases hnext : c.next? visit with ⟨result, c''⟩
  rw [next, hnext] at h
  obtain rfl : c'' = c' := congrArg Prod.snd h
  rcases result with e' | (_ | value)
  · obtain rfl := next?_error hnext
    apply staysOrEnds_refl
    intro last hlast
    rw [next?_eq_none_iff.2 hlast] at hnext
    cases hnext
  · exact staysOrEnds_of_atEnd (next?_eq_none_iff.1 hnext)
  · cases h

end Next

theorem scalar?_error {t : ScalarType} (h : c.scalar? t = (.error e, c')) : c' = c := by
  unfold scalar? at h
  dsimp only at h
  split at h
  · rename_i hnext
    cases h
    exact next?_error hnext
  · cases h
  · cases h

theorem scalar?_eq_none_iff {t : ScalarType} : c.scalar? t = (.ok none, c') ↔ c.atEnd = (.ok true, c') := by
  unfold scalar?
  dsimp only
  split
  · rename_i hnext
    rw [← next?_eq_none_iff, hnext]
    simp
  · rename_i hnext
    rw [← next?_eq_none_iff, hnext]
    simp
  · rename_i hnext
    rw [← next?_eq_none_iff, hnext]
    simp

end Cursor

namespace Program
variable {c c' : Cursor} {e : DecodeError} {inside : Item → List Event × Except DecodeError Nat}

theorem visit_error {events : List Event} (h : visit inside c = (events, .error e, c')) : c' = c := by
  unfold visit at h
  rcases hpeek : c.peek with ⟨e' | (_ | item), c''⟩
  · rw [hpeek] at h
    cases h
    exact Cursor.peek_error hpeek
  · rw [hpeek] at h
    cases h
  · obtain ⟨rfl, -⟩ := Cursor.peek_eq_some_iff.1 hpeek
    rw [hpeek] at h
    dsimp only at h
    rcases hvisit : inside item with ⟨events', e' | n⟩
    · rw [hvisit] at h
      cases h
      rfl
    · rw [hvisit] at h
      cases h

theorem visit_eq_none_iff : (visit inside c).2 = (.ok none, c') ↔ c.atEnd = (.ok true, c') := by
  rw [← Cursor.peek_eq_none_iff]
  unfold visit
  rcases c.peek with ⟨e' | (_ | item), c''⟩
  · simp
  · simp
  · dsimp only
    rcases inside item with ⟨events, e' | n⟩ <;> simp

end Program

namespace Operation
variable {operation : Operation} {inside : Item → List Event × Except DecodeError Nat} {c c' : Cursor}
  {e : DecodeError}

/-- Where the end is found, an operation that looks for an item reports it and leaves the cursor behind it. -/
theorem run_of_atEnd (ho : operation.Demands ∨ operation.Offers) (h : c.atEnd = (.ok true, c')) :
    operation.run inside c = (operation.reportAtEnd c', c') := by
  have hscalar (t : ScalarType) : c.scalar? t = (.ok none, c') := Cursor.scalar?_eq_none_iff.2 h
  have hvisit : (Program.visit inside c).2 = (.ok none, c') := Program.visit_eq_none_iff.2 h
  rcases ho with ho | ho
  · cases ho with
    | scalar t =>
      rw [run, Query.run, Cursor.scalar, hscalar t]
      rfl
    | visit entering =>
      rw [run, hvisit]
      rfl
  · cases ho with
    | atEnd =>
      rw [run, Query.run, h]
      rfl
    | scalar? t =>
      rw [run, Query.run, hscalar t]
      rfl
    | visit entering =>
      rw [run, hvisit]
      rfl

/-- An operation fails without a move, unless it found the end. -/
theorem eq_of_run_error (ho : operation.Demands ∨ operation.Offers)
    (hend : ∀ last, c.atEnd ≠ (.ok true, last)) (h : operation.run inside c = (.error e, c')) : c' = c := by
  have hscalar {t : ScalarType} {result : Except DecodeError (Option Scalar)}
      (ht : c.scalar? t = (result, c')) (hresult : ∀ value, result ≠ .ok (some value)) : c' = c := by
    rcases result with e' | (_ | value)
    · exact Cursor.scalar?_error ht
    · exact absurd (Cursor.scalar?_eq_none_iff.1 ht) (hend c')
    · exact absurd rfl (hresult value)
  have hvisit {entering : Entering} {required : Bool}
      (hv : (visit entering required).run inside c = (.error e, c')) : c' = c := by
    rcases hi : Program.visit inside c with ⟨events, e' | (_ | n), c''⟩
    · rw [run, hi] at hv
      cases hv
      exact Program.visit_error hi
    · exact absurd (Program.visit_eq_none_iff.1 (congrArg Prod.snd hi)) (hend c'')
    · rw [run, hi] at hv
      cases hv
  rcases ho with ho | ho
  · cases ho with
    | scalar t =>
      rcases ht : c.scalar? t with ⟨result, c''⟩
      rw [run, Query.run, Cursor.scalar, ht] at h
      obtain rfl : c'' = c' := congrArg Prod.snd h
      refine hscalar ht ?_
      rintro value rfl
      cases h
    | visit entering => exact hvisit h
  · cases ho with
    | atEnd =>
      rcases ht : c.atEnd with ⟨result, c''⟩
      rw [run, Query.run, ht] at h
      obtain rfl : c'' = c' := congrArg Prod.snd h
      rcases result with e' | b
      · exact Cursor.atEnd_error ht
      · cases h
    | scalar? t =>
      rcases ht : c.scalar? t with ⟨result, c''⟩
      rw [run, Query.run, ht] at h
      obtain rfl : c'' = c' := congrArg Prod.snd h
      refine hscalar ht ?_
      rintro value rfl
      cases h
    | visit entering => exact hvisit h

/-- An operation that offers to find no item fails without a move. -/
theorem eq_of_offers (ho : operation.Offers) (h : operation.run inside c = (.error e, c')) : c' = c := by
  by_cases hend : ∃ last, c.atEnd = (.ok true, last)
  · obtain ⟨last, hend⟩ := hend
    rw [run_of_atEnd (.inr ho) hend] at h
    cases ho <;> cases h
  · exact eq_of_run_error (.inr ho) (fun last hl => hend ⟨last, hl⟩) h

/-- An operation that demands an item fails without a move, except that it passes the end it stands on. -/
theorem staysOrEnds_of_demands (ho : operation.Demands) (h : operation.run inside c = (.error e, c')) :
    c.StaysOrEnds c' := by
  by_cases hend : ∃ last, c.atEnd = (.ok true, last)
  · obtain ⟨last, hend⟩ := hend
    rw [run_of_atEnd (.inl ho) hend] at h
    obtain rfl : last = c' := congrArg Prod.snd h
    exact Cursor.staysOrEnds_of_atEnd hend
  · have hend : ∀ last, c.atEnd ≠ (.ok true, last) := fun last hl => hend ⟨last, hl⟩
    obtain rfl := eq_of_run_error (.inl ho) hend h
    exact Cursor.staysOrEnds_refl hend

end Operation

/-! ## Where skipping fails -/

namespace Cursor

/-- The items from the cursor on cannot be skipped here, for this reason: the end is missing or misplaced, or no
item stands here that is well-formed and not too deep. -/
def Refuses (depth : Nat) (c : Cursor) (e : DecodeError) : Prop :=
  c.atEnd = (.error e, c) ∨ (c.atEnd = (.ok false, c) ∧ ((Entry.skip depth).run c.rest).2 = .error e)

theorem refuses_of_peek {depth : Nat} {c : Cursor} {e : DecodeError} (h : c.peek = (.error e, c)) :
    c.Refuses depth e := by
  unfold peek at h
  rcases hend : c.atEnd with ⟨e' | (_ | _), c'⟩
  · rw [hend] at h
    cases h
    exact .inl hend
  · obtain ⟨rfl, -⟩ := atEnd_eq_false_iff.1 hend
    refine .inr ⟨hend, ?_⟩
    rw [hend] at h
    dsimp only at h
    unfold Entry.run Entry.run?
    rcases hopen : Item.open? c'.rest with e' | (_ | item)
    · rw [hopen] at h
      cases h
      rfl
    · rw [hopen] at h
      cases h
      rfl
    · rw [hopen] at h
      cases h
  · rw [hend] at h
    cases h

theorem refuses_of_skip {depth : Nat} {c : Cursor} {item : Item} {e : DecodeError}
    (hpeek : c.peek = (.ok (some item), c)) (h : item.skip depth = .error e) : c.Refuses depth e := by
  obtain ⟨-, hend, hopen⟩ := peek_eq_some_iff.1 hpeek
  refine .inr ⟨hend, ?_⟩
  unfold Entry.run Entry.run?
  rw [hopen]
  dsimp only [Entry.visit, Program.skipping]
  rw [h]
  rfl

/-- The items that are passed have been skipped, and the cursor stands in front of what cannot be. The limit is
never met, since every item takes a byte. -/
theorem exists_past_of_traverseFrom {depth limit : Nat} {c c' : Cursor} {e : DecodeError} {notes : List Empty}
    (hlimit : c.rest.length ≤ limit)
    (h : traverseFrom (fun item => (([] : List Empty), item.skip depth)) limit c = (notes, .error e, c')) :
    ∃ items rest, (∀ i ∈ items, i.1.Written i.2 ∧ i.1.depth ≤ depth) ∧
      c.rest = items.flatMap Prod.snd ++ rest ∧ c' = c.past items rest ∧ c'.Refuses depth e := by
  fun_induction traverseFrom (fun item => (([] : List Empty), item.skip depth)) limit c generalizing notes with
  | case1 limit c e' c₁ hpeek =>
    cases h
    obtain rfl := peek_error hpeek
    exact ⟨[], c'.rest, List.forall_mem_nil _, rfl, rfl, refuses_of_peek hpeek⟩
  | case2 limit c c₁ hpeek => cases h
  | case3 limit c item c₁ hpeek notes₁ e' hvisit =>
    cases h
    obtain ⟨rfl, -, -⟩ := peek_eq_some_iff.1 hpeek
    exact ⟨[], c'.rest, List.forall_mem_nil _, rfl, rfl, refuses_of_skip hpeek (congrArg Prod.snd hvisit)⟩
  | case4 c item c₁ hpeek notes₁ n hvisit =>
    obtain ⟨-, -, hopen⟩ := peek_eq_some_iff.1 hpeek
    obtain ⟨t, bytes, rest, hrest, -, hw, -⟩ := Item.passes_skip depth hopen (congrArg Prod.snd hvisit)
    have hpos := hw.length_pos
    rw [hrest, List.length_append] at hlimit
    omega
  | case5 c item c₁ hpeek notes₁ n hvisit limit more result hmore ih =>
    obtain ⟨rfl, -, hopen⟩ := peek_eq_some_iff.1 hpeek
    obtain ⟨t, bytes, rest, hrest, rfl, hw, hd⟩ := Item.passes_skip depth hopen (congrArg Prod.snd hvisit)
    have hadvance : (c₁.advance bytes.length).rest = rest := by rw [advance, hrest, List.drop_left]
    have hpos := hw.length_pos
    rw [hrest, List.length_append] at hlimit
    cases h
    obtain ⟨items, rest', hitems, hrest', rfl, hrefuses⟩ := ih (by rw [hadvance]; omega) hmore
    refine ⟨(t, bytes) :: items, rest', ?_, ?_, past_advance c₁ (t, bytes) items rest', hrefuses⟩
    · intro i hi
      rcases List.mem_cons.1 hi with rfl | hi
      · exact ⟨hw, hd⟩
      · exact hitems i hi
    · rw [hrest, ← hadvance, hrest', List.flatMap_cons, List.append_assoc]

theorem exists_past_of_skipToEnd {depth : Nat} {c c' : Cursor} {e : DecodeError}
    (h : c.skipToEnd depth = (.error e, c')) :
    ∃ items rest, (∀ i ∈ items, i.1.Written i.2 ∧ i.1.depth ≤ depth) ∧
      c.rest = items.flatMap Prod.snd ++ rest ∧ c' = c.past items rest ∧ c'.Refuses depth e :=
  exists_past_of_traverseFrom (Nat.le_refl _) (Prod.ext rfl h)

/-- A traversal that succeeds stops at the end. -/
theorem atEnd_of_traverseFrom {β : Type} {visit : Item → List β × Except DecodeError Nat} {limit : Nat}
    {c c' : Cursor} {notes : List β} (h : traverseFrom visit limit c = (notes, .ok (), c')) :
    c'.atEnd = (.ok true, c') := by
  fun_induction traverseFrom visit limit c generalizing notes with
  | case1 limit c e c₁ hpeek => cases h
  | case2 limit c c₁ hpeek =>
    cases h
    exact atEnd_of_atEnd (peek_eq_none_iff.1 hpeek)
  | case3 limit c item c₁ hpeek notes₁ e hvisit => cases h
  | case4 c item c₁ hpeek notes₁ n hvisit => cases h
  | case5 c item c₁ hpeek notes₁ n hvisit limit more result hmore ih =>
    cases h
    exact ih hmore

end Cursor

/-! ## At the end -/

namespace Cursor
variable {c c' : Cursor}

theorem skipToEnd_of_atEnd (h : c.atEnd = (.ok true, c')) (depth : Nat) : c.skipToEnd depth = (.ok (), c') := by
  rw [skipToEnd, traverse]
  unfold traverseFrom
  rw [peek_eq_none_iff.2 h]

end Cursor

/-- An operation that reports the end has found it, where its report could be no other's. -/
theorem Operation.atEnd_of_report {operation : Operation} {c c' : Cursor}
    {inside : Item → List Event × Except DecodeError Nat}
    (ho : operation.Offers ∨ ∃ depth, operation = .query (.skipToEnd depth))
    (h : operation.run inside c = (operation.reportAtEnd c', c')) : c'.atEnd = (.ok true, c') := by
  rcases ho with ho | ⟨depth, rfl⟩
  · cases ho with
    | atEnd =>
      rcases hend : c.atEnd with ⟨e | (_ | _), c''⟩
      · rw [run, Query.run, hend] at h
        cases h
      · rw [run, Query.run, hend] at h
        cases h
      · rw [run, Query.run, hend] at h
        cases h
        exact Cursor.atEnd_of_atEnd hend
    | scalar? t =>
      rcases hscalar : c.scalar? t with ⟨e | (_ | value), c''⟩
      · rw [run, Query.run, hscalar] at h
        cases h
      · rw [run, Query.run, hscalar] at h
        cases h
        exact Cursor.atEnd_of_atEnd (Cursor.scalar?_eq_none_iff.1 hscalar)
      · rw [run, Query.run, hscalar] at h
        cases h
    | visit entering =>
      rcases hvisit : Program.visit inside c with ⟨events, e | (_ | n), c''⟩
      · rw [run, hvisit] at h
        cases h
      · rw [run, hvisit] at h
        cases h
        exact Cursor.atEnd_of_atEnd (Program.visit_eq_none_iff.1 (congrArg Prod.snd hvisit))
      · rw [run, hvisit] at h
        cases h
  · rcases hskip : c.skipToEnd depth with ⟨e | _, c''⟩
    · rw [run, Query.run, hskip] at h
      cases h
    · rw [run, Query.run, hskip] at h
      cases h
      exact Cursor.atEnd_of_traverseFrom (Prod.ext rfl hskip)

theorem Operation.run_at_end {c : Cursor} (h : c.atEnd = (.ok true, c)) (operation : Operation)
    (inside : Item → List Event × Except DecodeError Nat) :
    operation.run inside c = (operation.reportAtEnd c, c) := by
  cases operation with
  | query q =>
    cases q with
    | length | isEmpty => rfl
    | isDefinite =>
      obtain ⟨n, hn, -⟩ := Cursor.exists_count_of_atEnd h
      rw [run, Query.run, Cursor.isDefinite, hn]
      rfl
    | atEnd => exact run_of_atEnd (.inr .atEnd) h
    | skipToEnd depth =>
      rw [run, Query.run, Cursor.skipToEnd_of_atEnd h]
      rfl
    | scalar t => exact run_of_atEnd (.inl (.scalar t)) h
    | scalar? t => exact run_of_atEnd (.inr (.scalar? t)) h
  | visit entering required =>
    cases required with
    | true => exact run_of_atEnd (.inl (.visit entering)) h
    | false => exact run_of_atEnd (.inr (.visit entering)) h

namespace Program

/-- One operation of a program that is at the end: it is reported, and the program goes on where it was. -/
theorem proceed_at_end {level : Nat} {operation : Operation} {outcome : Except DecodeError Answer} {c : Cursor}
    {next : Cursor → Run}
    (hnext : (next c).2.2 = c ∧ ∀ event ∈ (next c).1, ∃ operation : Operation,
      event = .finished level operation (operation.reportAtEnd c) c.offset)
    (houtcome : outcome = operation.reportAtEnd c) :
    (proceed level operation outcome c next).2.2 = c ∧
      ∀ event ∈ (proceed level operation outcome c next).1, ∃ operation : Operation,
        event = .finished level operation (operation.reportAtEnd c) c.offset := by
  refine ⟨hnext.1, ?_⟩
  intro event hevent
  rcases List.mem_cons.1 hevent with rfl | hevent
  · exact ⟨operation, by rw [houtcome]⟩
  · exact hnext.2 event hevent

/-- At the end a program changes nothing, and every operation of it reports the end. -/
theorem run_at_end {c : Cursor} (h : c.atEnd = (.ok true, c)) (p : Program) (level : Nat) :
    (p.run level c).2.2 = c ∧ ∀ event ∈ (p.run level c).1, ∃ operation : Operation,
      event = .finished level operation (operation.reportAtEnd c) c.offset := by
  have hvisit (inside : Item → List Event × Except DecodeError Nat) : visit inside c = ([], .ok none, c) := by
    rw [visit, Cursor.peek_eq_none_iff.2 h]
  induction p with
  | leave result => exact ⟨rfl, fun _ hevent => absurd hevent List.not_mem_nil⟩
  | ask q next ih =>
    have hrun : q.run c = ((Operation.query q).reportAtEnd c, c) :=
      Operation.run_at_end h (.query q) fun _ => ([], .ok 0)
    rw [run, hrun]
    exact proceed_at_end (ih _) rfl
  | pass limit required next ih =>
    rw [run, hvisit]
    exact proceed_at_end (ih _ _) rfl
  | meet scalar inside required next _ ih =>
    rw [run, hvisit]
    exact proceed_at_end (ih _ _) rfl
  | meetArray inside required next _ ih =>
    rw [run, hvisit]
    exact proceed_at_end (ih _ _) rfl

end Program

/-- At its end a container has passed as many items as make up the entries it says it has. -/
theorem Frame.Kept.exists_entries {data : Bytes} {start c : Cursor} (h : Frame.Kept ⟨data, start, c⟩)
    (hend : c.atEnd = (.ok true, c)) :
    ∃ entries, c.length? = some entries ∧ c.parsed = entries * c.kind.arity := by
  obtain ⟨⟨item, ho, hc⟩, items, hlast⟩ := h
  dsimp only at ho hc hlast
  obtain ⟨n, hn, hle⟩ := Cursor.exists_count_of_atEnd hend
  obtain ⟨numbers, front, rest, -, -, hopens, -⟩ := Item.open?_eq_some_iff.1 ho
  rw [hc] at hopens
  have harity := c.kind.arity_pos
  have hentries {entries : Nat} (hcount : n = entries * c.kind.arity) (hparsed : c.parsed = n) :
      ∃ entries, c.length? = some entries ∧ c.parsed = entries * c.kind.arity := by
    refine ⟨entries, ?_, hparsed.trans hcount⟩
    rw [Cursor.length?, hn, hcount, Option.map_some, Nat.mul_div_cancel _ harity]
  cases hlast with
  | @among after hitems hrest hcount =>
    have hparsed : start.parsed + items.length ≤ n := hcount n hn
    obtain ⟨entries, hcount⟩ := hopens.exists_entries hn
    exact hentries hcount (Nat.le_antisymm hparsed hle)
  | @ended after hitems hrest hcount hmod =>
    cases hn
    exact hentries (Nat.div_mul_cancel (Nat.dvd_of_mod_eq_zero hmod)).symm rfl

/-! ## Retrying -/

/-- What holds of an open container where an operation on its items fails, and once all of them have been passed.
The callbacks `inside` and `visit` are arbitrary. -/
structure Frame.Retriable (f : Frame) : Prop where
  /-- An operation that offers to find no item fails without a move. -/
  offers : ∀ (operation : Operation) inside e c, operation.Offers →
    operation.run inside f.now = (.error e, c) → c = f.now
  next? : ∀ (α : Type) (visit : Item → Except DecodeError (α × Nat)) e c,
    f.now.next? visit = (.error e, c) → c = f.now
  /-- An operation that demands an item fails without a move, except that it passes the end it stands on. -/
  demands : ∀ (operation : Operation) inside e c, operation.Demands →
    operation.run inside f.now = (.error e, c) → f.now.StaysOrEnds c
  next : ∀ (α : Type) (visit : Item → Except DecodeError (α × Nat)) e c,
    f.now.next visit = (.error e, c) → f.now.StaysOrEnds c
  /-- Skipping fails behind items that could be skipped, in front of what could not. -/
  skipToEnd : ∀ depth e c, f.now.skipToEnd depth = (.error e, c) →
    ∃ items rest, (∀ i ∈ items, i.1.Written i.2 ∧ i.1.depth ≤ depth) ∧
      f.now.rest = items.flatMap Prod.snd ++ rest ∧ c = f.now.past items rest ∧ c.Refuses depth e
  /-- What reports the end has found it. -/
  found : ∀ (operation : Operation) inside c,
    operation.Offers ∨ (∃ depth, operation = .query (.skipToEnd depth)) →
      operation.run inside f.now = (operation.reportAtEnd c, c) → c.atEnd = (.ok true, c)
  /-- Once the end has been found, every operation reports it, every program stays at it, and the items that were
  passed make up the entries of the container. -/
  ended : ∀ c, f.now.atEnd = (.ok true, c) →
    (∀ (operation : Operation) inside, operation.run inside c = (operation.reportAtEnd c, c)) ∧
    (∀ (p : Program) level, (p.run level c).2.2 = c ∧
      ∀ event ∈ (p.run level c).1, ∃ operation : Operation,
        event = .finished level operation (operation.reportAtEnd c) c.offset) ∧
    (f.move c).Sound ∧ ∃ entries, c.length? = some entries ∧ c.parsed = entries * c.kind.arity

theorem Frame.Kept.retriable {f : Frame} (h : f.Kept) : f.Retriable where
  offers _ _ _ _ ho hrun := Operation.eq_of_offers ho hrun
  next? _ _ _ _ hnext := Cursor.next?_error hnext
  demands _ _ _ _ ho hrun := Operation.staysOrEnds_of_demands ho hrun
  next _ _ _ _ hnext := Cursor.staysOrEnds_of_next hnext
  skipToEnd _ _ _ hskip := Cursor.exists_past_of_skipToEnd hskip
  found _ _ _ ho hrun := Operation.atEnd_of_report ho hrun
  ended c hend := by
    have hlast : c.atEnd = (.ok true, c) := Cursor.atEnd_of_atEnd hend
    have hkept : (f.move c).Kept := by
      have := h.looked
      rwa [hend] at this
    exact ⟨Operation.run_at_end hlast, Program.run_at_end hlast, hkept.sound, hkept.exists_entries hlast⟩

/-- In every state that a run comes through, after failed operations or not, an operation on any open container
can be retried if it fails. -/
theorem Entry.failed_operations_can_be_retried {entry : Entry} {data : Bytes} {stack : List Frame} {f : Frame}
    (h : entry.Reaches data stack) (hf : f ∈ stack) : f.Retriable :=
  (h.kept f hf).retriable

/-- An array is entered and left early, which fails. It is still there to be skipped, and then one more item is asked
for where the outer array ends. -/
theorem Entry.partly_read_array_retried :
    let data : Bytes := [0x9F, 0x82, 0x02, 0x03, 0xFF]
    let byte : Query := .scalar (.int ⟨false, .w8⟩)
    let entry : Entry := .item (.item (.query byte true .done) true false (.skip 1 true true .done))
    let f : Frame := ⟨data, ⟨.array, none, data.drop 1, 1, 0⟩, ⟨.array, none, [0xFF], 4, 1⟩⟩
    entry.Reaches data [f] ∧ f.Retriable ∧ f.now.StandsOnEnd ∧
      byte.run f.now = (.error .notEnoughData, f.now.settle) ∧ f.now.settle.length? = some 1 := by
  intro data byte entry f
  have hopen : Item.open? data = .ok (some ⟨⟨[]⟩, true, .container f.start, 1⟩) := by decide +kernel
  have hfailed : Task.perform 1 f.start (.program (.item (.query byte true .done) true false
      (.skip 1 true true .done))) = (some (.program (.skip 1 true true .done)), f.start) := by
    with_unfolding_all rfl
  have hskipped : (Task.perform 1 f.start (.program (.skip 1 true true .done))).2 = f.now := by
    decide +kernel
  have hreaches : entry.Reaches data [f] := by
    refine .inside hopen rfl rfl (.onward (congrArg Prod.fst hfailed) ?_)
    rw [congrArg Prod.snd hfailed, show f = Frame.move ⟨data, f.start, f.start⟩ f.now from rfl, ← hskipped]
    exact .after
  exact ⟨hreaches, failed_operations_can_be_retried hreaches (List.mem_singleton_self f),
    ⟨rfl, by decide, [], rfl⟩, by decide +kernel, by decide⟩

end CborRecords
