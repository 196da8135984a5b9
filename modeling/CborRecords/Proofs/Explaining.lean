import CborRecords.Proofs.Capacity
import CborRecords.Proofs.Messages

/-!
# Explained failures

Two calls decode a person to an address. They do the same, but one has also memory for a message, and says
there what it has found wrong.

* `Boundary.Refused` : why a person is not read from a region to an address;
* `Boundary.readPerson_cases` : it is read, or refused for one reason; `Boundary.Refused.short` : which is
  said in few words;
* `Boundary.Explains` : what a failure leaves behind;
* `Boundary.failures_are_explained` : both calls, whatever memory they are given.
-/

namespace CborRecords

/-! ## Persons that were decoded -/

/-- The greatest number of bytes that the content of a field takes behind its head. -/
def FieldKind.contentLimit : FieldKind → Nat
  | .bytes size => size
  | .text most => most
  | _ => 0

theorem FieldKind.Written.length_le {kind : FieldKind} {value : FieldValue} {part : Bytes}
    (h : kind.Written value part) : part.length ≤ 9 + kind.contentLimit := by
  cases h with
  | uint h => exact h.length_le_nine
  | nonneg h => exact h.length_le_nine
  | negative h => exact h.length_le_nine
  | bool b => exact Nat.le_of_ble_eq_true rfl
  | bytes h =>
    rw [List.length_append]
    exact Nat.add_le_add_right h.length_le_nine _
  | text h hmost =>
    rw [List.length_append]
    exact Nat.add_le_add h.length_le_nine hmost

/-- A person takes four heads and the eight bytes of a name. -/
theorem Person.length_le_of_decode {data : Bytes} {p : Person} (h : Record.decode Person data = .ok p) :
    data.length ≤ 44 := by
  obtain ⟨values, ⟨head, key, parts⟩, ⟨hhead, hkey, hfields⟩, rfl, -⟩ := Record.decode_eq_ok_iff_lays.1 h
  have hhead : head.length ≤ 9 := hhead.length_le_nine
  have hkey : key.length ≤ 9 := hkey.length_le_nine
  change Field.Lays fields values parts at hfields
  obtain _ | ⟨hname, _ | ⟨hid, ⟨⟩⟩⟩ := hfields
  have hname := hname.length_le
  have hid := hid.length_le
  simp only [FieldKind.contentLimit, nameLength] at hname hid
  simp only [Segments.bytes, List.flatten_cons, List.flatten_nil, List.length_append, List.length_nil]
  omega

theorem RecordError.code_neg (e : RecordError) : e.code < 0 := by
  cases e <;> exact of_decide_eq_true rfl

namespace Boundary

/-- Why a person is not read from a region to an address: one of them is missing, or the bytes are no
person. The address is checked first. -/
inductive Refused (place : Option Person) (src : Region) : RecordError → Prop
  | place (h : place = none) : Refused place src (.nullPointer "dst")
  | source (hplace : place ≠ none) (h : ¬ src.Valid) : Refused place src (.nullPointer "bytes")
  | decode (hplace : place ≠ none) (hsrc : src.Valid) {e : RecordError}
      (h : Record.decode Person src.bytes = .error e) : Refused place src e

variable {place : Option Person} {src dst : Region}

theorem readPerson_cases (place : Option Person) (hsrc : src.Usable) :
    (∃ p, place ≠ none ∧ src.Valid ∧ Record.decode Person src.bytes = .ok p ∧
      readPerson place src = .ok (p, src.length)) ∨
    ∃ e, Refused place src e ∧ readPerson place src = .error e := by
  unfold readPerson
  cases place with
  | none => exact .inr ⟨_, .place rfl, rfl⟩
  | some old =>
    have hplace : some old ≠ none := nofun
    rcases hsrc.valid_or_missing with hvalid | ⟨hinvalid, hwindow⟩
    · dsimp only
      rw [Region.window_of_valid hvalid]
      dsimp only
      rcases hdecode : Record.decode Person src.bytes with e | p
      · exact .inr ⟨e, .decode hplace hvalid hdecode, rfl⟩
      · refine .inl ⟨p, hplace, hvalid, rfl, ?_⟩
        rw [hvalid.length_bytes]
    · dsimp only
      rw [hwindow]
      exact .inr ⟨_, .source hplace hinvalid, rfl⟩

/-- Whatever is wrong is said in few words. -/
theorem Refused.short {e : RecordError} (h : Refused place src e) (hlen : src.length ≤ maxLength) :
    Utf8.Short Diagnostic.capacity e.message := by
  cases h with
  | place => decide +kernel
  | source => decide +kernel
  | decode hplace hsrc hdecode =>
    have hshort : src.bytes.length ≤ 0xFFFFFFFF := hsrc.length_bytes ▸ hlen
    exact Person.short_message (by omega) hdecode

/-- What a failed call leaves behind: the person that was at the address, and of the message as much as
there is room for at the start of a region, the rest of which is as it was. If the region has no address
there is nothing of the message. -/
structure Explains (place : Option Person) (dst : Region) (e : RecordError) (left : Explained) : Prop where
  place_eq : left.place = place
  length_eq (h : dst.Valid) : left.length = min dst.length (Utf8.size e.message)
  message_eq (h : dst.Valid) : left.message = dst.memory.map fun memory =>
    (Utf8.encode e.message).take left.length ++ memory.drop left.length
  missing (h : ¬ dst.Valid) : left.length = 0 ∧ left.message = dst.memory

theorem explains_of_error {e : RecordError} (hread : readPerson place src = .error e) (hdst : dst.Usable)
    (hshort : Utf8.Short Diagnostic.capacity e.message) :
    (explainPerson place dst true src).code = e.code ∧
      Explains place dst e (explainPerson place dst true src).output := by
  rw [explainPerson, if_pos rfl, hread]
  dsimp only
  rcases hdst.valid_or_missing with hvalid | ⟨hinvalid, hwindow⟩
  · rw [Region.window_of_valid hvalid]
    dsimp only
    rw [Diagnostic.copyTo_of_short hshort, hvalid.length_bytes]
    exact ⟨rfl, rfl, fun _ => rfl, fun _ => Region.update_clipped hvalid _, fun h => absurd hvalid h⟩
  · rw [hwindow]
    exact ⟨rfl, rfl, fun h => absurd h hinvalid, fun h => absurd h hinvalid, fun _ => ⟨rfl, rfl⟩⟩

/-- Of a person that was read nothing is said. -/
theorem explains_of_ok {p : Person} (hread : readPerson place src = .ok (p, src.length))
    (hlen : src.length ≤ maxCode) (dst : Region) :
    (explainPerson place dst true src).code = src.length ∧
      (explainPerson place dst true src).output = ⟨some p, dst.memory, 0⟩ := by
  rw [explainPerson, if_pos rfl, hread]
  exact ⟨code_eq_length _ hlen _, rfl⟩

/-- Both calls that decode a person to an address return the same code. If it is not negative, it is the
length of the region, whose bytes are decoded to the person that is then at the address, and the memory for
a message is as it was. If it is negative, it is that of the error for which the person was refused, the
address has the person that it had, and the message of the error is in the memory for it as far as there is
room. No message for a person is longer than a diagnostic. Without an address for the length of the message
the call is refused and changes nothing. -/
theorem failures_are_explained (place : Option Person) {src dst : Region} (hsrc : src.Usable)
    (hlen : src.length ≤ maxLength) (hdst : dst.Usable) :
    (explainPerson place dst true src).code = (decodePerson place src).code ∧
    (0 ≤ (decodePerson place src).code →
      (decodePerson place src).code = src.length ∧ ∃ p, place ≠ none ∧
        Record.decode Person src.bytes = .ok p ∧ (decodePerson place src).output = some p ∧
        (explainPerson place dst true src).output = ⟨some p, dst.memory, 0⟩) ∧
    ((decodePerson place src).code < 0 → ∃ e, Refused place src e ∧
      (decodePerson place src).code = e.code ∧ (decodePerson place src).output = place ∧
      Explains place dst e (explainPerson place dst true src).output) ∧
    (∀ (data : Bytes) (e : RecordError), data.length < 0x10000000000000000 →
      Record.decode Person data = .error e →
        (Diagnostic.ofError e).text = e.message ∧ Utf8.size e.message ≤ Diagnostic.capacity) ∧
    (explainPerson place dst false src).code = RecordError.argumentCode ∧
      (explainPerson place dst false src).output = ⟨place, dst.memory, dst.length⟩ := by
  have hwhole (data : Bytes) (e : RecordError) (hdata : data.length < 0x10000000000000000)
      (h : Record.decode Person data = .error e) :
      (Diagnostic.ofError e).text = e.message ∧ Utf8.size e.message ≤ Diagnostic.capacity := by
    have hshort := Person.short_message hdata h
    exact ⟨Diagnostic.fill_of_short hshort, hshort.size_eq ▸ hshort.1⟩
  rcases readPerson_cases place hsrc with ⟨p, hplace, hvalid, hdecode, hread⟩ | ⟨e, hrefused, hread⟩
  · have hcode : src.length ≤ maxCode := by
      rw [← hvalid.length_bytes]
      exact Nat.le_trans (Person.length_le_of_decode hdecode) (by decide)
    have hreply : decodePerson place src = .record "decode_person" (.ok src.length) (some p) := by
      rw [decodePerson, hread]
    have hexplains := explains_of_ok hread hcode dst
    rw [hreply, code_eq_length _ hcode]
    refine ⟨hexplains.1, fun _ => ⟨rfl, p, hplace, hdecode, rfl, hexplains.2⟩, ?_, hwhole, rfl, rfl⟩
    intro hneg
    omega
  · have hreply : decodePerson place src = .record "decode_person" (.error e) place := by
      rw [decodePerson, hread]
    have hexplains := explains_of_error hread hdst (hrefused.short hlen)
    have hneg := e.code_neg
    rw [hreply]
    refine ⟨hexplains.1, ?_, fun _ => ⟨e, hrefused, rfl, rfl, hexplains.2⟩, hwhole, rfl, rfl⟩
    intro hnonneg
    exact absurd hnonneg (Int.not_le.2 hneg)

/-- An integer in place of a name, with room for six bytes of the message. -/
theorem number_for_name_explained :
    let place := some (Person.ofText "Ada" 36)
    let src : Region := ⟨some [0x83, 0x00, 0x01, 0x02], 4⟩
    let dst : Region := ⟨some [1, 2, 3, 4, 5, 6, 7, 8], 6⟩
    src.Usable ∧ dst.Usable ∧ (decodePerson place src).code = RecordError.schemaCode ∧
      (explainPerson place dst true src).output =
        ⟨place, some [0x53, 0x63, 0x68, 0x65, 0x6D, 0x61, 7, 8], 6⟩ := by
  intro place src dst
  have hsrc : src.Valid := by
    show 4 ≤ 4
    decide
  have hdst : dst.Valid := by
    show 6 ≤ 8
    decide
  have hdecode : Record.decode Person src.bytes = .error (.schemaMismatch "name"
      (.type "Definite-length Byte String" "Unsigned Integer")) := by cbv
  have hcode : (decodePerson place src).code = RecordError.schemaCode := by decide +kernel
  obtain ⟨-, -, hnegative, -⟩ := failures_are_explained place (.inr hsrc) (by decide) (.inr hdst)
  obtain ⟨e, hrefused, -, -, hexplains⟩ := hnegative (by rw [hcode]; decide)
  cases hrefused with
  | place h => exact absurd h (Option.some_ne_none _)
  | source hplace h => exact absurd hsrc h
  | decode hplace _ h =>
    rw [hdecode] at h
    cases h
    have hplace := hexplains.place_eq
    have hlength := hexplains.length_eq hdst
    have hmessage := hexplains.message_eq hdst
    generalize (explainPerson place dst true src).output = left at hplace hlength hmessage ⊢
    obtain ⟨leftPlace, message, length⟩ := left
    dsimp only at hplace hlength hmessage
    obtain rfl : length = 6 := hlength.trans (by decide +kernel)
    obtain rfl : message = some [0x53, 0x63, 0x68, 0x65, 0x6D, 0x61, 7, 8] :=
      hmessage.trans (by decide +kernel)
    rw [hplace]
    exact ⟨.inr hsrc, .inr hdst, hcode, rfl⟩

end Boundary

end CborRecords
