import CborRecords.Proofs.JsonObjects
import CborRecords.Proofs.Clipping

/-!
# Persons as JSON objects

A person is written as an object of its name, up to the first NUL, and its id, if this name is text. Reading such
an object makes the name anew, so what stood behind the first NUL is lost and nothing else. Objects from elsewhere
may have longer names and names with NUL in them, which are cut. All that is taken of the codec is that it reads
back what it writes.

* `Person.cleared` : the person that is left, `Person.padded_iff` : when it is the same;
* `Person.name_ofText`, `Person.nameText_ofText` : the name of the person of a text;
* `JsonCodec.ofPerson_eq_error_iff`, `JsonCodec.exists_name_of_ofPerson` : which persons are written, and how;
* `JsonCodec.reads_back_to_first_nul` : writing, reading and the name together.
-/

namespace CborRecords

namespace Person
open JsonText (takeWhile_append_of_head)

/-! ## Names -/

/-- A name with NUL in place of each byte after its first NUL. -/
def zeroed (name : Bytes) : Bytes :=
  name.mapIdx fun i b => if 0 ∈ name.take i then 0 else b

theorem zeroed_eq (name : Bytes) :
    zeroed name = name.takeWhile (· ≠ 0) ++ List.replicate (name.length - (name.takeWhile (· ≠ 0)).length) 0 := by
  induction name with
  | nil => rfl
  | cons b name ih =>
    rw [zeroed, List.mapIdx_cons]
    by_cases hb : b = 0
    · subst hb
      simp [List.eq_replicate_iff]
    · have hrest : (name.mapIdx fun i b' => if 0 ∈ (b :: name).take (i + 1) then 0 else b') = zeroed name := by
        simp [zeroed, List.take_succ_cons, Ne.symm hb]
      rw [hrest, ih, List.takeWhile_cons_of_pos (by simpa using hb)]
      simp

/-- The same person, with NUL in place of each byte of the name after its first NUL. -/
def cleared (p : Person) : Person :=
  { p with name := zeroed p.name, length_name := by rw [zeroed, List.length_mapIdx, p.length_name] }

/-- The name is padded with NUL: nothing else stands behind its first one. -/
def Padded (p : Person) : Prop :=
  ∃ front n, p.name = front ++ List.replicate n 0 ∧ 0 ∉ front

theorem takeWhile_append_zeros {front : Bytes} (h : ∀ b ∈ front, b ≠ 0) (n : Nat) :
    (front ++ List.replicate n 0).takeWhile (· ≠ 0) = front := by
  refine takeWhile_append_of_head (by simpa using h) ?_
  simp [List.head?_replicate]

theorem ne_zero_of_mem_nameBytes {p : Person} {b : UInt8} (h : b ∈ p.nameBytes) : b ≠ 0 := by
  have hall : p.nameBytes.all (· ≠ 0) = true := List.all_takeWhile
  simpa using List.all_eq_true.1 hall b h

theorem name_cleared (p : Person) :
    p.cleared.name = p.nameBytes ++ List.replicate (8 - p.nameBytes.length) 0 := by
  change zeroed p.name = _
  rw [zeroed_eq, p.length_name, nameBytes]

theorem nameBytes_cleared (p : Person) : p.cleared.nameBytes = p.nameBytes := by
  rw [nameBytes, name_cleared, takeWhile_append_zeros fun b => ne_zero_of_mem_nameBytes]

theorem padded_iff {p : Person} : p.Padded ↔ p.cleared = p := by
  constructor
  · rintro ⟨front, n, hname, hfront⟩
    have hbytes : p.nameBytes = front := by
      rw [nameBytes, hname, takeWhile_append_zeros fun b hb => by rintro rfl; exact hfront hb]
    have hlength := p.length_name
    rw [hname, List.length_append, List.length_replicate] at hlength
    have hcleared := name_cleared p
    rw [hbytes, show 8 - front.length = n by omega, ← hname] at hcleared
    cases p
    simp only [cleared, Person.mk.injEq, and_true] at hcleared ⊢
    exact hcleared
  · intro h
    refine ⟨p.nameBytes, 8 - p.nameBytes.length, ?_, fun hmem => ne_zero_of_mem_nameBytes hmem rfl⟩
    rw [← name_cleared, h]

theorem name_ofText (name : String) (id : UInt8) :
    (ofText name id).name =
      Utf8.encode (Utf8.clip 8 name) ++ List.replicate (8 - Utf8.size (Utf8.clip 8 name)) 0 := by
  have hsize : (Utf8.encode (Utf8.clip 8 name)).length ≤ 8 := Utf8.size_clip_le 8 name
  change pad (Utf8.encode (Utf8.clip 8 name)) = _
  rw [pad, List.take_of_length_le hsize, Utf8.size]

/-- A name of at most eight bytes without NUL gives the person back, padded with NUL. -/
theorem ofText_eq_cleared {p : Person} {name : String} (h : p.nameBytes = Utf8.encode name) :
    ofText name p.id = p.cleared := by
  have hsize : Utf8.size name ≤ 8 := by
    rw [Utf8.size, ← h, ← p.length_name]
    exact List.takeWhile_prefix _ |>.length_le
  have hname := name_ofText name p.id
  rw [Utf8.clip_of_size_le hsize, Utf8.size, ← h, ← name_cleared] at hname
  exact Person.mk.injEq .. ▸ ⟨hname, rfl⟩

/-- The bytes of a text up to the first NUL are those of its characters up to the first NUL character. -/
theorem takeWhile_encode (cs : List Char) (n : Nat) :
    (cs.flatMap String.utf8EncodeChar ++ List.replicate n 0).takeWhile (· ≠ 0) =
      (cs.takeWhile (· ≠ Char.ofNat 0)).flatMap String.utf8EncodeChar := by
  induction cs with
  | nil => exact takeWhile_append_zeros (List.forall_mem_nil _) n
  | cons c cs ih =>
    by_cases hc : c = Char.ofNat 0
    · subst hc
      rfl
    · have hbytes : ∀ b ∈ String.utf8EncodeChar c, b ≠ 0 := by
        rintro b hb rfl
        have hzero : c.toNat = 0 := by
          rcases Utf8.toNat_of_mem_encodeChar hb with ⟨-, h⟩ | ⟨-, h⟩
          · exact h.symm
          · exact absurd h (by decide)
        exact hc (by rw [← hzero, Char.ofNat_toNat])
      rw [List.flatMap_cons, List.append_assoc, List.takeWhile_append_of_pos (by simpa using hbytes), ih,
        List.takeWhile_cons_of_pos (by simpa using hc), List.flatMap_cons]

theorem nameText_ofText (name : String) (id : UInt8) :
    (ofText name id).nameText =
      .ok (String.ofList ((Utf8.clip 8 name).toList.takeWhile (· ≠ Char.ofNat 0))) := by
  rw [nameText, Utf8.decode_eq_ok_iff, nameBytes, name_ofText, Utf8.encode, takeWhile_encode, Utf8.encode,
    String.toList_ofList]

end Person

/-! ## Writing and reading -/

namespace JsonCodec
open Person
variable {ε : Type} (codec : JsonCodec ε)

theorem toPerson_of_read {text : Bytes} {name : String} {id : UInt8} (h : codec.read text = .ok (name, id)) :
    codec.toPerson text = .ok (ofText name id) := by
  rw [toPerson, h]
  rfl

theorem ofPerson_eq_error_iff (style : JsonStyle) (p : Person) :
    (∃ fault, codec.ofPerson style p = .error fault) ↔ ∀ name, Utf8.encode name ≠ p.nameBytes := by
  unfold ofPerson
  cases htext : p.nameText with
  | error fault =>
    refine ⟨fun _ name hname => ?_, fun _ => ⟨fault, rfl⟩⟩
    rw [nameText, ← hname, Utf8.decode_encode] at htext
    cases htext
  | ok name =>
    refine ⟨?_, fun hnone => absurd (Utf8.encode_of_decode htext) (hnone name)⟩
    rintro ⟨fault, hfault⟩
    cases hfault

theorem exists_name_of_ofPerson {style : JsonStyle} {p : Person} {text : String}
    (h : codec.ofPerson style p = .ok text) :
    ∃ name, Utf8.encode name = p.nameBytes ∧ codec.write style name p.id = text := by
  unfold ofPerson at h
  cases htext : p.nameText with
  | error fault =>
    rw [htext] at h
    cases h
  | ok name =>
    rw [htext] at h
    exact ⟨name, Utf8.encode_of_decode htext, Except.ok.inj h⟩

theorem ofPerson_cleared (style : JsonStyle) (p : Person) :
    codec.ofPerson style p.cleared = codec.ofPerson style p := by
  rw [ofPerson, ofPerson, nameText, nameText, nameBytes_cleared]
  rfl

/-- Persons as objects, by any codec that reads back what it writes. A person is written exactly if its name up to
the first NUL is UTF-8, as the object of this text, which is read as the person padded with NUL. Each object is read
as the person of its name, which is cut at a character to eight bytes. -/
theorem reads_back_to_first_nul (hcodec : codec.ReadsBack) :
    (∀ style (p : Person),
      ((∃ fault, codec.ofPerson style p = .error fault) ↔ ∀ name, Utf8.encode name ≠ p.nameBytes) ∧
      ∀ text, codec.ofPerson style p = .ok text →
        (∃ name, Utf8.encode name = p.nameBytes ∧ codec.read (Utf8.encode text) = .ok (name, p.id)) ∧
        codec.toPerson (Utf8.encode text) = .ok p.cleared ∧ (p.Padded ↔ p.cleared = p) ∧
        codec.ofPerson style p.cleared = .ok text) ∧
    (∀ style name id, codec.toPerson (Utf8.encode (codec.write style name id)) = .ok (ofText name id)) ∧
    (∀ name id text, codec.read text = .ok (name, id) → codec.toPerson text = .ok (ofText name id)) ∧
    ∀ name id, ∃ start, Utf8.LongestStart 8 name start ∧ (ofText name id).id = id ∧
      (ofText name id).name = Utf8.encode start ++ List.replicate (8 - Utf8.size start) 0 ∧
      (ofText name id).nameText = .ok (String.ofList (start.toList.takeWhile (· ≠ Char.ofNat 0))) := by
  refine ⟨?_, fun style name id => codec.toPerson_of_read (hcodec style name id),
    fun name id text => codec.toPerson_of_read, ?_⟩
  · intro style p
    refine ⟨codec.ofPerson_eq_error_iff style p, fun text hwrite => ?_⟩
    obtain ⟨name, hname, htext⟩ := codec.exists_name_of_ofPerson hwrite
    have hread : codec.read (Utf8.encode text) = .ok (name, p.id) := by rw [← htext, hcodec]
    refine ⟨⟨name, hname, hread⟩, ?_, padded_iff, ?_⟩
    · rw [codec.toPerson_of_read hread, ofText_eq_cleared hname.symm]
    · rw [codec.ofPerson_cleared, hwrite]
  · intro name id
    exact ⟨Utf8.clip 8 name, Utf8.longestStart_clip 8 name, rfl, name_ofText name id, nameText_ofText name id⟩

/-- By the codec of the command: a letter behind the first NUL of a name is lost; a name that is no text is not
written; and an object may have its id first, its name escaped, and blanks. -/
theorem letter_behind_nul_is_lost :
    (∃ text, json ⟨[0x41, 0x22, 0, 0x5A, 0, 0, 0, 0], 36, rfl⟩ = .ok text ∧
      ofJson (Utf8.encode text) = .ok ⟨[0x41, 0x22, 0, 0, 0, 0, 0, 0], 36, rfl⟩) ∧
    (∃ fault, jsonPretty ⟨[0x41, 0xFF, 0, 0, 0, 0, 0, 0], 36, rfl⟩ = .error fault) ∧
    ofJson (Utf8.encode "\x7b\"id\": 7,\"name\":\"\\u0041\"\x7d") = .ok (ofText "A" 7) := by
  obtain ⟨hwrite, -, hread, -⟩ := reads_back_to_first_nul jsonCodec readsBack_jsonCodec
  refine ⟨?_, ?_, hread "A" 7 _ (by decide +kernel)⟩
  · obtain ⟨hfails, hok⟩ := hwrite .compact ⟨[0x41, 0x22, 0, 0x5A, 0, 0, 0, 0], 36, rfl⟩
    cases hjson : json ⟨[0x41, 0x22, 0, 0x5A, 0, 0, 0, 0], 36, rfl⟩ with
    | error fault => exact absurd rfl (hfails.1 ⟨fault, hjson⟩ "A\"")
    | ok text => exact ⟨text, rfl, (hok text hjson).2.1⟩
  · obtain ⟨hfails, -⟩ := hwrite .pretty ⟨[0x41, 0xFF, 0, 0, 0, 0, 0, 0], 36, rfl⟩
    refine hfails.2 fun name hname => ?_
    have htext : Utf8.decode [0x41, 0xFF] = .ok name := Utf8.decode_eq_ok_iff.2 hname.symm
    cases htext

end JsonCodec

end CborRecords
