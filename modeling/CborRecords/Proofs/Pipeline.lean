import CborRecords.Proofs.CommandRuns
import CborRecords.Proofs.PersonJson
import CborRecords.Proofs.RecordRoundTrip

/-!
# Persons through the command

A person that is encoded by name and id is the same after any way through the command: as a record or as
hexadecimal text with blanks in it, decoded, shown as JSON and encoded from that again. This holds with any codecs
that read back what they write, and the command's own do.

* `Codecs.lawful_standard` : the command's codecs read back;
* `Spread`, `ofHexText_of_spread` : blanks anywhere in hexadecimal text do not count;
* `Presents` : the forms in which the command takes a record;
* `Person.exists_roundTrips`, `encoded_of_roundTrips`, `decodeDiagnosed_of_roundTrips` : a person's record;
* `exists_view_json` : a person as JSON;
* `pipeline_keeps_persons` : all of it in runs of the command's tasks.
-/

namespace CborRecords

namespace Command

theorem Codecs.lawful_standard : Codecs.standard.Lawful where
  json := Person.readsBack_jsonCodec
  lines := Person.readsLines_jsonCodec
  hex := Hex.readsBack_codec
  unspaced := Hex.unspaced_codec

/-- Characters with blanks put in anywhere. -/
inductive Spread : List Char → List Char → Prop
  | nil : Spread [] []
  | keep {chars spread : List Char} (c : Char) (h : Spread chars spread) : Spread (c :: chars) (c :: spread)
  | blank {chars spread : List Char} {c : Char} (hc : isBlank c = true) (h : Spread chars spread) :
      Spread chars (c :: spread)

/-- Where no blank was before, the blanks that were put in are those that are there. -/
theorem spread_iff {chars spread : List Char} (hchars : ∀ c ∈ chars, isBlank c = false) :
    Spread chars spread ↔ spread.filter (fun c => !isBlank c) = chars := by
  constructor
  · intro h
    induction h with
    | nil => rfl
    | keep c h ih =>
      rw [List.forall_mem_cons] at hchars
      rw [List.filter_cons_of_pos (by simp [hchars.1]), ih hchars.2]
    | blank hc h ih => rw [List.filter_cons_of_neg (by simp [hc]), ih hchars]
  · rintro rfl
    clear hchars
    induction spread with
    | nil => exact .nil
    | cons c spread ih =>
      by_cases hc : isBlank c = true
      · rw [List.filter_cons_of_neg (by simp [hc])]
        exact .blank hc ih
      · rw [List.filter_cons_of_pos (by simp [hc])]
        exact .keep c ih

section Hex
variable {hex : HexCodec} (hunspaced : hex.Unspaced) {bytes : Bytes}
include hunspaced

theorem spread_hex_iff {spread : List Char} :
    Spread (hex.encode bytes).toList spread ↔ spread.filter (fun c => !isBlank c) = (hex.encode bytes).toList :=
  spread_iff (hunspaced bytes)

theorem ofHexText_of_spread (hback : hex.ReadsBack) {chars : List Char}
    (h : Spread (hex.encode bytes).toList chars) :
    ofHexText hex (Utf8.encode (String.ofList chars)) = .ok bytes := by
  unfold ofHexText
  rw [Utf8.decode_encode]
  dsimp only
  rw [String.toList_ofList, (spread_hex_iff hunspaced).1 h, String.ofList_toList, hback]

end Hex

/-- The forms in which a record is taken: its bytes, or hexadecimal text for them with blanks anywhere. -/
inductive Presents (hex : HexCodec) (bytes : Bytes) : Bytes → (isHex : Bool) → Prop
  | plain : Presents hex bytes bytes false
  | hex {chars : List Char} (h : Spread (hex.encode bytes).toList chars) :
      Presents hex bytes (Utf8.encode (String.ofList chars)) true

variable {codecs : Codecs} (hcodecs : codecs.Lawful)
include hcodecs

theorem Presents.holds {bytes data : Bytes} {isHex : Bool} (h : Presents codecs.hex bytes data isHex) :
    Task.Holds codecs data bytes isHex := by
  cases h with
  | plain => exact .plain rfl
  | hex h => exact .hex (ofHexText_of_spread hcodecs.unspaced hcodecs.hex h)

/-- A record as it is written is a form in which it is taken. -/
theorem presents_record (bytes : Bytes) (output : Output) (format : WireFormat) :
    Presents codecs.hex bytes (output.record codecs.hex bytes format) (format = .hex) := by
  have hdigits : ∀ c ∈ (codecs.hex.encode bytes).toList, (!isBlank c) = true := by
    intro c hc
    rw [hcodecs.unspaced bytes c hc]
    rfl
  have hhex (blanks : String) (h : blanks.toList.filter (fun c => !isBlank c) = []) :
      Presents codecs.hex bytes (Utf8.encode (codecs.hex.encode bytes ++ blanks)) true := by
    rw [← String.ofList_toList (s := codecs.hex.encode bytes ++ blanks)]
    refine .hex ((spread_hex_iff hcodecs.unspaced).2 ?_)
    rw [String.toList_append, List.filter_append, h, List.append_nil, List.filter_eq_self.2 hdigits]
  cases format with
  | binary => exact .plain
  | hex =>
    cases output with
    | standard => exact hhex "\n" rfl
    | file path =>
      have hnone := hhex "" rfl
      rwa [String.append_empty] at hnone

end Command

/-! ## Persons -/

theorem Person.exists_roundTrips (p : Person) : ∃ bytes, Record.RoundTrips p p bytes := by
  obtain ⟨back, bytes, hfilled, htrip⟩ := Record.exists_filled p.hasFields_values p.conforms_values
  obtain rfl : back = p := Person.eq_of_filled hfilled
  exact ⟨bytes, htrip⟩

namespace Command

theorem encoded_of_roundTrips {p : Person} {bytes : Bytes} (h : Record.RoundTrips p p bytes) :
    encoded p = .ok bytes := by
  have hroom : bytes.length = (List.replicate (Record.encodedLength p) (0 : UInt8)).length := by
    rw [List.length_replicate, h.encodedLength_eq]
  rw [encoded, h.encode_eq _ (Nat.le_of_eq hroom)]
  dsimp only
  rw [List.take_left]

theorem decodeDiagnosed_of_roundTrips {p : Person} {bytes : Bytes} (h : Record.RoundTrips p p bytes) :
    Record.decodeDiagnosed Person bytes = .ok p := by
  rw [Record.decodeDiagnosed, h.decode_eq]

/-- A person without NUL in its name is shown as the object of its name as far as that was kept, and it is the
person of this object. -/
theorem exists_view_json {codecs : Codecs} (hcodecs : codecs.Lawful) {name : String}
    (hname : Char.ofNat 0 ∉ name.toList) (id : UInt8) :
    ∃ start text, Utf8.LongestStart 8 name start ∧ view codecs.json .json (Person.ofText name id) = .ok text ∧
      (∀ sent : Output, codecs.json.read (sent.line text) = .ok (start, id)) ∧
      Person.ofText start id = Person.ofText name id := by
  have hstart := Utf8.longestStart_clip 8 name
  have hchars : ∀ c ∈ (Utf8.clip 8 name).toList, decide (c ≠ Char.ofNat 0) = true := by
    intro c hc
    simp only [decide_eq_true_eq]
    rintro rfl
    exact hname (hstart.starts.subset hc)
  have htext : (Person.ofText name id).nameText = .ok (Utf8.clip 8 name) := by
    have hall : ((Utf8.clip 8 name).toList ++ []).takeWhile (· ≠ Char.ofNat 0) = _ :=
      List.takeWhile_append_of_pos hchars
    rw [List.takeWhile_nil, List.append_nil] at hall
    rw [Person.nameText_ofText, hall, String.ofList_toList]
  refine ⟨Utf8.clip 8 name, codecs.json.write .pretty (Utf8.clip 8 name) id, hstart, ?_, fun sent => ?_, ?_⟩
  · rw [view, JsonCodec.ofPerson, htext]
    rfl
  · cases sent with
    | standard => exact hcodecs.lines .pretty _ id
    | file path => exact hcodecs.json .pretty _ id
  · have hsame : (Person.ofText (Utf8.clip 8 name) id).name = (Person.ofText name id).name := by
      rw [Person.name_ofText, Person.name_ofText, Utf8.clip_of_size_le hstart.fits]
    exact Person.mk.injEq .. ▸ ⟨hsame, rfl⟩

/-! ## Runs -/

/-- Of a name without NUL and an id, with any codecs that read back what they write. Encoded, the person is a record
whose length is printed; what is written of the record, in either format, is a form in which it is taken. From each
such form the person of the name and the id is decoded, and shown by its parts, or as an object of the id and the
longest start of the name that fits eight bytes. From this object, printed or in a file, the same record is encoded
again. -/
theorem pipeline_keeps_persons (codecs : Codecs) (hcodecs : codecs.Lawful) (name : String) (id : UInt8)
    (hname : Char.ofNat 0 ∉ name.toList) :
    ∃ (start text : String) (bytes : Bytes),
      Utf8.LongestStart 8 name start ∧ (∀ sent : Output, codecs.json.read (sent.line text) = .ok (start, id)) ∧
      (decoded bytes).1 = .ok (Person.ofText name id) ∧
      (∀ format output, (Task.encode (.named name id) format output).Turns codecs [] fun settings =>
        output.record codecs.hex bytes (format.getD settings.format)) ∧
      ((Task.length name id).Turns codecs [] fun _ => Output.standard.line (toString bytes.length)) ∧
      (∀ (output : Output) format,
        Presents codecs.hex bytes (output.record codecs.hex bytes format) (format = .hex)) ∧
      (∀ data isHex, Presents codecs.hex bytes data isHex → ∀ input output,
        ((Task.decode .json isHex input output).Turns codecs data fun _ => output.line text) ∧
        (Task.decode .debug isHex input output).Turns codecs data fun _ =>
          output.line (debugView (Person.ofText name id))) ∧
      ∀ (sent : Output) format input output,
        (Task.encode (.json input) format output).Turns codecs (sent.line text) fun settings =>
          output.record codecs.hex bytes (format.getD settings.format) := by
  obtain ⟨start, text, hstart, hview, hread, hsame⟩ := exists_view_json hcodecs hname id
  obtain ⟨bytes, htrip⟩ := (Person.ofText name id).exists_roundTrips
  have hencoded := encoded_of_roundTrips htrip
  have hdecoded := decodeDiagnosed_of_roundTrips htrip
  refine ⟨start, text, bytes, hstart, hread, ?_, fun format output => Task.turns_named codecs format output hencoded,
    ?_, presents_record hcodecs bytes, ?_, ?_⟩
  · rw [decoded, hdecoded]
  · rw [← htrip.encodedLength_eq]
    exact Task.turns_length codecs name id
  · intro data isHex hdata input output
    exact ⟨Task.turns_decode codecs (hdata.holds hcodecs) hdecoded hview input output,
      Task.turns_decode codecs (hdata.holds hcodecs) hdecoded rfl input output⟩
  · intro sent format input output
    have hperson : codecs.json.toPerson (sent.line text) = .ok (Person.ofText name id) := by
      rw [codecs.json.toPerson_of_read (hread sent), hsame]
    exact Task.turns_json codecs format output hperson hencoded input

/-- A name whose eighth byte is inside a character, and its record with blanks in it. -/
theorem cut_name_passes_pipeline :
    let world : World := ⟨[], [], []⟩
    let settings : Settings := ⟨.atLeast .warn, .binary⟩
    let record : Bytes := [0x83, 0x00, 0x48, 0x41, 0x6D, 0xC3, 0xA9, 0x6C, 0x69, 0x65, 0x00, 0x07]
    let spread := Utf8.encode "83 0048416dc3a96c69\n65 00\t07"
    let shown := Utf8.encode "\x7b\n  \"name\": \"Amélie\",\n  \"id\": 7\n\x7d\n"
    let encode := Task.encode (.named "Amélieé" 7) none .standard
    let decode := Task.decode .json true .standard .standard
    let encodeJson := Task.encode (.json .standard) none .standard
    Codecs.standard.Lawful ∧ Char.ofNat 0 ∉ "Amélieé".toList ∧
    Delivers record world .standard ((encode.plan .standard settings).execute world) ∧
    Delivers shown world .standard ((decode.plan .standard settings).execute { world with input := spread }) ∧
    Delivers record world .standard ((encodeJson.plan .standard settings).execute { world with input := shown }) := by
  intro world settings record spread shown encode decode encodeJson
  have hname : Char.ofNat 0 ∉ "Amélieé".toList := by decide
  obtain ⟨start, text, bytes, -, -, -, hencode, -, -, hdecode, hagain⟩ :=
    pipeline_keeps_persons .standard Codecs.lawful_standard "Amélieé" 7 hname
  have hprints {content printed : Bytes} {result : Ending × Run} (h : Delivers content world .standard result)
      (hresult : result.2.printed = printed) : content = printed := by
    obtain ⟨log, rfl⟩ := h.exists_log
    exact hresult
  have hrecord := hencode none .standard settings world world (.nothing world)
  obtain rfl : bytes = record := hprints hrecord (by decide +kernel)
  have hspread : Presents Hex.codec record spread true := by
    have hblanks := Presents.hex ((spread_hex_iff Codecs.lawful_standard.unspaced).2 (by decide +kernel :
      "83 0048416dc3a96c69\n65 00\t07".toList.filter (fun c => !isBlank c) = (Hex.encode record).toList))
    rwa [String.ofList_toList] at hblanks
  have hshown := (hdecode spread true hspread .standard .standard).1 settings _ world
    (.standard { world with input := spread })
  have hline : Output.standard.line text = shown := hprints hshown (by decide +kernel)
  have hback := hagain .standard none .standard .standard
  rw [hline] at hshown hback
  exact ⟨Codecs.lawful_standard, hname, hrecord, hshown,
    hback settings _ world (.standard { world with input := shown })⟩

end Command

end CborRecords
