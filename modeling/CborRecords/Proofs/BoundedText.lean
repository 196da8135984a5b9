import CborRecords.Record.Diagnostic
import CborRecords.Proofs.Utf8

/-!
# Texts in bounded buffers

A text is cut to a number of bytes by going back from the last byte that fits to the nearest place between two
characters. A bounded buffer takes pieces of text one after another and cuts each to the room that the pieces
before it left, also when one of these was cut itself. So it holds whole characters at any time.

* `Utf8.boundary_le`, `Utf8.le_boundary` : going back ends at the last place between characters that fits;
* `Utf8.LongestStart` : the longest start of a text that fits a number of bytes; `Utf8.longestStart_iff` : it is
  what `Utf8.clip` gives;
* `BoundedText.Parts` : what pieces leave in a room, one after another;
* `BoundedText.Adds` : bytes were written behind others and nothing else was changed; `BoundedText.adds_write` :
  one piece, `BoundedText.adds_writeAll` : any number of them;
* `Diagnostic.fill_cons` : the text of a diagnostic, piece by piece;
* `BoundedText.holds_whole_characters` : what buffers, diagnostics and copies of them hold.
-/

namespace CborRecords

namespace Utf8

/-! ## Sizes -/

theorem size_append (a b : String) : size (a ++ b) = size a + size b := by
  unfold size
  rw [encode_append, List.length_append]

theorem encode_join (parts : List String) : encode (String.join parts) = parts.flatMap encode := by
  induction parts with
  | nil => rfl
  | cons part parts ih => rw [String.join_cons, encode_append, ih, List.flatMap_cons]

theorem size_ofList_cons (c : Char) (cs : List Char) :
    size (String.ofList (c :: cs)) = c.utf8Size + size (String.ofList cs) := by
  simp only [size, encode, String.toList_ofList, List.flatMap_cons, List.length_append,
    String.length_utf8EncodeChar]

theorem size_eq_zero_iff {text : String} : size text = 0 ↔ text = "" := by
  rw [← String.ofList_toList (s := text)]
  cases text.toList with
  | nil => exact ⟨fun _ => rfl, fun _ => rfl⟩
  | cons c cs =>
    have hpos := c.utf8Size_pos
    rw [size_ofList_cons, String.ofList_eq_empty_iff]
    exact ⟨fun h => by omega, fun h => nomatch h⟩

theorem size_eq_utf8ByteSize (text : String) : size text = text.utf8ByteSize := by
  rw [← String.ofList_toList (s := text)]
  induction text.toList with
  | nil => rfl
  | cons c cs ih =>
    rw [size_ofList_cons, ih, ← List.singleton_append, String.ofList_append, String.utf8ByteSize_append,
      ← String.utf8ByteSize_singleton]
    rfl

/-- What starts with one text is that text and another. -/
theorem exists_append_of_starts {a b : String} (h : a.toList <+: b.toList) : ∃ rest, b = a ++ rest := by
  obtain ⟨rest, hrest⟩ := h
  refine ⟨String.ofList rest, ?_⟩
  rw [← String.toList_inj, String.toList_append, String.toList_ofList, hrest]

/-- Of two starts of a text the one of fewer bytes is a start of the other. -/
theorem starts_of_size_le {a b text : String} (ha : a.toList <+: text.toList) (hb : b.toList <+: text.toList)
    (h : size a ≤ size b) : a.toList <+: b.toList := by
  rcases List.prefix_or_prefix_of_prefix ha hb with hab | hba
  · exact hab
  · obtain ⟨rest, rfl⟩ := exists_append_of_starts hba
    rw [size_append] at h
    have hnone : rest = "" := size_eq_zero_iff.1 (by omega)
    simp [hnone]

/-! ## Places between characters -/

theorem boundary_le (text : String) (n : Nat) : (boundary text n).offset.byteIdx ≤ n := by
  induction n with
  | zero => exact Nat.le_refl 0
  | succ n ih =>
    unfold boundary
    split
    · exact Nat.le_refl _
    · omega

/-- Going back does not miss a place. -/
theorem le_boundary {text : String} {n m : Nat} (hle : m ≤ n) (hm : String.Pos.Raw.IsValid text ⟨m⟩) :
    m ≤ (boundary text n).offset.byteIdx := by
  induction n with
  | zero => omega
  | succ n ih =>
    unfold boundary
    split
    · exact hle
    · rename_i hsplit
      apply ih
      rcases Nat.lt_or_eq_of_le hle with hlt | rfl
      · omega
      · exact absurd hm hsplit

theorem isValid_of_starts {start text : String} (h : start.toList <+: text.toList) :
    String.Pos.Raw.IsValid text ⟨size start⟩ := by
  obtain ⟨rest, rfl⟩ := exists_append_of_starts h
  refine String.Pos.Raw.isValid_iff_exists_append.2 ⟨start, rest, rfl, ?_⟩
  rw [size_eq_utf8ByteSize]
  rfl

/-! ## The longest start -/

/-- `start` is the longest start of the text that takes at most `room` bytes and splits no character. -/
structure LongestStart (room : Nat) (text start : String) : Prop where
  starts : start.toList <+: text.toList
  fits : size start ≤ room
  longest : ∀ other : String, other.toList <+: text.toList → size other ≤ room → other.toList <+: start.toList

theorem LongestStart.unique {room : Nat} {text start other : String} (h : LongestStart room text start)
    (h' : LongestStart room text other) : start = other := by
  have hle := h'.longest start h.starts h.fits
  have hge := h.longest other h'.starts h'.fits
  exact String.toList_inj.1 (hle.eq_of_length (Nat.le_antisymm hle.length_le hge.length_le))

theorem longestStart_clip (room : Nat) (text : String) : LongestStart room text (clip room text) := by
  have hsplits := (boundary text (min room text.utf8ByteSize)).splits
  have hsize : size (clip room text) = (boundary text (min room text.utf8ByteSize)).offset.byteIdx := by
    rw [hsplits.offset_eq_rawEndPos, String.byteIdx_rawEndPos, size_eq_utf8ByteSize]
    rfl
  have hstarts : (clip room text).toList <+: text.toList := by
    have hwhole := congrArg String.toList hsplits.eq_append
    rw [String.toList_append] at hwhole
    exact ⟨_, hwhole.symm⟩
  have hle := boundary_le text (min room text.utf8ByteSize)
  refine ⟨hstarts, by omega, ?_⟩
  intro other hother hroom
  apply starts_of_size_le hother hstarts
  obtain ⟨rest, hrest⟩ := exists_append_of_starts hother
  have hwhole := congrArg size hrest
  rw [size_append, size_eq_utf8ByteSize text] at hwhole
  rw [hsize]
  exact le_boundary (by omega) (isValid_of_starts hother)

theorem longestStart_iff {room : Nat} {text start : String} :
    LongestStart room text start ↔ start = clip room text := by
  constructor
  · intro h
    exact h.unique (longestStart_clip room text)
  · rintro rfl
    exact longestStart_clip room text

theorem size_clip_le (room : Nat) (text : String) : size (clip room text) ≤ room :=
  (longestStart_clip room text).fits

theorem clip_of_size_le {room : Nat} {text : String} (h : size text ≤ room) : clip room text = text :=
  (longestStart_iff.1 ⟨List.prefix_rfl, h, fun _ hstart _ => hstart⟩).symm

end Utf8

open Utf8 (LongestStart longestStart_iff longestStart_clip size clip size_append size_clip_le)

/-! ## Buffers -/

namespace BoundedText

/-- What pieces leave in a room: of each the longest start that fits what the ones before it left. -/
inductive Parts : Nat → List String → List String → Prop
  | nil {room : Nat} : Parts room [] []
  | cons {room : Nat} {piece part : String} {pieces parts : List String} (hpart : LongestStart room piece part)
      (hrest : Parts (room - size part) pieces parts) : Parts room (piece :: pieces) (part :: parts)

theorem Parts.size_le {room : Nat} {pieces parts : List String} (h : Parts room pieces parts) :
    size (String.join parts) ≤ room := by
  induction h with
  | nil => exact Nat.zero_le _
  | cons hpart hrest ih =>
    have hfits := hpart.fits
    rw [String.join_cons, size_append]
    omega

theorem Parts.unique {room : Nat} {pieces parts parts' : List String} (h : Parts room pieces parts)
    (h' : Parts room pieces parts') : parts = parts' := by
  induction h generalizing parts' with
  | nil =>
    cases h'
    rfl
  | cons hpart hrest ih =>
    cases h' with
    | cons hpart' hrest' =>
      obtain rfl := hpart.unique hpart'
      rw [ih hrest']

/-- Pieces that fit together are left whole. -/
theorem Parts.eq_of_size_le {room : Nat} {pieces parts : List String} (h : Parts room pieces parts)
    (hfits : size (String.join pieces) ≤ room) : parts = pieces := by
  induction h with
  | nil => rfl
  | @cons room piece part pieces parts hpart hrest ih =>
    rw [String.join_cons, size_append] at hfits
    obtain rfl : part = piece := by rw [longestStart_iff.1 hpart, Utf8.clip_of_size_le (by omega)]
    rw [ih (by omega)]

/-- From `b` to `b'` nothing was done but to write `added` behind what had been written, within the buffer. -/
structure Adds (b : BoundedText) (added : Bytes) (b' : BoundedText) : Prop where
  length : b'.length = b.length + added.length
  contents : b'.contents = b.contents ++ added
  fits : b'.length ≤ b'.buffer.length
  capacity : b'.buffer.length = b.buffer.length
  rest : b'.buffer.drop b'.length = b.buffer.drop b'.length

variable {b b' b'' : BoundedText} {added more : Bytes}

theorem Adds.refl (h : b.length ≤ b.buffer.length) : Adds b [] b :=
  ⟨rfl, (List.append_nil _).symm, h, rfl, rfl⟩

theorem Adds.trans (h : Adds b added b') (h' : Adds b' more b'') : Adds b (added ++ more) b'' where
  length := by
    rw [h'.length, h.length, List.length_append]
    omega
  contents := by rw [h'.contents, h.contents, List.append_assoc]
  fits := h'.fits
  capacity := h'.capacity.trans h.capacity
  rest := by
    have hle : b'.length ≤ b''.length := by
      rw [h'.length]
      omega
    -- what the second step left alone lies behind what the first one did
    have hbehind := congrArg (List.drop (b''.length - b'.length)) h.rest
    rw [List.drop_drop, List.drop_drop, Nat.add_sub_cancel' hle] at hbehind
    rw [h'.rest, hbehind]

/-- One piece: its longest start that fits the room left is written. -/
theorem adds_write (h : b.length ≤ b.buffer.length) (piece : String) :
    Adds b (Utf8.encode (clip (b.buffer.length - b.length) piece)) (b.write piece) := by
  have hpart := size_clip_le (b.buffer.length - b.length) piece
  unfold size at hpart
  unfold write
  generalize Utf8.encode (clip (b.buffer.length - b.length) piece) = part at hpart ⊢
  have hfront : (b.buffer.take b.length ++ part).length = b.length + part.length := by
    rw [List.length_append, List.length_take_of_le h]
  have hwhole : (b.buffer.take b.length ++ part ++ b.buffer.drop (b.length + part.length)).length =
      b.buffer.length := by
    rw [List.length_append, hfront, List.length_drop]
    omega
  show Adds b part ⟨_, b.length + part.length⟩
  refine ⟨rfl, ?_, ?_, hwhole, ?_⟩
  · show List.take (b.length + part.length) _ = b.buffer.take b.length ++ part
    rw [← hfront, List.take_left]
  · show b.length + part.length ≤ List.length _
    rw [hwhole]
    omega
  · show List.drop (b.length + part.length) _ = List.drop (b.length + part.length) b.buffer
    rw [← hfront, List.drop_left]

/-- Any number of pieces, each cut to the room that the ones before it left. -/
theorem adds_writeAll (h : b.length ≤ b.buffer.length) (pieces : List String) :
    ∃ parts, Parts (b.buffer.length - b.length) pieces parts ∧
      Adds b (Utf8.encode (String.join parts)) (b.writeAll pieces) := by
  induction pieces generalizing b with
  | nil => exact ⟨[], .nil, .refl h⟩
  | cons piece pieces ih =>
    have hstep := adds_write h piece
    obtain ⟨parts, hparts, hrun⟩ := ih hstep.fits
    have hroom : (b.write piece).buffer.length - (b.write piece).length =
        b.buffer.length - b.length - size (clip (b.buffer.length - b.length) piece) := by
      rw [hstep.capacity, hstep.length, size]
      omega
    rw [hroom] at hparts
    refine ⟨_, .cons (longestStart_clip _ piece) hparts, ?_⟩
    rw [String.join_cons, Utf8.encode_append]
    exact hstep.trans hrun

theorem text_of_contents {text : String} (h : b.contents = Utf8.encode text) : b.text = text := by
  rw [BoundedText.text, h, Utf8.decode_encode]
  rfl

/-- What is written to a buffer from its start on is a text, so that nothing has to stand in for it. -/
theorem exists_parts (buffer : Bytes) (pieces : List String) :
    ∃ parts, Parts buffer.length pieces parts ∧
      Adds ⟨buffer, 0⟩ (Utf8.encode (String.join parts)) (writeAll ⟨buffer, 0⟩ pieces) ∧
      (writeAll ⟨buffer, 0⟩ pieces).contents = Utf8.encode (String.join parts) ∧
      (writeAll ⟨buffer, 0⟩ pieces).text = String.join parts := by
  obtain ⟨parts, hparts, hrun⟩ := adds_writeAll (b := ⟨buffer, 0⟩) (Nat.zero_le _) pieces
  have hcontents := hrun.contents
  rw [show contents ⟨buffer, 0⟩ = [] from List.take_zero, List.nil_append] at hcontents
  rw [Nat.sub_zero] at hparts
  exact ⟨parts, hparts, hrun, hcontents, text_of_contents hcontents⟩

end BoundedText

/-! ## Diagnostics -/

namespace Diagnostic
open BoundedText (Parts)

theorem fill_of_parts {room : Nat} {pieces parts : List String} (h : Parts room pieces parts) :
    fill room pieces = String.join parts := by
  obtain ⟨parts', hparts, -, -, htext⟩ := BoundedText.exists_parts (List.replicate room 0) pieces
  rw [List.length_replicate] at hparts
  rw [h.unique hparts]
  exact htext

theorem fill_nil (room : Nat) : fill room [] = "" :=
  fill_of_parts .nil

/-- A piece is cut to the room there is, and what it leaves goes to the others. -/
theorem fill_cons (room : Nat) (piece : String) (pieces : List String) :
    fill room (piece :: pieces) = clip room piece ++ fill (room - size (clip room piece)) pieces := by
  obtain ⟨parts, hparts, -⟩ :=
    BoundedText.exists_parts (List.replicate (room - size (clip room piece)) 0) pieces
  rw [List.length_replicate] at hparts
  rw [fill_of_parts hparts, fill_of_parts (.cons (longestStart_clip room piece) hparts), String.join_cons]

/-- Pieces that fit together are kept whole. -/
theorem fill_of_size_le {room : Nat} {pieces : List String} (h : size (String.join pieces) ≤ room) :
    fill room pieces = String.join pieces := by
  obtain ⟨parts, hparts, -⟩ := BoundedText.exists_parts (List.replicate room 0) pieces
  rw [List.length_replicate] at hparts
  rw [fill_of_parts hparts, hparts.eq_of_size_le h]

theorem text_of_size_le {e : RecordError} (h : size e.message ≤ capacity) : (ofError e).text = e.message :=
  fill_of_size_le h

end Diagnostic

namespace BoundedText

/-- Whatever is written to a buffer, it holds whole characters: of each piece the longest start that fits what is
left, one after another, within its bytes and with the bytes behind them as they were. So the text of a
diagnostic is what its buffer holds, all of the message if that fits; and a copy of it is a start of it, as long as
the other buffer allows, in front of bytes that stay. -/
theorem holds_whole_characters :
    (∀ (buffer : Bytes) (pieces : List String),
      let b := writeAll ⟨buffer, 0⟩ pieces
      ∃ parts, Parts buffer.length pieces parts ∧ b.contents = parts.flatMap Utf8.encode ∧
        Utf8.decode b.contents = .ok (String.join parts) ∧ b.contents.length = b.length ∧
        b.length ≤ buffer.length ∧ b.buffer = b.contents ++ buffer.drop b.length) ∧
    (∀ e : RecordError,
      Utf8.decode ((blank Diagnostic.capacity).writeAll e.pieces).contents = .ok (Diagnostic.ofError e).text ∧
      (size e.message ≤ Diagnostic.capacity → (Diagnostic.ofError e).text = e.message)) ∧
    ∀ (d : Diagnostic) (out : Bytes), ∃ copied, LongestStart out.length d.text copied ∧
      d.copyTo out = (size copied, Utf8.encode copied ++ out.drop (size copied)) := by
  refine ⟨?_, ?_, ?_⟩
  · intro buffer pieces b
    obtain ⟨parts, hparts, hrun, hcontents, -⟩ := exists_parts buffer pieces
    have hlength : b.contents.length = b.length := List.length_take_of_le hrun.fits
    refine ⟨parts, hparts, ?_, ?_, hlength, ?_, ?_⟩
    · rw [hcontents, Utf8.encode_join]
    · rw [hcontents, Utf8.decode_encode]
    · rw [← hlength, hcontents]
      exact hparts.size_le
    · rw [← hrun.rest]
      exact (List.take_append_drop b.length b.buffer).symm
  · intro e
    refine ⟨?_, Diagnostic.text_of_size_le⟩
    obtain ⟨parts, -, -, hcontents, htext⟩ := exists_parts (List.replicate Diagnostic.capacity 0) e.pieces
    show Utf8.decode (writeAll ⟨_, 0⟩ e.pieces).contents = .ok (writeAll ⟨_, 0⟩ e.pieces).text
    rw [hcontents, htext, Utf8.decode_encode]
  · intro d out
    exact ⟨clip out.length d.text, longestStart_clip _ _, rfl⟩

/-- A letter of four bytes does not fit the two that are left, and the letters after it do. A message with a letter
of two bytes is kept, and copied without it where it would be split. -/
theorem letters_after_cut_piece_are_kept :
    let e : RecordError := .truncated "ü"
    (∃ parts, Parts 5 ["aü", "🙂", "bc"] parts ∧ parts.flatMap Utf8.encode = [0x61, 0xC3, 0xBC, 0x62, 0x63]) ∧
      size e.message = 32 ∧ (Diagnostic.ofError e).text = e.message ∧
      ∃ copied, LongestStart 31 e.message copied ∧ size copied = 30 := by
  intro e
  obtain ⟨hbuffer, hdiagnostic, hcopy⟩ := holds_whole_characters
  have hsize : size e.message = 32 := by decide +kernel
  have htext := (hdiagnostic e).2 (by rw [hsize]; decide)
  refine ⟨?_, hsize, htext, ?_⟩
  · obtain ⟨parts, hparts, hcontents, -⟩ := hbuffer [1, 2, 3, 4, 5] ["aü", "🙂", "bc"]
    refine ⟨parts, hparts, ?_⟩
    rw [← hcontents]
    decide +kernel
  · obtain ⟨copied, hcopied, hlength⟩ := hcopy (Diagnostic.ofError e) (List.replicate 31 0)
    rw [htext, List.length_replicate] at hcopied
    refine ⟨copied, hcopied, ?_⟩
    have hthirty : ((Diagnostic.ofError e).copyTo (List.replicate 31 0)).1 = 30 := by decide +kernel
    rwa [hlength] at hthirty

end BoundedText

end CborRecords
