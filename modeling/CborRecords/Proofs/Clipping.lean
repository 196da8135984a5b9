import CborRecords.Proofs.Messages

/-!
# Messages that are cut

A message that is too long for its room is cut at a character. The room of a diagnostic is filled piece by
piece, and a piece that was cut in front of a character of several bytes may leave room for the pieces after
it. So the text of a diagnostic is the longest start of the message that fits, and sometimes goes on after it
with characters from further back.

* `Utf8.clip_append`, `Utf8.clip_clip` : a text in two parts is cut, and a text is cut twice;
* `Diagnostic.Bridged` : pieces with a character of one byte on one side of each seam; the pieces of every
  record error are (`RecordError.bridged`);
* `Diagnostic.Filled` : how a room is filled; `Diagnostic.Bridged.filled` : by pieces of this kind;
* `Diagnostic.text_longest_start_iff` : when the text of a diagnostic, and what is copied of it, is the longest
  start of the message.
-/

namespace CborRecords

namespace Utf8

/-! ## Sizes -/

/-- A text in characters of one byte. -/
def Single (text : String) : Prop :=
  ∀ c ∈ text.toList, c.utf8Size = 1

instance (text : String) : Decidable (Single text) :=
  List.decidableBAll _ _

theorem single_toString (n : Nat) : Single (toString n) :=
  (short_toString (Nat.succ_pos n) (Nat.lt_trans (Nat.lt_succ_self n) (Nat.lt_pow_self (by decide)))).2

theorem single_toString_int (n : Int) : Single (toString n) := by
  cases n with
  | ofNat n => exact single_toString n
  | negSucc n =>
    have hsigned : toString (Int.negSucc n) = "-" ++ toString (n + 1) := rfl
    intro c hc
    rw [hsigned, String.toList_append] at hc
    rcases List.mem_append.1 hc with hc | hc
    · obtain rfl : c = '-' := List.mem_singleton.1 hc
      rfl
    · exact single_toString (n + 1) c hc

/-- A start of two texts ends in the first of them or in the second. -/
theorem starts_append_cases {a b start : String} (h : start.toList <+: (a ++ b).toList) :
    start.toList <+: a.toList ∨ ∃ rest, start = a ++ rest ∧ rest.toList <+: b.toList := by
  rw [String.toList_append] at h
  rcases List.prefix_or_prefix_of_prefix h (List.prefix_append a.toList b.toList) with hshort | hlong
  · exact .inl hshort
  · obtain ⟨rest, rfl⟩ := exists_append_of_starts hlong
    rw [String.toList_append, List.prefix_append_right_inj] at h
    exact .inr ⟨rest, rfl, h⟩

/-! ## Cuts -/

theorem clip_zero (text : String) : clip 0 text = "" :=
  size_eq_zero_iff.1 (Nat.le_zero.1 (size_clip_le 0 text))

theorem clip_clip (room more : Nat) (text : String) : clip room (clip more text) = clip (min more room) text := by
  have hinner := longestStart_clip more text
  have houter := longestStart_clip room (clip more text)
  refine longestStart_iff.1 ⟨houter.starts.trans hinner.starts, ?_, ?_⟩
  · obtain ⟨rest, hrest⟩ := exists_append_of_starts houter.starts
    have hwhole := congrArg size hrest
    rw [size_append] at hwhole
    have hle := hinner.fits
    exact Nat.le_min.2 ⟨by omega, houter.fits⟩
  · intro other hstarts hsize
    have hmore := hinner.longest other hstarts (Nat.le_trans hsize (Nat.min_le_left _ _))
    exact houter.longest other hmore (Nat.le_trans hsize (Nat.min_le_right _ _))

/-- What is left of the room behind a text that fits goes to the text after it. -/
theorem clip_append {room : Nat} {a : String} (h : size a ≤ room) (b : String) :
    clip room (a ++ b) = a ++ clip (room - size a) b := by
  have hback := longestStart_clip (room - size a) b
  symm
  refine longestStart_iff.1 ⟨?_, ?_, ?_⟩
  · rw [String.toList_append, String.toList_append, List.prefix_append_right_inj]
    exact hback.starts
  · have hle := hback.fits
    rw [size_append]
    omega
  · intro other hstarts hsize
    rcases starts_append_cases hstarts with hshort | ⟨rest, rfl, hrest⟩
    · rw [String.toList_append]
      exact hshort.trans (List.prefix_append _ _)
    · rw [size_append] at hsize
      rw [String.toList_append, String.toList_append, List.prefix_append_right_inj]
      exact hback.longest rest hrest (by omega)

/-- Nothing of the text after it is reached where the first text alone takes the room. -/
theorem clip_append_of_le {room : Nat} {a : String} (h : room ≤ size a) (b : String) :
    clip room (a ++ b) = clip room a := by
  have hboth := longestStart_clip room (a ++ b)
  refine longestStart_iff.1 ⟨?_, hboth.fits, ?_⟩
  · rcases starts_append_cases hboth.starts with hshort | ⟨rest, hwhole, -⟩
    · exact hshort
    · have hle := hboth.fits
      rw [hwhole, size_append] at hle
      have hnone : rest = "" := size_eq_zero_iff.1 (by omega)
      rewrite [hwhole, hnone, String.append_empty]
      exact List.prefix_rfl
  · intro other hstarts hsize
    refine hboth.longest other ?_ hsize
    rw [String.toList_append]
    exact hstarts.trans (List.prefix_append _ _)

/-- The first character gets in where there is room for it. -/
theorem exists_clip_ofList_cons {room : Nat} {c : Char} (h : c.utf8Size ≤ room) (cs : List Char) :
    ∃ more, clip room (String.ofList (c :: cs)) = String.ofList (c :: more) := by
  have hsize : size (String.ofList [c]) = c.utf8Size := size_ofList_cons c []
  have hcons (cs : List Char) : String.ofList (c :: cs) = String.ofList [c] ++ String.ofList cs := by
    rw [← String.ofList_append, List.singleton_append]
  refine ⟨(clip (room - c.utf8Size) (String.ofList cs)).toList, ?_⟩
  rw [hcons cs, clip_append (by omega), hsize, hcons (String.toList _), String.ofList_toList]

/-- A cut text with more behind it is cut again: what is left is a cut of the whole unless the cut reaches
what is behind. -/
theorem longestStart_clip_append_iff {room limit : Nat} {text rest : String}
    (hrest : rest = "" ∨ ∃ c cs, rest = String.ofList (c :: cs) ∧ c.utf8Size = 1) :
    LongestStart (min room limit) text (clip limit (clip room text ++ rest)) ↔
      rest = "" ∨ limit ≤ size (clip room text) := by
  rw [longestStart_iff, ← clip_clip]
  constructor
  · intro h
    rcases hrest with hnone | ⟨c, cs, rfl, hc⟩
    · exact .inl hnone
    refine .inr (Nat.le_of_not_lt fun hlt => ?_)
    have hroom : c.utf8Size ≤ limit - size (clip room text) := by omega
    obtain ⟨more, hmore⟩ := exists_clip_ofList_cons hroom cs
    rw [clip_append (Nat.le_of_lt hlt), hmore, clip_of_size_le (Nat.le_of_lt hlt)] at h
    have hsize := congrArg size h
    rw [size_append, size_ofList_cons] at hsize
    omega
  · rintro (rfl | hle)
    · rw [String.append_empty]
    · exact clip_append_of_le hle rest

/-- A text of single bytes leaves no room where it is cut. -/
theorem size_clip_of_single {room : Nat} {text : String} (h : Single text) (hlong : room ≤ size text) :
    size (clip room text) = room := by
  have hsize : size text = text.toList.length := length_of_single h
  have htake : ∀ c ∈ text.toList.take room, c.utf8Size = 1 := fun c hc => h c (List.mem_of_mem_take hc)
  rw [clip_of_single h, size, encode, String.toList_ofList, length_of_single htake, List.length_take]
  omega

end Utf8

open Utf8 (Single LongestStart longestStart_iff longestStart_clip size clip size_append size_clip_le)

/-! ## Filling a room -/

namespace Diagnostic

/-- Pieces such that on one side of each seam there is nothing but characters of one byte, or on the other
there is one first. -/
inductive Bridged : List String → Prop
  | last (piece : String) : Bridged [piece]
  | cons {piece next : String} {rest : List String}
      (hseam : Single piece ∨ ∃ c cs, next = String.ofList (c :: cs) ∧ c.utf8Size = 1)
      (hrest : Bridged (next :: rest)) : Bridged (piece :: next :: rest)

/-- What pieces leave in a room: the longest start of all of them, or that and what got in behind it. -/
inductive Filled (room : Nat) (pieces : List String) : Prop
  /-- Either no byte is free, or no piece was cut before the last one. -/
  | start (htext : fill room pieces = clip room (String.join pieces))
      (hroom : size (clip room (String.join pieces)) = room ∨ size (String.join pieces.dropLast) ≤ room)
  /-- A piece was cut in front of a character that did not fit, and a shorter one came after it. -/
  | overrun (c : Char) (cs : List Char)
      (htext : fill room pieces = clip room (String.join pieces) ++ String.ofList (c :: cs))
      (hc : c.utf8Size = 1) (hfree : size (clip room (String.join pieces)) < room)
      (hlong : room < size (String.join pieces.dropLast))

theorem fill_zero (pieces : List String) : fill 0 pieces = "" := by
  induction pieces with
  | nil => exact fill_nil 0
  | cons piece pieces ih => rw [fill_cons, Utf8.clip_zero, Nat.zero_sub, ih]; rfl

theorem size_fill_le (room : Nat) (pieces : List String) : size (fill room pieces) ≤ room := by
  induction pieces generalizing room with
  | nil =>
    rw [fill_nil]
    exact Nat.zero_le _
  | cons piece pieces ih =>
    have hpart := size_clip_le room piece
    have hrest := ih (room - size (clip room piece))
    rw [fill_cons, size_append]
    omega

/-- The first character of a piece gets in where there is room for it. -/
theorem fill_ofList_cons {room : Nat} {c : Char} (h : c.utf8Size ≤ room) (cs : List Char) (rest : List String) :
    ∃ more, fill room (String.ofList (c :: cs) :: rest) = String.ofList (c :: more) := by
  obtain ⟨more, hmore⟩ := Utf8.exists_clip_ofList_cons h cs
  refine ⟨more ++ (fill (room - size (clip room (String.ofList (c :: cs)))) rest).toList, ?_⟩
  rw [fill_cons, ← String.toList_inj, String.toList_append, hmore, String.toList_ofList, String.toList_ofList,
    List.cons_append]

/-- A piece that fits leaves the rest of the room to the others. -/
theorem Filled.cons {room : Nat} {piece next : String} {rest : List String} (hfits : size piece ≤ room)
    (h : Filled (room - size piece) (next :: rest)) : Filled room (piece :: next :: rest) := by
  have hfill : fill room (piece :: next :: rest) = piece ++ fill (room - size piece) (next :: rest) := by
    rw [fill_cons, Utf8.clip_of_size_le hfits]
  have hclip : clip room (String.join (piece :: next :: rest)) =
      piece ++ clip (room - size piece) (String.join (next :: rest)) := by
    rw [String.join_cons, Utf8.clip_append hfits]
  have hdrop : size (String.join (piece :: next :: rest).dropLast) =
      size piece + size (String.join (next :: rest).dropLast) := by
    rw [List.dropLast_cons_cons, String.join_cons, size_append]
  cases h with
  | start htext hroom =>
    refine .start (by rw [hfill, hclip, htext]) ?_
    rw [hclip, hdrop, size_append]
    omega
  | overrun c cs htext hc hfree hlong =>
    refine .overrun c cs (by rw [hfill, hclip, htext, String.append_assoc]) hc ?_ (by omega)
    rw [hclip, size_append]
    omega

theorem Bridged.filled {pieces : List String} (h : Bridged pieces) (room : Nat) : Filled room pieces := by
  induction h generalizing room with
  | last piece =>
    refine .start ?_ (.inr (Nat.zero_le _))
    rw [fill_cons, fill_nil, String.append_empty, String.join_cons, String.join_nil, String.append_empty]
  | @cons piece next rest hseam hrest ih =>
    by_cases hfits : size piece ≤ room
    · exact (ih _).cons hfits
    have hlong := Nat.lt_of_not_le hfits
    -- The piece is cut, so it alone decides what the longest start is.
    have hclip : clip room (String.join (piece :: next :: rest)) = clip room piece := by
      rw [String.join_cons, Utf8.clip_append_of_le (Nat.le_of_lt hlong)]
    rcases Nat.eq_or_lt_of_le (size_clip_le room piece) with hfull | hfree
    · refine .start ?_ (.inl (by rw [hclip, hfull]))
      rw [fill_cons, hclip, hfull, Nat.sub_self, fill_zero, String.append_empty]
    · rcases hseam with hsingle | ⟨c, cs, rfl, hc⟩
      · exact absurd (Utf8.size_clip_of_single hsingle (Nat.le_of_lt hlong)) (Nat.ne_of_lt hfree)
      · have hroom : c.utf8Size ≤ room - size (clip room piece) := by omega
        obtain ⟨more, hmore⟩ := fill_ofList_cons hroom cs rest
        refine .overrun c more (by rw [fill_cons, hmore, hclip]) hc (by rw [hclip]; exact hfree) ?_
        rw [List.dropLast_cons_cons, String.join_cons, size_append]
        omega

/-- A piece of single bytes may stand before any other. -/
theorem Bridged.single_cons {piece : String} {pieces : List String} (hpiece : Single piece)
    (h : Bridged pieces) : Bridged (piece :: pieces) := by
  cases h with
  | last next => exact .cons (.inl hpiece) (.last next)
  | cons hseam hrest => exact .cons (.inl hpiece) (.cons hseam hrest)

/-- Any piece may stand before one that starts with a single byte. -/
theorem Bridged.any_cons (piece : String) {next : String} {rest : List String} {c : Char} {cs : List Char}
    (hnext : next.toList = c :: cs) (hc : c.utf8Size = 1) (h : Bridged (next :: rest)) :
    Bridged (piece :: next :: rest) := by
  refine .cons (.inr ⟨c, cs, ?_, hc⟩) h
  rw [← hnext, String.ofList_toList]

/-- Words, something inserted, more words and a last insertion. -/
theorem bridged_inserts {first second : String} (inserted last : String) (hfirst : Single first) {c : Char}
    {cs : List Char} (hsecond : second.toList = c :: cs) (hsingle : Single second) :
    Bridged [first, inserted, second, last] := by
  have hc : c.utf8Size = 1 := hsingle c (by rw [hsecond]; exact List.mem_cons_self)
  exact .single_cons hfirst (.any_cons inserted hsecond hc (.single_cons hsingle (.last last)))

end Diagnostic

/-! ## Wordings -/

open Diagnostic (Bridged bridged_inserts)

theorem DecodeError.bridged (e : DecodeError) : Bridged e.pieces := by
  have hwords {words : String} (h : Single words) (last : String) : Bridged [words, last] :=
    .single_cons h (.last last)
  cases e with
  | invalidMinorValue info => exact hwords (by decide +kernel) _
  | invalidSimpleType value => exact hwords (by decide +kernel) _
  | incorrectType expected found => exact bridged_inserts expected found (by decide +kernel) rfl (by decide +kernel)
  | _ => exact .last _

theorem EncodeError.bridged (e : EncodeError) : Bridged e.pieces := by
  cases e with
  | bufferTooSmall needed available => exact bridged_inserts _ _ (by decide +kernel) rfl (by decide +kernel)
  | invalidSimpleValue value =>
    exact .single_cons (by decide +kernel) (.single_cons (Utf8.single_toString _) (.last _))

theorem Mismatch.bridged (m : Mismatch) : Bridged m.pieces := by
  cases m with
  | intRange min max found =>
    exact .single_cons (by decide +kernel) (.single_cons (Utf8.single_toString_int found)
      (bridged_inserts _ _ (by decide +kernel) rfl (by decide +kernel)))
  | tagged | indefinite | utf8 => exact .last _
  | malformed cause => exact cause.bridged
  | _ => exact bridged_inserts _ _ (by decide +kernel) rfl (by decide +kernel)

/-- Whatever the names in an error are, they are set in words of single bytes. -/
theorem RecordError.bridged (e : RecordError) : Bridged e.pieces := by
  cases e with
  | capacity needed available => exact bridged_inserts _ _ (by decide +kernel) rfl (by decide +kernel)
  | truncated field => exact .single_cons (by decide +kernel) (.last field)
  | schemaMismatch field reason =>
    exact .single_cons (by decide +kernel) (.any_cons field rfl rfl
      (.single_cons (by decide +kernel) reason.bridged))
  | trailingData count => exact .single_cons (Utf8.single_toString count) (.last _)
  | invalidKey n => exact .single_cons (by decide +kernel) (.last _)
  | nullPointer what => exact .single_cons (by decide +kernel) (.any_cons what rfl rfl (.last _))
  | unencodable cause =>
    refine .single_cons (by decide +kernel) ?_
    cases cause with
    | error e => exact e.bridged
    | misuse m => exact .last _

/-! ## Texts of diagnostics -/

namespace Diagnostic

/-- The text of a diagnostic is the longest start of the message that fits, and what got in behind it: nothing
exactly if the start takes all of the room, or if all pieces but the last one fit. A buffer gets the longest
start of the text that fits it, which is one of the message as long as it does not reach behind the start. -/
theorem text_longest_start_iff (e : RecordError) :
    ∃ start rest : String, LongestStart capacity e.message start ∧ (ofError e).text = start ++ rest ∧
      size (ofError e).text ≤ capacity ∧
      (LongestStart capacity e.message (ofError e).text ↔ rest = "") ∧
      (rest = "" ↔ size start = capacity ∨ size (String.join e.pieces.dropLast) ≤ capacity) ∧
      ∀ out : Bytes, ∃ copied : String,
        (ofError e).copyTo out = (size copied, Utf8.encode copied ++ out.drop (size copied)) ∧
        LongestStart out.length (ofError e).text copied ∧
        (LongestStart (min capacity out.length) e.message copied ↔ rest = "" ∨ out.length ≤ size start) := by
  have hlongest := longestStart_clip capacity e.message
  have hcopy (out : Bytes) := longestStart_clip out.length (ofError e).text
  cases e.bridged.filled capacity with
  | start htext hroom =>
    have htext : (ofError e).text = clip capacity e.message ++ "" := by
      rw [String.append_empty]
      exact htext
    refine ⟨_, "", hlongest, htext, size_fill_le _ _, ?_, ?_, fun out => ⟨_, rfl, hcopy out, ?_⟩⟩
    · rw [htext, String.append_empty]
      exact iff_of_true hlongest rfl
    · exact iff_of_true rfl hroom
    · rw [htext]
      exact Utf8.longestStart_clip_append_iff (.inl rfl)
  | overrun c cs htext hc hfree hlong =>
    have hsome : String.ofList (c :: cs) ≠ "" := fun h => by cases String.ofList_eq_empty_iff.1 h
    have htext : (ofError e).text = clip capacity e.message ++ String.ofList (c :: cs) := htext
    refine ⟨_, _, hlongest, htext, size_fill_le _ _, iff_of_false ?_ hsome, iff_of_false hsome ?_,
      fun out => ⟨_, rfl, hcopy out, ?_⟩⟩
    · intro h
      have hsize := congrArg size (htext.symm.trans (longestStart_iff.1 h))
      rw [size_append, Utf8.size_ofList_cons] at hsize
      omega
    · rintro (hfull | hfits)
      · exact Nat.ne_of_lt hfree hfull
      · exact Nat.not_le_of_lt hlong hfits
    · rw [htext]
      exact Utf8.longestStart_clip_append_iff (.inr ⟨c, cs, rfl, hc⟩)

/-- A name of 28 characters of four bytes is cut after 27 of them. The byte that is left takes the colon after
the name, which is no start of the message. -/
theorem colon_follows_cut_name :
    let name := String.ofList (List.replicate 28 '🙂')
    let s : Schema := ⟨"sample", .person, [⟨name, .bool⟩]⟩
    let text := "Schema mismatch in " ++ String.ofList (List.replicate 27 '🙂') ++ ":"
    let e : RecordError := .schemaMismatch name .tagged
    Record.decodeDiagnosed (Row s) [0x82, 0x00, 0xC1, 0xF5] = .error ⟨e, text⟩ ∧
      ¬ LongestStart capacity e.message text := by
  intro name s text e
  refine ⟨by decide +kernel, fun h => ?_⟩
  have htext : text ≠ clip capacity e.message := by decide +kernel
  exact htext (longestStart_iff.1 h)

end Diagnostic

end CborRecords
