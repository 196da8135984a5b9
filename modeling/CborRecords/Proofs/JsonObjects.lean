import CborRecords.JsonText.Person
import CborRecords.Proofs.JsonReading

/-!
# JSON objects read back

The writer of objects with a name and an id puts its pieces in a fixed order; the reader takes them in either
order, with blanks anywhere between them. So it reads back what is written, also as a line of its own.

* `JsonText.Spaced` : pieces of a text with blanks around them;
* `Person.Object` : the texts of objects with a name and an id; `Person.readMembers_of_object` : what they are
  read as; `Person.object_writeMembers` : both styles write such a text;
* `Person.readsBack_jsonCodec`, `Person.readsLines_jsonCodec` : the codec reads back what it writes.
-/

namespace CborRecords

namespace JsonText

/-! ## Pieces -/

/-- Pieces of a text in order, with blanks around them. -/
inductive Spaced : List Bytes → Bytes → Prop
  | nil {blanks : Bytes} (h : ∀ b ∈ blanks, Scan.isBlank b = true) : Spaced [] blanks
  | cons {blanks piece text : Bytes} {pieces : List Bytes} (h : ∀ b ∈ blanks, Scan.isBlank b = true)
      (hrest : Spaced pieces text) : Spaced (piece :: pieces) (blanks ++ (piece ++ text))

namespace Spaced
variable {b : UInt8} {piece text : Bytes} {pieces : List Bytes}

theorem empty : Spaced [] [] :=
  .nil (List.forall_mem_nil _)

theorem next (h : Spaced pieces text) (piece : Bytes) : Spaced (piece :: pieces) (piece ++ text) :=
  .cons (List.forall_mem_nil _) h

theorem after (h : Spaced pieces text) {blanks : Bytes} (hblank : ∀ b ∈ blanks, Scan.isBlank b = true)
    (piece : Bytes) : Spaced (piece :: pieces) (blanks ++ (piece ++ text)) :=
  .cons hblank h

theorem append_blanks (h : Spaced pieces text) {blanks : Bytes} (hblank : ∀ b ∈ blanks, Scan.isBlank b = true) :
    Spaced pieces (text ++ blanks) := by
  induction h with
  | nil h => exact .nil (List.forall_mem_append.2 ⟨h, hblank⟩)
  | cons h hrest ih =>
    rw [List.append_assoc, List.append_assoc]
    exact .cons h ih

theorem exists_blank (h : Spaced ((b :: piece) :: pieces) text) (hb : Scan.isBlank b = false) (n : Nat) :
    ∃ more n', Spaced pieces more ∧ (⟨text, n⟩ : Scan).blank = ⟨b :: (piece ++ more), n'⟩ := by
  cases h with
  | @cons blanks _ more _ hblank hmore =>
    have hhead : ∀ b' ∈ (b :: (piece ++ more)).head?, Scan.isBlank b' = false := by
      rintro b' ⟨⟩
      exact hb
    exact ⟨more, _, hmore, Scan.blank_append hblank hhead n⟩

/-- A string among the pieces: blanks are passed up to its opening quote, and behind it the text is read. -/
theorem exists_text {value : String} (hvalue : Quotation value piece) (h : Spaced (piece :: pieces) text) (n : Nat) :
    ∃ rest m more n', (⟨text, n⟩ : Scan).blank = ⟨0x22 :: rest, m⟩ ∧
      Scan.text ⟨rest, m + 1⟩ = .ok (value, ⟨more, n'⟩) ∧ Spaced pieces more := by
  obtain ⟨inner, hinner, rfl⟩ := hvalue
  obtain ⟨more, m, hmore, hblank⟩ := h.exists_blank (by decide) n
  obtain ⟨n', htext⟩ := Scan.text_spelled hinner more (m + 1)
  rw [List.append_assoc] at hblank
  exact ⟨_, m, more, n', hblank, htext, hmore⟩

theorem blank_nil (h : Spaced [] text) (n : Nat) : ∃ n', (⟨text, n⟩ : Scan).blank = ⟨[], n'⟩ := by
  cases h with
  | nil hblank =>
    have hall : (⟨text ++ [], n⟩ : Scan).blank = ⟨[], n + text.length⟩ := Scan.blank_append hblank (by simp) n
    rw [List.append_nil] at hall
    exact ⟨_, hall⟩

theorem length_le (h : Spaced (piece :: pieces) text) : piece.length ≤ text.length := by
  cases h with
  | cons _ _ =>
    simp only [List.length_append]
    omega

/-- A number ends in front of blanks, and in front of a piece that does not go on with it. -/
theorem stops (h : Spaced ((b :: piece) :: pieces) text) (hb : Stops b) : ∀ b' ∈ text.head?, Stops b' := by
  cases h with
  | @cons blanks _ more _ hblank _ =>
    cases blanks with
    | nil =>
      rintro b' ⟨⟩
      exact hb
    | cons blank blanks =>
      rintro b' ⟨⟩
      have hspace := hblank blank List.mem_cons_self
      simp only [Scan.isBlank, Bool.or_eq_true, decide_eq_true_eq, or_assoc] at hspace
      rcases hspace with rfl | rfl | rfl | rfl <;> decide

end Spaced

end JsonText

namespace Person
open JsonText

/-! ## Keys and values -/

variable {name key : String} {id : UInt8} {b : UInt8} {piece text : Bytes} {pieces : List Bytes}

/-- What stands in front of an entry that is the first, or a later one. -/
def separator : Bool → List Bytes
  | true => []
  | false => [[0x2C]]

theorem nextKey_spaced (hkey : Quotation key piece) (first : Bool)
    (h : Spaced (separator first ++ piece :: pieces) text) (n : Nat) :
    ∃ s more n', nextKey first ⟨text, n⟩ = .ok (true, s) ∧ s.text = .ok (key, ⟨more, n'⟩) ∧ Spaced pieces more := by
  cases first with
  | true =>
    obtain ⟨rest, m, more, n', hblank, htext, hmore⟩ := Spaced.exists_text hkey h n
    refine ⟨⟨rest, m + 1⟩, more, n', ?_, htext, hmore⟩
    simp only [nextKey, hblank, Scan.peek?, List.head?_cons, Scan.pass_one]
    rfl
  | false =>
    obtain ⟨afterComma, m', hafter, hcomma⟩ := h.exists_blank (by decide) n
    obtain ⟨rest, m, more, n', hblank, htext, hmore⟩ := Spaced.exists_text hkey hafter (m' + 1)
    refine ⟨⟨rest, m + 1⟩, more, n', ?_, htext, hmore⟩
    simp only [nextKey, hcomma, Scan.peek?, List.head?_cons, Scan.pass_one, List.nil_append, hblank]
    rfl

theorem colon_spaced (h : Spaced ([0x3A] :: pieces) text) (n : Nat) :
    ∃ more n', colon ⟨text, n⟩ = .ok ⟨more, n'⟩ ∧ Spaced pieces more := by
  obtain ⟨more, m, hmore, hblank⟩ := h.exists_blank (by decide) n
  refine ⟨more, m + 1, ?_, hmore⟩
  simp only [colon, hblank, Scan.peek?, List.head?_cons, Scan.pass_one, List.nil_append, if_pos]

theorem readName_spaced (hname : Quotation name piece) (h : Spaced (piece :: pieces) text) (n : Nat) :
    ∃ more n', readName ⟨text, n⟩ = .ok (name, ⟨more, n'⟩) ∧ Spaced pieces more := by
  obtain ⟨rest, m, more, n', hblank, htext, hmore⟩ := Spaced.exists_text hname h n
  refine ⟨more, n', ?_, hmore⟩
  simp only [readName, hblank, Scan.peek?, List.head?_cons, Scan.pass_one, if_pos]
  exact htext

theorem readId_spaced (h : Spaced (Utf8.encode (toString id.toNat) :: (b :: piece) :: pieces) text)
    (hb : Stops b) (n : Nat) :
    ∃ more n', readId ⟨text, n⟩ = .ok (id, ⟨more, n'⟩) ∧ Spaced ((b :: piece) :: pieces) more := by
  obtain ⟨d, digits, hcons, -⟩ := exists_cons_toString id.toNat
  have hdigit : Scan.isDigit d = true := isDigit_of_mem (hcons ▸ List.mem_cons_self)
  obtain ⟨hblank, hminus⟩ := Scan.isBlank_of_isDigit hdigit
  rw [hcons] at h
  obtain ⟨more, m, hmore, hplace⟩ := h.exists_blank hblank n
  have hlt := id.toNat_lt
  have hfits : id.toNat < 0x10000000000000000 := by omega
  obtain ⟨n', hnumber⟩ := Scan.number_toString hfits (hmore.stops hb) m
  refine ⟨more, n', ?_, hmore⟩
  rw [hcons] at hnumber
  simp only [readId, hplace, Scan.peek?, List.head?_cons, if_neg hminus, hdigit, if_true]
  rw [← List.cons_append, hnumber]
  have hrange : 0 ≤ (id.toNat : Int) ∧ (id.toNat : Int) < 256 := by omega
  simp only [bind, Except.bind, if_pos hrange, Int.toNat_natCast, UInt8.ofNat_toNat]

/-! ## Objects -/

section Entries
variable {keyPiece : Bytes} (limit : Nat) (first : Bool)

theorem readEntries_name (hkey : Quotation "name" keyPiece) (hname : Quotation name piece) (known : Option UInt8)
    (h : Spaced (separator first ++ keyPiece :: [0x3A] :: piece :: pieces) text) (n : Nat) :
    ∃ more n', readEntries (limit + 1) first none known ⟨text, n⟩ =
      readEntries limit false (some name) known ⟨more, n'⟩ ∧ Spaced pieces more := by
  obtain ⟨s, afterKey, n₁, hnext, hread, hafterKey⟩ := nextKey_spaced hkey first h n
  obtain ⟨afterColon, n₂, hcolon, hafterColon⟩ := colon_spaced hafterKey n₁
  obtain ⟨more, n', hvalue, hmore⟩ := readName_spaced hname hafterColon n₂
  refine ⟨more, n', ?_, hmore⟩
  rw [readEntries]
  simp only [hnext, hread, hcolon, hvalue, bind, Except.bind]
  rfl

theorem readEntries_id (hkey : Quotation "id" keyPiece) (known : Option String)
    (h : Spaced (separator first ++ keyPiece :: [0x3A] :: Utf8.encode (toString id.toNat) :: (b :: piece) :: pieces)
      text)
    (hb : Stops b) (n : Nat) :
    ∃ more n', readEntries (limit + 1) first known none ⟨text, n⟩ =
      readEntries limit false known (some id) ⟨more, n'⟩ ∧ Spaced ((b :: piece) :: pieces) more := by
  obtain ⟨s, afterKey, n₁, hnext, hread, hafterKey⟩ := nextKey_spaced hkey first h n
  obtain ⟨afterColon, n₂, hcolon, hafterColon⟩ := colon_spaced hafterKey n₁
  obtain ⟨more, n', hvalue, hmore⟩ := readId_spaced hafterColon hb n₂
  refine ⟨more, n', ?_, hmore⟩
  rw [readEntries]
  simp only [hnext, hread, hcolon, hvalue, bind, Except.bind]
  rfl

theorem readEntries_end (name : String) (id : UInt8) (h : Spaced ([0x7D] :: pieces) text) (n : Nat) :
    ∃ more n', readEntries (limit + 1) false (some name) (some id) ⟨text, n⟩ =
      .ok ((name, id), ⟨more, n'⟩) ∧ Spaced pieces more := by
  obtain ⟨more, m, hmore, hblank⟩ := h.exists_blank (by decide) n
  refine ⟨more, m + 1, ?_, hmore⟩
  rw [readEntries]
  simp only [nextKey, hblank, Scan.peek?, List.head?_cons, List.nil_append, bind, Except.bind, if_pos]
  rw [← Scan.pass_one 0x7D more m]
  rfl

end Entries

/-- The pieces of an object with a name and an id, in either order. -/
inductive Pieces (name : String) (id : UInt8) : List Bytes → Prop
  | nameFirst {keyPiece namePiece keyPiece' : Bytes} (hkey : Quotation "name" keyPiece)
      (hname : Quotation name namePiece) (hkey' : Quotation "id" keyPiece') :
      Pieces name id [[0x7B], keyPiece, [0x3A], namePiece, [0x2C], keyPiece', [0x3A],
        Utf8.encode (toString id.toNat), [0x7D]]
  | idFirst {keyPiece keyPiece' namePiece : Bytes} (hkey : Quotation "id" keyPiece)
      (hkey' : Quotation "name" keyPiece') (hname : Quotation name namePiece) :
      Pieces name id [[0x7B], keyPiece, [0x3A], Utf8.encode (toString id.toNat), [0x2C], keyPiece', [0x3A],
        namePiece, [0x7D]]

/-- A text of an object with a name and an id. -/
def Object (name : String) (id : UInt8) (text : Bytes) : Prop :=
  ∃ pieces, Pieces name id pieces ∧ Spaced pieces text

theorem readEntries_pieces (h : Pieces name id ([0x7B] :: pieces)) (hs : Spaced pieces text) (limit n : Nat) :
    ∃ more n', readEntries (limit + 3) true none none ⟨text, n⟩ = .ok ((name, id), ⟨more, n'⟩) ∧
      Spaced [] more := by
  cases h with
  | nameFirst hkey hname hkey' =>
    obtain ⟨text₁, n₁, hrun₁, hs₁⟩ := readEntries_name (limit + 2) true hkey hname none hs n
    obtain ⟨text₂, n₂, hrun₂, hs₂⟩ := readEntries_id (limit + 1) false hkey' (some name) hs₁ (by decide) n₁
    obtain ⟨text₃, n₃, hrun₃, hs₃⟩ := readEntries_end limit name id hs₂ n₂
    exact ⟨text₃, n₃, by rw [hrun₁, hrun₂, hrun₃], hs₃⟩
  | idFirst hkey hkey' hname =>
    obtain ⟨text₁, n₁, hrun₁, hs₁⟩ := readEntries_id (limit + 2) true hkey none hs (by decide) n
    obtain ⟨text₂, n₂, hrun₂, hs₂⟩ := readEntries_name (limit + 1) false hkey' hname (some id) hs₁ n₁
    obtain ⟨text₃, n₃, hrun₃, hs₃⟩ := readEntries_end limit name id hs₂ n₂
    exact ⟨text₃, n₃, by rw [hrun₁, hrun₂, hrun₃], hs₃⟩

theorem Pieces.exists_cons (h : Pieces name id pieces) :
    ∃ piece more, pieces = [0x7B] :: piece :: more ∧ 2 ≤ piece.length := by
  have hquotes {text : String} {piece : Bytes} (h : Quotation text piece) : 2 ≤ piece.length := by
    obtain ⟨inner, -, rfl⟩ := h
    simp
  cases h with
  | nameFirst hkey hname hkey' => exact ⟨_, _, rfl, hquotes hkey⟩
  | idFirst hkey hkey' hname => exact ⟨_, _, rfl, hquotes hkey⟩

/-- The members of an object are read from any text of it. -/
theorem readMembers_of_object (h : Object name id text) : readMembers text = .ok (name, id) := by
  obtain ⟨pieces, hp, hs⟩ := h
  obtain ⟨piece, more, rfl, hlength⟩ := hp.exists_cons
  obtain ⟨inside, m, hinside, hblank⟩ := hs.exists_blank (by decide) 0
  -- each entry takes a step of the reader, and so does the end
  obtain ⟨limit, hlimit⟩ : ∃ limit, (0x7B :: inside).length + 1 = limit + 3 := by
    have hle := hinside.length_le
    exact ⟨inside.length - 1, by simp only [List.length_cons]; omega⟩
  obtain ⟨after, m', hentries, hafter⟩ := readEntries_pieces hp hinside limit (m + 1)
  obtain ⟨m'', hend⟩ := hafter.blank_nil m'
  have hread : read (.ofText text) = .ok ((name, id), ⟨after, m'⟩) := by
    simp only [read, Scan.ofText, hblank, Scan.peek?, List.head?_cons, Scan.pass_one, List.nil_append]
    rw [if_neg (by decide), if_pos trivial, hlimit, hentries]
  rw [readMembers, hread]
  simp only [bind, Except.bind, hend]
  rfl

/-! ## The codec -/

theorem object_writeMembers (style : JsonStyle) (name : String) (id : UInt8) :
    Object name id (Utf8.encode (writeMembers style name id)) := by
  refine ⟨_, .nameFirst (quotation_quote "name") (quotation_quote name) (quotation_quote "id"), ?_⟩
  cases style with
  | compact =>
    have hopen : Utf8.encode "\x7b\"name\":" = [0x7B] ++ (Utf8.encode (quote "name") ++ [0x3A]) := by decide +kernel
    have hnext : Utf8.encode ",\"id\":" = [0x2C] ++ (Utf8.encode (quote "id") ++ [0x3A]) := by decide +kernel
    have hclose : Utf8.encode "\x7d" = [0x7D] ++ [] := by decide +kernel
    simp only [writeMembers, Utf8.encode_append, hopen, hnext, hclose, List.append_assoc]
    exact Spaced.empty |>.next _ |>.next _ |>.next _ |>.next _ |>.next _ |>.next _ |>.next _ |>.next _ |>.next _
  | pretty =>
    have hopen : Utf8.encode "\x7b\n  \"name\": " =
        [0x7B] ++ ([0x0A, 0x20, 0x20] ++ (Utf8.encode (quote "name") ++ ([0x3A] ++ [0x20]))) := by decide +kernel
    have hnext : Utf8.encode ",\n  \"id\": " =
        [0x2C] ++ ([0x0A, 0x20, 0x20] ++ (Utf8.encode (quote "id") ++ ([0x3A] ++ [0x20]))) := by decide +kernel
    have hclose : Utf8.encode "\n\x7d" = [0x0A] ++ ([0x7D] ++ []) := by decide +kernel
    simp only [writeMembers, Utf8.encode_append, hopen, hnext, hclose, List.append_assoc]
    have hline : ∀ b ∈ [0x0A, 0x20, 0x20], Scan.isBlank b = true := by simp [Scan.isBlank]
    have hspace : ∀ b ∈ [0x20], Scan.isBlank b = true := by simp [Scan.isBlank]
    have hend : ∀ b ∈ [0x0A], Scan.isBlank b = true := by simp [Scan.isBlank]
    exact Spaced.empty |>.after hend _ |>.after hspace _ |>.next _ |>.after hline _ |>.next _ |>.after hspace _
      |>.next _ |>.after hline _ |>.next _

theorem readsBack_jsonCodec : jsonCodec.ReadsBack := by
  intro style name id
  exact readMembers_of_object (object_writeMembers style name id)

theorem readsLines_jsonCodec : jsonCodec.ReadsLines := by
  intro style name id
  obtain ⟨pieces, hpieces, hspaced⟩ := object_writeMembers style name id
  have hend : ∀ b ∈ Utf8.encode "\n", Scan.isBlank b = true := by
    rw [show Utf8.encode "\n" = [0x0A] by decide +kernel]
    simp [Scan.isBlank]
  refine readMembers_of_object ⟨pieces, hpieces, ?_⟩
  rw [show jsonCodec.write = writeMembers from rfl, Utf8.encode_append]
  exact hspaced.append_blanks hend

end Person

end CborRecords
