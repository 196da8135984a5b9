import CborRecords.Proofs.Hex
import CborRecords.Proofs.Printing

/-!
# Lines of notation

The notation of a byte string has a line for each of its items. What stands on the line is the rendering of
the item's tree, and whatever is in it, also in a text or a number, stays on the line.

* `Notation.OneLine` : no line ends in the characters; `Tree.oneLine_chars` : nor does one in a tree;
* `Notation.format_of_sequence`, `Notation.format_of_higher` : the notation of a sequence of items;
* `Notation.formats_exactly_sequences` : the byte strings that have a notation, and its lines.
-/

namespace CborRecords

/-! ## One line for a tree -/

namespace Notation

/-- No line ends in the characters. -/
def OneLine (chars : List Char) : Prop :=
  '\n' ∉ chars

instance (chars : List Char) : Decidable (OneLine chars) :=
  inferInstanceAs (Decidable ('\n' ∉ chars))

theorem OneLine.append {a b : List Char} (ha : OneLine a) (hb : OneLine b) : OneLine (a ++ b) := by
  intro h
  rcases List.mem_append.1 h with h | h
  · exact ha h
  · exact hb h

theorem oneLine_flatMap {α : Type} {f : α → List Char} {xs : List α} (h : ∀ x ∈ xs, OneLine (f x)) :
    OneLine (xs.flatMap f) := by
  intro hmem
  obtain ⟨x, hx, hc⟩ := List.mem_flatMap.1 hmem
  exact h x hx hc

theorem oneLine_list {parts : List (List Char)} (h : ∀ part ∈ parts, OneLine part) :
    OneLine (list parts) := by
  unfold list
  induction parts with
  | nil => simp [OneLine]
  | cons part parts ih =>
    have hpart := h part (by simp)
    have hparts := ih fun p hp => h p (by simp [hp])
    by_cases hnil : parts = []
    · rw [hnil, List.intercalate_singleton]
      exact hpart
    · rw [List.intercalate_cons_of_ne_nil hnil]
      exact (hpart.append (by simp [OneLine])).append hparts

theorem ofNat_ne_newline {n : Nat} (h : 10 < n) : Char.ofNat n ≠ '\n' := by
  intro hc
  by_cases hv : n.isValidChar
  · have hval : n = 10 := by
      rw [Char.ofNat, dif_pos hv] at hc
      exact congrArg Char.toNat hc
    omega
  · rw [Char.ofNat, dif_neg hv] at hc
    cases hc

theorem oneLine_digits (n : Nat) : OneLine (Nat.toDigits 10 n) := by
  intro h
  exact absurd (Nat.isDigit_of_mem_toDigits (by decide) (by decide) h) (by decide)

theorem oneLine_toString_int (n : Int) : OneLine (toString n).toList := by
  cases n with
  | ofNat n =>
    show OneLine (toString n).toList
    rw [Printer.toList_toString]
    exact oneLine_digits n
  | negSucc n =>
    show OneLine ("-" ++ toString (n + 1)).toList
    rw [String.toList_append, Printer.toList_toString]
    exact OneLine.append (by simp [OneLine]) (oneLine_digits (n + 1))

theorem digit_ne_newline (n : Nat) : Hex.digit n ≠ '\n' := by
  unfold Hex.digit
  split <;> exact ofNat_ne_newline (by omega)

theorem oneLine_escape (c : Char) : OneLine (escape c) := by
  unfold escape OneLine
  split
  · decide
  split
  · decide
  split
  · decide
  split
  · decide
  split
  · decide
  split
  · have hhigh := digit_ne_newline (c.toNat / 16)
    have hlow := digit_ne_newline (c.toNat % 16)
    simp [hhigh.symm, hlow.symm]
  · rename_i hnewline _ _ _
    simpa using Ne.symm hnewline

theorem oneLine_hexadecimal {hex : HexCodec} (hhex : hex.Unspaced) (content : Bytes) :
    OneLine (hexadecimal hex content) := by
  have hdigits : OneLine (hex.encode content).toList := by
    intro h
    exact absurd (hhex content _ h) (by decide)
  exact OneLine.append (OneLine.append (by decide) hdigits) (by decide)

theorem oneLine_quoted (content : String) : OneLine (quoted content) := by
  have hinside : OneLine (content.toList.flatMap escape) := oneLine_flatMap fun c _ => oneLine_escape c
  exact OneLine.append (OneLine.append (a := ['"']) (by decide) hinside) (by decide)

theorem oneLine_chunks {α : Type} {f : α → List Char} (h : ∀ x, OneLine (f x)) (xs : List α) :
    OneLine (chunks (xs.map f)) := by
  refine OneLine.append (OneLine.append (by decide) (oneLine_list ?_)) (by decide)
  intro part hpart
  obtain ⟨x, -, rfl⟩ := List.mem_map.1 hpart
  exact h x

theorem oneLine_pairs {parts : List (List Char)} (h : ∀ part ∈ parts, OneLine part) :
    ∀ pair ∈ pairs parts, OneLine pair := by
  fun_induction pairs parts with
  | case1 key value rest ih =>
    rw [List.forall_mem_cons, List.forall_mem_cons] at h
    rw [List.forall_mem_cons]
    exact ⟨(h.1.append (by decide)).append h.2.1, ih h.2.2⟩
  | case2 rest => exact h

theorem oneLine_container {parts : List (List Char)} (h : ∀ part ∈ parts, OneLine part) (kind : Container)
    (definite : Bool) : OneLine (container kind definite parts) := by
  have hmark : OneLine (if definite then [] else ['_', ' ']) := by cases definite <;> decide
  cases kind with
  | array =>
    exact (OneLine.append (OneLine.append (a := ['[']) (by decide) hmark) (oneLine_list h)).append (by decide)
  | map =>
    exact (OneLine.append (OneLine.append (a := [Char.ofNat 0x7B]) (by decide) hmark)
      (oneLine_list (oneLine_pairs h))).append (by decide)

theorem oneLine_digitText (digits : List Nat) : OneLine (Layout.digitText digits).toList := by
  rw [Layout.digitText, String.toList_ofList]
  intro h
  obtain ⟨d, -, hd⟩ := List.mem_map.1 h
  exact ofNat_ne_newline (by omega) hd

theorem oneLine_positional (x : Decimal) : OneLine (Layout.positional x).toList := by
  unfold Layout.positional
  simp only [String.toList_append]
  refine (OneLine.append (oneLine_digitText _) (by decide)).append ?_
  split
  · decide
  · exact oneLine_digitText _

theorem oneLine_scientific (x : Decimal) : OneLine (float.scientific x).toList := by
  unfold Layout.scientific
  simp only [String.toList_append]
  refine ((OneLine.append (oneLine_digitText _) ?_).append ?_).append (oneLine_toString_int _)
  · split
    · decide
    · rw [String.toList_append]
      exact OneLine.append (by decide) (oneLine_digitText _)
  · split <;> decide

theorem oneLine_number (x : Double) : OneLine (number x) := by
  unfold number
  split
  · decide
  · decide
  · decide
  · rename_i negative significand exponent _
    rw [Layout.write, String.toList_append]
    refine OneLine.append (by split <;> decide) ?_
    split
    · decide
    · unfold Layout.positive
      split
      · exact oneLine_positional _
      · exact oneLine_scientific _

end Notation

namespace Tree
open Notation (OneLine)

mutual

/-- No line ends in the notation of a tree. -/
theorem oneLine_chars {hex : HexCodec} (hhex : hex.Unspaced) (t : Tree) : OneLine (t.chars hex) := by
  cases t with
  | unsigned n => exact Notation.oneLine_digits _
  | negative n => exact OneLine.append (a := ['-']) (by decide) (Notation.oneLine_digits _)
  | bytes content => exact Notation.oneLine_hexadecimal hhex content
  | byteChunks contents => exact Notation.oneLine_chunks (Notation.oneLine_hexadecimal hhex) contents
  | text content => exact Notation.oneLine_quoted content
  | textChunks contents => exact Notation.oneLine_chunks Notation.oneLine_quoted contents
  | container kind definite items =>
    exact Notation.oneLine_container (oneLine_charsAll hhex items) kind definite
  | bool b =>
    cases b with
    | false => exact (by decide : OneLine "false".toList)
    | true => exact (by decide : OneLine "true".toList)
  | null => exact (by decide : OneLine "null".toList)
  | undefined => exact (by decide : OneLine "undefined".toList)
  | simple v => exact (OneLine.append (by decide) (Notation.oneLine_digits _)).append (by decide)
  | float x => exact Notation.oneLine_number x
  | tagged n inner =>
    exact (OneLine.append (Notation.oneLine_digits _)
      (OneLine.append (a := ['(']) (by decide) (oneLine_chars hhex inner))).append (by decide)

theorem oneLine_charsAll {hex : HexCodec} (hhex : hex.Unspaced) (items : List Tree) :
    ∀ part ∈ charsAll hex items, OneLine part := by
  cases items with
  | nil => exact nofun
  | cons t items =>
    rw [charsAll, List.forall_mem_cons]
    exact ⟨oneLine_chars hhex t, oneLine_charsAll hhex items⟩

end

end Tree

/-! ## The notation of a byte string -/

namespace Notation
variable {hex : HexCodec} {data : Bytes} {items : List (Tree × Bytes)}

theorem format_of_sequence (h : Tree.Sequence items data) (hdata : data.length < 0x10000000000000000)
    (hheight : ∀ i ∈ items, i.1.height ≤ 16) :
    formatWith hex data = .ok (String.ofList (['\n'].intercalate (items.map fun i => i.1.chars hex))) := by
  rw [formatWith_eq, maxHeight, Tree.readAll_of_sequence h hdata hheight]
  dsimp only [Except.map]
  rw [List.map_map]
  rfl

theorem format_of_higher (h : Tree.Sequence items data) (hdata : data.length < 0x10000000000000000)
    (hhigher : ∃ i ∈ items, 16 < i.1.height) : formatWith hex data = .error .maxRecursion := by
  rw [formatWith_eq, maxHeight, Tree.readAll_of_higher h hdata hhigher]
  rfl

theorem exists_sequence_of_format (hdata : data.length < 0x10000000000000000) {text : String}
    (h : formatWith hex data = .ok text) : ∃ items, Tree.Sequence items data ∧ ∀ i ∈ items, i.1.height ≤ 16 := by
  rw [formatWith_eq, maxHeight] at h
  rcases hread : Tree.readAll 16 data with e | trees
  · rw [hread] at h
    cases h
  · obtain ⟨items, hitems, hheight, -⟩ := (Tree.readAll_eq_ok_iff hdata).1 hread
    exact ⟨items, hitems, hheight⟩

/-- A notation consists of the lines of the items, whichever way these were found. -/
theorem text_of_format (hdata : data.length < 0x10000000000000000) {text : String}
    (h : formatWith hex data = .ok text) (hitems : Tree.Sequence items data) :
    text = String.ofList (['\n'].intercalate (items.map fun i => i.1.chars hex)) := by
  have hheight : ∀ i ∈ items, i.1.height ≤ 16 := by
    intro i hi
    by_contra hhigh
    rw [format_of_higher hitems hdata ⟨i, hi, Nat.not_le.1 hhigh⟩] at h
    cases h
  rw [format_of_sequence hitems hdata hheight] at h
  exact (Except.ok.inj h).symm

/-- Printing is reading all trees and rendering them afterwards, on every byte string. So a byte string has a
notation exactly when it is a sequence of well-formed items of which none is higher than sixteen. The notation
then consists of the renderings of the items' trees, with the end of a line between them; and no line ends in
one of them, with digits that have no blanks. Of a sequence of well-formed items that holds a higher one it is
said that it goes down too far. -/
theorem formats_exactly_sequences (hex : HexCodec) (data : Bytes) :
    formatWith hex data = (Tree.readAll 16 data).map (fun trees =>
      String.ofList (['\n'].intercalate (trees.map (Tree.chars hex)))) ∧
    (data.length < 0x10000000000000000 →
      ((∃ text, formatWith hex data = .ok text) ↔
        ∃ items, Tree.Sequence items data ∧ ∀ i ∈ items, i.1.height ≤ 16) ∧
      ∀ items, Tree.Sequence items data →
        (∀ text, formatWith hex data = .ok text →
          text.toList = ['\n'].intercalate (items.map fun i => i.1.chars hex) ∧
          (hex.Unspaced → (∀ i ∈ items, '\n' ∉ i.1.chars hex) ∧
            (items ≠ [] → text.toList.splitOn '\n' = items.map fun i => i.1.chars hex))) ∧
        ((∃ i ∈ items, 16 < i.1.height) → formatWith hex data = .error .maxRecursion)) := by
  refine ⟨formatWith_eq hex data, fun hdata => ⟨⟨?_, ?_⟩, ?_⟩⟩
  · rintro ⟨text, htext⟩
    exact exists_sequence_of_format hdata htext
  · rintro ⟨items, hitems, hheight⟩
    exact ⟨_, format_of_sequence hitems hdata hheight⟩
  · intro items hitems
    refine ⟨?_, format_of_higher hitems hdata⟩
    intro text htext
    rw [text_of_format hdata htext hitems, String.toList_ofList]
    refine ⟨rfl, fun hhex => ⟨fun i _ => i.1.oneLine_chars hhex, ?_⟩⟩
    intro hne
    have hlines : ∀ line ∈ items.map fun i => i.1.chars hex, '\n' ∉ line := by
      intro line hline
      obtain ⟨i, -, rfl⟩ := List.mem_map.1 hline
      exact i.1.oneLine_chars hhex
    exact List.splitOn_intercalate _ hlines (by simpa using hne)

/-- A tagged array of indefinite length, with a map in it that holds the byte of a line end, and behind it a
byte string are two items and two lines. -/
theorem array_and_bytes_on_two_lines :
    let data : Bytes := [0xC1, 0x9F, 0xA1, 0x20, 0x41, 0x0A, 0xF6, 0xFF, 0x41, 0x2A]
    data.length < 0x10000000000000000 ∧
      format data = .ok "1([_ \x7b-1: h'0a'\x7d, null])\nh'2a'" ∧
      ∃ first second, Tree.Sequence [first, second] data ∧ first.1.height ≤ 16 ∧
        first.1.chars Hex.codec = "1([_ \x7b-1: h'0a'\x7d, null])".toList ∧
        second.1.chars Hex.codec = "h'2a'".toList := by
  intro data
  have hdata : data.length < 0x10000000000000000 := by decide
  have hformat : format data = .ok "1([_ \x7b-1: h'0a'\x7d, null])\nh'2a'" := by
    have hread : Tree.readAll 16 data = .ok [.tagged 1 (.container .array false
        [.container .map true [.negative 0, .bytes [0x0A]], .null]), .bytes [0x2A]] := by cbv
    rw [format, formatWith_eq, maxHeight, hread]
    rfl
  obtain ⟨hexact, hlines⟩ := (formats_exactly_sequences Hex.codec data).2 hdata
  obtain ⟨items, hitems, hheight⟩ := hexact.1 ⟨_, hformat⟩
  obtain ⟨-, hsplit⟩ := ((hlines items hitems).1 _ hformat).2 Hex.unspaced_codec
  have hne : items ≠ [] := by
    rintro rfl
    exact absurd hitems.1 (by decide)
  have hsplitted : (items.map fun i => i.1.chars Hex.codec) =
      ["1([_ \x7b-1: h'0a'\x7d, null])".toList, "h'2a'".toList] := (hsplit hne).symm.trans (by decide)
  obtain ⟨first, rest, rfl, hfirst, hrest⟩ := List.map_eq_cons_iff.1 hsplitted
  obtain ⟨second, rest, rfl, hsecond, hnil⟩ := List.map_eq_cons_iff.1 hrest
  obtain rfl := List.map_eq_nil_iff.1 hnil
  exact ⟨hdata, hformat, first, second, hitems, hheight first (List.mem_cons_self ..), hfirst, hsecond⟩

end Notation

end CborRecords
