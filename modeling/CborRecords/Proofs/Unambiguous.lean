import CborRecords.Proofs.Lines

/-!
# Notation is unambiguous

What stands in the notation of a byte string can be read in one way only: whatever is in a text or a byte
string, it is not taken for the notation around it. There is one exception, since a string of no chunks does
not show whether it is a byte string or a text.

* `Notation.PrefixFree` : texts that can be told from the front of a longer one; those of a character
  (`Notation.prefixFree_escape`), a quoted text and a byte string (`Notation.prefixFree_hexadecimal`) are;
* `Notation.Closes`, `Notation.Ends` : what follows a tree, and what follows the last tree of a container;
* `Notation.joined_inj` : parts with separators between them are told apart;
* `Tree.visible` : what the notation shows of a tree, `Tree.FloatFree` : there is no float in it;
* `Tree.FloatFree.shows` : the notation of a tree is told from what follows it, and shows the tree;
* `Notation.format_eq_iff_visible` : byte strings with one notation have the same trees, up to the exception.
-/

namespace CborRecords

variable {hex : HexCodec}

namespace Notation

/-! ## Characters and strings -/

/-- Wherever a text starts with what stands for `x`, it is told that this is `x`, and what follows it. -/
def PrefixFree {α : Type} (f : α → List Char) : Prop :=
  ∀ x y r r', f x ++ r = f y ++ r' → x = y ∧ r = r'

/-- Characters that stand for things in turn, up to a delimiter that none of them starts with. -/
theorem PrefixFree.flatMap {α : Type} {f : α → List Char} (hf : PrefixFree f) {stop : Char}
    (hstop : ∀ x, ∃ c cs, f x = c :: cs ∧ c ≠ stop) :
    PrefixFree fun xs : List α => xs.flatMap f ++ [stop] := by
  intro xs
  induction xs with
  | nil =>
    intro ys r r' h
    cases ys with
    | nil => exact ⟨rfl, by simpa using h⟩
    | cons y ys =>
      obtain ⟨c, cs, hy, hc⟩ := hstop y
      simp only [List.flatMap_nil, List.flatMap_cons, hy, List.nil_append, List.cons_append,
        List.cons.injEq] at h
      exact absurd h.1.symm hc
  | cons x xs ih =>
    intro ys r r' h
    cases ys with
    | nil =>
      obtain ⟨c, cs, hx, hc⟩ := hstop x
      simp only [List.flatMap_nil, List.flatMap_cons, hx, List.nil_append, List.cons_append,
        List.cons.injEq] at h
      exact absurd h.1 hc
    | cons y ys =>
      simp only [List.flatMap_cons, List.append_assoc] at h ih
      obtain ⟨rfl, htail⟩ := hf x y _ _ h
      obtain ⟨rfl, rfl⟩ := ih ys r r' htail
      exact ⟨rfl, rfl⟩

theorem PrefixFree.cons {α : Type} {f : α → List Char} (hf : PrefixFree f) (front : List Char) :
    PrefixFree fun x => front ++ f x := by
  intro x y r r' h
  simp only [List.append_assoc, List.append_cancel_left_eq] at h
  exact hf x y r r' h

theorem digit_inj {m n : Nat} (hm : m < 16) (hn : n < 16) (h : Hex.digit m = Hex.digit n) : m = n := by
  have hall : ∀ i < 16, ∀ j < 16, Hex.digit i = Hex.digit j → i = j := by decide
  exact hall m hm n hn h

/-- What stands in front of the first delimiter is told from what follows it. -/
theorem append_stop_inj {stop : Char} {x y r r' : List Char} (hx : stop ∉ x) (hy : stop ∉ y)
    (h : x ++ stop :: r = y ++ stop :: r') : x = y ∧ r = r' := by
  induction x generalizing y with
  | nil =>
    cases y with
    | nil => exact ⟨rfl, (List.cons.inj h).2⟩
    | cons c y => exact absurd (List.mem_cons.2 (.inl (List.cons.inj h).1)) hy
  | cons c x ih =>
    rw [List.mem_cons, not_or] at hx
    cases y with
    | nil => exact absurd (List.cons.inj h).1.symm hx.1
    | cons c' y =>
      rw [List.mem_cons, not_or] at hy
      obtain ⟨rfl, htail⟩ := List.cons.inj h
      obtain ⟨rfl, rfl⟩ := ih hx.2 hy.2 htail
      exact ⟨rfl, rfl⟩

/-- Digits that are read back, with no apostrophe among them, tell the byte string and where it ends. -/
theorem prefixFree_hexadecimal {hex : HexCodec} (hback : hex.ReadsBack) (hunquoted : hex.Unquoted) :
    PrefixFree (hexadecimal hex) := by
  intro x y r r' h
  simp only [hexadecimal, List.append_assoc, List.append_cancel_left_eq, List.singleton_append] at h
  obtain ⟨hdigits, hrest⟩ := append_stop_inj (hunquoted x) (hunquoted y) h
  have hread : Except.ok x = (Except.ok y : Except Hex.Fault Bytes) := by
    rw [← hback x, ← hback y, String.toList_inj.1 hdigits]
  exact ⟨Except.ok.inj hread, hrest⟩

/-- The characters with an escape of one letter, and the letter. -/
def letterEscapes : List (Char × Char) :=
  [('"', '"'), ('\\', '\\'), ('\n', 'n'), ('\r', 'r'), ('\t', 't')]

/-- A character stands as it is, with its letter, or with its code point. -/
theorem escape_cases (c : Char) :
    (escape c = [c] ∧ c ≠ '\\' ∧ c ≠ '"') ∨
    (∃ letter, escape c = ['\\', letter] ∧ (c, letter) ∈ letterEscapes) ∨
    (c.toNat < 256 ∧
      escape c = ['\\', 'u', '0', '0', Hex.digit (c.toNat / 16), Hex.digit (c.toNat % 16)]) := by
  unfold escape
  split
  · rename_i h
    exact .inr (.inl ⟨_, rfl, by simp [h, letterEscapes]⟩)
  split
  · rename_i h
    exact .inr (.inl ⟨_, rfl, by simp [h, letterEscapes]⟩)
  split
  · rename_i h
    exact .inr (.inl ⟨_, rfl, by simp [h, letterEscapes]⟩)
  split
  · rename_i h
    exact .inr (.inl ⟨_, rfl, by simp [h, letterEscapes]⟩)
  split
  · rename_i h
    exact .inr (.inl ⟨_, rfl, by simp [h, letterEscapes]⟩)
  split
  · rename_i h
    simp only [isControl, Bool.or_eq_true, decide_eq_true_eq, Bool.and_eq_true] at h
    exact .inr (.inr ⟨by omega, rfl⟩)
  · rename_i hquote hback _ _ _ _
    exact .inl ⟨rfl, hback, hquote⟩

theorem escape_starts (c : Char) : ∃ d ds, escape c = d :: ds ∧ d ≠ '"' := by
  rcases escape_cases c with ⟨hc, -, hquote⟩ | ⟨letter, hc, -⟩ | ⟨-, hc⟩
  · exact ⟨_, _, hc, hquote⟩
  · exact ⟨_, _, hc, by decide⟩
  · exact ⟨_, _, hc, by decide⟩

theorem prefixFree_escape : PrefixFree escape := by
  have hletter : ∀ p ∈ letterEscapes, ∀ q ∈ letterEscapes, p.2 = q.2 → p.1 = q.1 := by simp [letterEscapes]
  have hnumber : ∀ p ∈ letterEscapes, p.2 ≠ 'u' := by simp [letterEscapes]
  intro c d r r' h
  rcases escape_cases c with ⟨hc, hback, -⟩ | ⟨letter, hc, hm⟩ | ⟨hlt, hc⟩ <;>
    rcases escape_cases d with ⟨hd, hback', -⟩ | ⟨letter', hd, hm'⟩ | ⟨hlt', hd⟩ <;>
    simp only [hc, hd, List.cons_append, List.nil_append, List.cons.injEq, true_and] at h
  · exact h
  · exact absurd h.1 hback
  · exact absurd h.1 hback
  · exact absurd h.1.symm hback'
  · exact ⟨hletter _ hm _ hm' h.1, h.2⟩
  · exact absurd h.1 (hnumber _ hm)
  · exact absurd h.1.symm hback'
  · exact absurd h.1.symm (hnumber _ hm')
  · obtain ⟨hhigh, hlow, hr⟩ := h
    have hdiv := digit_inj (by omega) (by omega) hhigh
    have hmod := digit_inj (by omega) (by omega) hlow
    exact ⟨Char.toNat_inj.1 (by omega), hr⟩

theorem prefixFree_quoted : PrefixFree quoted := by
  intro x y r r' h
  have hinside := (prefixFree_escape.flatMap escape_starts).cons ['"'] x.toList y.toList r r'
    (by simpa [quoted] using h)
  exact ⟨String.toList_inj.1 hinside.1, hinside.2⟩

/-! ## Numbers and parts -/

/-- The characters that follow a tree. -/
def delimiters : List Char :=
  [',', ':', '\n', ')', ']', Char.ofNat 0x7D]

/-- What follows a tree: nothing, or a character that the notation of no tree goes on with. -/
def Closes (rest : List Char) : Prop :=
  ∀ c ∈ rest.head?, c ∈ delimiters

/-- What follows the last of several trees: nothing, or the end of a container. -/
def Ends (rest : List Char) : Prop :=
  ∀ c ∈ rest.head?, c ∈ [')', ']', Char.ofNat 0x7D]

theorem Ends.closes {rest : List Char} (h : Ends rest) : Closes rest := by
  have hall : ∀ c ∈ [')', ']', Char.ofNat 0x7D], c ∈ delimiters := by simp [delimiters]
  intro c hc
  exact hall c (h c hc)

theorem Closes.not_digit {rest : List Char} (h : Closes rest) : ∀ c ∈ rest.head?, c.isDigit = false := by
  have hall : ∀ c ∈ delimiters, c.isDigit = false := by simp [delimiters]
  intro c hc
  exact hall c (h c hc)

theorem Closes.ne_bracket {rest : List Char} (h : Closes rest) (inner : List Char) : rest ≠ '(' :: inner := by
  rintro rfl
  have hmem := h '(' rfl
  simp [delimiters] at hmem

theorem decimal_append_inj {m n : Nat} {r r' : List Char} (hr : ∀ c ∈ r.head?, c.isDigit = false)
    (hr' : ∀ c ∈ r'.head?, c.isDigit = false) (h : decimal m ++ r = decimal n ++ r') : m = n ∧ r = r' := by
  have hsplit (n : Nat) {r : List Char} (hr : ∀ c ∈ r.head?, c.isDigit = false) :
      (decimal n ++ r).takeWhile Char.isDigit = decimal n := by
    have hdigits : ∀ c ∈ decimal n, c.isDigit = true := fun c hc =>
      Nat.isDigit_of_mem_toDigits (by decide) (by decide) hc
    have hnone : r.takeWhile Char.isDigit = [] := by
      cases r with
      | nil => rfl
      | cons c r => rw [List.takeWhile_cons_of_neg (by simp [hr c rfl])]
    rw [List.takeWhile_append_of_pos hdigits, hnone, List.append_nil]
  have hdigits : decimal m = decimal n := by
    rw [← hsplit m hr, h, hsplit n hr']
  rw [hdigits, List.append_cancel_left_eq] at h
  have hvalue := congrArg (fun digits => Nat.ofDigitChars 10 digits 0) hdigits
  exact ⟨by simpa [decimal] using hvalue, h⟩

/-- A separator starts with a character that ends no container. -/
def Separates (sep : List Char) : Prop :=
  ∃ c cs, sep = c :: cs ∧ c ∈ [',', ':', '\n']

section Joined
variable {α β : Type} {f : α → List Char} {view : α → β} {xs ys : List α} {sep other r r' : List Char}

theorem Ends.closes_following (h : Ends r) (hsep : Separates sep) (parts : List (List Char)) :
    Closes (following sep other parts ++ r) := by
  cases parts with
  | nil => exact h.closes
  | cons part parts =>
    have hall : ∀ c ∈ [',', ':', '\n'], c ∈ delimiters := by simp [delimiters]
    obtain ⟨c, cs, rfl, hc⟩ := hsep
    intro d hd
    obtain rfl : c = d := by simpa [following] using hd
    exact hall c hc

theorem Ends.ne_separated (h : Ends r) (hsep : Separates sep) (rest : List Char) : r ≠ sep ++ rest := by
  have hall : ∀ c ∈ [',', ':', '\n'], c ∉ [')', ']', Char.ofNat 0x7D] := by simp
  obtain ⟨c, cs, rfl, hc⟩ := hsep
  rintro rfl
  exact hall c hc (h c rfl)

/-- What is to be known of the notations of single things: each is told from what follows it and shows the
view of the thing. -/
def Shows (f : α → List Char) (view : α → β) (x y : α) : Prop :=
  ∀ r r', Closes r → Closes r' → f x ++ r = f y ++ r' → view x = view y ∧ r = r'

theorem following_inj (hf : ∀ x ∈ xs, ∀ y ∈ ys, Shows f view x y) (hsep : Separates sep)
    (hother : Separates other) (hr : Ends r) (hr' : Ends r')
    (h : following sep other (xs.map f) ++ r = following sep other (ys.map f) ++ r') :
    xs.map view = ys.map view ∧ r = r' := by
  induction xs generalizing ys sep other with
  | nil =>
    cases ys with
    | nil => exact ⟨rfl, h⟩
    | cons y ys =>
      rw [List.map_cons, following, List.append_assoc] at h
      exact absurd h (hr.ne_separated hsep _)
  | cons x xs ih =>
    cases ys with
    | nil =>
      rw [List.map_cons, following, List.append_assoc] at h
      exact absurd h.symm (hr'.ne_separated hsep _)
    | cons y ys =>
      simp only [List.map_cons, following, List.append_assoc, List.append_cancel_left_eq] at h
      obtain ⟨hview, h⟩ := hf x (by simp) y (by simp) _ _ (hr.closes_following hother _)
        (hr'.closes_following hother _) h
      obtain ⟨hviews, rfl⟩ := ih (fun a ha b hb => hf a (by simp [ha]) b (by simp [hb])) hother hsep h
      exact ⟨by rw [List.map_cons, List.map_cons, hview, hviews], rfl⟩

/-- The notation of a thing starts with none of the characters that follow one. -/
def Begins (f : α → List Char) (x : α) : Prop :=
  ∃ c cs, f x = c :: cs ∧ c ∉ delimiters

theorem Closes.ne_begun {x : α} (h : Closes r) (hx : Begins f x) (rest : List Char) : r ≠ f x ++ rest := by
  obtain ⟨c, cs, hx, hc⟩ := hx
  rw [hx]
  rintro rfl
  exact hc (h c rfl)

theorem joined_inj (hf : ∀ x ∈ xs, ∀ y ∈ ys, Shows f view x y) (hxs : ∀ x ∈ xs, Begins f x)
    (hys : ∀ y ∈ ys, Begins f y) (hsep : Separates sep) (hother : Separates other) (hr : Ends r)
    (hr' : Ends r') (h : joined sep other (xs.map f) ++ r = joined sep other (ys.map f) ++ r') :
    xs.map view = ys.map view ∧ r = r' := by
  cases xs with
  | nil =>
    cases ys with
    | nil => exact ⟨rfl, h⟩
    | cons y ys =>
      rw [List.map_cons, joined, List.append_assoc] at h
      exact absurd h (hr.closes.ne_begun (hys y (by simp)) _)
  | cons x xs =>
    cases ys with
    | nil =>
      rw [List.map_cons, joined, List.append_assoc] at h
      exact absurd h.symm (hr'.closes.ne_begun (hxs x (by simp)) _)
    | cons y ys =>
      simp only [List.map_cons, joined, List.append_assoc] at h
      obtain ⟨hview, h⟩ := hf x (by simp) y (by simp) _ _ (hr.closes_following hsep _)
        (hr'.closes_following hsep _) h
      obtain ⟨hviews, rfl⟩ :=
        following_inj (fun a ha b hb => hf a (by simp [ha]) b (by simp [hb])) hsep hother hr hr' h
      exact ⟨by rw [List.map_cons, List.map_cons, hview, hviews], rfl⟩

end Joined

/-! ## Containers -/

theorem separates_separator (kind : Container) : Separates (separator kind) := by
  cases kind with
  | array => exact ⟨',', [' '], rfl, by simp⟩
  | map => exact ⟨':', [' '], rfl, by simp⟩

theorem separates_comma : Separates [',', ' '] :=
  separates_separator .array

theorem ends_closing (kind : Container) (rest : List Char) : Ends (closing kind :: rest) := by
  intro c hc
  obtain rfl : closing kind = c := by simpa using hc
  cases kind <;> simp [closing]

theorem ends_paren (rest : List Char) : Ends (')' :: rest) := by
  intro c hc
  obtain rfl : ')' = c := by simpa using hc
  simp

theorem chunks_append (parts : List (List Char)) (r : List Char) :
    chunks parts ++ r = ['(', '_', ' '] ++ (joined [',', ' '] [',', ' '] parts ++ ')' :: r) := by
  rw [chunks, list, intercalate_eq_joined]
  simp

theorem PrefixFree.shows {α : Type} {f : α → List Char} (hf : PrefixFree f) (x y : α) : Shows f id x y :=
  fun r r' _ _ h => hf x y r r' h

theorem chunks_append_inj {α : Type} {f : α → List Char} (hf : PrefixFree f) (hbegins : ∀ x, Begins f x)
    {xs ys : List α} {r r' : List Char} (h : chunks (xs.map f) ++ r = chunks (ys.map f) ++ r') :
    xs = ys ∧ r = r' := by
  rw [chunks_append, chunks_append, List.append_cancel_left_eq] at h
  have hshows : ∀ x ∈ xs, ∀ y ∈ ys, Shows f id x y := fun x _ y _ => hf.shows x y
  obtain ⟨hview, hrest⟩ := joined_inj hshows (fun x _ => hbegins x)
    (fun y _ => hbegins y) separates_comma separates_comma (ends_paren r) (ends_paren r') h
  exact ⟨by simpa using hview, (List.cons.inj hrest).2⟩

theorem begins_hexadecimal (content : Bytes) : Begins (hexadecimal hex) content :=
  ⟨'h', _, rfl, by simp [delimiters]⟩

theorem begins_quoted (content : String) : Begins quoted content :=
  ⟨'"', _, rfl, by simp [delimiters]⟩

/-- The chunks of a byte string are told from those of a text, if there is one. -/
theorem chunks_of_both {xs : List Bytes} {ys : List String} {r r' : List Char}
    (h : chunks (xs.map (hexadecimal hex)) ++ r = chunks (ys.map quoted) ++ r') : xs = [] ∧ ys = [] ∧ r = r' := by
  rw [chunks_append, chunks_append, List.append_cancel_left_eq] at h
  cases xs with
  | nil =>
    cases ys with
    | nil => exact ⟨rfl, rfl, (List.cons.inj h).2⟩
    | cons y ys => cases (List.cons.inj h).1
  | cons x xs =>
    cases ys with
    | nil => cases (List.cons.inj h).1
    | cons y ys => cases (List.cons.inj h).1

/-- The underscore of an indefinite length is told from what follows it, if that does not start with one. -/
theorem mark_append_inj {definite definite' : Bool} {x y : List Char} (hx : x.head? ≠ some '_')
    (hy : y.head? ≠ some '_') (h : Tree.mark definite ++ x = Tree.mark definite' ++ y) :
    definite = definite' ∧ x = y := by
  cases definite <;> cases definite' <;> simp only [Tree.mark, Bool.false_eq_true, if_true, if_false,
    List.nil_append, List.cons_append, List.cons.injEq, true_and] at h
  · exact ⟨rfl, h⟩
  · rw [← h] at hy
    exact absurd rfl hy
  · rw [h] at hx
    exact absurd rfl hx
  · exact ⟨rfl, h⟩

end Notation

/-! ## Trees -/

namespace Tree
open Notation

mutual

/-- What the notation shows of a tree: all of it, except that a text of no chunks looks like a byte string of
none. -/
def visible : Tree → Tree
  | .textChunks [] => .byteChunks []
  | .container kind definite items => .container kind definite (visibleAll items)
  | .tagged n inner => .tagged n inner.visible
  | t => t

/-- What the notation shows of trees, in order. -/
def visibleAll : List Tree → List Tree
  | [] => []
  | t :: rest => t.visible :: visibleAll rest

end

theorem visibleAll_eq (items : List Tree) : visibleAll items = items.map visible := by
  induction items with
  | nil => rfl
  | cons t rest ih => rw [visibleAll, ih, List.map_cons]

/-- There is no float in the tree. -/
inductive FloatFree : Tree → Prop
  | unsigned (n : UInt64) : FloatFree (.unsigned n)
  | negative (n : UInt64) : FloatFree (.negative n)
  | bytes (content : Bytes) : FloatFree (.bytes content)
  | byteChunks (contents : List Bytes) : FloatFree (.byteChunks contents)
  | text (content : String) : FloatFree (.text content)
  | textChunks (contents : List String) : FloatFree (.textChunks contents)
  | container {kind : Container} {definite : Bool} {items : List Tree} (h : ∀ t ∈ items, FloatFree t) :
      FloatFree (.container kind definite items)
  | bool (b : Bool) : FloatFree (.bool b)
  | null : FloatFree .null
  | undefined : FloatFree .undefined
  | simple (v : UInt8) : FloatFree (.simple v)
  | tagged {n : UInt64} {inner : Tree} (h : FloatFree inner) : FloatFree (.tagged n inner)

/-- The forms of trees that the first character of the notation tells apart. -/
inductive Form
  | number
  | negative
  | bytes
  | text
  | chunks
  | container (kind : Container)
  | bool (b : Bool)
  | null
  | undefined
  | simple
  | float

/-- The form of a tree. -/
def form : Tree → Form
  | .unsigned _ | .tagged _ _ => .number
  | .negative _ => .negative
  | .bytes _ => .bytes
  | .text _ => .text
  | .byteChunks _ | .textChunks _ => .chunks
  | .container kind _ _ => .container kind
  | .bool b => .bool b
  | .null => .null
  | .undefined => .undefined
  | .simple _ => .simple
  | .float _ => .float

/-- The first characters of notations that start with no digit. -/
def faces : List (Char × Form) :=
  [('-', .negative), ('h', .bytes), ('"', .text), ('(', .chunks), ('[', .container .array),
    (Char.ofNat 0x7B, .container .map), ('f', .bool false), ('t', .bool true), ('n', .null), ('u', .undefined),
    ('s', .simple)]

/-- The character starts the notation of a tree of the form. -/
def Form.Faces (form : Form) (c : Char) : Prop :=
  (c.isDigit = true ∧ form = .number) ∨ (c, form) ∈ faces

theorem Form.Faces.unique {form form' : Form} {c : Char} (h : form.Faces c) (h' : form'.Faces c) :
    form = form' := by
  have hdigit : ∀ p ∈ faces, p.1.isDigit = false := by simp [faces]
  have hchar : ∀ p ∈ faces, ∀ q ∈ faces, p.1 = q.1 → p.2 = q.2 := by simp [faces]
  rcases h with ⟨hc, rfl⟩ | hc <;> rcases h' with ⟨hc', rfl⟩ | hc'
  · rfl
  · rw [hdigit _ hc'] at hc
    cases hc
  · rw [hdigit _ hc] at hc'
    cases hc'
  · exact hchar _ hc _ hc' rfl

theorem decimal_starts (n : Nat) : ∃ c cs, decimal n = c :: cs ∧ Form.Faces .number c := by
  obtain ⟨c, cs, h⟩ := List.exists_cons_of_ne_nil (Nat.toDigits_ne_nil (n := n) (b := 10))
  refine ⟨c, cs, h, .inl ⟨?_, rfl⟩⟩
  exact Nat.isDigit_of_mem_toDigits (n := n) (by decide) (by decide) (h ▸ List.mem_cons_self ..)

/-- The first character of the notation of a tree tells its form. -/
theorem FloatFree.exists_face (hex : HexCodec) {t : Tree} (h : t.FloatFree) :
    ∃ c cs, t.chars hex = c :: cs ∧ t.form.Faces c := by
  cases h with
  | unsigned n => exact decimal_starts n.toNat
  | @tagged n inner h =>
    obtain ⟨c, cs, hn, hc⟩ := decimal_starts n.toNat
    refine ⟨c, cs ++ '(' :: inner.chars hex ++ [')'], ?_, hc⟩
    show decimal n.toNat ++ '(' :: inner.chars hex ++ [')'] = _
    rw [hn]
    rfl
  | negative n => exact ⟨'-', _, rfl, .inr (by simp [faces, form])⟩
  | bytes content => exact ⟨'h', _, rfl, .inr (by simp [faces, form])⟩
  | byteChunks contents => exact ⟨'(', _, rfl, .inr (by simp [faces, form])⟩
  | text content => exact ⟨'"', _, rfl, .inr (by simp [faces, form])⟩
  | textChunks contents => exact ⟨'(', _, rfl, .inr (by simp [faces, form])⟩
  | @container kind definite items h =>
    cases kind with
    | array => exact ⟨'[', _, rfl, .inr (by simp [faces, form])⟩
    | map => exact ⟨Char.ofNat 0x7B, _, rfl, .inr (by simp [faces, form])⟩
  | bool b =>
    cases b with
    | false => exact ⟨'f', "alse".toList, rfl, .inr (by simp [faces, form])⟩
    | true => exact ⟨'t', "rue".toList, rfl, .inr (by simp [faces, form])⟩
  | null => exact ⟨'n', "ull".toList, rfl, .inr (by simp [faces, form])⟩
  | undefined => exact ⟨'u', "ndefined".toList, rfl, .inr (by simp [faces, form])⟩
  | simple v => exact ⟨'s', "imple(".toList ++ decimal v.toNat ++ [')'], rfl, .inr (by simp [faces, form])⟩

theorem Form.Faces.not_delimiter {form : Form} {c : Char} (h : form.Faces c) : c ∉ delimiters ∧ c ≠ '_' := by
  rcases h with ⟨hc, -⟩ | hc
  · constructor
    · intro hmem
      simp only [delimiters, List.mem_cons, List.not_mem_nil, or_false] at hmem
      rcases hmem with rfl | rfl | rfl | rfl | rfl | rfl <;> cases hc
    · rintro rfl
      cases hc
  · simp only [faces, List.mem_cons, Prod.mk.injEq, List.not_mem_nil, or_false] at hc
    rcases hc with h | h | h | h | h | h | h | h | h | h | h <;>
      (obtain ⟨rfl, -⟩ := h; simp [delimiters])

theorem FloatFree.begins {t : Tree} (h : t.FloatFree) : Begins (chars hex) t := by
  obtain ⟨c, cs, hchars, hface⟩ := h.exists_face hex
  exact ⟨c, cs, hchars, hface.not_delimiter.1⟩

theorem FloatFree.form_eq {t t' : Tree} (h : t.FloatFree) (h' : t'.FloatFree) {r r' : List Char}
    (he : t.chars hex ++ r = t'.chars hex ++ r') : t.form = t'.form := by
  obtain ⟨c, cs, hchars, hface⟩ := h.exists_face hex
  obtain ⟨c', cs', hchars', hface'⟩ := h'.exists_face hex
  rw [hchars, hchars'] at he
  obtain rfl : c = c' := (List.cons.inj he).1
  exact hface.unique hface'

/-- The items of a container do not start with an underscore. -/
theorem head_joined_ne_mark {items : List Tree} (h : ∀ t ∈ items, t.FloatFree) (kind : Container)
    (r : List Char) :
    (joined (separator kind) [',', ' '] (items.map (chars hex)) ++ closing kind :: r).head? ≠ some '_' := by
  cases items with
  | nil => cases kind <;> simp [joined, closing]
  | cons t items =>
    obtain ⟨c, cs, hchars, hface⟩ := (h t (by simp)).exists_face hex
    simp [joined, hchars, hface.not_delimiter.2]

theorem tagged_append (n : UInt64) (inner : Tree) (r : List Char) :
    (tagged n inner).chars hex ++ r = decimal n.toNat ++ '(' :: (inner.chars hex ++ ')' :: r) := by
  show decimal n.toNat ++ '(' :: inner.chars hex ++ [')'] ++ r = _
  simp

theorem simple_append (v : UInt8) (r : List Char) :
    (simple v).chars hex ++ r = "simple(".toList ++ (decimal v.toNat ++ ')' :: r) := by
  show "simple(".toList ++ decimal v.toNat ++ [')'] ++ r = _
  simp only [List.append_assoc, List.singleton_append]

/-- Behind a tag the tagged tree is in brackets, so a number alone is not taken for a tag. -/
theorem unsigned_ne_tagged (n m : UInt64) (inner : Tree) {r : List Char} (hr : Closes r) (r' : List Char) :
    (unsigned n).chars hex ++ r ≠ (tagged m inner).chars hex ++ r' := by
  intro he
  rw [tagged_append] at he
  change decimal n.toNat ++ r = _ at he
  obtain ⟨-, hbracket⟩ := decimal_append_inj hr.not_digit (by simp) he
  exact hr.ne_bracket _ hbracket

/-- A tag and its tree are told apart, and from what follows the bracket. -/
theorem tagged_append_inj {n m : UInt64} {inner inner' : Tree} {r r' : List Char}
    (hshows : Shows (chars hex) visible inner inner')
    (he : (tagged n inner).chars hex ++ r = (tagged m inner').chars hex ++ r') :
    (tagged n inner).visible = (tagged m inner').visible ∧ r = r' := by
  rw [tagged_append, tagged_append] at he
  obtain ⟨hn, hinner⟩ := decimal_append_inj (by simp) (by simp) he
  obtain rfl : n = m := UInt64.toNat_inj.1 hn
  obtain ⟨hvisible, hrest⟩ := hshows _ _ (ends_paren r).closes (ends_paren r').closes (List.cons.inj hinner).2
  exact ⟨congrArg (Tree.tagged n) hvisible, (List.cons.inj hrest).2⟩

theorem simple_append_inj {v w : UInt8} {r r' : List Char}
    (he : (simple v).chars hex ++ r = (simple w).chars hex ++ r') : v = w ∧ r = r' := by
  rw [simple_append, simple_append, List.append_cancel_left_eq] at he
  obtain ⟨hv, hrest⟩ := decimal_append_inj (by simp) (by simp) he
  exact ⟨UInt8.toNat_inj.1 hv, (List.cons.inj hrest).2⟩

theorem container_append (kind : Container) (definite : Bool) (items : List Tree) (r : List Char) :
    (container kind definite items).chars hex ++ r = opening kind ::
      (mark definite ++
        (joined (separator kind) [',', ' '] (items.map (chars hex)) ++ closing kind :: r)) := by
  show Notation.container kind definite (charsAll hex items) ++ r = _
  rw [container_eq, charsAll_eq]
  simp

/-- The underscore and the items of a container are told apart if each item is told from what follows it. -/
theorem container_append_inj {kind : Container} {definite definite' : Bool} {items items' : List Tree}
    {r r' : List Char} (h : ∀ t ∈ items, t.FloatFree) (h' : ∀ t ∈ items', t.FloatFree)
    (hshows : ∀ t ∈ items, ∀ t' ∈ items', Shows (chars hex) visible t t')
    (he : (container kind definite items).chars hex ++ r = (container kind definite' items').chars hex ++ r') :
    (container kind definite items).visible = (container kind definite' items').visible ∧ r = r' := by
  rw [container_append, container_append] at he
  obtain ⟨rfl, hitems⟩ := mark_append_inj (head_joined_ne_mark h kind r) (head_joined_ne_mark h' kind r')
    (List.cons.inj he).2
  obtain ⟨hvisible, hrest⟩ := joined_inj hshows (fun t ht => (h t ht).begins) (fun t' ht' => (h' t' ht').begins)
    (separates_separator kind) separates_comma (ends_closing kind r) (ends_closing kind r') hitems
  rw [← visibleAll_eq, ← visibleAll_eq] at hvisible
  exact ⟨congrArg (Tree.container kind definite) hvisible, (List.cons.inj hrest).2⟩

/-- The notation of a tree is told from what follows it, and shows the tree. -/
theorem FloatFree.shows (hhex : PrefixFree (hexadecimal hex)) {t t' : Tree} (h : t.FloatFree)
    (h' : t'.FloatFree) : Shows (chars hex) visible t t' := by
  intro r r' hr hr' he
  -- The first character leaves few forms for the other tree; only containers and tags hold further trees.
  have hform := form_eq h h' he
  induction h generalizing t' r r' with
  | unsigned n =>
    cases t' with
    | unsigned m =>
      obtain ⟨hn, rfl⟩ := decimal_append_inj hr.not_digit hr'.not_digit he
      obtain rfl : n = m := UInt64.toNat_inj.1 hn
      exact ⟨rfl, rfl⟩
    | tagged m inner => exact absurd he (unsigned_ne_tagged n m inner hr r')
    | _ => cases hform
  | negative n =>
    cases t' with
    | negative m =>
      obtain ⟨hn, rfl⟩ := decimal_append_inj hr.not_digit hr'.not_digit (List.cons.inj he).2
      obtain rfl : n = m := UInt64.toNat_inj.1 (by omega)
      exact ⟨rfl, rfl⟩
    | _ => cases hform
  | bytes content =>
    cases t' with
    | bytes content' =>
      obtain ⟨rfl, rfl⟩ := hhex _ _ _ _ he
      exact ⟨rfl, rfl⟩
    | _ => cases hform
  | byteChunks contents =>
    cases t' with
    | byteChunks contents' =>
      obtain ⟨rfl, rfl⟩ := chunks_append_inj hhex begins_hexadecimal he
      exact ⟨rfl, rfl⟩
    | textChunks contents' =>
      obtain ⟨rfl, rfl, rfl⟩ := chunks_of_both he
      exact ⟨rfl, rfl⟩
    | _ => cases hform
  | text content =>
    cases t' with
    | text content' =>
      obtain ⟨rfl, rfl⟩ := prefixFree_quoted _ _ _ _ he
      exact ⟨rfl, rfl⟩
    | _ => cases hform
  | textChunks contents =>
    cases t' with
    | textChunks contents' =>
      obtain ⟨rfl, rfl⟩ := chunks_append_inj prefixFree_quoted begins_quoted he
      exact ⟨rfl, rfl⟩
    | byteChunks contents' =>
      obtain ⟨rfl, rfl, rfl⟩ := chunks_of_both he.symm
      exact ⟨rfl, rfl⟩
    | _ => cases hform
  | @container kind definite items h ih =>
    cases t' with
    | container kind' definite' items' =>
      obtain rfl : kind = kind' := Form.container.inj hform
      cases h' with
      | container h' =>
        refine container_append_inj h h' ?_ he
        intro t ht t' ht' r r' hr hr' he
        exact ih t ht (h' t' ht') r r' hr hr' he (form_eq (h t ht) (h' t' ht') he)
    | _ => cases hform
  | bool b =>
    cases t' with
    | bool b' =>
      obtain rfl : b = b' := Form.bool.inj hform
      exact ⟨rfl, List.append_cancel_left he⟩
    | _ => cases hform
  | null =>
    cases t' with
    | null => exact ⟨rfl, List.append_cancel_left he⟩
    | _ => cases hform
  | undefined =>
    cases t' with
    | undefined => exact ⟨rfl, List.append_cancel_left he⟩
    | _ => cases hform
  | simple v =>
    cases t' with
    | simple w =>
      obtain ⟨rfl, rfl⟩ := simple_append_inj he
      exact ⟨rfl, rfl⟩
    | _ => cases hform
  | @tagged n inner h ih =>
    cases t' with
    | unsigned m => exact absurd he.symm (unsigned_ne_tagged m n inner hr' r)
    | tagged m inner' =>
      cases h' with
      | tagged h' =>
        refine tagged_append_inj (fun r r' hr hr' he => ?_) he
        exact ih h' r r' hr hr' he (form_eq h h' he)
    | _ => cases hform

mutual

/-- A tree is written like what its notation shows of it. -/
theorem chars_visible (t : Tree) : t.visible.chars hex = t.chars hex := by
  cases t with
  | textChunks contents => cases contents <;> rfl
  | container kind definite items =>
    show Notation.container kind definite (charsAll hex (visibleAll items)) = _
    rw [charsAll_visibleAll items]
    rfl
  | tagged n inner =>
    show decimal n.toNat ++ '(' :: inner.visible.chars hex ++ [')'] = _
    rw [chars_visible inner]
    rfl
  | _ => rfl

theorem charsAll_visibleAll (items : List Tree) : charsAll hex (visibleAll items) = charsAll hex items := by
  cases items with
  | nil => rfl
  | cons t rest =>
    show t.visible.chars hex :: charsAll hex (visibleAll rest) = _
    rw [chars_visible t, charsAll_visibleAll rest]
    rfl

end

/-- Lines of notation show the trees that they stand for. -/
theorem lines_eq_iff (hhex : PrefixFree (hexadecimal hex)) {ts us : List Tree} (ht : ∀ t ∈ ts, t.FloatFree)
    (hu : ∀ u ∈ us, u.FloatFree) :
    ['\n'].intercalate (ts.map (chars hex)) = ['\n'].intercalate (us.map (chars hex)) ↔
      ts.map visible = us.map visible := by
  constructor
  · intro h
    have hsep : Separates ['\n'] := ⟨'\n', [], rfl, by simp⟩
    have hends : Ends [] := by
      intro c hc
      cases hc
    rw [intercalate_eq_joined, intercalate_eq_joined, ← List.append_nil (joined _ _ _),
      ← List.append_nil (joined _ _ (us.map (chars hex)))] at h
    exact (joined_inj (fun t ht' u hu' => (ht t ht').shows hhex (hu u hu')) (fun t ht' => (ht t ht').begins)
      (fun u hu' => (hu u hu').begins) hsep hsep hends hends h).1
  · intro h
    have hchars (ts : List Tree) : (ts.map visible).map (chars hex) = ts.map (chars hex) := by
      rw [List.map_map]
      exact List.map_congr_left fun t _ => chars_visible t
    rw [← hchars ts, h, hchars us]

end Tree

/-! ## Byte strings -/

namespace Notation
variable {data : Bytes}

/-- Two byte strings without floats that have a notation have the same one exactly when they consist of items
with the same trees, where a text of no chunks counts as a byte string of none. This holds with any digits that
are read back and have no apostrophe among them. -/
theorem format_eq_iff_visible {hex : HexCodec} (hback : hex.ReadsBack) (hunquoted : hex.Unquoted) {a b : Bytes}
    (ha : a.length < 0x10000000000000000) (hb : b.length < 0x10000000000000000)
    (hformat : ∃ text, formatWith hex a = .ok text) (hformat' : ∃ text, formatWith hex b = .ok text) :
    (∃ items, Tree.Sequence items a) ∧ (∃ items, Tree.Sequence items b) ∧
    ∀ items items', Tree.Sequence items a → Tree.Sequence items' b →
      (∀ i ∈ items, i.1.FloatFree) → (∀ i ∈ items', i.1.FloatFree) →
        (formatWith hex a = formatWith hex b ↔
          items.map (fun i => i.1.visible) = items'.map fun i => i.1.visible) := by
  obtain ⟨text, htext⟩ := hformat
  obtain ⟨text', htext'⟩ := hformat'
  refine ⟨(exists_sequence_of_format ha htext).imp fun _ => And.left,
    (exists_sequence_of_format hb htext').imp fun _ => And.left, ?_⟩
  intro items items' hitems hitems' hfree hfree'
  have htrees {items : List (Tree × Bytes)} (h : ∀ i ∈ items, i.1.FloatFree) :
      ∀ t ∈ items.map Prod.fst, t.FloatFree := by
    intro t ht
    obtain ⟨i, hi, rfl⟩ := List.mem_map.1 ht
    exact h i hi
  have hlines := Tree.lines_eq_iff (prefixFree_hexadecimal hback hunquoted) (htrees hfree) (htrees hfree')
  rw [List.map_map, List.map_map, List.map_map, List.map_map] at hlines
  rw [htext, htext', Except.ok.injEq, text_of_format ha htext hitems, text_of_format hb htext' hitems',
    String.ofList_inj]
  exact hlines

/-- A byte string of no chunks and a text of none, both tagged, in arrays with heads of different widths. -/
theorem empty_chunks_look_alike :
    let a : Bytes := [0x82, 0x18, 0x05, 0xC1, 0x5F, 0xFF]
    let b : Bytes := [0x98, 0x02, 0x05, 0xD8, 0x01, 0x7F, 0xFF]
    a.length < 0x10000000000000000 ∧ b.length < 0x10000000000000000 ∧
      format a = .ok "[5, 1((_ ))]" ∧ format b = .ok "[5, 1((_ ))]" ∧
      ∃ items items', Tree.Sequence items a ∧ Tree.Sequence items' b ∧
        (∀ i ∈ items, i.1.FloatFree) ∧ (∀ i ∈ items', i.1.FloatFree) ∧
        items.map Prod.fst ≠ items'.map Prod.fst ∧
        items.map (fun i => i.1.visible) = items'.map fun i => i.1.visible := by
  intro a b
  have ha : a.length < 0x10000000000000000 := by decide
  have hb : b.length < 0x10000000000000000 := by decide
  have hread : Tree.readAll 16 a =
      .ok [.container .array true [.unsigned 5, .tagged 1 (.byteChunks [])]] := by cbv
  have hread' : Tree.readAll 16 b =
      .ok [.container .array true [.unsigned 5, .tagged 1 (.textChunks [])]] := by cbv
  have hformat : format a = .ok "[5, 1((_ ))]" := by
    rw [format, formatWith_eq, maxHeight, hread]
    rfl
  have hformat' : format b = .ok "[5, 1((_ ))]" := by
    rw [format, formatWith_eq, maxHeight, hread']
    rfl
  have hfree {last : Tree} (h : last.FloatFree) {items : List (Tree × Bytes)}
      (htrees : [Tree.container .array true [.unsigned 5, .tagged 1 last]] = items.map Prod.fst) :
      ∀ i ∈ items, i.1.FloatFree := by
    intro i hi
    have hmem := List.mem_map_of_mem (f := Prod.fst) hi
    rw [← htrees, List.mem_singleton] at hmem
    rw [hmem]
    refine .container ?_
    simp only [List.forall_mem_cons, List.not_mem_nil, false_imp_iff, implies_true, and_true]
    exact ⟨.unsigned 5, .tagged h⟩
  obtain ⟨items, hitems, -, htrees⟩ := (Tree.readAll_eq_ok_iff ha).1 hread
  obtain ⟨items', hitems', -, htrees'⟩ := (Tree.readAll_eq_ok_iff hb).1 hread'
  have hitems_free := hfree (.byteChunks []) htrees
  have hitems_free' := hfree (.textChunks []) htrees'
  refine ⟨ha, hb, hformat, hformat', items, items', hitems, hitems', hitems_free, hitems_free', ?_, ?_⟩
  · rw [← htrees, ← htrees']
    simp
  · obtain ⟨-, -, hshown⟩ := format_eq_iff_visible Hex.readsBack_codec Hex.unquoted_codec ha hb ⟨_, hformat⟩
      ⟨_, hformat'⟩
    exact (hshown items items' hitems hitems' hitems_free hitems_free').1 (hformat.trans hformat'.symm)

end Notation

end CborRecords
