import CborRecords.Tree.Printer
import CborRecords.Proofs.Sequences

/-!
# Printing is reading and rendering

The printer writes while it reads. On every byte string it does what reading all trees first and rendering
them afterwards does: it fails with the same error, or writes the notations of the trees. The separators in
front of items, the keys and values that alternate at one cursor, and the parentheses that are counted and
closed behind an item come to what the rendering of a tree puts there.

* `Notation.following`, `Notation.joined` : parts with separators in front of them and between them;
  `Notation.container_eq` : a container is its parts between brackets, with two separators in turn;
* `Printer.writeContent_scalar` : scalars, and strings in chunks;
* `Printer.writeItems_eq`, `Printer.writeEntries_eq` : the items of an array, and those of a map, in which a
  value stands behind each key since the items that are announced are even in number;
* `Printer.renders_writeItem` : an item; `Notation.formatWith_eq` : a byte string.
-/

namespace CborRecords

/-- What stands in front of the items of an indefinite-length container. -/
def Tree.mark (definite : Bool) : List Char :=
  if definite then [] else ['_', ' ']

variable {hex : HexCodec}

/-! ## Separators -/

namespace Notation

/-- Parts with a separator in front of each, two separators in turn. -/
def following (sep other : List Char) : List (List Char) → List Char
  | [] => []
  | part :: rest => sep ++ (part ++ following other sep rest)

/-- Parts with separators between them, two separators in turn. -/
def joined (sep other : List Char) : List (List Char) → List Char
  | [] => []
  | part :: rest => part ++ following sep other rest

theorem intercalate_eq_joined (sep : List Char) (parts : List (List Char)) :
    sep.intercalate parts = joined sep sep parts := by
  cases parts with
  | nil => rfl
  | cons part parts =>
    induction parts generalizing part with
    | nil => simp [joined, following]
    | cons next parts ih =>
      rw [List.intercalate_cons_of_ne_nil (by simp), ih next]
      simp [joined, following]

/-- The items of a map have a colon and a comma between them in turn. -/
theorem list_pairs_eq_joined (parts : List (List Char)) :
    list (pairs parts) = joined [':', ' '] [',', ' '] parts := by
  have htail (parts : List (List Char)) : following [',', ' '] [',', ' '] (pairs parts) =
      following [',', ' '] [':', ' '] parts := by
    fun_induction pairs parts with
    | case1 key value rest ih => simp [following, ih]
    | case2 rest hrest =>
      rcases rest with _ | ⟨key, _ | ⟨value, rest⟩⟩
      · rfl
      · rfl
      · exact absurd rfl (hrest key value rest)
  rw [list, intercalate_eq_joined]
  rcases parts with _ | ⟨key, _ | ⟨value, rest⟩⟩
  · rfl
  · rfl
  · simp [pairs, joined, following, htail]

/-- The bracket that opens a container. -/
def opening : Container → Char
  | .array => '['
  | .map => Char.ofNat 0x7B

/-- The bracket that closes a container. -/
def closing : Container → Char
  | .array => ']'
  | .map => Char.ofNat 0x7D

/-- What stands between the first two items of a container. -/
def separator : Container → List Char
  | .array => [',', ' ']
  | .map => [':', ' ']

theorem container_eq (kind : Container) (definite : Bool) (parts : List (List Char)) :
    container kind definite parts = opening kind ::
      (Tree.mark definite ++ (joined (separator kind) [',', ' '] parts ++ [closing kind])) := by
  cases kind with
  | array =>
    show '[' :: Tree.mark definite ++ list parts ++ [']'] = _
    rw [list, intercalate_eq_joined]
    simp [opening, closing, separator]
  | map =>
    show Char.ofNat 0x7B :: Tree.mark definite ++ list (pairs parts) ++ [Char.ofNat 0x7D] = _
    rw [list_pairs_eq_joined]
    simp [opening, closing, separator]

/-- Parts as a loop writes them from some place on: with `sep` and `other` in front of them in turn, but nothing in
front of the first part of all. -/
def placed (first : Bool) (sep other : List Char) (parts : List (List Char)) : List Char :=
  if first then joined other sep parts else following sep other parts

theorem placed_nil (first : Bool) (sep other : List Char) : placed first sep other [] = [] := by
  cases first <;> rfl

theorem placed_cons (first : Bool) (sep other part : List Char) (parts : List (List Char)) :
    placed first sep other (part :: parts) =
      (if first then [] else sep) ++ (part ++ following other sep parts) := by
  cases first <;> rfl

end Notation

theorem Tree.charsAll_eq (items : List Tree) : charsAll hex items = items.map (chars hex) := by
  induction items with
  | nil => rfl
  | cons t rest ih => rw [charsAll, ih, List.map_cons]

theorem Tree.chars_withTags (numbers : List UInt64) (t : Tree) :
    (t.withTags numbers).chars hex = numbers.flatMap (fun n => Notation.decimal n.toNat ++ ['(']) ++
      (t.chars hex ++ List.replicate numbers.length ')') := by
  induction numbers with
  | nil => simp [withTags]
  | cons n numbers ih =>
    show Notation.decimal n.toNat ++ '(' :: (t.withTags numbers).chars hex ++ [')'] = _
    rw [ih, List.length_cons, List.replicate_succ']
    simp

/-! ## Scalars -/

namespace Printer
open Notation

theorem toList_toString (n : Nat) : (toString n).toList = decimal n :=
  Nat.toList_repr

theorem writeText_eq (content out : String) : writeText content out = out ++ String.ofList (quoted content) := by
  have hfold (chars : List Char) (out : String) :
      chars.foldl (fun out c => out ++ String.ofList (escape c)) out = out ++ String.ofList (chars.flatMap escape) := by
    induction chars generalizing out with
    | nil => exact String.append_empty.symm
    | cons c chars ih => rw [List.foldl_cons, ih, List.flatMap_cons, String.ofList_append, String.append_assoc]
  rw [writeText, hfold]
  apply String.ext
  simp [quoted]

/-- Chunks are written one by one as they are read, and with commas between them. -/
theorem writeChunks_eq {α : Type} {write : Bytes → String → Except DecodeError String}
    {read : Bytes → Except DecodeError α} {collect : List Bytes → Except DecodeError (List α)} {f : α → List Char}
    (hwrite : ∀ chunk out, write chunk out = (read chunk).map fun a => out ++ String.ofList (f a))
    (hnil : collect [] = .ok [])
    (hcons : ∀ chunk rest, collect (chunk :: rest) = (read chunk).bind fun a => (collect rest).map (a :: ·))
    (index : Nat) (contents : List Bytes) (out : String) :
    writeChunks write index contents out = (collect contents).map fun parts =>
      out ++ String.ofList (placed (index = 0) [',', ' '] [',', ' '] (parts.map f)) := by
  induction contents generalizing index out with
  | nil =>
    rw [hnil]
    simp [writeChunks, Except.map, placed_nil]
  | cons chunk rest ih =>
    rw [writeChunks, hwrite, hcons]
    rcases read chunk with e | a
    · rfl
    · dsimp only [Except.map, Except.bind]
      rw [ih]
      rcases collect rest with e | parts
      · rfl
      · have hindex : decide (index + 1 = 0) = false := by simp
        simp only [Except.map, List.map_cons, placed_cons, hindex]
        congr 1
        apply String.ext
        rcases Nat.eq_zero_or_pos index with rfl | h
        · simp [placed]
        · simp [placed, h, Nat.ne_of_gt h]

theorem writeByteChunks_eq (contents : List Bytes) (out : String) :
    writeChunks (fun chunk out => .ok (writeBytes hex chunk out)) 0 contents out =
      .ok (out ++ String.ofList (list (contents.map (hexadecimal hex)))) := by
  have hwrite (chunk : Bytes) (out : String) : Except.ok (writeBytes hex chunk out) =
      (Except.ok chunk : Except DecodeError Bytes).map fun b => out ++ String.ofList (hexadecimal hex b) := rfl
  have hcons (chunk : Bytes) (rest : List Bytes) : Except.ok (chunk :: rest) =
      (Except.ok chunk : Except DecodeError Bytes).bind fun b => (Except.ok rest).map (b :: ·) := rfl
  rw [writeChunks_eq hwrite rfl hcons, list, intercalate_eq_joined]
  rfl

theorem writeTextChunks_eq (contents : List Bytes) (out : String) :
    writeChunks writeTextChunk 0 contents out = (Chunks.texts contents).map fun parts =>
      out ++ String.ofList (list (parts.map quoted)) := by
  have hwrite (chunk : Bytes) (out : String) : writeTextChunk chunk out =
      ((Utf8.decode chunk).mapError .invalidUtf8).map fun content => out ++ String.ofList (quoted content) := by
    unfold writeTextChunk
    rcases Utf8.decode chunk with fault | content
    · rfl
    · exact congrArg _ (writeText_eq content out)
  have hcons (chunk : Bytes) (rest : List Bytes) : Chunks.texts (chunk :: rest) =
      ((Utf8.decode chunk).mapError .invalidUtf8).bind fun content => (Chunks.texts rest).map (content :: ·) := by
    rw [Chunks.texts]
    rcases Utf8.decode chunk with fault | content
    · rfl
    · dsimp only [Except.mapError, Except.bind]
      rcases Chunks.texts rest with e | parts <;> rfl
  rw [writeChunks_eq hwrite rfl hcons, show (list : List (List Char) → List Char) =
    joined [',', ' '] [',', ' '] from funext (intercalate_eq_joined _)]
  rfl

theorem toString_negative (n : Nat) : (toString (-1 - (n : Int))).toList = '-' :: decimal (n + 1) := by
  have hsigned : toString (-1 - (n : Int)) = "-" ++ toString (n + 1) := by
    rw [show (-1 - (n : Int)) = Int.negSucc n by omega]
    rfl
  rw [hsigned, String.toList_append, toList_toString]
  rfl

/-- Chunks between their parentheses. -/
theorem push_chunks (out : String) (parts : List (List Char)) :
    (out ++ "(_ " ++ String.ofList (list parts)).push ')' = out ++ String.ofList (chunks parts) := by
  apply String.ext
  simp [chunks]

/-- What is no container is written as the tree of it is rendered. -/
theorem writeContent_scalar {content : Content} (hs : ∀ c, content ≠ .container c)
    (write : Item → String → Except DecodeError (String × Nat)) (out : String) :
    writeContent hex write content out = content.leaf.map fun leaf => (out ++ leaf.render hex, content) := by
  have hwritten {t : Tree} {s : String} (h : s.toList = t.chars hex) : out ++ s = out ++ t.render hex := by
    rw [Tree.render, ← h, String.ofList_toList]
  cases content with
  | unsigned n => exact congrArg (fun out => Except.ok (out, _)) (hwritten (toList_toString _))
  | negative n => exact congrArg (fun out => Except.ok (out, _)) (hwritten (toString_negative _))
  | bytes content => rfl
  | byteChunks chunks =>
    rw [writeContent, writeByteChunks_eq]
    exact congrArg (fun out => Except.ok (out, _)) (push_chunks out _)
  | text content => exact congrArg (fun out => Except.ok (out, _)) (writeText_eq content out)
  | textChunks chunks =>
    rw [writeContent, writeTextChunks_eq, Content.leaf]
    rcases Chunks.texts chunks.toList with e | contents
    · rfl
    · exact congrArg (fun out => Except.ok (out, _)) (push_chunks out _)
  | container c => exact absurd rfl (hs c)
  | bool b => cases b <;> rfl
  | null => rfl
  | undefined => rfl
  | simple value =>
    have hsimple : ("simple(" ++ (toString value.toNat ++ ")")).toList = (Tree.simple value).chars hex := by
      rw [String.toList_append, String.toList_append, toList_toString, ← List.append_assoc]
      rfl
    rw [writeContent, String.append_assoc, String.append_assoc]
    exact congrArg (fun out => Except.ok (out, _)) (hwritten hsimple)
  | float x => rfl

/-! ## Tags -/

theorem openTags_eq (numbers : List UInt64) (opened : Nat) (out : String) :
    openTags numbers opened out =
      (out ++ String.ofList (numbers.flatMap fun n => decimal n.toNat ++ ['(']), opened + numbers.length) := by
  induction numbers generalizing opened out with
  | nil => rw [openTags, List.flatMap_nil, String.ofList_nil, String.append_empty, List.length_nil, Nat.add_zero]
  | cons n numbers ih =>
    rw [openTags, ih, List.length_cons, Nat.add_right_comm, Nat.add_assoc]
    congr 1
    apply String.ext
    simp [decimal]

theorem closeTags_eq (opened : Nat) (out : String) :
    closeTags opened out = out ++ String.ofList (List.replicate opened ')') := by
  induction opened generalizing out with
  | zero => exact String.append_empty.symm
  | succ opened ih =>
    rw [closeTags, ih]
    apply String.ext
    simp [List.replicate_succ]

/-! ## Containers -/

/-- An item that has a tree takes a byte, and no more than there are. -/
theorem length_of_tree {data : Bytes} {item : Item} {room n : Nat} {t : Tree} (ho : Item.open? data = .ok (some item))
    (h : item.tree room = .ok (t, n)) : 0 < n ∧ n ≤ data.length := by
  have hn : (Item.gather room item).2 = .ok n := congrArg Prod.snd (Item.gather_of_ok h)
  obtain ⟨t', bytes, rest, rfl, rfl, hw, -⟩ := Item.passes_tree room ho hn
  rw [List.length_append]
  exact ⟨hw.length_pos, Nat.le_add_right _ _⟩

/-- An item that was opened is written as its tree is rendered, and what is wrong with the tree is wrong with
the item. -/
def Renders (hex : HexCodec) (write : Item → String → Except DecodeError (String × Nat)) (room : Nat) : Prop :=
  ∀ {data : Bytes} {item : Item} (out : String), Item.open? data = .ok (some item) →
    write item out = (item.tree room).map fun read => (out ++ read.1.render hex, read.2)

/-- What a traversal that gathers trees comes to, if its trees are placed behind a text. -/
def behind (hex : HexCodec) (out : String) (place : List (List Char) → List Char)
    (result : List Tree × Except DecodeError Unit × Cursor) : Except DecodeError (String × Cursor) :=
  result.2.1.map fun _ => (out ++ String.ofList (place (result.1.map (Tree.chars hex))), result.2.2)

/-- A tree that comes first. -/
theorem behind_cons {out sep : String} {t : Tree} {place place' : List (List Char) → List Char}
    (hplace : ∀ parts, place (t.chars hex :: parts) = sep.toList ++ (t.chars hex ++ place' parts))
    (result : List Tree × Except DecodeError Unit × Cursor) :
    behind hex (out ++ sep ++ t.render hex) place' result = behind hex out place ([t] ++ result.1, result.2) := by
  rcases result with ⟨trees, e | u, c⟩
  · rfl
  · simp only [behind, Except.map, List.singleton_append, List.map_cons, hplace, String.ofList_append,
      String.ofList_toList, Tree.render, String.append_assoc]

theorem behind_nil (out : String) {place : List (List Char) → List Char} (hplace : place [] = []) (c : Cursor) :
    behind hex out place ([], .ok (), c) = .ok (out, c) := by
  simp [behind, Except.map, hplace]

/-- Trees between brackets. -/
theorem behind_enclosed {out bracket : String} {close : Char} {place place' : List (List Char) → List Char}
    (hplace : ∀ parts, place' parts = bracket.toList ++ (place parts ++ [close]))
    (result : List Tree × Except DecodeError Unit × Cursor) :
    ((behind hex (out ++ bracket) place result).map fun written => (written.1.push close, written.2)) =
      behind hex out place' result := by
  rcases result with ⟨trees, e | u, c⟩
  · rfl
  · simp only [behind, Except.map, hplace]
    congr 2
    apply String.ext
    simp

section Loops
variable {write : Item → String → Except DecodeError (String × Nat)} {room : Nat} {c : Cursor}

/-- Items are written as they are gathered. There is a byte for each of them, so the limit is not reached. -/
theorem writeItems_eq (hwrite : Renders hex write room) {limit : Nat} (hlimit : c.rest.length ≤ limit) (first : Bool)
    (out : String) :
    writeItems write limit first c out =
      behind hex out (placed first [',', ' '] [',', ' ']) (c.traverseFrom (Item.gather room) limit) := by
  generalize hk : c.rest.length = k at hlimit
  induction k using Nat.strongRecOn generalizing c limit first out with
  | _ k ih =>
    unfold writeItems
    rcases hpeek : c.peek with ⟨e | _ | item, c'⟩
    · rw [Cursor.traverseFrom_of_peek_error _ hpeek, Cursor.next?, hpeek]
      rfl
    · rw [Cursor.traverseFrom_of_none _ hpeek, behind_nil out (placed_nil ..), Cursor.next?, hpeek]
    · obtain ⟨hsame, -, ho⟩ := Cursor.peek_eq_some_iff.1 hpeek
      subst c'
      simp only [Cursor.next?, hpeek, hwrite _ ho]
      rcases htree : item.tree room with e | ⟨t, n⟩
      · rw [Cursor.traverseFrom_of_error _ hpeek (Item.gather_of_error htree)]
        rfl
      · obtain ⟨hpos, hle⟩ := length_of_tree ho htree
        obtain ⟨limit, rfl⟩ : ∃ l, limit = l + 1 := ⟨limit - 1, by omega⟩
        have hlen : (c.advance n).rest.length = k - n := by rw [Cursor.advance, List.length_drop, hk]
        rw [Cursor.traverseFrom_of_ok _ hpeek (Item.gather_of_ok htree), ← behind_cons]
        · exact ih (k - n) (by omega) _ _ hlen (by omega)
        · intro parts
          cases first <;> rfl

/-- A cursor in a map, in front of a key. -/
structure AtKey (c : Cursor) : Prop where
  kind_eq : c.kind = .map
  parsed_even : c.parsed % 2 = 0
  count_even : ∀ n, c.count = some n → n % 2 = 0

theorem AtKey.advance_advance (h : AtKey c) (n m : Nat) : AtKey ((c.advance n).advance m) where
  kind_eq := h.kind_eq
  parsed_even := by
    have := h.parsed_even
    simp only [Cursor.advance]
    omega
  count_even := h.count_even

/-- A map does not end between a key and its value. -/
theorem AtKey.peek_ne_none (h : AtKey c) (hend : c.atEnd = (.ok false, c)) (n : Nat) (c' : Cursor) :
    (c.advance n).peek ≠ (.ok none, c') := by
  intro hpeek
  have heven := h.parsed_even
  rcases Cursor.atEnd_eq_true_iff.1 (Cursor.peek_eq_none_iff.1 hpeek) with ⟨count, hcount, hle, -⟩ | ⟨hnone, hmod, -⟩
  · have hcounted := h.count_even count hcount
    rcases (Cursor.atEnd_eq_false_iff.1 hend).2 with ⟨m, hm, hlt⟩ | ⟨hnone, -⟩
    · have hsame : m = count := Option.some.inj (hm.symm.trans hcount)
      simp only [Cursor.advance] at hle
      omega
    · cases hnone.symm.trans hcount
  · simp only [Cursor.advance, h.kind_eq, Container.arity] at hmod
    omega

/-- Keys and values are written as the items of the map are gathered, two at a time. -/
theorem writeEntries_eq (hwrite : Renders hex write room) (hc : AtKey c) {limit limit' : Nat}
    (hlimit : c.rest.length ≤ limit) (hlimit' : c.rest.length ≤ limit') (first : Bool) (out : String) :
    writeEntries write limit first c out =
      behind hex out (placed first [',', ' '] [':', ' ']) (c.traverseFrom (Item.gather room) limit') := by
  generalize hk : c.rest.length = k at hlimit hlimit'
  induction k using Nat.strongRecOn generalizing c limit limit' first out with
  | _ k ih =>
    unfold writeEntries
    rcases hpeek : c.peek with ⟨e | _ | item, c'⟩
    · rw [Cursor.traverseFrom_of_peek_error _ hpeek, Cursor.next?, hpeek]
      rfl
    · rw [Cursor.traverseFrom_of_none _ hpeek, behind_nil out (placed_nil ..), Cursor.next?, hpeek]
    · obtain ⟨hsame, hend, ho⟩ := Cursor.peek_eq_some_iff.1 hpeek
      subst c'
      rcases htree : item.tree room with e | ⟨key, n⟩
      · rw [Cursor.traverseFrom_of_error _ hpeek (Item.gather_of_error htree)]
        simp only [Cursor.next?, hpeek, hwrite _ ho, htree]
        rfl
      · obtain ⟨hpos, hle⟩ := length_of_tree ho htree
        obtain ⟨limit', rfl⟩ : ∃ l, limit' = l + 1 := ⟨limit' - 1, by omega⟩
        have hlen : (c.advance n).rest.length = k - n := by rw [Cursor.advance, List.length_drop, hk]
        have hkey : c.next? (fun item => write item (out ++ if first then "" else ", ")) =
            (.ok (some (out ++ (if first then "" else ", ") ++ key.render hex, n)), c.advance n) := by
          simp only [Cursor.next?, hpeek, hwrite _ ho, htree]
          rfl
        have hplace (parts : List (List Char)) : placed first [',', ' '] [':', ' '] (key.chars hex :: parts) =
            (if first then "" else ", ").toList ++ (key.chars hex ++ placed false [':', ' '] [',', ' '] parts) := by
          cases first <;> rfl
        rw [Cursor.traverseFrom_of_ok _ hpeek (Item.gather_of_ok htree), ← behind_cons hplace, hkey]
        generalize out ++ (if first then "" else ", ") ++ key.render hex = out
        dsimp only
        -- a value is required, and the map does not end in front of it
        rcases hpeek' : (c.advance n).peek with ⟨e | _ | item', c'⟩
        · rw [Cursor.traverseFrom_of_peek_error _ hpeek', Cursor.next, Cursor.next?, hpeek']
          rfl
        · exact absurd hpeek' (hc.peek_ne_none hend n c')
        · obtain ⟨hsame, -, ho'⟩ := Cursor.peek_eq_some_iff.1 hpeek'
          subst c'
          rcases htree' : item'.tree room with e | ⟨value, m⟩
          · rw [Cursor.traverseFrom_of_error _ hpeek' (Item.gather_of_error htree')]
            simp only [Cursor.next, Cursor.next?, hpeek', hwrite _ ho', htree']
            rfl
          · obtain ⟨hpos', hle'⟩ := length_of_tree ho' htree'
            obtain ⟨limit, rfl⟩ : ∃ l, limit = l + 1 := ⟨limit - 1, by omega⟩
            obtain ⟨limit', rfl⟩ : ∃ l, limit' = l + 1 := ⟨limit' - 1, by omega⟩
            have hlen' : ((c.advance n).advance m).rest.length = k - n - m := by
              rw [Cursor.advance, List.length_drop, hlen]
            have hvalue : (c.advance n).next (fun item => write item (out ++ ": ")) =
                (.ok (out ++ ": " ++ value.render hex, m), (c.advance n).advance m) := by
              simp only [Cursor.next, Cursor.next?, hpeek', hwrite _ ho', htree']
              rfl
            rw [Cursor.traverseFrom_of_ok _ hpeek' (Item.gather_of_ok htree'), ← behind_cons, hvalue]
            · exact ih (k - n - m) (by omega) (hc.advance_advance n m) _ _ hlen' (by omega) (by omega)
            · intro parts
              rfl

/-- A container of an item is written between its brackets. -/
theorem writeContainer_eq (hwrite : Renders hex write room) {data : Bytes} {item : Item}
    (ho : Item.open? data = .ok (some item)) (hc : item.content = .container c) (out : String) :
    writeContainer write c out =
      behind hex out (container c.kind c.isDefinite) (c.traverse (Item.gather room)) := by
  unfold writeContainer
  cases hkind : c.kind with
  | array =>
    have hplace (parts : List (List Char)) : container .array c.isDefinite parts =
        (if c.isDefinite then "[" else "[_ ").toList ++ (placed true [',', ' '] [',', ' '] parts ++ [']']) := by
      rw [container_eq]
      cases c.isDefinite <;> rfl
    rw [← behind_enclosed hplace, Cursor.traverse, ← writeItems_eq hwrite (Nat.le_refl _)]
    dsimp only
    generalize writeItems write c.rest.length true c _ = written
    rcases written with e | ⟨out, last⟩ <;> rfl
  | map =>
    have hplace (parts : List (List Char)) : container .map c.isDefinite parts =
        (if c.isDefinite then "\x7b" else "\x7b_ ").toList ++
          (placed true [',', ' '] [':', ' '] parts ++ [Char.ofNat 0x7D]) := by
      rw [container_eq]
      cases c.isDefinite <;> rfl
    -- nothing has been passed yet, and the head of a map announces two items for each pair
    obtain ⟨numbers, front, rest, -, -, hopens, -⟩ := Item.open?_eq_some_iff.1 ho
    rw [hc] at hopens
    have hkey : AtKey c := by
      refine ⟨hkind, by rw [hopens.cursor.2.2], ?_⟩
      intro n hn
      obtain ⟨entries, rfl⟩ := hopens.exists_entries hn
      rw [hkind, Container.arity, Nat.mul_mod_left]
    rw [← behind_enclosed hplace, Cursor.traverse, ← writeEntries_eq hwrite hkey (Nat.le_refl _) (Nat.le_refl _)]
    dsimp only
    generalize writeEntries write c.rest.length true c _ = written
    rcases written with e | ⟨out, last⟩ <;> rfl

end Loops

/-! ## Items -/

/-- Tags around what is written between them. -/
theorem closeTags_render (numbers : List UInt64) (t : Tree) (out : String) :
    closeTags (0 + numbers.length)
        (out ++ String.ofList (numbers.flatMap fun n => decimal n.toNat ++ ['(']) ++ t.render hex) =
      out ++ (t.withTags numbers).render hex := by
  rw [closeTags_eq, Tree.render, Tree.render, Tree.chars_withTags, Nat.zero_add, String.ofList_append,
    String.ofList_append, String.append_assoc, String.append_assoc]

/-- The printer writes an item as its tree is rendered, and fails where the tree cannot be read. -/
theorem renders_writeItem (room : Nat) : Renders hex (writeItem hex room) room := by
  induction room with
  | zero =>
    intro data item out _
    rfl
  | succ room ih =>
    intro data item out ho
    rw [writeItem, openTags_eq]
    dsimp only
    by_cases hc : ∃ c, item.content = .container c
    · obtain ⟨c, hc⟩ := hc
      rw [Item.tree_container_eq hc, hc, writeContent, writeContainer_eq ih ho hc]
      rcases c.traverse (Item.gather room) with ⟨trees, e | u, last⟩
      · rfl
      · have hrender : String.ofList (container c.kind c.isDefinite (trees.map (Tree.chars hex))) =
            (Tree.container c.kind c.isDefinite trees).render hex := by
          rw [← Tree.charsAll_eq]
          rfl
        dsimp only [behind, Except.map, Except.bind, Item.close]
        rcases last.close with e | n
        · rfl
        · dsimp only
          rw [hrender, closeTags_render]
    · have hs : ∀ c, item.content ≠ .container c := fun c h => hc ⟨c, h⟩
      have hclose : item.close item.content = .ok item.size := by
        unfold Item.close
        split
        · rename_i c h
          exact absurd h (hs c)
        · rfl
      rw [Item.tree_scalar_eq hs, writeContent_scalar hs]
      rcases item.content.leaf with e | leaf
      · rfl
      · dsimp only [Except.map]
        rw [hclose]
        dsimp only
        rw [closeTags_render]

/-! ## Byte strings -/

/-- Lines are written as the trees of the items are gathered. Every item takes a byte, so that the first one is
the one at offset zero, and the limit is not reached. -/
theorem writeLines_eq {data : Bytes} {limit offset : Nat} (hlimit : data.length ≤ offset + limit) (out : String) :
    writeLines hex data limit offset out =
      (Item.traverseAllFrom (Item.gather maxHeight) limit offset (data.drop offset)).2.map fun _ =>
        out ++ String.ofList (placed (offset = 0) ['\n'] ['\n']
          ((Item.traverseAllFrom (Item.gather maxHeight) limit offset (data.drop offset)).1.map (Tree.chars hex))) := by
  induction limit generalizing offset out with
  | zero =>
    have hnil : data.drop offset = [] := List.drop_eq_nil_iff.2 hlimit
    unfold writeLines Item.traverseAllFrom
    rw [if_neg (by omega), hnil, Item.open?_eq_none_iff.2 rfl]
    simp [Except.map, placed_nil]
  | succ limit ih =>
    unfold writeLines Item.traverseAllFrom
    by_cases hmore : offset < data.length
    · rw [if_pos hmore]
      rcases ho : Item.open? (data.drop offset) with e | _ | item
      · rfl
      · have hnil := List.drop_eq_nil_iff.1 (Item.open?_eq_none_iff.1 ho)
        omega
      · dsimp only
        rw [renders_writeItem _ _ ho]
        rcases htree : item.tree maxHeight with e | ⟨t, n⟩
        · rw [Item.gather_of_error htree]
          rfl
        · obtain ⟨hpos, -⟩ := length_of_tree ho htree
          have hlater : decide (offset + n = 0) = false := by
            rw [decide_eq_false_iff_not]
            omega
          rw [Item.gather_of_ok htree]
          dsimp only [Except.map]
          rw [List.drop_drop, ih (by omega), hlater]
          rcases Item.traverseAllFrom (Item.gather maxHeight) limit (offset + n) (data.drop (offset + n)) with
            ⟨trees, e | total⟩
          · rfl
          · simp only [Except.map, List.singleton_append, List.map_cons, placed_cons]
            congr 1
            apply String.ext
            rcases Nat.eq_zero_or_pos offset with rfl | h
            · simp [placed, Tree.render]
            · simp [placed, Tree.render, h, Nat.ne_of_gt h]
    · have hnil : data.drop offset = [] := List.drop_eq_nil_iff.2 (Nat.not_lt.1 hmore)
      rw [if_neg hmore, hnil, Item.open?_eq_none_iff.2 rfl]
      simp [Except.map, placed_nil]

end Printer

/-- On every byte string, printing is reading the trees of all items and rendering them afterwards. -/
theorem Notation.formatWith_eq (hex : HexCodec) (data : Bytes) :
    formatWith hex data = (Tree.readAll maxHeight data).map fun trees =>
      String.ofList (['\n'].intercalate (trees.map (Tree.chars hex))) := by
  rw [formatWith, Printer.writeLines_eq (Nat.le_add_left _ _), Tree.readAll_eq, Item.traverseAll]
  simp only [List.drop_zero]
  rcases Item.traverseAllFrom (Item.gather maxHeight) data.length 0 data with ⟨trees, e | n⟩
  · rfl
  · dsimp only [Except.map]
    rw [intercalate_eq_joined, String.empty_append]
    rfl

end CborRecords
