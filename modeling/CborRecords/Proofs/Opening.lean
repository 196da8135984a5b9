import CborRecords.Proofs.Grammar
import CborRecords.Proofs.Utf8

/-!
# Opening an item

What `Item.open?` gives is fixed by the bytes it passes over: the tags, and then a whole scalar or the
head of a container. All that follows is left to the cursor of a container and otherwise not looked at.

* `Tags.measure_of_written`, `Tags.written_of_measure` : the tags in front of an item;
* `Chunks.measure_of_written`, `Chunks.written_of_measure` : the chunks of a string;
* `Content.Opens` : the bytes that open as some content, and whether they are the shortest;
* `Item.open?_eq_some_iff` : an item opens exactly at tags and bytes that open.
-/

namespace CborRecords

/-! ## Tags -/

namespace Tags

/-- The bytes do not start with the head of a tag. -/
def Absent (bytes : Bytes) : Prop :=
  ∀ b rest, bytes = b :: rest → Head.major b ≠ .tag

theorem measure_of_absent {data : Bytes} (h : Absent data) : measure data = .ok 0 := by
  cases data with
  | nil => rw [measure]
  | cons b rest => rw [measure, if_neg (h b rest rfl)]

theorem measure_of_written {tags : List UInt64} {raw rest : Bytes} (h : Tags.Written tags raw)
    (hr : Absent rest) : measure (raw ++ rest) = .ok raw.length := by
  induction h with
  | nil => exact measure_of_absent hr
  | @cons n tags head raw hh h ih =>
    obtain ⟨b, digits, rfl, hm, -⟩ := hh.exists_cons
    rw [List.append_assoc, List.cons_append, measure, if_pos hm, Argument.read_of_written hh]
    simp only [List.drop_left, ih, List.length_append, List.length_cons]
    congr 1
    omega

theorem written_of_measure {data : Bytes} {size : Nat} (h : measure data = .ok size) :
    ∃ tags raw rest, data = raw ++ rest ∧ raw.length = size ∧ Tags.Written tags raw ∧ Absent rest := by
  fun_induction measure data generalizing size with
  | case1 =>
    cases h
    exact ⟨[], [], [], rfl, rfl, .nil, nofun⟩
  | case2 b rest hm e he => cases h
  | case3 b rest hm argument ha e he ih => cases h
  | case4 b rest hm argument ha size' hs ih =>
    cases h
    obtain ⟨digits, after, rfl, hlen, hw, -⟩ := Argument.written_of_read ha
    rw [← hlen, List.drop_left] at hs ih
    obtain ⟨tags, raw, rest, rfl, rfl, ht, habs⟩ := ih hs
    rw [hm] at hw
    refine ⟨argument.value :: tags, (b :: digits) ++ raw, rest, by simp, ?_, .cons hw ht, habs⟩
    simp
    omega
  | case5 b rest hm =>
    cases h
    refine ⟨[], [], b :: rest, rfl, rfl, .nil, ?_⟩
    rintro c after ⟨rfl, rfl⟩
    exact hm

end Tags

/-! ## Chunks -/

namespace Chunks

/-- Chunks, each a head and a content, one after another. -/
def join (chunks : List (Bytes × Bytes)) : Bytes :=
  chunks.flatMap fun c => c.1 ++ c.2

/-- The chunks with the shortest heads. -/
def shortened (m : Major) (chunks : List (Bytes × Bytes)) : List (Bytes × Bytes) :=
  chunks.map fun c => (Head.encode m (UInt64.ofNat c.2.length), c.2)

/-- A head of the major type announces the length of the content, which is text if it is to be. -/
def Valid (m : Major) (c : Bytes × Bytes) : Prop :=
  Head.Written m c.2.length c.1 ∧ (m = .text → ∃ text, c.2 = Utf8.encode text)

/-- Chunks of text as chunks of bytes. -/
def encoded (texts : List (Bytes × String)) : List (Bytes × Bytes) :=
  texts.map fun c => (c.1, Utf8.encode c.2)

theorem join_encoded (texts : List (Bytes × String)) :
    join (encoded texts) = texts.flatMap fun c => c.1 ++ Utf8.encode c.2 := by
  simp [join, encoded, List.flatMap_map]

theorem valid_bytes {chunks : List (Bytes × Bytes)}
    (h : ∀ c ∈ chunks, Head.Written .bytes c.2.length c.1) : ∀ c ∈ chunks, Valid .bytes c := by
  intro c hc
  refine ⟨h c hc, ?_⟩
  intro hm
  cases hm

theorem valid_encoded {texts : List (Bytes × String)}
    (h : ∀ c ∈ texts, Head.Written .text (Utf8.size c.2) c.1) : ∀ c ∈ encoded texts, Valid .text c := by
  intro c hc
  obtain ⟨d, hd, rfl⟩ := List.mem_map.1 hc
  exact ⟨h d hd, fun _ => ⟨d.2, rfl⟩⟩

theorem exists_texts {chunks : List (Bytes × Bytes)} (h : ∀ c ∈ chunks, Valid .text c) :
    ∃ texts, chunks = encoded texts ∧ ∀ c ∈ texts, Head.Written .text (Utf8.size c.2) c.1 := by
  induction chunks with
  | nil => exact ⟨[], rfl, nofun⟩
  | cons c chunks ih =>
    obtain ⟨head, content⟩ := c
    obtain ⟨hw, hc⟩ := h (head, content) (by simp)
    obtain ⟨text, rfl⟩ := hc rfl
    obtain ⟨texts, rfl, ht⟩ := ih fun d hd => h d (by simp [hd])
    refine ⟨(head, text) :: texts, rfl, ?_⟩
    intro d hd
    rcases List.mem_cons.1 hd with rfl | hd
    · exact hw
    · exact ht d hd

theorem check_eq_ok_iff {m : Major} {content : Bytes} :
    check m content = .ok () ↔ (m = .text → ∃ text, content = Utf8.encode text) := by
  unfold check
  split
  · rename_i hm
    simp only [hm, true_imp_iff, ← Utf8.decode_eq_ok_iff]
    split
    · rename_i fault hf
      simp [hf]
    · rename_i text ht
      simp [ht]
  · rename_i hm
    simp [hm]

theorem join_cons (c : Bytes × Bytes) (chunks : List (Bytes × Bytes)) :
    join (c :: chunks) = c.1 ++ (c.2 ++ join chunks) := by
  simp [join]

theorem take_join (chunks : List (Bytes × Bytes)) (rest : Bytes) :
    (join chunks ++ Head.stop :: rest).take ((join chunks).length + 1) = join chunks ++ [Head.stop] := by
  simp [List.take_append, List.take_of_length_le]

theorem cons_eq_shortened_iff {m : Major} {c : Bytes × Bytes} {chunks : List (Bytes × Bytes)} :
    c :: chunks = shortened m (c :: chunks) ↔
      c.1 = Head.encode m (UInt64.ofNat c.2.length) ∧ chunks = shortened m chunks := by
  obtain ⟨head, content⟩ := c
  simp [shortened]

/-- Chunks are the shortest when they are written as with the shortest heads. -/
theorem shortened_eq_iff {m : Major} {chunks : List (Bytes × Bytes)} (h : ∀ c ∈ chunks, Valid m c) :
    chunks = shortened m chunks ↔ join chunks = join (shortened m chunks) := by
  induction chunks with
  | nil => simp [join, shortened]
  | cons c chunks ih =>
    have hc := (h c (by simp)).1
    have hn : (UInt64.ofNat c.2.length).toNat = c.2.length :=
      UInt64.toNat_ofNat_of_lt' hc.argument_lt
    have he : Head.Written m c.2.length (Head.encode m (UInt64.ofNat c.2.length)) := by
      have := Head.encode_written m (UInt64.ofNat c.2.length)
      rwa [hn] at this
    have hcons : shortened m (c :: chunks) =
        (Head.encode m (UInt64.ofNat c.2.length), c.2) :: shortened m chunks := rfl
    constructor
    · intro e
      rw [← e]
    · intro e
      rw [hcons, join_cons, join_cons] at e
      obtain ⟨e₁, e₂⟩ := hc.append_inj he e
      rw [List.append_cancel_left_eq] at e₂
      rw [hcons, ← (ih fun d hd => h d (by simp [hd])).2 e₂, ← e₁]

theorem measure_of_written {m : Major} {chunks : List (Bytes × Bytes)}
    (h : ∀ c ∈ chunks, Valid m c) (rest : Bytes) :
    measure m (join chunks ++ Head.stop :: rest) =
      .ok ((join chunks).length + 1, decide (chunks = shortened m chunks)) := by
  induction chunks with
  | nil =>
    show measure m (Head.stop :: rest) = _
    rw [measure, if_pos rfl]
    rfl
  | cons c chunks ih =>
    obtain ⟨head, content⟩ := c
    obtain ⟨hw, hc⟩ := h (head, content) (by simp)
    obtain ⟨b, digits, rfl, hm, hi⟩ := hw.exists_cons
    have hstop : b ≠ Head.stop := by
      rintro rfl
      exact absurd hi (by decide)
    have hkind : ¬ (Head.major b ≠ m ∨ Head.info b = 31) := by
      rintro (h | h)
      · exact h hm
      · omega
    have hdrop : (digits ++ (content ++ (join chunks ++ Head.stop :: rest))).drop
        (digits.length + content.length) = join chunks ++ Head.stop :: rest := by
      rw [← List.append_assoc, ← List.length_append, List.drop_left]
    rw [join_cons, List.append_assoc, List.append_assoc, List.cons_append, measure, if_neg hstop,
      if_neg hkind, Head.readString_of_written hw]
    simp only [check_eq_ok_iff.2 hc, hdrop, ih fun d hd => h d (by simp [hd])]
    simp [cons_eq_shortened_iff, Nat.add_assoc, Nat.add_comm 1]

theorem written_of_measure {m : Major} {data : Bytes} {size : Nat} {shortest : Bool}
    (h : measure m data = .ok (size, shortest)) :
    ∃ chunks rest, data = join chunks ++ Head.stop :: rest ∧ size = (join chunks).length + 1 ∧
      (∀ c ∈ chunks, Valid m c) ∧ shortest = decide (chunks = shortened m chunks) := by
  fun_induction measure m data generalizing size shortest with
  | case2 rest =>
    cases h
    exact ⟨[], rest, rfl, rfl, nofun, rfl⟩
  | case7 b rest hstop hkind content size' short hs hcheck more all hmore ih =>
    cases h
    obtain ⟨digits, after, rfl, rfl, hw, hshort⟩ := Head.written_of_readString hs
    have hm : Head.major b = m := by
      by_contra hm
      exact hkind (.inl hm)
    rw [← List.append_assoc, ← List.length_append, List.drop_left] at hmore ih
    obtain ⟨chunks, rest, rfl, rfl, hv, hall⟩ := ih hmore
    rw [hm] at hw hshort
    refine ⟨(b :: digits, content) :: chunks, rest, by simp [join_cons], ?_, ?_, ?_⟩
    · simp [join_cons]
      omega
    · intro c hc
      rcases List.mem_cons.1 hc with rfl | hc
      · exact ⟨hw, check_eq_ok_iff.1 hcheck⟩
      · exact hv c hc
    · simp [hshort, hall, cons_eq_shortened_iff]
  | _ => cases h

end Chunks

/-! ## Scalars and heads of containers -/

namespace Tree

/-- What the bytes of a scalar open as; chunks are kept as they stand. -/
def scalar? (front : Bytes) : Tree → Option Content
  | .unsigned n => some (.unsigned n)
  | .negative n => some (.negative n)
  | .bytes content => some (.bytes content)
  | .byteChunks _ => some (.byteChunks ⟨front.drop 1⟩)
  | .text content => some (.text content)
  | .textChunks _ => some (.textChunks ⟨front.drop 1⟩)
  | .bool b => some (.bool b)
  | .null => some .null
  | .undefined => some .undefined
  | .simple v => some (.simple v)
  | .float x => some (.float x)
  | .container _ _ _ => none
  | .tagged _ _ => none

/-- A float is the shortest when no narrower format holds the number. -/
def floatShortest : Bytes → Bool
  | [] => true
  | b :: content =>
    if Head.info b = 26 then Item.needsMoreThan .half (Format.single.decode (Bytes.toNat content))
    else if Head.info b = 27 then
      Item.needsMoreThan .single (Format.double.decode (Bytes.toNat content))
    else true

/-- A scalar is the shortest when its heads are the ones that would be written for it. -/
def shortest (front : Bytes) : Tree → Bool
  | .unsigned n => front = Head.encode .unsigned n
  | .negative n => front = Head.encode .negative n
  | .bytes content => front = Head.encode .bytes (UInt64.ofNat content.length) ++ content
  | .text content =>
    front = Head.encode .text (UInt64.ofNat (Utf8.size content)) ++ Utf8.encode content
  | .byteChunks contents =>
    front = Head.initial .bytes 31 :: Chunks.join (contents.map fun content =>
      (Head.encode .bytes (UInt64.ofNat content.length), content)) ++ [Head.stop]
  | .textChunks contents =>
    front = Head.initial .text 31 :: Chunks.join (contents.map fun content =>
      (Head.encode .text (UInt64.ofNat (Utf8.size content)), Utf8.encode content)) ++ [Head.stop]
  | .float _ => floatShortest front
  | _ => true

end Tree

namespace Tree

theorem shortest_bytes (head content : Bytes) :
    (bytes content).shortest (head ++ content) =
      decide (head = Head.encode .bytes (UInt64.ofNat content.length)) := by
  simp only [shortest, List.append_cancel_right_eq]

theorem shortest_text (head : Bytes) (content : String) :
    (text content).shortest (head ++ Utf8.encode content) =
      decide (head = Head.encode .text (UInt64.ofNat (Utf8.size content))) := by
  simp only [shortest, List.append_cancel_right_eq]

theorem shortest_byteChunks {chunks : List (Bytes × Bytes)} (h : ∀ c ∈ chunks, Chunks.Valid .bytes c) :
    (byteChunks (chunks.map Prod.snd)).shortest
        (Head.initial .bytes 31 :: Chunks.join chunks ++ [Head.stop]) =
      decide (chunks = Chunks.shortened .bytes chunks) := by
  simp only [shortest, List.map_map]
  rw [decide_eq_decide, Chunks.shortened_eq_iff h]
  simp [Chunks.join, Chunks.shortened, Function.comp_def]

theorem shortest_textChunks {texts : List (Bytes × String)}
    (h : ∀ c ∈ texts, Head.Written .text (Utf8.size c.2) c.1) :
    (textChunks (texts.map Prod.snd)).shortest
        (Head.initial .text 31 :: Chunks.join (Chunks.encoded texts) ++ [Head.stop]) =
      decide (Chunks.encoded texts = Chunks.shortened .text (Chunks.encoded texts)) := by
  simp only [shortest, List.map_map]
  rw [decide_eq_decide, Chunks.shortened_eq_iff (Chunks.valid_encoded h)]
  simp [Chunks.join, Chunks.shortened, Chunks.encoded, Utf8.size, Function.comp_def]

end Tree

/-- After `start` bytes of tags and in front of `rest`, the bytes `front` open as some content: a
scalar as a whole, and of a container the head. -/
inductive Content.Opens (start : Nat) (rest : Bytes) : (front : Bytes) → Content → Bool → Prop
  | scalar {t : Tree} {front : Bytes} {content : Content} (h : t.Written front)
      (hc : t.scalar? front = some content) : Opens start rest front content (t.shortest front)
  | definite {kind : Container} {n : Nat} {head : Bytes} (h : Head.Written kind.major n head)
      (hn : n * kind.arity < 0x10000000000000000) :
      Opens start rest head
        (.container ⟨kind, some (n * kind.arity), rest, start + head.length, 0⟩)
        (head = Head.encode kind.major (UInt64.ofNat n))
  | indefinite (kind : Container) :
      Opens start rest [Head.initial kind.major 31]
        (.container ⟨kind, none, rest, start + 1, 0⟩) true

theorem Content.Opens.of_scalar {start : Nat} {rest front : Bytes} {t : Tree} {content : Content}
    {shortest : Bool} (h : t.Written front) (hc : t.scalar? front = some content)
    (hs : shortest = t.shortest front) : Content.Opens start rest front content shortest :=
  hs ▸ .scalar h hc

/-! ### Reading is sound -/

namespace Item

/-- What was read after an initial byte opens, together with it, as the content that was read. -/
def OpensAfter (start : Nat) (b : UInt8) (rest : Bytes) (body : Body) : Prop :=
  ∃ front after, rest = front ++ after ∧ body.2.1 = front.length ∧
    Content.Opens start after (b :: front) body.1 body.2.2

section Sound
variable {start : Nat} {b : UInt8} {rest : Bytes} {body : Body}

theorem opensAfter_of_readInteger {make : UInt64 → Content} (leaf : UInt64 → Tree)
    (hleaf : ∀ {n head}, Head.Written (Head.major b) n.toNat head → (leaf n).Written head)
    (hc : ∀ n head, (leaf n).scalar? head = some (make n))
    (hs : ∀ n head, (leaf n).shortest head = decide (head = Head.encode (Head.major b) n))
    (h : readInteger make (Head.info b) rest = .ok body) : OpensAfter start b rest body := by
  unfold readInteger at h
  split at h
  · cases h
  · rename_i argument ha
    cases h
    obtain ⟨digits, after, rfl, hlen, hw, hshort⟩ := Argument.written_of_read ha
    refine ⟨digits, after, rfl, hlen.symm, .of_scalar (hleaf hw) (hc _ _) ?_⟩
    rw [hs, hshort]

theorem opensAfter_of_readBytes (hm : Head.major b = .bytes)
    (h : readBytes (Head.info b) rest = .ok body) : OpensAfter start b rest body := by
  unfold readBytes at h
  split at h
  · rename_i hi
    obtain rfl := (Head.initial_eq_iff (by decide)).2 ⟨hm, hi⟩
    split at h
    · cases h
    · rename_i size short hmeasure
      cases h
      obtain ⟨chunks, after, rfl, rfl, hv, hs⟩ := Chunks.written_of_measure hmeasure
      refine ⟨Chunks.join chunks ++ [Head.stop], after, by simp, by simp, ?_⟩
      rw [Chunks.take_join, hs, ← Tree.shortest_byteChunks hv]
      exact .of_scalar (.byteChunks fun c hc => (hv c hc).1) rfl rfl
  · split at h
    · cases h
    · rename_i content size short hs
      cases h
      obtain ⟨digits, after, rfl, rfl, hw, hshort⟩ := Head.written_of_readString hs
      rw [hm] at hw hshort
      refine ⟨digits ++ content, after, by simp, by simp, ?_⟩
      rw [hshort, ← Tree.shortest_bytes]
      exact .of_scalar (.bytes hw) rfl rfl

theorem opensAfter_of_readText (hm : Head.major b = .text)
    (h : readText (Head.info b) rest = .ok body) : OpensAfter start b rest body := by
  unfold readText at h
  split at h
  · rename_i hi
    obtain rfl := (Head.initial_eq_iff (by decide)).2 ⟨hm, hi⟩
    split at h
    · cases h
    · rename_i size short hmeasure
      cases h
      obtain ⟨chunks, after, rfl, rfl, hv, hs⟩ := Chunks.written_of_measure hmeasure
      obtain ⟨texts, rfl, ht⟩ := Chunks.exists_texts hv
      refine ⟨Chunks.join (Chunks.encoded texts) ++ [Head.stop], after, by simp, by simp, ?_⟩
      rw [Chunks.take_join, hs, ← Tree.shortest_textChunks ht, Chunks.join_encoded]
      exact .of_scalar (.textChunks ht) rfl rfl
  · split at h
    · cases h
    · rename_i content size short hs
      split at h
      · cases h
      · rename_i text ht
        cases h
        obtain rfl := Utf8.decode_eq_ok_iff.1 ht
        obtain ⟨digits, after, rfl, rfl, hw, hshort⟩ := Head.written_of_readString hs
        rw [hm] at hw hshort
        refine ⟨digits ++ Utf8.encode text, after, by simp, by simp, ?_⟩
        exact .of_scalar (.text hw) rfl (hshort.trans (Tree.shortest_text _ _).symm)

theorem opensAfter_of_readContainer {kind : Container}
    (h : readContainer kind (start + 1) (Head.info b) rest = .ok body) (hm : Head.major b = kind.major) :
    OpensAfter start b rest body := by
  unfold readContainer at h
  split at h
  · rename_i hi
    cases h
    obtain rfl := (Head.initial_eq_iff (by decide)).2 ⟨hm, hi⟩
    exact ⟨[], rest, rfl, rfl, .indefinite kind⟩
  · split at h
    · cases h
    · rename_i argument ha
      dsimp only at h
      split at h
      · rename_i hn
        cases h
        obtain ⟨digits, after, rfl, hlen, hw, hshort⟩ := Argument.written_of_read ha
        rw [hm] at hw hshort
        have : Content.Opens start after (b :: digits) _ _ := .definite hw hn
        refine ⟨digits, after, rfl, hlen.symm, ?_⟩
        rw [← hlen, List.drop_left, hshort]
        rw [UInt64.ofNat_toNat, List.length_cons, Nat.add_comm digits.length, ← Nat.add_assoc] at this
        exact this
      · cases h

/-- A float of a format, with what decides whether it is the shortest. -/
theorem opensAfter_of_readFloat {format : Format} {size : Nat} {short : Binary → Bool}
    (hfloat : ∀ content : Bytes, content.length = size →
      (Tree.float (.ofBinary (format.decode (Bytes.toNat content)))).Written (b :: content) ∧
        Tree.floatShortest (b :: content) = short (format.decode (Bytes.toNat content)))
    (h : readFloat format size short rest = .ok body) : OpensAfter start b rest body := by
  unfold readFloat at h
  split at h
  · rename_i content after hs
    cases h
    obtain ⟨rfl, hlen⟩ := Bytes.split?_eq_some_iff.1 hs
    obtain ⟨hw, hshort⟩ := hfloat content hlen
    exact ⟨content, after, rfl, hlen.symm, .of_scalar hw rfl hshort.symm⟩
  · cases h

theorem opensAfter_of_readSimple (hm : Head.major b = .simple)
    (h : readSimple (Head.info b) rest = .ok body) : OpensAfter start b rest body := by
  have hb : b = Head.initial .simple (Head.info b) :=
    (Head.initial_eq_iff (Head.info_lt b)).2 ⟨hm, rfl⟩
  generalize Head.info b = i at h hb
  subst hb
  unfold readSimple at h
  -- One test after another, as the reader makes them.
  by_cases hi : i < 20
  · rw [if_pos hi] at h
    cases h
    have hv : (UInt8.ofNat i).toNat = i := UInt8.toNat_ofNat_of_lt' (Nat.lt_trans hi (by decide))
    have hw : (Tree.simple (UInt8.ofNat i)).Written [Head.initial .simple (UInt8.ofNat i).toNat] :=
      .simple (by omega)
    rw [hv] at hw
    exact ⟨[], rest, rfl, rfl, .of_scalar hw rfl rfl⟩
  rw [if_neg hi] at h
  by_cases h20 : i = 20
  · rw [if_pos h20] at h
    subst h20
    cases h
    exact ⟨[], rest, rfl, rfl, .of_scalar (.bool false) rfl rfl⟩
  rw [if_neg h20] at h
  by_cases h21 : i = 21
  · rw [if_pos h21] at h
    subst h21
    cases h
    exact ⟨[], rest, rfl, rfl, .of_scalar (.bool true) rfl rfl⟩
  rw [if_neg h21] at h
  by_cases h22 : i = 22
  · rw [if_pos h22] at h
    subst h22
    cases h
    exact ⟨[], rest, rfl, rfl, .of_scalar .null rfl rfl⟩
  rw [if_neg h22] at h
  by_cases h23 : i = 23
  · rw [if_pos h23] at h
    subst h23
    cases h
    exact ⟨[], rest, rfl, rfl, .of_scalar .undefined rfl rfl⟩
  rw [if_neg h23] at h
  by_cases h24 : i = 24
  · rw [if_pos h24] at h
    subst h24
    cases rest with
    | nil => cases h
    | cons value after =>
      dsimp only at h
      by_cases hv : value < 32
      · rw [if_pos hv] at h
        cases h
      · rw [if_neg hv] at h
        cases h
        have hv : 32 ≤ value.toNat := Nat.not_lt.1 hv
        exact ⟨[value], after, rfl, rfl, .of_scalar (.simpleByte hv) rfl rfl⟩
  rw [if_neg h24] at h
  by_cases h25 : i = 25
  · rw [if_pos h25] at h
    subst h25
    exact opensAfter_of_readFloat (fun content hlen => ⟨.half hlen, rfl⟩) h
  rw [if_neg h25] at h
  by_cases h26 : i = 26
  · rw [if_pos h26] at h
    subst h26
    exact opensAfter_of_readFloat (fun content hlen => ⟨.single hlen, rfl⟩) h
  rw [if_neg h26] at h
  by_cases h27 : i = 27
  · rw [if_pos h27] at h
    subst h27
    exact opensAfter_of_readFloat (fun content hlen => ⟨.double hlen, rfl⟩) h
  rw [if_neg h27] at h
  cases h

theorem opensAfter_of_readBody (h : readBody (start + 1) b rest = .ok body) :
    OpensAfter start b rest body := by
  unfold readBody at h
  split at h
  · rename_i hm
    refine opensAfter_of_readInteger .unsigned ?_ (fun _ _ => rfl) ?_ h
    · rw [hm]
      exact .unsigned
    · rw [hm]
      exact fun _ _ => rfl
  · rename_i hm
    refine opensAfter_of_readInteger .negative ?_ (fun _ _ => rfl) ?_ h
    · rw [hm]
      exact .negative
    · rw [hm]
      exact fun _ _ => rfl
  · rename_i hm
    exact opensAfter_of_readBytes hm h
  · rename_i hm
    exact opensAfter_of_readText hm h
  · rename_i hm
    exact opensAfter_of_readContainer h hm
  · rename_i hm
    exact opensAfter_of_readContainer h hm
  · cases h
  · rename_i hm
    exact opensAfter_of_readSimple hm h

end Sound

/-! ### Reading is complete -/

section Complete
variable {start : Nat} {b : UInt8} {front rest : Bytes} {content : Content} {shortest : Bool}

theorem readFloat_of_length {format : Format} {size : Nat} (short : Binary → Bool) {digits : Bytes}
    (h : digits.length = size) :
    readFloat format size short (digits ++ rest) =
      .ok (.float (Double.ofBinary (format.decode (Bytes.toNat digits))), digits.length,
        short (format.decode (Bytes.toNat digits))) := by
  rw [readFloat, Bytes.split?_eq_some_iff.2 ⟨rfl, h⟩, h]

theorem readBytes_of_chunks {chunks : List (Bytes × Bytes)} (h : ∀ c ∈ chunks, Chunks.Valid .bytes c) :
    readBytes 31 (Chunks.join chunks ++ [Head.stop] ++ rest) =
      .ok (.byteChunks ⟨Chunks.join chunks ++ [Head.stop]⟩, (Chunks.join chunks ++ [Head.stop]).length,
        decide (chunks = Chunks.shortened .bytes chunks)) := by
  rw [List.append_assoc, readBytes, if_pos rfl, List.singleton_append, Chunks.measure_of_written h]
  simp only [Chunks.take_join, List.length_append, List.length_singleton]

theorem readText_of_chunks {chunks : List (Bytes × Bytes)} (h : ∀ c ∈ chunks, Chunks.Valid .text c) :
    readText 31 (Chunks.join chunks ++ [Head.stop] ++ rest) =
      .ok (.textChunks ⟨Chunks.join chunks ++ [Head.stop]⟩, (Chunks.join chunks ++ [Head.stop]).length,
        decide (chunks = Chunks.shortened .text chunks)) := by
  rw [List.append_assoc, readText, if_pos rfl, List.singleton_append, Chunks.measure_of_written h]
  simp only [Chunks.take_join, List.length_append, List.length_singleton]

theorem readBody_simple {i : Nat} (h : i < 32) :
    readBody start (Head.initial .simple i) rest = readSimple i rest := by
  rw [readBody, Head.major_initial _ h, Head.info_initial _ h]

theorem readBody_of_scalar {t : Tree} (h : t.Written (b :: front))
    (hc : t.scalar? (b :: front) = some content) :
    readBody (start + 1) b (front ++ rest) = .ok (content, front.length, t.shortest (b :: front)) := by
  generalize hw : b :: front = whole at h
  cases h with
  | unsigned h =>
    subst hw
    cases hc
    obtain ⟨_, _, ⟨rfl, rfl⟩, hm, -⟩ := h.exists_cons
    rw [readBody, hm]
    dsimp only
    rw [readInteger, Argument.read_of_written h, UInt64.ofNat_toNat]
    rfl
  | negative h =>
    subst hw
    cases hc
    obtain ⟨_, _, ⟨rfl, rfl⟩, hm, -⟩ := h.exists_cons
    rw [readBody, hm]
    dsimp only
    rw [readInteger, Argument.read_of_written h, UInt64.ofNat_toNat]
    rfl
  | @bytes content head h =>
    cases hc
    obtain ⟨_, digits, rfl, hm, hi⟩ := h.exists_cons
    rw [List.cons_append] at hw
    obtain ⟨rfl, rfl⟩ := List.cons.inj hw
    rw [readBody, hm]
    dsimp only
    simp only [readBytes, if_neg (show Head.info b ≠ 31 by omega), List.append_assoc,
      Head.readString_of_written h, List.length_append, Tree.shortest_bytes]
  | @text content head h =>
    cases hc
    obtain ⟨_, digits, rfl, hm, hi⟩ := h.exists_cons
    rw [List.cons_append] at hw
    obtain ⟨rfl, rfl⟩ := List.cons.inj hw
    rw [readBody, hm]
    dsimp only
    simp only [readText, if_neg (show Head.info b ≠ 31 by omega), List.append_assoc,
      Head.readString_of_written h, List.length_append, Tree.shortest_text,
      Utf8.decode_encode]
    rfl
  | @byteChunks chunks h =>
    cases hc
    rw [List.cons_append] at hw
    obtain ⟨rfl, rfl⟩ := List.cons.inj hw
    refine (readBytes_of_chunks (Chunks.valid_bytes h)).trans ?_
    rw [← Tree.shortest_byteChunks (Chunks.valid_bytes h)]
    rfl
  | @textChunks texts h =>
    cases hc
    rw [List.cons_append, ← Chunks.join_encoded] at hw
    rw [← Chunks.join_encoded]
    obtain ⟨rfl, rfl⟩ := List.cons.inj hw
    refine (readText_of_chunks (Chunks.valid_encoded h)).trans ?_
    rw [← Tree.shortest_textChunks h]
    rfl
  | definite | indefinite | tagged => cases hc
  | bool v =>
    cases hw
    cases hc
    cases v <;> rfl
  | null | undefined =>
    cases hw
    cases hc
    rfl
  | @simple v h =>
    cases hw
    cases hc
    rw [readBody_simple (by omega)]
    unfold readSimple
    rw [if_pos h, UInt8.ofNat_toNat]
    rfl
  | @simpleByte v h =>
    cases hw
    cases hc
    have hv : ¬ v < 32 := Nat.not_lt.2 h
    rw [readBody_simple (by decide)]
    exact if_neg hv
  | half h =>
    cases hw
    cases hc
    rw [readBody_simple (by decide)]
    exact readFloat_of_length (fun _ => true) h
  | single h =>
    cases hw
    cases hc
    rw [readBody_simple (by decide)]
    exact readFloat_of_length _ h
  | double h =>
    cases hw
    cases hc
    rw [readBody_simple (by decide)]
    exact readFloat_of_length _ h

theorem readBody_of_opens (h : Content.Opens start rest (b :: front) content shortest) :
    readBody (start + 1) b (front ++ rest) = .ok (content, front.length, shortest) := by
  cases h with
  | scalar h hc => exact readBody_of_scalar h hc
  | @definite kind n _ h hn =>
    obtain ⟨_, _, ⟨rfl, rfl⟩, hm, hi⟩ := h.exists_cons
    have hvalue : (UInt64.ofNat n).toNat = n := UInt64.toNat_ofNat_of_lt' h.argument_lt
    have : readContainer kind (start + 1) (Head.info b) (front ++ rest) =
        .ok (.container ⟨kind, some (n * kind.arity), rest, start + (b :: front).length, 0⟩, front.length,
          decide (b :: front = Head.encode kind.major (UInt64.ofNat n))) := by
      rw [readContainer, if_neg (by omega), Argument.read_of_written h]
      simp only [hvalue, if_pos hn, List.drop_left, List.length_cons, Nat.add_comm front.length,
        ← Nat.add_assoc]
    rw [readBody, hm]
    cases kind <;> exact this
  | indefinite kind => cases kind <;> rfl

/-- What opens does not start with a tag. -/
theorem absent_of_opens (h : Content.Opens start rest front content shortest) :
    ∃ b after, front = b :: after ∧ Head.major b ≠ .tag := by
  cases h with
  | @scalar t _ _ h hc =>
    obtain ⟨b, after, rfl, ht, -⟩ := h.starts
    refine ⟨b, after, rfl, ?_⟩
    intro hm
    rw [ht] at hm
    obtain ⟨n, inner, rfl⟩ := Tree.eq_tagged_of_major hm
    cases hc
  | @definite kind _ _ h hn =>
    obtain ⟨b, digits, rfl, hm, -⟩ := h.exists_cons
    exact ⟨b, digits, rfl, by cases kind <;> simp [hm, Container.major]⟩
  | indefinite kind => exact ⟨_, [], rfl, by cases kind <;> decide⟩

end Complete

/-! ### Opening -/

/-- An item opens exactly at tags and, behind them, bytes that open. -/
theorem open?_eq_some_iff {data : Bytes} {item : Item} :
    open? data = .ok (some item) ↔
      ∃ numbers front rest, Tags.Written numbers item.tags.raw ∧
        data = item.tags.raw ++ (front ++ rest) ∧
        Content.Opens item.tags.raw.length rest front item.content item.shortest ∧
        item.size = item.tags.raw.length + front.length := by
  obtain ⟨⟨raw⟩, shortest, content, size⟩ := item
  constructor
  · intro h
    unfold open? Tags.read at h
    split at h
    · cases h
    · rename_i tags ht
      split at ht
      · cases ht
      · rename_i size' hmeasure
        cases ht
        obtain ⟨numbers, raw', rest', rfl, rfl, hw, habs⟩ := Tags.written_of_measure hmeasure
        simp only [List.take_left, Tags.size, List.drop_left] at h
        split at h
        · split at h <;> cases h
        · rename_i b rest
          split at h
          · cases h
          · rename_i content' size' shortest' hbody
            cases h
            obtain ⟨front, after, rfl, hsize, hopens⟩ := opensAfter_of_readBody hbody
            refine ⟨numbers, b :: front, after, hw, rfl, hopens, ?_⟩
            simp only at hsize
            simp only [hsize, List.length_cons]
            omega
  · rintro ⟨numbers, front, rest, hw, rfl, hopens, hsize⟩
    simp only at hw hopens hsize ⊢
    obtain ⟨b, after, rfl, hm⟩ := absent_of_opens hopens
    have habs : Tags.Absent ((b :: after) ++ rest) := by
      rintro c rest ⟨rfl, rfl⟩
      exact hm
    rw [open?, Tags.read, Tags.measure_of_written hw habs]
    simp only [List.take_left, Tags.size, List.drop_left, List.cons_append, readBody_of_opens hopens,
      hsize, List.length_cons]
    congr 3
    omega

end Item

end CborRecords
