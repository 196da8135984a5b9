import CborRecords.Proofs.Integers

/-!
# Shortest forms

An item that is read has a flag that says its head is the shortest. The flag is set exactly if the head is the one
that would be written: for an integer by its argument, for a string by its length and for a container by the number
of its entries. A string in chunks has it if all its chunks do.

* `Content.head?` : the major type and the argument of a head, `Content.Opens.exists_head` : the head itself;
* `Content.chunks?` : the bytes of chunks, `Content.Opens.exists_chunks` : the chunks themselves;
* `ScalarType.exists_opens_of_read` : where a scalar was read from;
* `Item.shortest_iff_canonical` : what the flag means.
-/

namespace CborRecords

/-! ## Heads -/

/-- A head is the one that is written exactly if no other is shorter. -/
theorem Head.Written.eq_encode_iff {m : Major} {n : Nat} {head : Bytes} (h : Head.Written m n head) :
    head = Head.encode m (UInt64.ofNat n) ↔ Head.Shortest m n head := by
  have hshort := Head.shortest_encode_ofNat m h.argument_lt
  constructor
  · intro heq
    rw [heq]
    exact hshort
  · intro hhead
    exact h.eq_of_length_eq hshort.written
      (Nat.le_antisymm (hhead.length_le hshort.written) (hshort.length_le h))

namespace Content

/-- The major type and the argument of an item's head: the argument of an integer, the length of a string or the
number of entries of a container, if it is definite. -/
def head? : Content → Option (Major × Nat)
  | .unsigned n => some (.unsigned, n.toNat)
  | .negative n => some (.negative, n.toNat)
  | .bytes content => some (.bytes, content.length)
  | .text content => some (.text, Utf8.size content)
  | .container c => c.count.map fun n => (c.kind.major, n / c.kind.arity)
  | _ => none

/-- The major type and the bytes of chunks, with the byte that ends them. -/
def chunks? : Content → Option (Major × Bytes)
  | .byteChunks chunks => some (.bytes, chunks.raw)
  | .textChunks chunks => some (.text, chunks.raw)
  | _ => none

variable {start : Nat} {rest front : Bytes} {content : Content} {shortest : Bool} {m : Major}

/-- What opens with a definite head starts with it, and has the shortest flag set if it is the one that is written. -/
theorem Opens.exists_head {n : Nat} (h : Opens start rest front content shortest)
    (hhead : content.head? = some (m, n)) :
    ∃ head body, front = head ++ body ∧ Head.Written m n head ∧
      shortest = decide (head = Head.encode m (UInt64.ofNat n)) := by
  cases h with
  | @scalar t _ _ h hc =>
    cases h with
    | unsigned h | negative h =>
      cases hc
      cases hhead
      exact ⟨front, [], (List.append_nil _).symm, h, by rw [UInt64.ofNat_toNat]; rfl⟩
    | bytes h =>
      cases hc
      cases hhead
      exact ⟨_, _, rfl, h, Tree.shortest_bytes _ _⟩
    | text h =>
      cases hc
      cases hhead
      exact ⟨_, _, rfl, h, Tree.shortest_text _ _⟩
    | _ => cases hc <;> cases hhead
  | @definite kind k _ h hk =>
    have hn : k * kind.arity / kind.arity = k := Nat.mul_div_cancel _ kind.arity_pos
    rw [head?, Option.map_some, hn] at hhead
    cases hhead
    exact ⟨front, [], (List.append_nil _).symm, h, rfl⟩
  | indefinite => cases hhead

/-- What opens as chunks consists of them, and has the shortest flag set if all their heads are the ones that are
written. -/
theorem Opens.exists_chunks {raw : Bytes} (h : Opens start rest front content shortest)
    (hchunks : content.chunks? = some (m, raw)) :
    ∃ chunks, (∀ c ∈ chunks, Chunks.Valid m c) ∧ raw = Chunks.join chunks ++ [Head.stop] ∧
      front = Head.initial m 31 :: raw ∧ shortest = decide (chunks = Chunks.shortened m chunks) := by
  cases h with
  | @scalar t _ _ h hc =>
    cases h with
    | @byteChunks chunks h =>
      cases hc
      cases hchunks
      exact ⟨chunks, Chunks.valid_bytes h, rfl, rfl, Tree.shortest_byteChunks (Chunks.valid_bytes h)⟩
    | @textChunks texts h =>
      cases hc
      cases hchunks
      rw [← Chunks.join_encoded]
      exact ⟨Chunks.encoded texts, Chunks.valid_encoded h, rfl, rfl, Tree.shortest_textChunks h⟩
    | _ => cases hc <;> cases hchunks
  | definite | indefinite => cases hchunks

end Content

/-- Chunks have the heads that are written exactly if each has. -/
theorem Chunks.eq_shortened_iff {m : Major} {chunks : List (Bytes × Bytes)} :
    chunks = shortened m chunks ↔ ∀ c ∈ chunks, c.1 = Head.encode m (UInt64.ofNat c.2.length) := by
  induction chunks with
  | nil => exact iff_of_true rfl nofun
  | cons c chunks ih => rw [cons_eq_shortened_iff, ih, List.forall_mem_cons]

/-- The bytes of chunks decide whether their heads are the ones that are written. -/
theorem Chunks.shortened_congr {m : Major} {chunks chunks' : List (Bytes × Bytes)}
    (h : ∀ c ∈ chunks, Valid m c) (h' : ∀ c ∈ chunks', Valid m c) (heq : join chunks = join chunks') :
    chunks = shortened m chunks ↔ chunks' = shortened m chunks' := by
  have hmeasure := measure_of_written h []
  rw [heq, measure_of_written h' []] at hmeasure
  exact (decide_eq_decide.1 (congrArg Prod.snd (Except.ok.inj hmeasure))).symm

/-! ## Scalars -/

theorem Tags.append_eq_iff {numbers : List UInt64} {raw front bytes : Bytes} (ht : Tags.Written numbers raw)
    (hbytes : Tags.Absent bytes) : raw ++ front = bytes ↔ raw = [] ∧ front = bytes := by
  cases ht with
  | nil => exact (and_iff_right rfl).symm
  | cons hw ht =>
    obtain ⟨b, digits, rfl, hm, -⟩ := hw.exists_cons
    exact iff_of_false (fun heq => hbytes b _ heq.symm hm) nofun

theorem Head.Denotes.absent {x : Int} {head : Bytes} (h : Head.Denotes x head) : Tags.Absent head := by
  rintro b rest rfl
  cases h with
  | unsigned h | negative h =>
    obtain ⟨b', digits, heq, hm, -⟩ := h.exists_cons
    cases heq
    rw [hm]
    decide

namespace Item
variable {item : Item}

theorem int?_of_scalar {t : IntType} {x : Int} (h : item.scalar (.int t) = .ok (.int x)) :
    item.content.int? = some x ∧ t.contains x := by
  unfold scalar at h
  dsimp only at h
  rw [integer_eq] at h
  rcases hx : item.content.int? with _ | y
  · rw [hx] at h
    cases h
  · rw [hx, Option.elim] at h
    rcases hv : t.verdict y with e | z
    · rw [hv] at h
      cases h
    · rw [hv] at h
      cases h
      obtain ⟨hc, rfl⟩ := IntType.contains_of_verdict hv
      exact ⟨rfl, hc⟩

theorem content_of_scalar {b : Bool} (h : item.scalar .bool = .ok (.bool b)) : item.content = .bool b := by
  unfold scalar at h
  dsimp only at h
  split at h
  · rename_i hc
    cases h
    exact hc
  · cases h

end Item

/-- A boolean opens from one byte. -/
theorem Content.Opens.eq_bool {start : Nat} {rest front : Bytes} {b shortest : Bool}
    (h : Content.Opens start rest front (.bool b) shortest) :
    front = [Head.initial .simple (if b then 21 else 20)] ∧ shortest = true := by
  generalize hc : Content.bool b = content at h
  cases h with
  | @scalar t _ _ h hs =>
    cases h with
    | bool b' =>
      cases hs
      cases hc
      exact ⟨rfl, rfl⟩
    | _ => cases hs <;> cases hc
  | definite | indefinite => cases hc

namespace ScalarType
variable {t : ScalarType} {data : Bytes} {value : Scalar} {s : Bool} {len : Nat}

/-- A scalar was read from tags and bytes that open as it. -/
theorem exists_opens_of_read (h : t.read data = .ok (value, s, len)) :
    ∃ item numbers front rest, Item.scalar t item = .ok value ∧ Tags.Written numbers item.tags.raw ∧
      Content.Opens item.tags.raw.length rest front item.content item.shortest ∧
      data.take len = item.tags.raw ++ front ∧ s = (item.shortest && item.tags.raw.isEmpty) := by
  unfold read read? at h
  rcases ho : Item.open? data with e | (_ | item)
  · rw [ho] at h
    cases h
  · rw [ho] at h
    cases h
  · rw [ho] at h
    dsimp only at h
    rcases hscalar : item.scalar t with e | v
    · rw [hscalar] at h
      cases h
    · rw [hscalar] at h
      cases h
      obtain ⟨numbers, front, rest, ht, rfl, hopens, hsize⟩ := Item.open?_eq_some_iff.1 ho
      refine ⟨item, numbers, front, rest, hscalar, ht, hopens, ?_, rfl⟩
      rw [hsize, ← List.length_append, ← List.append_assoc, List.take_left]

/-- The shortest flag of a scalar that was read is set exactly if it has no tags and would be written so. -/
theorem shortest_iff {numbers : List UInt64} {raw front bytes : Bytes} (ht : Tags.Written numbers raw)
    (hbytes : Tags.Absent bytes) :
    (decide (front = bytes) && raw.isEmpty) = true ↔ raw ++ front = bytes := by
  rw [Tags.append_eq_iff ht hbytes, Bool.and_eq_true, decide_eq_true_eq, List.isEmpty_iff, and_comm]

theorem shortest_int_iff {t : IntType} {x : Int} (h : (int t).read data = .ok (.int x, s, len)) :
    (Value.ofInteger t x).Emits (Head.ofInt x) ∧ (s = true ↔ data.take len = Head.ofInt x) := by
  obtain ⟨item, numbers, front, rest, hscalar, ht, hopens, htake, rfl⟩ := exists_opens_of_read h
  obtain ⟨hx, hc⟩ := Item.int?_of_scalar hscalar
  have hrange := IntType.range_of_contains hc
  have habsent := (Head.denotes_ofInt hrange.1 hrange.2).absent
  rw [htake, (hopens.denotes hx).2, shortest_iff ht habsent]
  exact ⟨Value.emits_ofInteger hc, Iff.rfl⟩

theorem shortest_bool_iff {b : Bool} (h : bool.read data = .ok (.bool b, s, len)) :
    s = true ↔ data.take len = [Head.initial .simple (if b then 21 else 20)] := by
  obtain ⟨item, numbers, front, rest, hscalar, ht, hopens, htake, rfl⟩ := exists_opens_of_read h
  rw [Item.content_of_scalar hscalar] at hopens
  obtain ⟨rfl, hshort⟩ := hopens.eq_bool
  have habsent : Tags.Absent [Head.initial .simple (if b then 21 else 20)] := by
    rintro _ _ ⟨⟩
    cases b <;> decide
  rw [htake, ← shortest_iff ht habsent, hshort, decide_eq_true rfl]

end ScalarType

/-! ## The shortest flag -/

namespace Item
variable {data : Bytes} {item : Item} {m : Major}

theorem shortest_iff_of_head {n : Nat} (ho : open? data = .ok (some item)) (hn : item.content.head? = some (m, n)) :
    ∃ numbers head rest, Tags.Written numbers item.tags.raw ∧ data = item.tags.raw ++ (head ++ rest) ∧
      Head.Written m n head ∧ (item.shortest = true ↔ head = Head.encode m (UInt64.ofNat n)) := by
  obtain ⟨numbers, front, rest, ht, rfl, hopens, -⟩ := open?_eq_some_iff.1 ho
  obtain ⟨head, body, rfl, hw, hshort⟩ := hopens.exists_head hn
  exact ⟨numbers, head, body ++ rest, ht, by rw [List.append_assoc], hw, by rw [hshort, decide_eq_true_eq]⟩

theorem shortest_iff_of_chunks {raw : Bytes} (ho : open? data = .ok (some item))
    (hraw : item.content.chunks? = some (m, raw)) :
    ∃ numbers chunks rest, Tags.Written numbers item.tags.raw ∧
      data = item.tags.raw ++ (Head.initial m 31 :: raw ++ rest) ∧
      (∀ c ∈ chunks, Chunks.Valid m c) ∧ raw = Chunks.join chunks ++ [Head.stop] ∧
      (item.shortest = true ↔ chunks = Chunks.shortened m chunks) := by
  obtain ⟨numbers, front, rest, ht, rfl, hopens, -⟩ := open?_eq_some_iff.1 ho
  obtain ⟨chunks, hvalid, hjoin, rfl, hshort⟩ := hopens.exists_chunks hraw
  exact ⟨numbers, chunks, rest, ht, rfl, hvalid, hjoin, by rw [hshort, decide_eq_true_eq]⟩

/-- The `shortest` flag of an item with a definite head is set exactly if the head, behind its tags, is the one that
is written for its major type and argument, which is to say the shortest there is. Of an indefinite-length string it is
set exactly if this holds of the head of each chunk, and of an integer or a boolean that was read exactly if its bytes
are those that it is written as. -/
theorem shortest_iff_canonical :
    (∀ (data : Bytes) (item : Item) (m : Major) (n : Nat), open? data = .ok (some item) →
      item.content.head? = some (m, n) →
        ∃ numbers head rest, Tags.Written numbers item.tags.raw ∧ data = item.tags.raw ++ (head ++ rest) ∧
          Head.Written m n head ∧ (item.shortest = true ↔ head = Head.encode m (UInt64.ofNat n)) ∧
          (item.shortest = true ↔ Head.Shortest m n head)) ∧
    (∀ (data : Bytes) (item : Item) (m : Major) (raw : Bytes), open? data = .ok (some item) →
      item.content.chunks? = some (m, raw) →
        (∃ numbers chunks rest, Tags.Written numbers item.tags.raw ∧
          data = item.tags.raw ++ (Head.initial m 31 :: raw ++ rest) ∧
          (∀ c ∈ chunks, Chunks.Valid m c) ∧ raw = Chunks.join chunks ++ [Head.stop]) ∧
        ∀ chunks, (∀ c ∈ chunks, Chunks.Valid m c) → raw = Chunks.join chunks ++ [Head.stop] →
          (item.shortest = true ↔ ∀ c ∈ chunks, c.1 = Head.encode m (UInt64.ofNat c.2.length))) ∧
    (∀ (t : IntType) (data : Bytes) (x : Int) (s : Bool) (len : Nat),
      (ScalarType.int t).read data = .ok (.int x, s, len) →
        ∃ e, (Value.ofInteger t x).Emits e ∧ (s = true ↔ data.take len = e)) ∧
    ∀ (data : Bytes) (b s : Bool) (len : Nat), ScalarType.bool.read data = .ok (.bool b, s, len) →
      ∃ e, (Value.bool b).Emits e ∧ (s = true ↔ data.take len = e) := by
  refine ⟨?_, ?_, ?_, ?_⟩
  · intro data item m n ho hn
    obtain ⟨numbers, head, rest, ht, hdata, hw, hshort⟩ := shortest_iff_of_head ho hn
    exact ⟨numbers, head, rest, ht, hdata, hw, hshort, hshort.trans hw.eq_encode_iff⟩
  · intro data item m raw ho hraw
    obtain ⟨numbers, chunks, rest, ht, hdata, hvalid, hjoin, hshort⟩ := shortest_iff_of_chunks ho hraw
    refine ⟨⟨numbers, chunks, rest, ht, hdata, hvalid, hjoin⟩, ?_⟩
    intro chunks' hvalid' hjoin'
    have heq : Chunks.join chunks = Chunks.join chunks' := List.append_cancel_right (hjoin.symm.trans hjoin')
    rw [hshort, Chunks.shortened_congr hvalid hvalid' heq, Chunks.eq_shortened_iff]
  · intro t data x s len h
    exact ⟨_, ScalarType.shortest_int_iff h⟩
  · intro data b s len h
    exact ⟨_, .of_emit fun _ => rfl, ScalarType.shortest_bool_iff h⟩

/-- A tagged map of one entry has its argument in a byte of its own, and so has the second of two chunks: neither is
in the shortest form. An integer that needs the byte is, and a tagged boolean is not. -/
theorem wide_heads_are_not_shortest :
    let map : Item := ⟨⟨[0xC1]⟩, false, .container ⟨.map, some 2, [0x00, 0x01], 3, 0⟩, 3⟩
    let string : Item := ⟨⟨[]⟩, false, .byteChunks ⟨[0x41, 0x00, 0x58, 0x01, 0x00, 0xFF]⟩, 7⟩
    let chunks : List (Bytes × Bytes) := [([0x41], [0x00]), ([0x58, 0x01], [0x00])]
    open? [0xC1, 0xB8, 0x01, 0x00, 0x01] = .ok (some map) ∧
      open? [0x5F, 0x41, 0x00, 0x58, 0x01, 0x00, 0xFF] = .ok (some string) ∧
      (∃ head rest, [0xC1, 0xB8, 0x01, 0x00, 0x01] = [0xC1] ++ (head ++ rest) ∧ Head.Written .map 1 head ∧
        ¬ Head.Shortest .map 1 head) ∧
      (¬ ∀ c ∈ chunks, c.1 = Head.encode .bytes (UInt64.ofNat c.2.length)) ∧
      (Value.ofInteger ⟨false, .w8⟩ 24).Emits [0x18, 0x18] ∧
      ∃ e, (Value.bool true).Emits e ∧ [0xC1, 0xF5] ≠ e := by
  intro map string chunks
  have hmap : open? [0xC1, 0xB8, 0x01, 0x00, 0x01] = .ok (some map) := by decide +kernel
  have hstring : open? [0x5F, 0x41, 0x00, 0x58, 0x01, 0x00, 0xFF] = .ok (some string) := by decide +kernel
  have hnumber : (ScalarType.int ⟨false, .w8⟩).read [0x18, 0x18] = .ok (.int 24, true, 2) := by decide +kernel
  have hbool : ScalarType.bool.read [0xC1, 0xF5] = .ok (.bool true, false, 2) := by decide +kernel
  have hvalid : ∀ c ∈ chunks, Chunks.Valid .bytes c := by
    simp only [chunks, List.forall_mem_cons, List.not_mem_nil, false_imp_iff, implies_true, and_true]
    exact ⟨⟨.inside (by decide), nofun⟩, ⟨.after .w8 [0x01] rfl, nofun⟩⟩
  obtain ⟨hheads, hchunks, hints, hbools⟩ := shortest_iff_canonical
  obtain ⟨-, head, rest, -, hdata, hw, -, hhead⟩ := hheads _ map .map 1 hmap (by decide)
  have hchunk := (hchunks _ string .bytes _ hstring rfl).2 chunks hvalid rfl
  obtain ⟨e, hemits, hint⟩ := hints _ _ _ _ _ hnumber
  obtain rfl : [0x18, 0x18] = e := hint.1 rfl
  obtain ⟨e', hemits', htrue⟩ := hbools _ _ _ _ hbool
  refine ⟨hmap, hstring, ⟨head, rest, hdata, hw, ?_⟩, ?_, hemits, e', hemits', ?_⟩
  · intro h
    cases hhead.2 h
  · intro h
    cases hchunk.2 h
  · intro h
    cases htrue.2 h

end Item

end CborRecords
