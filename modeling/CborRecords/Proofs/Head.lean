import CborRecords.Head
import CborRecords.Width
import Mathlib.Data.List.Induction

/-!
# Heads in any width

An argument may be written in more bytes than it needs, so a head is described by a relation. Reading
a head and writing one in the relation are inverse, and a head is the shortest one exactly when it is
the one that `Head.encode` gives.

* `Head.Written m n head` : `head` is a head of major type `m` and argument `n`;
* `Argument.read_of_written`, `Argument.written_of_read` : reading an argument, both ways;
* `Head.encode_written` : the shortest head is a head;
* `Head.readString_of_written`, `Head.written_of_readString` : the same for strings with their heads.
-/

namespace CborRecords

/-! ## Numbers in bytes -/

namespace Bytes

theorem toNat_lt (bytes : Bytes) : toNat bytes < Nat.pow 256 bytes.length := by
  induction bytes using List.reverseRecOn with
  | nil => exact Nat.one_pos
  | append_singleton front b ih =>
    rw [toNat_append_singleton, List.length_append, List.length_singleton]
    show _ < Nat.pow 256 front.length * 256
    have := b.toNat_lt
    omega

/-- Writing back what `toNat` read. -/
theorem ofNat_toNat (bytes : Bytes) : ofNat bytes.length (toNat bytes) = bytes := by
  induction bytes using List.reverseRecOn with
  | nil => rfl
  | append_singleton front b ih =>
    have hb := b.toNat_lt
    rw [toNat_append_singleton, List.length_append, List.length_singleton, ofNat,
      show (toNat front * 256 + b.toNat) / 256 = toNat front by omega,
      show (toNat front * 256 + b.toNat) % 256 = b.toNat by omega, ih, UInt8.ofNat_toNat]

end Bytes

/-! ## Initial bytes -/

theorem Major.code_ofCode {k : Nat} (h : k < 8) : (Major.ofCode k).code = k := by
  match k, h with
  | 0, _ | 1, _ | 2, _ | 3, _ | 4, _ | 5, _ | 6, _ | 7, _ => rfl

namespace Head

theorem info_lt (b : UInt8) : info b < 32 :=
  Nat.mod_lt _ (by decide)

/-- An initial byte is that of its parts. -/
theorem initial_major_info (b : UInt8) : initial (major b) (info b) = b := by
  have hb := b.toNat_lt
  rw [← UInt8.toNat_inj, toNat_initial _ (info_lt b), major, Major.code_ofCode (by omega), info]
  omega

theorem initial_eq_iff {m : Major} {i : Nat} (hi : i < 32) {b : UInt8} :
    b = initial m i ↔ major b = m ∧ info b = i := by
  constructor
  · rintro rfl
    exact ⟨major_initial m hi, info_initial m hi⟩
  · rintro ⟨rfl, rfl⟩
    exact (initial_major_info b).symm

theorem stop_eq : stop = initial .simple 31 := rfl

end Head

/-! ## Heads -/

namespace Width

/-- The additional information that announces an argument of a width. -/
def info : Width → Nat
  | .w8 => 24
  | .w16 => 25
  | .w32 => 26
  | .w64 => 27

/-- The least argument that needs a width. -/
def least : Width → Nat
  | .w8 => 24
  | .w16 => 0x100
  | .w32 => 0x10000
  | .w64 => 0x100000000

theorem info_lt (w : Width) : w.info < 32 := by
  cases w <;> decide

theorem bytes_pos (w : Width) : 0 < w.bytes := by
  cases w <;> decide

theorem bytes_injective {v w : Width} (h : v.bytes = w.bytes) : v = w := by
  cases v <;> cases w <;> first | rfl | cases h

theorem pow_bytes_le (w : Width) : Nat.pow 256 w.bytes ≤ 0x10000000000000000 := by
  cases w <;> decide

end Width

namespace Head

/-- A head of a major type and an argument. The argument stands in the initial byte, or in one, two,
four or eight bytes after it, whether it needs them or not. -/
inductive Written (m : Major) : (n : Nat) → Bytes → Prop
  | inside {n : Nat} (h : n < 24) : Written m n [initial m n]
  | after (w : Width) (digits : Bytes) (h : digits.length = w.bytes) :
      Written m (Bytes.toNat digits) (initial m w.info :: digits)

variable {m : Major} {n : Nat} {head : Bytes}

theorem Written.ne_nil (h : Written m n head) : head ≠ [] := by
  cases h <;> exact List.cons_ne_nil _ _

theorem Written.argument_lt (h : Written m n head) : n < 0x10000000000000000 := by
  cases h with
  | inside h => omega
  | after w digits h =>
    have := Bytes.toNat_lt digits
    rw [h] at this
    exact Nat.lt_of_lt_of_le this w.pow_bytes_le

/-- A head starts with an initial byte of its major type that announces an argument. -/
theorem Written.exists_cons (h : Written m n head) :
    ∃ b digits, head = b :: digits ∧ major b = m ∧ info b < 28 := by
  cases h with
  | inside h => exact ⟨_, _, rfl, major_initial m (by omega), by rw [info_initial m (by omega)]; omega⟩
  | after w digits h =>
    refine ⟨_, _, rfl, major_initial m w.info_lt, ?_⟩
    rw [info_initial m w.info_lt]
    cases w <;> decide

theorem encode_inside (h : n < 24) : encode m (UInt64.ofNat n) = [initial m n] := by
  have hn : (UInt64.ofNat n).toNat = n :=
    UInt64.toNat_ofNat_of_lt' (Nat.lt_trans h (by decide))
  rw [encode, hn, if_pos h]

theorem encode_after (w : Width) (h : w.least ≤ n) (h' : n < Nat.pow 256 w.bytes) :
    encode m (UInt64.ofNat n) = initial m w.info :: Bytes.ofNat w.bytes n := by
  have hn : (UInt64.ofNat n).toNat = n :=
    UInt64.toNat_ofNat_of_lt' (Nat.lt_of_lt_of_le h' w.pow_bytes_le)
  rw [encode, hn]
  cases w with
  | w8 =>
    have h : 24 ≤ n := h
    have h' : n < 0x100 := h'
    rw [if_neg (by omega), if_pos h']
    rfl
  | w16 =>
    have h : 0x100 ≤ n := h
    have h' : n < 0x10000 := h'
    rw [if_neg (by omega), if_neg (by omega), if_pos h']
    rfl
  | w32 =>
    have h : 0x10000 ≤ n := h
    have h' : n < 0x100000000 := h'
    rw [if_neg (by omega), if_neg (by omega), if_neg (by omega), if_pos h']
    rfl
  | w64 =>
    have h : 0x100000000 ≤ n := h
    rw [if_neg (by omega), if_neg (by omega), if_neg (by omega), if_neg (by omega)]
    rfl

/-- The width that an argument needs when it does not stand in the initial byte. -/
theorem exists_width (h : 24 ≤ n) (h' : n < 0x10000000000000000) :
    ∃ w : Width, w.least ≤ n ∧ n < Nat.pow 256 w.bytes := by
  by_cases h1 : n < 0x100
  · exact ⟨.w8, h, h1⟩
  by_cases h2 : n < 0x10000
  · exact ⟨.w16, Nat.not_lt.1 h1, h2⟩
  by_cases h4 : n < 0x100000000
  · exact ⟨.w32, Nat.not_lt.1 h2, h4⟩
  · exact ⟨.w64, Nat.not_lt.1 h4, h'⟩

/-- The shortest head is a head. -/
theorem encode_written (m : Major) (n : UInt64) : Written m n.toNat (encode m n) := by
  have hlt : n.toNat < 0x10000000000000000 := n.toNat_lt
  rw [show encode m n = encode m (UInt64.ofNat n.toNat) by rw [UInt64.ofNat_toNat]]
  by_cases h : n.toNat < 24
  · rw [encode_inside h]
    exact .inside h
  · obtain ⟨w, hw, hw'⟩ := exists_width (Nat.not_lt.1 h) hlt
    rw [encode_after w hw hw']
    have := Written.after (m := m) w (Bytes.ofNat w.bytes n.toNat) (Bytes.length_ofNat _ _)
    rwa [Bytes.toNat_ofNat _ _ hw'] at this

/-- A head with its argument after the initial byte is the shortest exactly when the argument needs
the width. -/
theorem encode_eq_after_iff {w : Width} {digits : Bytes} (hd : digits.length = w.bytes) :
    initial m w.info :: digits = encode m (UInt64.ofNat (Bytes.toNat digits)) ↔
      w.least ≤ Bytes.toNat digits := by
  have hlt := Bytes.toNat_lt digits
  have hof := Bytes.ofNat_toNat digits
  rw [hd] at hlt hof
  constructor
  · intro heq
    have hlen := congrArg List.length heq
    by_cases h : Bytes.toNat digits < 24
    · -- the argument would stand in the initial byte
      have := w.bytes_pos
      rw [encode_inside h, List.length_cons, List.length_singleton] at hlen
      omega
    · obtain ⟨v, hv, hv'⟩ := exists_width (Nat.not_lt.1 h) (Nat.lt_of_lt_of_le hlt w.pow_bytes_le)
      rw [encode_after v hv hv', List.length_cons, List.length_cons, Bytes.length_ofNat, hd] at hlen
      rwa [Width.bytes_injective (Nat.succ.inj hlen)]
  · intro h
    rw [encode_after w h hlt, hof]

end Head

/-! ## Arguments -/

namespace Argument

theorem read_inside {n : Nat} (h : n < 24) (rest : Bytes) :
    read n rest = .ok ⟨UInt64.ofNat n, 0, true⟩ := by
  rw [read, if_pos h]

theorem read_width (w : Width) (rest : Bytes) : read w.info rest = readFixed w.bytes w.least rest := by
  cases w <;> rfl

/-- Additional information announces an argument by itself, by a width, or not at all. -/
theorem info_cases {i : Nat} (h : i < 32) : i < 24 ∨ (∃ w : Width, i = w.info) ∨ 28 ≤ i := by
  by_cases h1 : i < 24
  · exact .inl h1
  by_cases h2 : 28 ≤ i
  · exact .inr (.inr h2)
  · have : i = 24 ∨ i = 25 ∨ i = 26 ∨ i = 27 := by omega
    rcases this with rfl | rfl | rfl | rfl
    · exact .inr (.inl ⟨.w8, rfl⟩)
    · exact .inr (.inl ⟨.w16, rfl⟩)
    · exact .inr (.inl ⟨.w32, rfl⟩)
    · exact .inr (.inl ⟨.w64, rfl⟩)

theorem read_past {i : Nat} (h : 28 ≤ i) (rest : Bytes) :
    read i rest = .error (.invalidMinorValue (UInt8.ofNat i)) := by
  rw [read, if_neg (by omega), if_neg (by omega), if_neg (by omega), if_neg (by omega),
    if_neg (by omega)]

variable {m : Major} {n : Nat} {b : UInt8} {digits rest : Bytes}

/-- The argument of a head is read off it, whatever follows; it is the shortest when the head is. -/
theorem read_of_written (h : Head.Written m n (b :: digits)) (rest : Bytes) :
    read (Head.info b) (digits ++ rest) =
      .ok ⟨UInt64.ofNat n, digits.length, decide (b :: digits = Head.encode m (UInt64.ofNat n))⟩ := by
  cases h with
  | inside h =>
    rw [Head.info_initial m (by omega), read_inside h, Head.encode_inside h]
    simp
  | after w digits h =>
    have hs : Bytes.split? w.bytes (digits ++ rest) = some (digits, rest) :=
      Bytes.split?_eq_some_iff.2 ⟨rfl, h⟩
    rw [Head.info_initial m w.info_lt, read_width, readFixed, hs]
    simp only [h, Head.encode_eq_after_iff h]

/-- What was read as an argument makes a head together with the initial byte. -/
theorem written_of_read {argument : Argument} (h : read (Head.info b) rest = .ok argument) :
    ∃ digits after, rest = digits ++ after ∧ digits.length = argument.size ∧
      Head.Written (Head.major b) argument.value.toNat (b :: digits) ∧
      argument.shortest = decide (b :: digits = Head.encode (Head.major b) argument.value) := by
  have hb := Head.initial_major_info b
  rcases info_cases (Head.info_lt b) with hi | ⟨w, hi⟩ | hi
  · rw [read_inside hi] at h
    cases h
    have hn : (UInt64.ofNat (Head.info b)).toNat = Head.info b :=
      UInt64.toNat_ofNat_of_lt' (Nat.lt_trans hi (by decide))
    refine ⟨[], rest, rfl, rfl, ?_, ?_⟩
    · have := Head.Written.inside (m := Head.major b) hi
      rwa [hb, ← hn] at this
    · rw [Head.encode_inside hi, hb]
      simp
  · rw [hi, read_width, readFixed] at h
    rw [hi] at hb
    split at h
    · rename_i front after hs
      obtain ⟨rfl, hlen⟩ := Bytes.split?_eq_some_iff.1 hs
      cases h
      have hhead := Head.Written.after (m := Head.major b) w front hlen
      have hn : (UInt64.ofNat (Bytes.toNat front)).toNat = Bytes.toNat front :=
        UInt64.toNat_ofNat_of_lt' hhead.argument_lt
      refine ⟨front, after, rfl, hlen, ?_, ?_⟩
      · rwa [hb, ← hn] at hhead
      · have := Head.encode_eq_after_iff (m := Head.major b) hlen
        rw [hb] at this
        simp only [this]
    · cases h
  · rw [read_past hi] at h
    cases h

end Argument

/-- No head is the start of another. -/
theorem Head.Written.append_inj {m : Major} {n n' : Nat} {head head' x y : Bytes}
    (h : Head.Written m n head) (h' : Head.Written m n' head') (e : head ++ x = head' ++ y) :
    head = head' ∧ x = y := by
  obtain ⟨b, digits, rfl, -, -⟩ := h.exists_cons
  obtain ⟨b', digits', rfl, -, -⟩ := h'.exists_cons
  rw [List.cons_append, List.cons_append, List.cons.injEq] at e
  obtain ⟨rfl, e⟩ := e
  have hr := Argument.read_of_written h x
  rw [e, Argument.read_of_written h' y] at hr
  have hlen : digits'.length = digits.length := congrArg Argument.size (Except.ok.inj hr)
  obtain ⟨rfl, rfl⟩ := List.append_inj e hlen.symm
  exact ⟨rfl, rfl⟩

theorem Head.Written.unique {m : Major} {n n' : Nat} {head : Bytes} (h : Head.Written m n head)
    (h' : Head.Written m n' head) : n = n' := by
  obtain ⟨b, digits, rfl, -, -⟩ := h.exists_cons
  have hread := Argument.read_of_written h []
  rw [Argument.read_of_written h' []] at hread
  have hvalue : UInt64.ofNat n' = UInt64.ofNat n := congrArg Argument.value (Except.ok.inj hread)
  have hnat := congrArg UInt64.toNat hvalue
  rwa [UInt64.toNat_ofNat_of_lt' h.argument_lt, UInt64.toNat_ofNat_of_lt' h'.argument_lt, eq_comm] at hnat

/-! ## Strings -/

namespace Head
variable {m : Major} {b : UInt8} {digits content rest : Bytes}

/-- The content of a string is read off it, whatever follows. -/
theorem readString_of_written (h : Written m content.length (b :: digits)) (rest : Bytes) :
    readString (info b) (digits ++ (content ++ rest)) =
      .ok (content, digits.length + content.length,
        decide (b :: digits = encode m (UInt64.ofNat content.length))) := by
  have hn : (UInt64.ofNat content.length).toNat = content.length :=
    UInt64.toNat_ofNat_of_lt' h.argument_lt
  have hs : Bytes.split? content.length (content ++ rest) = some (content, rest) :=
    Bytes.split?_eq_some_iff.2 ⟨rfl, rfl⟩
  simp only [readString, Argument.read_of_written h, List.drop_left, hn, hs]

/-- What was read as a string has a head whose argument is its length. -/
theorem written_of_readString {size : Nat} {shortest : Bool}
    (h : readString (info b) rest = .ok (content, size, shortest)) :
    ∃ digits after, rest = digits ++ (content ++ after) ∧ size = digits.length + content.length ∧
      Written (major b) content.length (b :: digits) ∧
      shortest = decide (b :: digits = encode (major b) (UInt64.ofNat content.length)) := by
  unfold readString at h
  split at h
  · cases h
  · rename_i argument ha
    obtain ⟨digits, after, rfl, hlen, hw, hs⟩ := Argument.written_of_read ha
    rw [← hlen, List.drop_left] at h
    split at h
    · rename_i content' after' hsplit
      obtain ⟨rfl, hc⟩ := Bytes.split?_eq_some_iff.1 hsplit
      cases h
      have hv : argument.value = UInt64.ofNat content.length := by rw [hc, UInt64.ofNat_toNat]
      refine ⟨digits, after', rfl, rfl, by rwa [hc], ?_⟩
      rw [hs, hv]
    · cases h

end Head

end CborRecords
