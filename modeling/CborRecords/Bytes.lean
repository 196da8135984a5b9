/-!
# Byte strings

* `Bytes` : a byte string, first byte first;
* `Bytes.toNat`, `Bytes.ofNat` : big-endian numbers of a given number of bytes;
* `Bytes.split?` : the first `n` bytes and what follows them, if there are that many.
-/

namespace CborRecords

/-- A byte string, first byte first. -/
abbrev Bytes := List UInt8

namespace Bytes

/-- The number whose base-256 digits are the bytes, most significant first. -/
def toNat (bytes : Bytes) : Nat :=
  bytes.foldl (fun n b => n * 256 + b.toNat) 0

/-- The last `size` base-256 digits of `n`, most significant first. -/
def ofNat : (size n : Nat) → Bytes
  | 0, _ => []
  | size + 1, n => ofNat size (n / 256) ++ [UInt8.ofNat (n % 256)]

@[simp] theorem length_ofNat (size n : Nat) : (ofNat size n).length = size := by
  induction size generalizing n with
  | zero => rfl
  | succ size ih => simp [ofNat, ih]

theorem toNat_append_singleton (bytes : Bytes) (b : UInt8) :
    toNat (bytes ++ [b]) = toNat bytes * 256 + b.toNat := by
  simp [toNat, List.foldl_append]

/-- Reading back what `ofNat` wrote, for a number that fits. -/
theorem toNat_ofNat (size n : Nat) (h : n < Nat.pow 256 size) : toNat (ofNat size n) = n := by
  induction size generalizing n with
  | zero =>
    have : n = 0 := Nat.lt_one_iff.1 h
    simp [ofNat, toNat, this]
  | succ size ih =>
    have : n / 256 < Nat.pow 256 size := by
      have h : n < Nat.pow 256 size * 256 := h
      omega
    rw [ofNat, toNat_append_singleton, ih _ this]
    simp
    omega

/-- The first `n` bytes and the bytes after them, or nothing when there are fewer. -/
def split? (n : Nat) (bytes : Bytes) : Option (Bytes × Bytes) :=
  let front := bytes.take n
  if front.length = n then some (front, bytes.drop n) else none

theorem split?_eq_some_iff {n : Nat} {bytes front rest : Bytes} :
    split? n bytes = some (front, rest) ↔ bytes = front ++ rest ∧ front.length = n := by
  simp only [split?]
  split
  · rename_i h
    constructor
    · rintro ⟨⟩
      exact ⟨(List.take_append_drop n bytes).symm, h⟩
    · rintro ⟨rfl, hn⟩
      simp [← hn]
  · rename_i h
    constructor
    · rintro ⟨⟩
    · rintro ⟨rfl, hn⟩
      exact absurd (by simp [← hn]) h

theorem split?_eq_none_iff {n : Nat} {bytes : Bytes} : split? n bytes = none ↔ bytes.length < n := by
  simp only [split?]
  split <;> rename_i h <;> simp at h ⊢ <;> omega

/-- What follows the first byte is shorter, however much of it is dropped. -/
theorem length_drop_lt (b : UInt8) (rest : Bytes) (n : Nat) :
    (rest.drop n).length < (b :: rest).length := by
  rw [List.length_drop, List.length_cons]
  omega

end Bytes

end CborRecords
