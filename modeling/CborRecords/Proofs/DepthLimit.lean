import CborRecords.Proofs.ErrorRange
import CborRecords.Proofs.Keeping

/-!
# The limit on the depth

Skipping goes at most as many containers deep as it is allowed to. A limit that is not met changes nothing: a
greater one gives the same length or, on bytes that are no item, the same error, since items are met in the
same order and each with one level less to go. A container takes a byte for its head, so that no byte string
nests deeper than it is long.

* `CutsOff` : one result is that of another, or of meeting the limit; `CutsOff.bind` : one result after another;
* `Cursor.cutsOff_reached`, `Item.cutsOff_skip` : a lower limit only cuts off;
* `Item.length_cursor_lt` : the items of a container start behind its head; `Item.reports_skip_of_length` : so
  a limit of as many levels as there are bytes is never met;
* `Entry.lower_limit_cuts_off` : both for the item at the front of a byte string.
-/

namespace CborRecords

/-- The first result is the second one, unless it comes from the limit on the depth. -/
def CutsOff {α : Type} (r r' : Except DecodeError α) : Prop :=
  r = .error .maxRecursion ∨ r' = r

namespace CutsOff
variable {α β : Type} {r r' : Except DecodeError α}

theorem refl (r : Except DecodeError α) : CutsOff r r :=
  .inr rfl

theorem bind {k k' : α → Except DecodeError β} (h : CutsOff r r') (hk : ∀ a, CutsOff (k a) (k' a)) :
    CutsOff (r.bind k) (r'.bind k') := by
  rcases h with rfl | rfl
  · exact .inl rfl
  · cases r' with
    | error e => exact .refl _
    | ok a => exact hk a

end CutsOff

/-! ## Lower limits -/

/-- Visits that only cut off make a traversal that only cuts off: up to the first of them that meets the limit
both traversals go over the same items. -/
theorem Cursor.cutsOff_reached {β : Type} {visit visit' : Item → List β × Except DecodeError Nat}
    (hvisit : ∀ item, CutsOff (visit item).2 (visit' item).2) (limit : Nat) (c : Cursor) :
    CutsOff (reached visit limit c) (reached visit' limit c) := by
  induction limit using Nat.strongRecOn generalizing c with
  | _ limit ih =>
    rw [reached_eq, reached_eq]
    refine (CutsOff.refl _).bind ?_
    rintro ⟨found, c'⟩
    cases found with
    | none => exact .refl _
    | some item =>
      refine (hvisit item).bind fun n => ?_
      by_cases hlimit : limit = 0
      · rw [if_pos hlimit, if_pos hlimit]
        exact .refl _
      · rw [if_neg hlimit, if_neg hlimit]
        exact ih (limit - 1) (by omega) _

namespace Item

theorem cutsOff_skip {m m' : Nat} (hm : m ≤ m') (item : Item) : CutsOff (item.skip m) (item.skip m') := by
  induction m generalizing m' item with
  | zero =>
    rcases item.container_or_scalar with ⟨start, hc⟩ | hs
    · exact .inl (skip_container_zero hc)
    · rw [skip_scalar 0 hs, skip_scalar m' hs]
      exact .refl _
  | succ m ih =>
    obtain ⟨m', rfl⟩ : ∃ n, m' = n + 1 := ⟨m' - 1, by omega⟩
    rcases item.container_or_scalar with ⟨start, hc⟩ | hs
    · rw [skip_container hc, skip_container hc]
      exact (Cursor.cutsOff_reached (ih (by omega)) _ _).bind fun _ => .refl _
    · rw [skip_scalar _ hs, skip_scalar _ hs]
      exact .refl _

/-! ## Limits that are never met -/

/-- The head of a container takes a byte at least. -/
theorem length_cursor_lt {data : Bytes} {item : Item} {start : Cursor} (ho : open? data = .ok (some item))
    (hc : item.content = .container start) : start.rest.length < data.length := by
  obtain ⟨numbers, front, rest, -, rfl, hopens, -⟩ := open?_eq_some_iff.1 ho
  obtain ⟨b, after, rfl, -⟩ := absent_of_opens hopens
  rw [hc] at hopens
  rw [hopens.cursor.1]
  simp only [List.length_append, List.length_cons]
  omega

theorem reports_skip_of_length {data : Bytes} {item : Item} {m : Nat} (ho : open? data = .ok (some item))
    (hm : data.length ≤ m) : Reports (· ≠ .maxRecursion) (item.skip m) := by
  induction m generalizing data item with
  | zero =>
    rcases item.container_or_scalar with ⟨start, hc⟩ | hs
    · have hlt := length_cursor_lt ho hc
      omega
    · rw [skip_scalar 0 hs]
      exact .ok _
  | succ m ih =>
    rcases item.container_or_scalar with ⟨start, hc⟩ | hs
    · have hlt := length_cursor_lt ho hc
      have hshallow (e : DecodeError) (h : e.Shallow) : e ≠ .maxRecursion := by
        rintro rfl
        exact h
      rw [skip_container hc]
      refine (Cursor.reports_reached hshallow ih _ (show start.rest.length ≤ m by omega)).bind ?_
      intro last hlast
      obtain ⟨n, hn⟩ := Cursor.exists_close_of_reached hlast
      rw [hn]
      exact .ok n
    · rw [skip_scalar _ hs]
      exact .ok _

end Item

/-! ## The item at the front -/

namespace Entry

/-- Of two limits on the depth the lower one is met, or both give the same: the length of the item, or what is
wrong with the bytes. A limit that is not below the number of bytes is never met. -/
theorem lower_limit_cuts_off (data : Bytes) :
    (∀ m m' : Nat, m ≤ m' →
      ((skip m).run data).2 = .error .maxRecursion ∨ (skip m').run data = (skip m).run data) ∧
    ∀ m : Nat, data.length ≤ m → ((skip m).run data).2 ≠ .error .maxRecursion := by
  cases hopen : Cursor.require (Item.open? data) with
  | error e =>
    have hrun (m : Nat) : (skip m).run data = ([], .error e) := by
      rw [run_skip, hopen]
      rfl
    have he : e ≠ .maxRecursion := by
      rintro rfl
      exact Item.reports_require (Item.reports_open? data) _ hopen
    refine ⟨fun m m' _ => .inr (by rw [hrun, hrun]), fun m _ h => ?_⟩
    rw [hrun] at h
    exact he (Except.error.inj h)
  | ok item =>
    have hrun (m : Nat) : (skip m).run data = ([.entered 0 item], item.skip m) := by
      rw [run_skip, hopen]
      rfl
    constructor
    · intro m m' hm
      rw [hrun, hrun]
      exact (Item.cutsOff_skip hm item).imp_right (congrArg _)
    · intro m hm h
      rw [hrun] at h
      exact Item.reports_skip_of_length (Cursor.require_eq_ok_iff.1 hopen) hm _ h rfl

/-- Three arrays, one in another, and a byte missing: they are met by a limit of two levels and not by one of
four, as many as there are bytes, behind which the missing byte is met. -/
theorem missing_byte_behind_three_arrays :
    let data : Bytes := [0x81, 0x81, 0x82, 0x00]
    ((skip 2).run data).2 = .error .maxRecursion ∧ 3 ≤ 4 ∧
      ((skip 3).run data).2 = .error .notEnoughData ∧ (skip 4).run data = (skip 3).run data ∧
      data.length ≤ 4 ∧ ((skip 4).run data).2 ≠ .error .maxRecursion := by
  intro data
  have hthree : ((skip 3).run data).2 = .error .notEnoughData := by decide +kernel
  have hsame : (skip 4).run data = (skip 3).run data := by
    refine ((lower_limit_cuts_off data).1 3 4 (by decide)).resolve_left ?_
    rw [hthree]
    simp
  exact ⟨by decide +kernel, by decide, hthree, hsame, by decide, (lower_limit_cuts_off data).2 4 (by decide)⟩

end Entry

end CborRecords
