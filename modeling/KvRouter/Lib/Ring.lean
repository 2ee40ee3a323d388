import Mathlib.Data.List.Basic
import Mathlib.Tactic.Common

/-!
# Ring buffers

Slots that are written in turn, the first one after the last.  `Holds` says that
the slots hold the newest `count` of all elements written so far, each at its
distance behind the slot that is written next (`back`).
-/

namespace Ring

variable {α : Type*} {slots written : List α} {size next count k : ℕ}

/-! ## Slots -/

/-- The slot that is written after slot `next`. -/
def advance (size next : ℕ) : ℕ := (next + 1) % size

/-- The slot of the `k`-th newest element when slot `next` is written next. -/
def back (size next k : ℕ) : ℕ := if k < next then next - 1 - k else next + size - 1 - k

/-- The next index is one more, or the first one after the last. -/
theorem advance_eq (h : next < size) :
    advance size next = if next + 1 = size then 0 else next + 1 := by
  unfold advance
  split
  · next heq => rw [heq, Nat.mod_self]
  · next hne => exact Nat.mod_eq_of_lt (by omega)

/-- A write makes its element the newest, -/
theorem back_advance_zero (h : next < size) : back size (advance size next) 0 = next := by
  rw [advance_eq h]
  unfold back
  split_ifs <;> omega

/-- and all others one older. -/
theorem back_advance_succ (h : next < size) (hk : k + 1 < size) :
    back size (advance size next) (k + 1) = back size next k ∧ back size next k ≠ next := by
  rw [advance_eq h]
  unfold back
  split_ifs <;> omega

/-! ## Contents -/

/-- The slots hold the newest of the elements `written`. -/
structure Holds (slots written : List α) (next count : ℕ) : Prop where
  next_lt : next < slots.length
  count_eq : count = min written.length slots.length
  newest : ∀ k < count, slots[back slots.length next k]? = written.reverse[k]?

theorem Holds.start (h : 0 < slots.length) : Holds slots [] 0 0 :=
  ⟨h, by simp, by simp⟩

theorem Holds.count_le (h : Holds slots written next count) : count ≤ written.length := by
  rw [h.count_eq]
  exact Nat.min_le_left _ _

/-- **A write** replaces the oldest element once all slots are full. -/
theorem Holds.write (h : Holds slots written next count) (x : α) :
    Holds (slots.set next x) (written ++ [x]) (advance slots.length next)
      (if count < slots.length then count + 1 else count) where
  next_lt := by
    rw [List.length_set]
    exact Nat.mod_lt _ (Nat.zero_lt_of_lt h.next_lt)
  count_eq := by
    rw [List.length_append, List.length_singleton, List.length_set, h.count_eq]
    split <;> omega
  newest k hk := by
    have hcount := h.count_eq
    have hk' : k < slots.length := by split at hk <;> omega
    rw [List.length_set, List.reverse_append, List.reverse_singleton, List.singleton_append]
    cases k with
    | zero => simp [back_advance_zero h.next_lt, h.next_lt]
    | succ k =>
        obtain ⟨hback, hne⟩ := back_advance_succ h.next_lt hk'
        rw [hback, List.getElem?_set_ne (Ne.symm hne), List.getElem?_cons_succ]
        exact h.newest k (by split at hk <;> omega)

/-- The element that a read finds. -/
theorem Holds.read (h : Holds slots written next count) (hk : k < count) :
    ∃ x, slots[back slots.length next k]? = some x ∧
      written.reverse.drop k = x :: written.reverse.drop (k + 1) := by
  have hlen : k < written.reverse.length := by
    rw [List.length_reverse]
    exact Nat.lt_of_lt_of_le hk h.count_le
  exact ⟨written.reverse[k], by rw [h.newest k hk, List.getElem?_eq_getElem hlen],
    List.drop_eq_getElem_cons hlen⟩

end Ring
