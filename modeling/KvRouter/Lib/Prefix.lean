import Mathlib.Data.List.Basic
import Mathlib.Tactic.Common

/-!
# Prefixes of lists

`heads l` are the non-empty prefixes of `l`, shortest first.  `lcp a b` is the
length of the longest common prefix of two lists, and `longest q ls` the
greatest such length between `q` and a member of `ls`.
-/

namespace Prefix

variable {α : Type*}

/-! ## Non-empty prefixes -/

def heads (l : List α) : List (List α) := (List.range l.length).map fun n => l.take (n + 1)

/-- The heads of a list are its non-empty prefixes. -/
theorem mem_heads {l p : List α} : p ∈ heads l ↔ ∃ n, 0 < n ∧ n ≤ l.length ∧ p = l.take n := by
  simp only [heads, List.mem_map, List.mem_range]
  constructor
  · rintro ⟨n, hn, rfl⟩
    exact ⟨n + 1, Nat.succ_pos n, hn, rfl⟩
  · rintro ⟨n, hpos, hn, rfl⟩
    exact ⟨n - 1, by omega, by rw [Nat.sub_add_cancel hpos]⟩

/-! ## Longest common prefix -/

variable [DecidableEq α]

def lcp : List α → List α → ℕ
  | a :: as, b :: bs => if a = b then lcp as bs + 1 else 0
  | _, _ => 0

/-- `lcp` is the greatest length at which both lists have the same prefix. -/
theorem le_lcp_iff {as bs : List α} {n : ℕ} :
    n ≤ lcp as bs ↔ n ≤ as.length ∧ n ≤ bs.length ∧ as.take n = bs.take n := by
  induction as generalizing bs n with
  | nil =>
      have hzero : lcp ([] : List α) bs = 0 := by cases bs <;> rfl
      rw [hzero, List.length_nil]
      constructor
      · intro hn
        have h0 : n = 0 := Nat.le_zero.mp hn
        simp [h0]
      · exact fun h => h.1
  | cons a as ih =>
      cases bs with
      | nil =>
          simp only [lcp, List.length_nil]
          constructor
          · intro hn
            have h0 : n = 0 := Nat.le_zero.mp hn
            simp [h0]
          · exact fun h => h.2.1
      | cons b bs =>
          cases n with
          | zero => simp
          | succ n =>
              by_cases hab : a = b
              · simp [lcp, hab, ih]
              · simp [lcp, hab]

theorem lcp_self (l : List α) : lcp l l = l.length :=
  Nat.le_antisymm (le_lcp_iff.mp (Nat.le_refl _)).1
    (le_lcp_iff.mpr ⟨Nat.le_refl _, Nat.le_refl _, rfl⟩)

/-- Equal members have equal images. -/
theorem lcp_le_lcp_map {β : Type*} [DecidableEq β] (f : α → β) (as bs : List α) :
    lcp as bs ≤ lcp (as.map f) (bs.map f) := by
  obtain ⟨has, hbs, htake⟩ := le_lcp_iff.mp (Nat.le_refl (lcp as bs))
  rw [le_lcp_iff, List.length_map, List.length_map, ← List.map_take, ← List.map_take, htake]
  exact ⟨has, hbs, rfl⟩

/-- A map that is injective on two lists keeps their common prefix. -/
theorem lcp_map {β : Type*} [DecidableEq β] {f : α → β} {as bs : List α}
    (hf : ∀ x ∈ as, ∀ y ∈ bs, f x = f y → x = y) : lcp (as.map f) (bs.map f) = lcp as bs := by
  induction as generalizing bs with
  | nil => cases bs <;> rfl
  | cons a as ih =>
      cases bs with
      | nil => rfl
      | cons b bs =>
          have hhead : f a = f b ↔ a = b := ⟨hf a (by simp) b (by simp), congrArg f⟩
          have htail : lcp (as.map f) (bs.map f) = lcp as bs :=
            ih fun x hx y hy => hf x (by simp [hx]) y (by simp [hy])
          simp [lcp, hhead, htail]

/-- The longest common prefix of `q` with a member of `ls`, `0` when there is none. -/
def longest (q : List α) (ls : List (List α)) : ℕ := (ls.map (lcp q)).foldr max 0

/-- The longest common prefix is bounded by a bound on all. -/
theorem longest_le_iff {q : List α} {ls : List (List α)} {n : ℕ} :
    longest q ls ≤ n ↔ ∀ l ∈ ls, lcp q l ≤ n := by
  unfold longest
  induction ls with
  | nil => simp
  | cons l ls ih => rw [List.map_cons, List.foldr_cons, Nat.max_le, ih, List.forall_mem_cons]

theorem lcp_le_longest {q l : List α} {ls : List (List α)} (h : l ∈ ls) :
    lcp q l ≤ longest q ls := longest_le_iff.mp (Nat.le_refl _) l h

end Prefix
