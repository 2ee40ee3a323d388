import Mathlib.Data.List.DropRight
import Mathlib.Tactic.Common

/-!
# Latches over a history

A history is a list that grows at its end.  A latch holds when some point of the
history set it and no later point reset it (`Held`); the rule for one more event
is `held_concat`.  `trailing a l` is the length of the run of `a` that a history
ends with, and `rises`, `falls` count the changes of a property over its
prefixes; a property that does not hold at the start has risen as often as it
fell, and once more while it holds (`rises_eq_falls_add`).
-/

namespace Latch

variable {α : Type*}

/-! ## Runs at the end -/

/-- How many copies of `a` the history ends with. -/
def trailing [DecidableEq α] (a : α) (l : List α) : ℕ := (l.rtakeWhile (· = a)).length

@[simp] theorem trailing_concat_self [DecidableEq α] (a : α) (l : List α) :
    trailing a (l ++ [a]) = trailing a l + 1 := by
  simp [trailing, List.rtakeWhile_concat_pos]

theorem trailing_concat_of_ne [DecidableEq α] {a b : α} (h : b ≠ a) (l : List α) :
    trailing a (l ++ [b]) = 0 := by
  simp [trailing, List.rtakeWhile_concat_neg, h]

/-- A history ends with `n` copies of `a` if its last run of them is that long. -/
theorem replicate_suffix_iff [DecidableEq α] {n : ℕ} {a : α} {l : List α} :
    List.replicate n a <:+ l ↔ n ≤ trailing a l := by
  rw [← List.reverse_prefix, List.reverse_replicate, trailing, List.rtakeWhile, List.length_reverse]
  generalize l.reverse = m
  induction m generalizing n with
  | nil => simp [List.prefix_nil, List.replicate_eq_nil_iff]
  | cons b m ih =>
      cases n with
      | zero => simp
      | succ n =>
          rw [List.replicate_succ, List.cons_prefix_cons, ih, List.takeWhile_cons]
          by_cases h : b = a
          · simp [h]
          · simp [h, Ne.symm h]

/-! ## Set and reset -/

/-- Some point of the history sets the latch and no later point resets it. -/
def Held (set reset : List α → Prop) (l : List α) : Prop :=
  ∃ i ≤ l.length, set (l.take i) ∧ ∀ j ≤ l.length, i < j → ¬ reset (l.take j)

variable {set reset : List α → Prop}

instance [DecidablePred set] [DecidablePred reset] : DecidablePred (Held set reset) :=
  fun l => inferInstanceAs (Decidable (∃ i ≤ l.length, set (l.take i) ∧
    ∀ j ≤ l.length, i < j → ¬ reset (l.take j)))

/-- **One more event**: a latch that is set now holds, and one that held goes on
to hold unless it is reset now. -/
theorem held_concat (l : List α) (a : α) : Held set reset (l ++ [a]) ↔
    set (l ++ [a]) ∨ Held set reset l ∧ ¬ reset (l ++ [a]) := by
  have hlen : (l ++ [a]).length = l.length + 1 := by simp
  have hall : (l ++ [a]).take (l.length + 1) = l ++ [a] :=
    List.take_of_length_le (Nat.le_of_eq hlen)
  have hbefore {i : ℕ} (hi : i ≤ l.length) : (l ++ [a]).take i = l.take i :=
    List.take_append_of_le_length hi
  unfold Held
  rw [hlen]
  constructor
  · intro h
    obtain ⟨i, hi, hset, hnot⟩ := h
    by_cases hlast : i = l.length + 1
    · rw [hlast, hall] at hset
      exact Or.inl hset
    · have hi' : i ≤ l.length := by omega
      have hreset := hnot (l.length + 1) (Nat.le_refl _) (by omega)
      rw [hall] at hreset
      rw [hbefore hi'] at hset
      refine Or.inr ⟨⟨i, hi', hset, fun j hj hij => ?_⟩, hreset⟩
      rw [← hbefore hj]
      exact hnot j (by omega) hij
  · intro h
    obtain hset | ⟨⟨i, hi, hset, hnot⟩, hreset⟩ := h
    · exact ⟨l.length + 1, (Nat.le_refl _), by rw [hall]; exact hset, fun j hj hij => by omega⟩
    · refine ⟨i, by omega, by rw [hbefore hi]; exact hset, fun j hj hij => ?_⟩
      by_cases hlast : j = l.length + 1
      · rw [hlast, hall]
        exact hreset
      · rw [hbefore (by omega : j ≤ l.length)]
        exact hnot j (by omega) hij

/-! ## Changes -/

/-- How many events of the history are a step of the relation `R`. -/
def steps (R : List α → List α → Prop) [DecidableRel R] (l : List α) : ℕ :=
  (List.range l.length).countP fun n => R (l.take n) (l.take (n + 1))

/-- The last element may be one more step. -/
theorem steps_concat (R : List α → List α → Prop) [DecidableRel R] (l : List α) (a : α) :
    steps R (l ++ [a]) = steps R l + if R l (l ++ [a]) then 1 else 0 := by
  have hlen : (l ++ [a]).length = l.length + 1 := by simp
  have hcount : (List.range l.length).countP
      (fun n => R ((l ++ [a]).take n) ((l ++ [a]).take (n + 1))) = steps R l := by
    refine List.countP_congr fun n hn => ?_
    rw [List.mem_range] at hn
    rw [List.take_append_of_le_length (by omega), List.take_append_of_le_length (by omega)]
  rw [steps, hlen, List.range_succ, List.countP_append, hcount, List.countP_singleton,
    List.take_left, List.take_of_length_le (Nat.le_of_eq hlen)]
  simp

variable (P : List α → Prop) [DecidablePred P]

/-- How often `P` has turned true. -/
def rises (l : List α) : ℕ := steps (fun l l' => ¬ P l ∧ P l') l

/-- How often `P` has turned false. -/
def falls (l : List α) : ℕ := steps (fun l l' => P l ∧ ¬ P l') l

@[simp] theorem rises_nil : rises P [] = 0 := rfl

@[simp] theorem falls_nil : falls P [] = 0 := rfl

/-- The last element is a rise where the latch was off before it. -/
theorem rises_concat (l : List α) (a : α) :
    rises P (l ++ [a]) = rises P l + if ¬ P l ∧ P (l ++ [a]) then 1 else 0 := steps_concat _ l a

theorem falls_concat (l : List α) (a : α) :
    falls P (l ++ [a]) = falls P l + if P l ∧ ¬ P (l ++ [a]) then 1 else 0 := steps_concat _ l a

/-- Rises and falls alternate. -/
theorem rises_eq_falls_add (hstart : ¬ P []) (l : List α) :
    rises P l = falls P l + if P l then 1 else 0 := by
  induction l using List.reverseRecOn with
  | nil => simp [hstart]
  | append_singleton l a ih =>
      rw [rises_concat, falls_concat, ih]
      by_cases hbefore : P l
      · by_cases hafter : P (l ++ [a]) <;> simp [hbefore, hafter]
      · by_cases hafter : P (l ++ [a]) <;> simp [hbefore, hafter]

end Latch
