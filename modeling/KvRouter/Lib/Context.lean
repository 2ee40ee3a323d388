import Mathlib.Data.Int.Notation
import Mathlib.Data.List.Basic
import Mathlib.Tactic.Common

/-!
# Contexts

A context is done once it is cancelled or its deadline has passed, and so is every
context that is derived from it.  Here a context is named by the path of
derivations that leads to it from the background, so the contexts it is derived
from are its prefixes, and what cancels one of them cancels it (`done_cancel`).
-/

/-- A context, as a path of derivations. -/
abbrev Context := List ℕ

namespace Context

def background : Context := []

/-- The `n`-th context derived from `c`. -/
def child (c : Context) (n : ℕ) : Context := c ++ [n]

/-- A context is derived from its parent. -/
theorem prefix_child (c : Context) (n : ℕ) : c <+: c.child n := List.prefix_append c [n]

end Context

/-- The contexts that have been cancelled, and those that have a deadline. -/
structure Contexts where
  cancelled : List Context
  deadlines : List (Context × ℤ)
deriving DecidableEq

namespace Contexts

def empty : Contexts := ⟨[], []⟩

def cancel (cs : Contexts) (c : Context) : Contexts := { cs with cancelled := c :: cs.cancelled }

def withDeadline (cs : Contexts) (c : Context) (deadline : ℤ) : Contexts :=
  { cs with deadlines := (c, deadline) :: cs.deadlines }

/-- The context, or one that it is derived from, is cancelled or past its deadline. -/
def Done (cs : Contexts) (now : ℤ) (c : Context) : Prop :=
  (∃ a ∈ cs.cancelled, a <+: c) ∨ ∃ x ∈ cs.deadlines, x.1 <+: c ∧ x.2 ≤ now

instance (cs : Contexts) (now : ℤ) (c : Context) : Decidable (cs.Done now c) :=
  inferInstanceAs (Decidable (_ ∨ _))

variable {cs : Contexts} {now now' : ℤ} {a c : Context}

@[simp] theorem not_done_empty : ¬empty.Done now c := by simp [empty, Done]

/-- Cancelling a context ends it and all that is derived from it. -/
theorem done_cancel : (cs.cancel a).Done now c ↔ a <+: c ∨ cs.Done now c := by
  simp [cancel, Done, or_assoc]

/-- So does its deadline, once it has passed. -/
theorem done_withDeadline {deadline : ℤ} :
    (cs.withDeadline a deadline).Done now c ↔ a <+: c ∧ deadline ≤ now ∨ cs.Done now c := by
  simp only [withDeadline, Done, List.exists_mem_cons_iff]
  exact or_left_comm

/-- What is done stays done. -/
theorem Done.later (h : cs.Done now c) (hle : now ≤ now') : cs.Done now' c := by
  obtain hcancelled | ⟨x, hx, hderived, hdeadline⟩ := h
  · exact Or.inl hcancelled
  · exact Or.inr ⟨x, hx, hderived, Int.le_trans hdeadline hle⟩

end Contexts
