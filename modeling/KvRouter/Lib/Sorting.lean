import Mathlib.Data.List.MinMax
import Mathlib.Data.List.Sort
import Mathlib.Tactic.Common

/-!
# Sorting by a `less` function

`sliceStable less` sorts a list stably by a comparison the caller passes in, as
the sort package of Go does.  The results are about a `less` that compares some
`key` in a linear order: the sorted list is a permutation in ascending order of
keys, so its first element with a property is one of least key, and so is what a
single pass selects that remembers the best key so far (`foldl_best`).  The order
of a list itself is that of its indices (`pairwise_idxOf_iff`), and grouping a list
by keys permutes it (`perm_flatMap_filter`).
-/

namespace Sorting

variable {α κ : Type*} [LinearOrder κ]

/-- A stable sort: `a` may stand before `b` unless `less b a`. -/
def sliceStable (less : α → α → Bool) (l : List α) : List α :=
  l.insertionSort fun a b => !less b a

theorem perm_sliceStable (less : α → α → Bool) (l : List α) : (sliceStable less l).Perm l :=
  List.perm_insertionSort _ l

@[simp] theorem mem_sliceStable {less : α → α → Bool} {l : List α} {a : α} :
    a ∈ sliceStable less l ↔ a ∈ l := (perm_sliceStable less l).mem_iff

/-- The sorted list ascends by key. -/
theorem pairwise_sliceStable {less : α → α → Bool} {key : α → κ}
    (hkey : ∀ a b, less a b ↔ key a < key b) (l : List α) :
    (sliceStable less l).Pairwise fun a b => key a ≤ key b := by
  have hle : ∀ a b, (!less b a) = true ↔ key a ≤ key b := by
    intro a b
    have hba := hkey b a
    rw [Bool.not_eq_true', ← Bool.not_eq_true, hba, not_lt]
  have htotal : Std.Total fun a b => (!less b a) = true :=
    ⟨fun a b => by rw [hle, hle]; exact le_total _ _⟩
  have htrans : IsTrans α fun a b => (!less b a) = true :=
    ⟨fun a b c hab hbc => by rw [hle] at *; exact hab.trans hbc⟩
  exact (List.pairwise_insertionSort _ l).imp fun {a b} hab => (hle a b).mp hab

/-- The first sorted element with a property has the least key of those with it. -/
theorem find_sliceStable {less : α → α → Bool} {key : α → κ}
    (hkey : ∀ a b, less a b ↔ key a < key b) {l : List α} {p : α → Bool} {a : α}
    (ha : (sliceStable less l).find? p = some a) :
    a ∈ l ∧ p a ∧ ∀ b ∈ l, p b → key a ≤ key b := by
  obtain ⟨hp, front, back, hsplit, hfront⟩ := List.find?_eq_some_iff_append.mp ha
  have hsorted := pairwise_sliceStable hkey l
  rw [hsplit] at hsorted
  have hmem (b : α) : b ∈ l ↔ b ∈ front ++ a :: back := by
    rw [← hsplit, mem_sliceStable]
  refine ⟨(hmem a).mpr (by simp), hp, ?_⟩
  · intro b hb hpb
    rw [hmem, List.mem_append, List.mem_cons] at hb
    obtain hb | rfl | hb := hb
    · have hnot := hfront b hb
      simp [hpb] at hnot
    · exact le_refl _
    · exact List.rel_of_pairwise_cons (List.pairwise_append.mp hsorted).2.1 hb

/-! ## Insertion sort, as two loops -/

/-- An insertion sort in place.  The outer loop holds the sorted prefix in reverse, and the inner
one moves an element down in it while it is `less` than the one before. -/
def insertionSort (less : α → α → Bool) (l : List α) : List α :=
  (l.foldl (fun sorted x => sorted.orderedInsert (fun a b => !less a b) x) []).reverse

/-- This insertion sort is that of Mathlib from the other end. -/
theorem insertionSort_eq (less : α → α → Bool) (l : List α) :
    insertionSort less l = (l.reverse.insertionSort fun a b => !less a b).reverse := by
  rw [insertionSort, List.foldl_eq_foldr_reverse]
  rfl

theorem perm_insertionSort (less : α → α → Bool) (l : List α) : (insertionSort less l).Perm l := by
  rw [insertionSort_eq]
  exact (List.reverse_perm _).trans ((List.perm_insertionSort _ _).trans (List.reverse_perm l))

/-- The sorted list ascends by key. -/
theorem pairwise_insertionSort {less : α → α → Bool} {key : α → κ}
    (hkey : ∀ a b, less a b ↔ key a < key b) (l : List α) :
    (insertionSort less l).Pairwise fun a b => key a ≤ key b := by
  have hle : ∀ a b, (!less a b) = true ↔ key b ≤ key a := by
    intro a b
    rw [Bool.not_eq_true', ← Bool.not_eq_true, hkey, not_lt]
  have htotal : Std.Total fun a b => (!less a b) = true :=
    ⟨fun a b => by rw [hle, hle]; exact le_total _ _⟩
  have htrans : IsTrans α fun a b => (!less a b) = true :=
    ⟨fun a b c hab hbc => by rw [hle] at *; exact hbc.trans hab⟩
  rw [insertionSort_eq, List.pairwise_reverse]
  exact (List.pairwise_insertionSort _ l.reverse).imp fun {a b} hab => (hle a b).mp hab

/-! ## Selection -/

/-- A loop that remembers the best key so far, starting from a sentinel that every key beats, ends
with the first element of least key. -/
theorem foldl_best {β ι : Type*} {less : ι → ι → Bool} {order : ι → κ}
    (hless : ∀ x y, less x y ↔ order x < order y) {key : α → ι} {sentinel : ι} {l : List α}
    (hsentinel : ∀ a ∈ l, order (key a) < order sentinel) (f : α → β) (d : β) :
    l.foldl (fun best a => if less (key a) best.2 then (f a, key a) else best) (d, sentinel) =
      (l.argmin fun a => order (key a)).elim (d, sentinel) fun a => (f a, key a) := by
  induction l using List.reverseRecOn with
  | nil => rfl
  | append_singleton l a ih =>
      rw [List.foldl_concat, ih fun b hb => hsentinel b (by simp [hb]), List.argmin_concat]
      have hfirst : less (key a) sentinel = true := (hless _ _).mpr (hsentinel a (by simp))
      cases l.argmin fun a => order (key a) with
      | none => simp [hfirst]
      | some b =>
          by_cases hlt : order (key a) < order (key b) <;> simp [hless, hlt]

/-! ## The order of a list -/

section
variable [DecidableEq α] {l l' : List α}

theorem pairwise_idxOf (h : l.Nodup) : l.Pairwise fun x y => l.idxOf x < l.idxOf y := by
  rw [List.pairwise_iff_getElem]
  intro i j hi hj hij
  rwa [h.idxOf_getElem, h.idxOf_getElem]

/-- Elements of a list come in its order exactly in its sublists. -/
theorem pairwise_idxOf_iff (h : l'.Nodup) (hsub : l ⊆ l') :
    l.Pairwise (fun x y => l'.idxOf x < l'.idxOf y) ↔ l.Sublist l' := by
  constructor
  · intro hpairwise
    have hantisymm : Std.Antisymm fun x y => l'.idxOf x < l'.idxOf y :=
      ⟨fun x y hxy hyx => absurd hyx (Nat.lt_asymm hxy)⟩
    have hl : l.Nodup := hpairwise.imp fun hlt heq => by simp [heq] at hlt
    exact List.sublist_of_subperm_of_pairwise (List.subperm_of_subset hl hsub) hpairwise
      (pairwise_idxOf h)
  · exact fun hsublist => (pairwise_idxOf h).sublist hsublist

end

/-! ## Grouping -/

/-- A list is made of its elements of each key. -/
theorem perm_flatMap_filter {ι κ : Type*} [DecidableEq κ] {key : ι → κ} {ks : List κ}
    (hks : ks.Nodup) {l : List ι} (hl : ∀ x ∈ l, key x ∈ ks) :
    (ks.flatMap fun k => l.filter (key · = k)).Perm l := by
  induction l with
  | nil => simp
  | cons x l ih =>
      obtain ⟨hx, hrest⟩ := List.forall_mem_cons.mp hl
      obtain ⟨before, after, rfl⟩ := List.append_of_mem hx
      have hperm := ih hrest
      rw [List.nodup_middle, List.nodup_cons, List.mem_append] at hks
      have hsame (ks' : List κ) (hks' : key x ∉ ks') :
          (ks'.flatMap fun k => (x :: l).filter (key · = k)) =
            ks'.flatMap fun k => l.filter (key · = k) :=
        List.flatMap_congr fun k hk => by
          have hne : key x ≠ k := fun heq => hks' (heq ▸ hk)
          simp [hne]
      have hself : (x :: l).filter (key · = key x) = x :: l.filter (key · = key x) := by simp
      rw [List.flatMap_append, List.flatMap_cons] at hperm ⊢
      rw [hsame before fun h => hks.1 (.inl h), hsame after fun h => hks.1 (.inr h), hself,
        List.cons_append]
      exact List.perm_middle.trans (hperm.cons x)

end Sorting
