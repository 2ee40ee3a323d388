import KvRouter.RadixTree.Evict

/-!
# KvRouter.RadixTree.Deletions

The deletions that an eviction makes, one after another.  `Evict` saves indices
in its walk and deletes by them later, from slices that earlier deletions have
shifted.  Every node has at most one reference of the backend, so no deletion
shifts another, and each index still holds the entry it was saved for
(`DeletesSafely`).
-/

namespace KvRouter.RadixTree

/-! ## The deletions of an eviction -/

/-- One deletion: the entry at an index of a node. -/
def Node.delete (root : Node) (d : List UInt64 × ℕ) : Node :=
  root.setEntries ((root.entriesAt d.1).eraseIdx d.2) d.1

/-- The deletions that the removals call for, in the order of the two loops. -/
def deletions (removals : List (Σ _ : List UInt64, List ℕ)) : List (List UInt64 × ℕ) :=
  removals.flatMap fun x =>
    (Sorting.insertionSort (fun a b => a > b) x.2).map fun index => (x.1, index)

/-- The deletions of `Evict`. -/
def Tree.deletions (t : Tree) (backendID : String) (count : ℤ) (walkOrder : WalkOrder)
    (removalOrder : GoMap.RangeOrder (List UInt64) (List ℕ)) : List (List UInt64 × ℕ) :=
  if count ≤ 0 then []
  else
    let refs := t.refs backendID walkOrder
    if refs.length = 0 then []
    else
      let toEvict := if count > refs.length then (refs.length : ℤ) else count
      RadixTree.deletions
        (removalOrder.visit (groupByNode ((sortByAge refs).take toEvict.toNat)))

/-- Each index is in bounds, and holds an entry of the backend, when it is deleted. -/
def DeletesSafely (backendID : String) : Node → List (List UInt64 × ℕ) → Prop
  | _, [] => True
  | root, d :: ds =>
      (∃ e, (root.entriesAt d.1)[d.2]? = some e ∧ e.backendID = backendID) ∧
        DeletesSafely backendID (root.delete d) ds

/-! ## One deletion -/

/-- A deletion removes one entry at its path. -/
theorem entriesAt_delete {root : Node} {d : List UInt64 × ℕ} (hd : (root.find d.1).isSome)
    (path : List UInt64) :
    (root.delete d).entriesAt path =
      if path = d.1 then (root.entriesAt d.1).eraseIdx d.2 else root.entriesAt path :=
  entriesAt_setEntries hd _ path

/-! ## Runs of deletions -/

/-- Saved indices stay good while the deletions are at different nodes. -/
theorem deletesSafely_of_nodup {backendID : String} {root : Node} {ds : List (List UInt64 × ℕ)}
    (hpaths : (ds.map Prod.fst).Nodup)
    (hsaved : ∀ d ∈ ds, ∃ e, (root.entriesAt d.1)[d.2]? = some e ∧ e.backendID = backendID) :
    DeletesSafely backendID root ds := by
  induction ds generalizing root with
  | nil => trivial
  | cons d ds ih =>
      rw [List.map_cons, List.nodup_cons] at hpaths
      rw [List.forall_mem_cons] at hsaved
      obtain ⟨e, he, hid⟩ := hsaved.1
      refine ⟨⟨e, he, hid⟩, ih hpaths.2 fun d' hd' => ?_⟩
      have hne : d'.1 ≠ d.1 := fun heq => hpaths.1 (heq ▸ List.mem_map_of_mem hd')
      rw [entriesAt_delete (isSome_find_of_getElem he), if_neg hne]
      exact hsaved.2 d' hd'

/-- With one index for each node, the loop over the removals is the run of their deletions. -/
theorem removeAll_eq_foldl {root : Node} {removals : List (Σ _ : List UInt64, List ℕ)}
    (hsingle : ∀ x ∈ removals, ∃ i, x.2 = [i]) :
    removeAll root removals = (deletions removals).foldl Node.delete root := by
  induction removals generalizing root with
  | nil => rfl
  | cons x removals ih =>
      rw [List.forall_mem_cons] at hsingle
      obtain ⟨i, hi⟩ := hsingle.1
      obtain ⟨path, indices⟩ := x
      subst hi
      exact ih hsingle.2

/-- Deletions of single indices are at the paths of the removals. -/
theorem map_fst_deletions {removals : List (Σ _ : List UInt64, List ℕ)}
    (hsingle : ∀ x ∈ removals, ∃ i, x.2 = [i]) :
    (deletions removals).map Prod.fst = removals.map Sigma.fst := by
  induction removals with
  | nil => rfl
  | cons x removals ih =>
      rw [List.forall_mem_cons] at hsingle
      obtain ⟨i, hi⟩ := hsingle.1
      obtain ⟨path, indices⟩ := x
      subst hi
      rw [List.map_cons, ← ih hsingle.2]
      rfl

/-- The deletions are the indices of the removals. -/
theorem mem_deletions {removals : List (Σ _ : List UInt64, List ℕ)} {d : List UInt64 × ℕ} :
    d ∈ deletions removals ↔ ∃ indices, (⟨d.1, indices⟩ : Σ _ : List UInt64, List ℕ) ∈ removals ∧
      d.2 ∈ indices := by
  obtain ⟨path, index⟩ := d
  simp only [deletions, List.mem_flatMap, List.mem_map, Prod.mk.injEq,
    (Sorting.perm_insertionSort _ _).mem_iff]
  constructor
  · rintro ⟨⟨path', indices⟩, hmem, index', hindex, rfl, rfl⟩
    exact ⟨indices, hmem, hindex⟩
  · rintro ⟨indices, hmem, hindex⟩
    exact ⟨⟨path, indices⟩, hmem, index, hindex, rfl, rfl⟩

/-! ## The deletions of some references -/

section

variable {t : Tree} {backendID : String} {o : WalkOrder} {refs : List Ref}
  {removalOrder : GoMap.RangeOrder (List UInt64) (List ℕ)}

/-- An eviction removes one entry at a path. -/
theorem single_of_mem_visit (hrefs : refs.Subperm (t.refs backendID o)) :
    ∀ x ∈ removalOrder.visit (groupByNode refs), ∃ i, x.2 = [i] := by
  intro x hx
  obtain ⟨r, -, -, hindices⟩ :=
    (lookup_groupByNode (nodup_paths_of_subperm hrefs)).mp (removalOrder.mem_visit.mp hx)
  exact ⟨r.index, hindices.symm⟩

/-- There is one deletion for each reference. -/
theorem deletions_perm (hrefs : refs.Subperm (t.refs backendID o)) :
    (deletions (removalOrder.visit (groupByNode refs))).Perm
      (refs.map fun r => (r.path, r.index)) := by
  have hpaths := nodup_paths_of_subperm hrefs
  have hdeletions : (deletions (removalOrder.visit (groupByNode refs))).Nodup := by
    have hkeys := removalOrder.nodup_keys_visit (groupByNode refs)
    rw [← map_fst_deletions (single_of_mem_visit hrefs)] at hkeys
    exact hkeys.of_map _
  have hindices : (refs.map fun r => (r.path, r.index)).Nodup := by
    have hfst : (refs.map fun r => (r.path, r.index)).map Prod.fst = refs.map Ref.path := by simp
    rw [← hfst] at hpaths
    exact hpaths.of_map _
  refine (List.perm_ext_iff_of_nodup hdeletions hindices).mpr fun d => ?_
  obtain ⟨path, index⟩ := d
  simp only [mem_deletions, removalOrder.mem_visit, lookup_groupByNode hpaths, List.mem_map,
    Prod.mk.injEq]
  grind

/-- Deleting references of a backend in any order stays in bounds. -/
theorem deletesSafely_refs (hrefs : refs.Subperm (t.refs backendID o)) :
    DeletesSafely backendID t.root (deletions (removalOrder.visit (groupByNode refs))) := by
  apply deletesSafely_of_nodup
  · rw [map_fst_deletions (single_of_mem_visit hrefs)]
    exact removalOrder.nodup_keys_visit _
  · intro d hd
    obtain ⟨r, hr, rfl⟩ := List.mem_map.mp ((deletions_perm hrefs).mem_iff.mp hd)
    obtain ⟨hentry, hid⟩ := mem_refs.mp (hrefs.subset hr)
    exact ⟨r.entry, hentry, hid⟩

end

/-! ## The deletions of Evict -/

section

variable (t : Tree) (backendID : String) (count : ℤ) (walkOrder : WalkOrder)
  (removalOrder : GoMap.RangeOrder (List UInt64) (List ℕ))

/-- **The deletions of an eviction stay in bounds.** -/
theorem deletesSafely_evict :
    DeletesSafely backendID t.root (t.deletions backendID count walkOrder removalOrder) := by
  unfold Tree.deletions
  dsimp only
  split
  · trivial
  · split
    · trivial
    · exact deletesSafely_refs (subperm_take _)

/-- **`Evict` is the run of its deletions.** -/
theorem root_evict :
    (t.evict backendID count walkOrder removalOrder).root =
      (t.deletions backendID count walkOrder removalOrder).foldl Node.delete t.root := by
  unfold Tree.evict Tree.deletions
  dsimp only
  split
  · rfl
  · split
    · rfl
    · exact removeAll_eq_foldl (single_of_mem_visit (subperm_take _))

/-- What `Evict` subtracts is the number of its deletions. -/
theorem entryCount_evict :
    (t.evict backendID count walkOrder removalOrder).entryCount =
      t.entryCount +
        -Int64.ofNat (t.deletions backendID count walkOrder removalOrder).length := by
  unfold Tree.evict Tree.deletions
  dsimp only
  split
  · simp
  · split
    · simp
    · next hcount hempty =>
        have hmin (n : ℕ) : ((min (if count > n then (n : ℤ) else count).toNat n : ℕ) : ℤ) =
            if count > n then (n : ℤ) else count := by
          split <;> omega
        rw [(deletions_perm (subperm_take _)).length_eq, List.length_map,
          List.length_take, (perm_sortByAge _).length_eq, ← Int64.ofInt_eq_ofNat, hmin]

end

end KvRouter.RadixTree
