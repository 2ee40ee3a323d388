import KvRouter.RadixTree.FlatMap

/-!
# KvRouter.RadixTree.Evict

An eviction removes the oldest bindings of a backend.  A node has at most one
entry of the backend, so the removals group one index under each node
(`lookup_groupByNode`), no removal shifts another, and the loop over the nodes
is an update at each of them (`entriesAt_removeAll`).
-/

namespace KvRouter.RadixTree

/-! ## The removals -/

/-- The removals of references to different nodes. -/
theorem lookup_groupByNode {refs : List Ref} (hrefs : (refs.map Ref.path).Nodup)
    {path : List UInt64} {indices : List ℕ} :
    (groupByNode refs).lookup path = some indices ↔
      ∃ r ∈ refs, r.path = path ∧ [r.index] = indices := by
  induction refs using List.reverseRecOn generalizing path indices with
  | nil => simp [groupByNode]
  | append_singleton refs r ih =>
      rw [List.map_append, List.nodup_append] at hrefs
      have hnone : (groupByNode refs).lookup r.path = none := by
        rw [Option.eq_none_iff_forall_ne_some]
        intro indices hindices
        obtain ⟨r', hr', hpath, -⟩ := (ih hrefs.1).mp hindices
        exact hrefs.2.2 _ (List.mem_map_of_mem hr') r.path (by simp) hpath
      have hstep : groupByNode (refs ++ [r]) = (groupByNode refs).insert r.path [r.index] := by
        simp only [groupByNode, List.foldl_append, List.foldl_cons, List.foldl_nil]
        rw [groupByNode] at hnone
        rw [hnone, Option.getD_none, List.nil_append]
      rw [hstep, GoMap.lookup_insert_eq]
      grind

@[simp] theorem removeIndices_singleton (i : ℕ) (entries : List CacheEntry) :
    removeIndices [i] entries = entries.eraseIdx i := rfl

/-- Setting entries keeps the nodes. -/
theorem isSome_find_setEntries (n : Node) (entries : List CacheEntry) (path path' : List UInt64) :
    ((n.setEntries entries path).find path').isSome = (n.find path').isSome := by
  induction path generalizing n path' with
  | nil => cases path' <;> rfl
  | cons h hashes ih =>
      unfold Node.setEntries
      split
      · rfl
      · next child hchild =>
          cases path' with
          | nil => rfl
          | cons h' hashes' =>
              rw [find_set_cons]
              by_cases heq : h' = h
              · subst heq
                simp [find_cons, hchild, ih]
              · simp [heq]

/-- An entry is at a node. -/
theorem isSome_find_of_getElem {root : Node} {path : List UInt64} {i : ℕ} {e : CacheEntry}
    (h : (root.entriesAt path)[i]? = some e) : (root.find path).isSome := by
  by_contra hnone
  rw [Option.not_isSome_iff_eq_none] at hnone
  simp [Node.entriesAt, hnone] at h

/-- **The loop over the removals is an update at each node.** -/
theorem entriesAt_removeAll {root : Node} {removals : List (Σ _ : List UInt64, List ℕ)}
    (hkeys : removals.NodupKeys) (hpaths : ∀ x ∈ removals, (root.find x.1).isSome)
    (path : List UInt64) :
    (removeAll root removals).entriesAt path =
      ((removals.dlookup path).map fun indices =>
        removeIndices indices (root.entriesAt path)).getD (root.entriesAt path) := by
  induction removals generalizing root with
  | nil => rfl
  | cons x removals ih =>
      obtain ⟨p, indices⟩ := x
      rw [List.nodupKeys_cons] at hkeys
      have hp : (root.find p).isSome := hpaths ⟨p, indices⟩ (by simp)
      have hfind : ∀ x ∈ removals,
          ((root.setEntries (removeIndices indices (root.entriesAt p)) p).find x.1).isSome := by
        intro x hx
        rw [isSome_find_setEntries]
        exact hpaths x (List.mem_cons_of_mem _ hx)
      have htail := ih hkeys.2 hfind
      rw [removeAll] at htail
      rw [removeAll, List.foldl_cons, htail, entriesAt_setEntries hp]
      by_cases heq : path = p
      · subst heq
        rw [List.dlookup_cons_eq, List.dlookup_eq_none.mpr hkeys.1]
        simp
      · rw [List.dlookup_cons_ne _ _ heq, if_neg heq]

/-! ## The references of a backend -/

section

variable {t : Tree} {backendID : String} {o : WalkOrder}

/-- The references are the entries of the backend. -/
theorem mem_refs {r : Ref} :
    r ∈ t.refs backendID o ↔
      (t.root.entriesAt r.path)[r.index]? = some r.entry ∧ r.entry.backendID = backendID := by
  rw [Tree.refs, mem_walk]
  simp

/-- The keys of the references are their paths, for the backend. -/
theorem keys_refs : (t.refs backendID o).map Ref.key =
    ((t.refs backendID o).map Ref.path).map fun path => (path, backendID) := by
  rw [List.map_map]
  refine List.map_congr_left fun r hr => ?_
  rw [Ref.key, (mem_refs.mp hr).2]
  rfl

theorem nodup_keys_refs : ((t.refs backendID o).map Ref.key).Nodup := nodup_walk t.wellFormed []

theorem nodup_paths_refs : ((t.refs backendID o).map Ref.path).Nodup := by
  have hkeys : ((t.refs backendID o).map Ref.key).Nodup := nodup_keys_refs
  rw [keys_refs] at hkeys
  exact hkeys.of_map _

theorem subperm_take (n : ℕ) :
    ((sortByAge (t.refs backendID o)).take n).Subperm (t.refs backendID o) :=
  (List.take_sublist n _).subperm.trans (perm_sortByAge _).subperm

/-- Some of the references, in any order. -/
theorem nodup_paths_of_subperm {refs : List Ref} (hrefs : refs.Subperm (t.refs backendID o)) :
    (refs.map Ref.path).Nodup := by
  obtain ⟨refs', hperm, hsub⟩ := hrefs
  rw [← (hperm.map Ref.path).nodup_iff]
  exact nodup_paths_refs.sublist (hsub.map Ref.path)

/-- A reference has the value that is bound. -/
theorem lookup_flat_ref {r : Ref} (hr : r ∈ t.refs backendID o) :
    t.flat.lookup (r.path, backendID) = some r.entry.value := by
  obtain ⟨hentry, hid⟩ := mem_refs.mp hr
  rw [lookup_flat, binding_eq_some_iff (t.wellFormed.nodup_entriesAt _)]
  exact ⟨r.entry, List.mem_of_getElem? hentry, hid, rfl⟩

/-- What is bound has a reference. -/
theorem exists_ref {path : List UInt64} {x : ℤ × Int64}
    (hx : t.flat.lookup (path, backendID) = some x) :
    ∃ r ∈ t.refs backendID o, r.path = path ∧ r.entry.value = x := by
  rw [lookup_flat, binding_eq_some_iff (t.wellFormed.nodup_entriesAt _)] at hx
  obtain ⟨e, he, hid, hvalue⟩ := hx
  obtain ⟨i, hi⟩ := List.mem_iff_getElem?.mp he
  exact ⟨⟨path, i, e⟩, mem_refs.mpr ⟨hi, hid⟩, rfl, hvalue⟩

/-- There is one reference for each binding. -/
theorem card_bindings : (t.flat.bindings backendID).card = (t.refs backendID o).length := by
  have hkeys : t.flat.bindings backendID = ((t.refs backendID o).map Ref.key).toFinset := by
    ext ⟨path, id⟩
    rw [FlatMap.bindings, Finset.mem_filter, Finmap.mem_keys, List.mem_toFinset, List.mem_map]
    constructor
    · rintro ⟨hmem, rfl⟩
      obtain ⟨x, hx⟩ := Option.isSome_iff_exists.mp (Finmap.lookup_isSome.mpr hmem)
      obtain ⟨r, hr, rfl, -⟩ := exists_ref (o := o) hx
      exact ⟨r, hr, by rw [Ref.key, (mem_refs.mp hr).2]⟩
    · rintro ⟨r, hr, heq⟩
      rw [Ref.key, (mem_refs.mp hr).2, Prod.mk.injEq] at heq
      obtain ⟨rfl, rfl⟩ := heq
      refine ⟨Finmap.lookup_isSome.mp ?_, rfl⟩
      rw [lookup_flat_ref hr, Option.isSome_some]
  rw [hkeys, List.toFinset_card_of_nodup nodup_keys_refs, List.length_map]

/-! ## The eviction -/

/-- The removal of some of the references. -/
theorem lookup_flat_removed {refs : List Ref} (hrefs : refs.Subperm (t.refs backendID o))
    {t' : Tree} (ht' : ∀ path, t'.root.entriesAt path =
      (((groupByNode refs).lookup path).map fun indices =>
        removeIndices indices (t.root.entriesAt path)).getD (t.root.entriesAt path))
    (path : List UInt64) (id : String) :
    t'.flat.lookup (path, id) =
      if id = backendID ∧ path ∈ (refs.map Ref.path).toFinset then none
      else t.flat.lookup (path, id) := by
  have hpaths := nodup_paths_of_subperm hrefs
  rw [lookup_flat, lookup_flat, ht' path]
  cases hgroup : (groupByNode refs).lookup path with
  | none =>
      have hpath : path ∉ (refs.map Ref.path).toFinset := by
        rw [List.mem_toFinset, List.mem_map]
        rintro ⟨r, hr, hpath⟩
        rw [(lookup_groupByNode hpaths).mpr ⟨r, hr, hpath, rfl⟩] at hgroup
        contradiction
      rw [Option.map_none, Option.getD_none, if_neg fun h => hpath h.2]
  | some indices =>
      obtain ⟨r, hr, rfl, rfl⟩ := (lookup_groupByNode hpaths).mp hgroup
      obtain ⟨hentry, hid⟩ := mem_refs.mp (hrefs.subset hr)
      have hpath : r.path ∈ (refs.map Ref.path).toFinset :=
        List.mem_toFinset.mpr (List.mem_map_of_mem hr)
      rw [Option.map_some, Option.getD_some, removeIndices_singleton,
        binding_eraseIdx (t.wellFormed.nodup_entriesAt _) hentry, hid]
      simp only [hpath, and_true]

/-- The removal of the first of the references, the oldest first. -/
theorem evicts_take {sorted : List Ref} (hperm : sorted.Perm (t.refs backendID o))
    (hsorted : sorted.Pairwise fun a b => a.entry.lastAccess ≤ b.entry.lastAccess) (n : ℕ)
    {t' : Tree} (ht' : ∀ path, t'.root.entriesAt path =
      (((groupByNode (sorted.take n)).lookup path).map fun indices =>
        removeIndices indices (t.root.entriesAt path)).getD (t.root.entriesAt path)) :
    t.flat.Evicts backendID n ((sorted.take n).map Ref.path).toFinset t'.flat := by
  have hsub : (sorted.take n).Subperm (t.refs backendID o) :=
    (List.take_sublist n sorted).subperm.trans hperm.subperm
  constructor
  case bound =>
    intro p hp
    rw [List.mem_toFinset, List.mem_map] at hp
    obtain ⟨r, hr, rfl⟩ := hp
    rw [lookup_flat_ref (hsub.subset hr), Option.isSome_some]
  case card =>
    rw [List.toFinset_card_of_nodup (nodup_paths_of_subperm hsub), List.length_map,
      List.length_take, hperm.length_eq, card_bindings (o := o)]
  case oldest =>
    intro p hp q hq x y hx hy
    rw [List.mem_toFinset, List.mem_map] at hp hq
    obtain ⟨r, hr, rfl⟩ := hp
    obtain ⟨r', hr', rfl, rfl⟩ := exists_ref (o := o) hy
    rw [lookup_flat_ref (hsub.subset hr), Option.some.injEq] at hx
    subst hx
    -- a reference that is not among the first comes after them
    have hlater : r' ∈ sorted.drop n := by
      have hsplit := hperm.mem_iff.mpr hr'
      rw [← List.take_append_drop n sorted, List.mem_append] at hsplit
      exact hsplit.resolve_left fun htake => hq ⟨r', htake, rfl⟩
    rw [← List.take_append_drop n sorted, List.pairwise_append] at hsorted
    exact hsorted.2.2 r hr r' hlater
  case lookup => exact lookup_flat_removed hsub ht'

end

/-- The entries of a node after the removal of some of the references. -/
theorem entriesAt_removeAll_refs {t : Tree} {backendID : String} {o : WalkOrder} {refs : List Ref}
    (hrefs : refs.Subperm (t.refs backendID o))
    (removalOrder : GoMap.RangeOrder (List UInt64) (List ℕ)) (path : List UInt64) :
    (removeAll t.root (removalOrder.visit (groupByNode refs))).entriesAt path =
      (((groupByNode refs).lookup path).map fun indices =>
        removeIndices indices (t.root.entriesAt path)).getD (t.root.entriesAt path) := by
  have hpaths := nodup_paths_of_subperm hrefs
  rw [entriesAt_removeAll (removalOrder.nodup_keys_visit _), removalOrder.dlookup_visit]
  intro x hx
  obtain ⟨r, hr, hpath, -⟩ := (lookup_groupByNode hpaths).mp (removalOrder.mem_visit.mp hx)
  rw [← hpath]
  exact isSome_find_of_getElem (mem_refs.mp (hrefs.subset hr)).1

/-- **An eviction removes the oldest bindings of its backend, as many as it is asked to.** -/
theorem step_evict (t : Tree) (backendID : String) (count : ℤ) (walkOrder : WalkOrder)
    (removalOrder : GoMap.RangeOrder (List UInt64) (List ℕ)) :
    t.flat.Step (.evict backendID count walkOrder removalOrder)
      (t.evict backendID count walkOrder removalOrder).flat := by
  by_cases hcount : count ≤ 0
  · simp only [FlatMap.Step, Tree.evict, if_pos hcount]
  · simp only [FlatMap.Step, if_neg hcount]
    have hperm : (sortByAge (t.refs backendID walkOrder)).Perm (t.refs backendID walkOrder) :=
      perm_sortByAge _
    refine ⟨_, evicts_take hperm
      (Sorting.pairwise_insertionSort (fun a b => decide_eq_true_iff) _) count.toNat ?_⟩
    intro path
    have hsub : ((sortByAge (t.refs backendID walkOrder)).take count.toNat).Subperm
        (t.refs backendID walkOrder) := subperm_take _
    have htake := entriesAt_removeAll_refs hsub removalOrder path
    simp only [Tree.evict, if_neg hcount]
    split
    · next hempty =>
        rw [List.eq_nil_of_length_eq_zero hempty]
        simp [sortByAge, Sorting.insertionSort, groupByNode]
    · split
      · -- all of the references
        have hall : (sortByAge (t.refs backendID walkOrder)).take
            ((t.refs backendID walkOrder).length : ℤ).toNat =
              (sortByAge (t.refs backendID walkOrder)).take count.toNat := by
          rw [List.take_of_length_le, List.take_of_length_le] <;> grind [hperm.length_eq]
        rw [← htake, ← hall]
      · exact htake

end KvRouter.RadixTree
