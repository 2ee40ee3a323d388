import KvRouter.RadixTree.Deletions
import KvRouter.RadixTree.Refinement
import Mathlib.Algebra.BigOperators.Group.Finset.Basic

/-!
# KvRouter.RadixTree.Counters

The counters of the prefix tree, which `Stats` returns without a walk.  `Insert`
counts the nodes it creates, and one entry unless it finds one to refresh;
`Evict` subtracts the number of its deletions.  So each counter is the number it
stands for after every history of calls (`counters_exact`).
-/

namespace KvRouter.RadixTree

/-! ## Stats -/

structure TreeStats where
  nodeCount : Int64
  entryCount : Int64
  maxDepth : ℕ
deriving DecidableEq

mutual

/-- The walk for the greatest depth; the order of the children does not matter to it. -/
def Node.deepest (depth maxDepth : ℕ) : Node → ℕ
  | .mk children _ => children.deepest (depth + 1) (if depth > maxDepth then depth else maxDepth)

def Children.deepest (depth maxDepth : ℕ) : Children → ℕ
  | .nil => maxDepth
  | .cons _ child rest => rest.deepest depth (child.deepest depth maxDepth)

end

def Tree.stats (t : Tree) : TreeStats := ⟨t.nodeCount, t.entryCount, t.root.deepest 0 0⟩

/-! ## The depth -/

mutual

/-- The depth of a node reaches as far as its paths. -/
theorem Node.le_deepest {k depth maxDepth : ℕ} : (n : Node) → n.WellFormed →
    (k ≤ n.deepest depth maxDepth ↔
      k ≤ maxDepth ∨ ∃ path, (n.find path).isSome ∧ k ≤ depth + path.length)
  | .mk children entries, hn => by
      rw [Node.deepest, Children.le_deepest children hn.1]
      constructor
      · intro h
        obtain hmax | ⟨key, child, path, hchild, hpath, hk⟩ := h
        · split at hmax
          · exact Or.inr ⟨[], rfl, hmax⟩
          · exact Or.inl hmax
        · refine Or.inr ⟨key :: path, ?_, by rw [List.length_cons]; omega⟩
          rw [find_cons, Node.mk_children, hchild, Option.bind_some]
          exact hpath
      · intro h
        obtain hmax | ⟨path, hpath, hk⟩ := h
        · exact Or.inl (by split <;> omega)
        · cases path with
          | nil =>
              rw [List.length_nil] at hk
              exact Or.inl (by split <;> omega)
          | cons key path =>
              rw [find_cons, Node.mk_children] at hpath
              cases hchild : children.lookup key with
              | none => simp [hchild] at hpath
              | some child =>
                  rw [hchild, Option.bind_some] at hpath
                  rw [List.length_cons] at hk
                  exact Or.inr ⟨key, child, path, hchild, hpath, by omega⟩

/-- The depth of some children reaches as far as the paths through them. -/
theorem Children.le_deepest {k depth maxDepth : ℕ} : (cs : Children) → cs.WellFormed →
    (k ≤ cs.deepest depth maxDepth ↔ k ≤ maxDepth ∨ ∃ key child path,
      cs.lookup key = some child ∧ (child.find path).isSome ∧ k ≤ depth + path.length)
  | .nil, _ => by simp [Children.deepest, Children.lookup]
  | .cons key child rest, hcs => by
      rw [Children.WellFormed] at hcs
      rw [Children.deepest, Children.le_deepest rest hcs.2.2, Node.le_deepest child hcs.2.1]
      have hkey : rest.lookup key = none := by
        rw [← Option.not_isSome_iff_eq_none, ← mem_keys_iff]
        exact hcs.1
      simp only [Children.lookup]
      grind

end

/-- **`MaxDepth` is the length of the longest path.** -/
theorem isGreatest_maxDepth (t : Tree) :
    IsGreatest {d | ∃ path, (t.root.find path).isSome ∧ path.length = d} t.stats.maxDepth := by
  have hle (k : ℕ) : k ≤ t.stats.maxDepth ↔
      k ≤ 0 ∨ ∃ path, (t.root.find path).isSome ∧ k ≤ 0 + path.length :=
    t.root.le_deepest t.wellFormed
  constructor
  · obtain hzero | ⟨path, hpath, hlen⟩ := (hle _).mp (le_refl _)
    · exact ⟨[], rfl, (Nat.le_zero.mp hzero).symm⟩
    · have hge := (hle path.length).mpr (Or.inr ⟨path, hpath, by omega⟩)
      exact ⟨path, hpath, by omega⟩
  · intro d hd
    obtain ⟨path, hpath, rfl⟩ := hd
    exact (hle _).mpr (Or.inr ⟨path, hpath, by omega⟩)

/-! ## The nodes of a tree -/

/-- The set holds the path of every node that is reachable from the root. -/
def Node.HasPaths (root : Node) (paths : Finset (List UInt64)) : Prop :=
  ∀ path, path ∈ paths ↔ (root.find path).isSome

theorem isSome_find_newNode (path : List UInt64) : (newNode.find path).isSome ↔ path = [] := by
  cases path with
  | nil => simp [Node.find]
  | cons h hashes => simp [find_cons, newNode, Children.lookup]

/-- The descent of `Insert` counts the nodes it creates. -/
theorem exists_created (n : Node) (path : List UInt64) :
    ∃ created : Finset (List UInt64), (∀ p ∈ created, n.find p = none) ∧
      (∀ p, ((n.ensure path).1.find p).isSome ↔ (n.find p).isSome ∨ p ∈ created) ∧
      created.card = (n.ensure path).2 := by
  induction path generalizing n with
  | nil => exact ⟨∅, by simp, by simp [Node.ensure], rfl⟩
  | cons h hashes ih =>
      unfold Node.ensure
      split
      · next hnone =>
          -- the child is new, and so is everything below it
          obtain ⟨created, hnew, hfind, hcard⟩ := ih newNode
          have hroot : [] ∉ created := fun hmem => by simpa [Node.find] using hnew [] hmem
          refine ⟨insert [h] (created.image (h :: ·)), ?_, fun p => ?_, ?_⟩
          · intro p hp
            rw [Finset.mem_insert, Finset.mem_image] at hp
            obtain rfl | ⟨p, -, rfl⟩ := hp
            · rw [find_cons, hnone, Option.bind_none]
            · rw [find_cons, hnone, Option.bind_none]
          · cases p with
            | nil => simp [Node.find]
            | cons h' p =>
                rw [find_set_cons]
                by_cases heq : h' = h
                · subst heq
                  simp [find_cons, hnone, hfind, isSome_find_newNode]
                · have hne : h ≠ h' := Ne.symm heq
                  simp [heq, hne]
          · rw [Finset.card_insert_of_notMem (by simpa using hroot),
              Finset.card_image_of_injective _ (List.cons_injective), hcard]
      · next child hchild =>
          obtain ⟨created, hnew, hfind, hcard⟩ := ih child
          refine ⟨created.image (h :: ·), ?_, fun p => ?_, ?_⟩
          · intro p hp
            obtain ⟨p, hmem, rfl⟩ := Finset.mem_image.mp hp
            rw [find_cons, hchild, Option.bind_some, hnew p hmem]
          · cases p with
            | nil => simp [Node.find]
            | cons h' p =>
                rw [find_set_cons]
                by_cases heq : h' = h
                · subst heq
                  simp [find_cons, hchild, hfind]
                · have hne : h ≠ h' := Ne.symm heq
                  simp [heq, hne]
          · rw [Finset.card_image_of_injective _ (List.cons_injective), hcard]

/-! ## The entries of a tree -/

/-- The number of entries at some paths. -/
def Node.entryTotal (root : Node) (paths : Finset (List UInt64)) : ℕ :=
  ∑ path ∈ paths, (root.entriesAt path).length

section

variable {root : Node} {paths : Finset (List UInt64)}

/-- Setting entries keeps the paths. -/
theorem Node.HasPaths.setEntries (h : root.HasPaths paths) (entries : List CacheEntry)
    (path : List UInt64) : (root.setEntries entries path).HasPaths paths := by
  intro path'
  rw [isSome_find_setEntries]
  exact h path'

/-- An assignment to a node exchanges its entries. -/
theorem entryTotal_setEntries (h : root.HasPaths paths) {path : List UInt64}
    (hpath : (root.find path).isSome) (entries : List CacheEntry) :
    (root.setEntries entries path).entryTotal paths + (root.entriesAt path).length =
      root.entryTotal paths + entries.length := by
  have hmem : path ∈ paths := (h path).mpr hpath
  have hself : (root.setEntries entries path).entriesAt path = entries := by
    rw [entriesAt_setEntries hpath, if_pos rfl]
  have hothers : ∑ p ∈ paths.erase path, ((root.setEntries entries path).entriesAt p).length =
      ∑ p ∈ paths.erase path, (root.entriesAt p).length := by
    refine Finset.sum_congr rfl fun p hp => ?_
    rw [entriesAt_setEntries hpath, if_neg (Finset.ne_of_mem_erase hp)]
  rw [Node.entryTotal, Node.entryTotal, ← Finset.add_sum_erase _ _ hmem,
    ← Finset.add_sum_erase _ _ hmem, hself, hothers]
  omega

/-- The nodes that `Insert` creates are empty. -/
theorem entryTotal_ensure {created : Finset (List UInt64)}
    (hnew : ∀ p ∈ created, root.find p = none) (path : List UInt64) :
    (root.ensure path).1.entryTotal (paths ∪ created) = root.entryTotal paths := by
  have hempty : ∀ p ∈ paths ∪ created, p ∉ paths →
      ((root.ensure path).1.entriesAt p).length = 0 := by
    intro p hp hnot
    have hnone := hnew p ((Finset.mem_union.mp hp).resolve_left hnot)
    rw [entriesAt_ensure, Node.entriesAt, hnone]
    rfl
  rw [Node.entryTotal, ← Finset.sum_subset Finset.subset_union_left hempty]
  simp only [entriesAt_ensure, Node.entryTotal]

/-- Each safe deletion removes one entry and no node. -/
theorem DeletesSafely.counts {backendID : String} {ds : List (List UInt64 × ℕ)}
    (hsafe : DeletesSafely backendID root ds) (h : root.HasPaths paths) :
    (ds.foldl Node.delete root).HasPaths paths ∧
      (ds.foldl Node.delete root).entryTotal paths + ds.length = root.entryTotal paths := by
  induction ds generalizing root with
  | nil => exact ⟨h, rfl⟩
  | cons d ds ih =>
      obtain ⟨⟨e, he, -⟩, hrest⟩ := hsafe
      obtain ⟨hpaths, htotal⟩ := ih hrest (h.setEntries _ _)
      refine ⟨hpaths, ?_⟩
      have hstep := entryTotal_setEntries h (isSome_find_of_getElem he)
        ((root.entriesAt d.1).eraseIdx d.2)
      rw [← Node.delete] at hstep
      have hlt : d.2 < (root.entriesAt d.1).length := (List.getElem?_eq_some_iff.mp he).1
      have hlen := List.length_eraseIdx_add_one hlt
      rw [List.foldl_cons, List.length_cons]
      omega

end

/-! ## The counters -/

/-- A 64-bit counter shows a number: it wraps with it, and is equal to it in the range of an
`int64`. -/
def Shows (counter : Int64) (n : ℕ) : Prop :=
  counter = Int64.ofNat n ∧ (n < 2 ^ 63 → counter.toInt = n)

theorem shows_ofNat {counter : Int64} {n : ℕ} (h : counter = Int64.ofNat n) : Shows counter n :=
  ⟨h, fun hlt => h ▸ Int64.toInt_ofNat_of_lt hlt⟩

/-- The counters of a tree are the numbers of its nodes and entries. -/
structure Tree.Counted (t : Tree) (paths : Finset (List UInt64)) : Prop where
  hasPaths : t.root.HasPaths paths
  nodeCount : t.nodeCount = Int64.ofNat paths.card
  entryCount : t.entryCount = Int64.ofNat (t.root.entryTotal paths)

section

variable {t : Tree} {paths : Finset (List UInt64)}

theorem counted_new : Tree.new.Counted {[]} where
  hasPaths path := by rw [Finset.mem_singleton, Tree.new, isSome_find_newNode]
  nodeCount := rfl
  entryCount := rfl

theorem length_refresh {backendID : String} {now : ℤ} {entries entries' : List CacheEntry}
    (h : refresh backendID now entries = some entries') : entries'.length = entries.length := by
  have hlen := congrArg List.length (backendIDs_refresh h)
  rwa [List.length_map, List.length_map] at hlen

/-- An insertion counts the nodes that it creates. -/
theorem nodeCount_insert (t : Tree) (hashes : List UInt64) (backendID : String) (now : ℤ) :
    (t.insert hashes backendID now).nodeCount =
      t.nodeCount + Int64.ofNat (t.root.ensure hashes).2 := by
  unfold Tree.insert
  dsimp only
  split <;> rfl

/-- An insertion counts an entry unless it has refreshed one. -/
theorem entryCount_insert (t : Tree) (hashes : List UInt64) (backendID : String) (now : ℤ) :
    (t.insert hashes backendID now).entryCount =
      if (refresh backendID now (t.root.entriesAt hashes)).isSome then t.entryCount
      else t.entryCount + 1 := by
  rw [← entriesAt_ensure t.root hashes hashes]
  simp only [Tree.insert]
  split
  · next h => simp [h]
  · next h => simp [h]

/-- **An insertion keeps the counts.** -/
theorem Tree.Counted.insert (h : t.Counted paths) (hashes : List UInt64) (backendID : String)
    (now : ℤ) : ∃ paths', (t.insert hashes backendID now).Counted paths' := by
  obtain ⟨created, hnew, hfind, hcard⟩ := exists_created t.root hashes
  have hroot : (t.root.ensure hashes).1.HasPaths (paths ∪ created) := by
    intro path
    rw [Finset.mem_union, h.hasPaths path, hfind]
  have hdisjoint : Disjoint paths created := by
    rw [Finset.disjoint_right]
    intro path hmem hpath
    rw [h.hasPaths, hnew path hmem] at hpath
    contradiction
  refine ⟨paths ∪ created, ?_, ?_, ?_⟩
  · rw [root_insert]
    exact hroot.setEntries _ _
  · rw [nodeCount_insert, h.nodeCount, Finset.card_union_of_disjoint hdisjoint, hcard,
      Int64.ofNat_add]
  · have htotal := entryTotal_setEntries hroot (find_ensure t.root hashes)
      ((refresh backendID now (t.root.entriesAt hashes)).getD
        (t.root.entriesAt hashes ++ [⟨backendID, now, now, 1⟩]))
    rw [← root_insert, entriesAt_ensure, entryTotal_ensure hnew] at htotal
    rw [entryCount_insert, h.entryCount]
    cases hrefresh : refresh backendID now (t.root.entriesAt hashes) with
    | some entries =>
        rw [hrefresh, Option.getD_some, length_refresh hrefresh, Nat.add_right_cancel_iff] at htotal
        rw [htotal]
        rfl
    | none =>
        rw [hrefresh, Option.getD_none, List.length_append, List.length_singleton] at htotal
        have hone : (t.insert hashes backendID now).root.entryTotal (paths ∪ created) =
            t.root.entryTotal paths + 1 := by omega
        rw [hone, Int64.ofNat_add]
        rfl

/-- A touch keeps the counts and the paths. -/
theorem Tree.Counted.touch (h : t.Counted paths) (hashes : List UInt64) (backendID : String)
    (now : ℤ) : (t.touch hashes backendID now).Counted paths := by
  unfold Tree.touch
  split
  · exact h
  · next node hfind =>
      split
      · exact h
      · next entries hrefresh =>
          have hpath : (t.root.find hashes).isSome := by rw [hfind, Option.isSome_some]
          have htotal := entryTotal_setEntries h.hasPaths hpath entries
          rw [length_refresh hrefresh, Nat.add_right_cancel_iff] at htotal
          exact ⟨h.hasPaths.setEntries _ _, h.nodeCount, htotal ▸ h.entryCount⟩

/-- **An eviction keeps the counts**, and all nodes. -/
theorem Tree.Counted.evict (h : t.Counted paths) (backendID : String) (count : ℤ)
    (walkOrder : WalkOrder) (removalOrder : GoMap.RangeOrder (List UInt64) (List ℕ)) :
    (t.evict backendID count walkOrder removalOrder).Counted paths := by
  obtain ⟨hpaths, htotal⟩ :=
    (deletesSafely_evict t backendID count walkOrder removalOrder).counts h.hasPaths
  rw [← root_evict] at hpaths htotal
  refine ⟨hpaths, ?_, ?_⟩
  · rw [← h.nodeCount]
    unfold Tree.evict
    dsimp only
    split
    · rfl
    · split <;> rfl
  · rw [entryCount_evict, h.entryCount, ← htotal, Int64.ofNat_add, ← Int64.sub_eq_add_neg,
      Int64.add_sub_cancel]

/-- Every call keeps the counters exact. -/
theorem Tree.Counted.apply (h : t.Counted paths) :
    (op : Op) → ∃ paths', (t.apply op).Counted paths'
  | .insert hashes backendID now => h.insert hashes backendID now
  | .touch hashes backendID now => ⟨paths, h.touch hashes backendID now⟩
  | .evict backendID count walkOrder removalOrder =>
      ⟨paths, h.evict backendID count walkOrder removalOrder⟩

end

/-- After every run the counts are right. -/
theorem counted_run (ops : List Op) : ∃ paths, (run ops).Counted paths := by
  induction ops using List.reverseRecOn with
  | nil => exact ⟨{[]}, counted_new⟩
  | append_singleton ops op ih =>
      obtain ⟨paths, h⟩ := ih
      rw [run_concat]
      exact h.apply op

/-- **The counters never drift.**  After every history, the tree shows the numbers of the nodes
reachable from its root and of the entries in them, no node holds two entries of one backend, and
every eviction deletes by indices that hold entries of its backend when they are deleted. -/
theorem counters_exact (ops : List Op) :
    ∃ paths : Finset (List UInt64),
      (∀ path, path ∈ paths ↔ ((run ops).root.find path).isSome) ∧
      Shows (run ops).stats.nodeCount paths.card ∧
      Shows (run ops).stats.entryCount (∑ path ∈ paths, ((run ops).root.entriesAt path).length) ∧
      (∀ path, (((run ops).root.entriesAt path).map (·.backendID)).Nodup) ∧
      ∀ backendID count walkOrder removalOrder,
        ((run ops).evict backendID count walkOrder removalOrder).root =
          ((run ops).deletions backendID count walkOrder removalOrder).foldl Node.delete
            (run ops).root ∧
        DeletesSafely backendID (run ops).root
          ((run ops).deletions backendID count walkOrder removalOrder) := by
  obtain ⟨paths, h⟩ := counted_run ops
  exact ⟨paths, h.hasPaths, shows_ofNat h.nodeCount, shows_ofNat h.entryCount,
    (run ops).wellFormed.nodup_entriesAt, fun backendID count walkOrder removalOrder =>
      ⟨root_evict _ backendID count walkOrder removalOrder,
        deletesSafely_evict _ backendID count walkOrder removalOrder⟩⟩

end KvRouter.RadixTree
