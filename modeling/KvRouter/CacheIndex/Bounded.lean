import KvRouter.CacheIndex.Lru
import Mathlib.Algebra.Order.BigOperators.Group.Multiset
import Mathlib.Algebra.Order.Group.Nat

/-!
# KvRouter.CacheIndex.Bounded

The directory has no empty buckets.  `Commit` makes the bucket of its namespace
before it inserts any key, and `evictOldest` is the only place that deletes one,
so the bound on the number of buckets rests on two facts: a commit of at least
one block fills the bucket it made, and a bucket that loses its last key goes
with it.

* `Bounded.commit` — a commit of a non-empty block list keeps the bound;
* `Bounded.buckets_le` — under the bound there are at most as many buckets as
  entries.
-/

namespace KvRouter.CacheIndex

/-- Every bucket of the backend holds a key. -/
def Filled (b : BackendCache) : Prop :=
  ∀ ns entries, b.entries.lookup ns = some entries → 0 < GoMap.len entries

/-- A backend without empty buckets and within its capacity. -/
structure Bounded (b : BackendCache) : Prop where
  filled : Filled b
  within : (totalEntries b : ℤ) ≤ b.capacity

/-- A namespace with an entry is not empty. -/
theorem len_pos_of_lookup {entries : Bucket} {key : UInt64} {e : Entry}
    (h : entries.lookup key = some e) : 0 < GoMap.len entries := by
  refine Nat.pos_of_ne_zero fun hzero => ?_
  rw [GoMap.len_eq_zero_iff.mp hzero key] at h
  exact Option.some_ne_none e h.symm

/-- **There are at most as many buckets as entries.** -/
theorem Filled.buckets_le {b : BackendCache} (h : Filled b) :
    GoMap.len b.entries ≤ totalEntries b := by
  have hone : ∀ n ∈ b.entries.entries.map fun s => GoMap.len s.2, 1 ≤ n := by
    intro n hn
    obtain ⟨s, hs, rfl⟩ := Multiset.mem_map.mp hn
    exact h s.1 s.2 (Finmap.lookup_eq_some_iff.mpr hs)
  have hsum := Multiset.card_nsmul_le_sum hone
  simpa [totalEntries, GoMap.len] using hsum

/-- A backend that was just registered is within its bounds. -/
theorem bounded_empty {capacity : ℤ} (hcap : 0 ≤ capacity) : Bounded ⟨capacity, ∅⟩ where
  filled ns entries h := by simp at h
  within := by
    rw [(tracks_empty capacity 0 []).length]
    exact hcap

/-! ## Eviction -/

/-- Deleting a key leaves no empty namespace. -/
theorem filled_deleteKey {b : BackendCache} (h : Filled b) (ns : String) (key : UInt64) :
    Filled (deleteKey b ns key) := by
  intro ns' entries hns
  simp only [deleteKey] at hns
  split at hns
  · next hlen =>
      simp only [GoMap.lookup_erase_eq] at hns
      split at hns
      · contradiction
      · exact h ns' entries hns
  · next hlen =>
      simp only [GoMap.lookup_insert_eq] at hns
      split at hns
      · obtain rfl := Option.some.inj hns
        exact Nat.pos_of_ne_zero hlen
      · exact h ns' entries hns

/-- Nor does an eviction. -/
theorem filled_evictOldest (o : ScanOrder) {b : BackendCache} (h : Filled b) :
    Filled (evictOldest o b) := by
  unfold evictOldest
  dsimp only
  split
  · exact h
  · exact filled_deleteKey h _ _

/-- Nor does the eviction loop. -/
theorem filled_evictLoop (orders : ℕ → ScanOrder) (fuel : ℕ) {b : BackendCache} (h : Filled b) :
    Filled (evictLoop orders fuel b).2 := by
  induction fuel generalizing orders b with
  | zero => exact h
  | succ fuel ih =>
      simp only [evictLoop]
      split
      · exact ih _ (filled_evictOldest _ h)
      · exact h

/-! ## Commit -/

/-- Touching at least one key fills the bucket of its namespace. -/
theorem filled_touchKeys {b : BackendCache} (h : Filled b) (sequence : UInt64) (ns : String)
    (now : Instant) {keys : List UInt64} (hkeys : keys ≠ []) :
    Filled (touchKeys b sequence ns now keys).1 := by
  intro ns' entries hns
  by_cases hne : ns' = ns
  · subst hne
    obtain ⟨key, hkey⟩ := List.exists_mem_of_ne_nil keys hkeys
    have hretained : Retained (touchKeys b sequence ns' now keys).1 (ns', key) :=
      (retained_touchKeys b sequence ns' now keys (ns', key)).mpr
        (.inr (List.mem_map_of_mem hkey))
    obtain ⟨e, he⟩ := Option.isSome_iff_exists.mp hretained
    obtain ⟨entries', hentries', hlookup⟩ := find_eq_some_iff.mp he
    rw [hns, Option.some.injEq] at hentries'
    exact len_pos_of_lookup (hentries' ▸ hlookup)
  · rw [touchKeys] at hns
    dsimp only at hns
    rw [GoMap.lookup_insert_eq, if_neg hne] at hns
    exact h ns' entries hns

/-- **After the eviction loop** the entries fit the capacity. -/
theorem bounded_trim (orders : ℕ → ScanOrder) {b : BackendCache} (h : Filled b)
    (hcap : 0 ≤ b.capacity) : Bounded (trim orders b) where
  filled := filled_evictLoop _ _ h
  within := by
    have hdone := (evictLoop_done orders hcap (Nat.sub_le (totalEntries b) b.capacity.toNat)).2
    rw [capacity_trim, trim, hdone]
    omega

/-- **A commit of a non-empty block list keeps every backend bounded**, with the capacity it
had. -/
theorem Bounded.commit {i : Index} {id ns : String} {blocks : List UInt64} (hblocks : blocks ≠ [])
    (now : Instant) (orders : ℕ → ScanOrder) {id' : String} {b : BackendCache}
    (h : ∀ b', i.backends.lookup id' = some b' → Bounded b')
    (hb : (i.commit id ns blocks now orders).backends.lookup id' = some b) :
    Bounded b ∧ ∃ b', i.backends.lookup id' = some b' ∧ b.capacity = b'.capacity := by
  have hbecomes : Becomes i id' (.commit id ns blocks now orders) b := becomes_apply hb
  cases hbecomes with
  | @commit b' hb' hcap =>
      have hkeys : cumulativeKeys blocks ≠ [] := by
        rw [← List.length_pos_iff, length_cumulativeKeys]
        exact List.length_pos_iff.mpr hblocks
      have hfilled := filled_touchKeys (h b' hb').filled i.sequence ns now hkeys
      exact ⟨bounded_trim orders hfilled hcap.le, b', hb', by rw [capacity_trim]; rfl⟩
  | idle hb' hcap => exact ⟨h b hb', b, hb', rfl⟩
  | other hop hb' => exact ⟨h b hb', b, hb', rfl⟩

end KvRouter.CacheIndex
