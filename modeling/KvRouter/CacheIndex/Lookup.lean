import KvRouter.CacheIndex.Lru
import KvRouter.Lib.Prefix

/-!
# KvRouter.CacheIndex.Lookup

What `lookup` reports, in terms of retained pairs and of the history of
commits.  A query matches `n` blocks exactly when the keys of its first `n`
prefixes are all retained (`le_lookup_iff`).

The stored keys are digests, so a bound by what was really committed needs the
prefixes involved not to collide (`CollisionFree`).  Under that assumption
`lookup` never claims more than the longest common prefix with a committed
list, and claims exactly that much while nothing had to be evicted
(`no_phantom_affinity`).  Neither needs an assumption on the clock or on the
sequence counter: the invariant `run_covers` only follows which pairs are
retained, not their stamps.
-/

namespace KvRouter.CacheIndex

open Prefix

/-! ## Lookup by retained pairs -/

/-- A match is no longer than the query. -/
theorem lookup_le_length (i : Index) (id ns : String) (q : List UInt64) :
    i.lookup id ns q ≤ q.length := by
  unfold Index.lookup
  split
  · exact Nat.zero_le _
  · have h := matchKeys_le ((BackendCache.entries ‹_›).lookup ns |>.getD ∅) (cumulativeKeys q)
    rwa [length_cumulativeKeys] at h

/-- A query matches `n` blocks exactly when its first `n` keys are retained. -/
theorem le_lookup_iff {i : Index} {id : String} {b : BackendCache}
    (hb : i.backends.lookup id = some b) (ns : String) {q : List UInt64} {n : ℕ}
    (hn : n ≤ q.length) :
    n ≤ i.lookup id ns q ↔ ∀ p ∈ heads (q.take n), Retained b (ns, cumulativeKey p) := by
  have hkeys : n ≤ (cumulativeKeys q).length := by rwa [length_cumulativeKeys]
  simp only [Index.lookup, hb]
  rw [le_matchKeys_iff hkeys, ← cumulativeKeys_take]
  simp only [lookup_getD_eq_find]
  constructor
  · intro h p hp
    obtain ⟨m, hpos, hm, rfl⟩ := mem_heads.mp hp
    exact h _ (mem_cumulativeKeys.mpr ⟨m, hpos, hm, rfl⟩)
  · intro h key hkey
    obtain ⟨m, hpos, hm, rfl⟩ := mem_cumulativeKeys.mp hkey
    exact h _ (mem_heads.mpr ⟨m, hpos, hm, rfl⟩)

/-- A backend that is not registered matches nothing. -/
theorem lookup_unregistered {i : Index} {id : String} (h : i.backends.lookup id = none)
    (ns : String) (q : List UInt64) : i.lookup id ns q = 0 := by
  simp [Index.lookup, h]

/-- Matching `n > 0` blocks means the key of the first `n` blocks is retained. -/
theorem retained_of_le_lookup {i : Index} {id : String} {b : BackendCache}
    (hb : i.backends.lookup id = some b) {ns : String} {q : List UInt64} {n : ℕ} (hpos : 0 < n)
    (h : n ≤ i.lookup id ns q) : Retained b (ns, cumulativeKey (q.take n)) := by
  have hn : n ≤ q.length := Nat.le_trans h (lookup_le_length i id ns q)
  have hself : q.take n ∈ heads (q.take n) := by
    refine mem_heads.mpr ⟨n, hpos, ?_, ?_⟩
    · rw [List.length_take]; omega
    · rw [List.take_take, Nat.min_self]
  exact (le_lookup_iff hb ns hn).mp h _ hself

/-! ## Retained pairs come from the history -/

theorem length_dedup_le_append (log P : List Pair) :
    log.dedup.length ≤ (log ++ P).dedup.length := by
  rw [← Recency.touchAll_dedup]
  exact Recency.length_le_length_touchAll _ _

/-- A commit keeps what it touched and what was there, if all of it fits. -/
theorem retained_trim_touchKeys {b : BackendCache} {log : List Pair}
    (hlog : ∀ p, p ∈ log ↔ Retained b p) (sequence : UInt64) (ns : String) (blocks : List UInt64)
    (now : Instant) (orders : ℕ → ScanOrder)
    (hfits : ((log ++ pairsOf ns blocks).dedup.length : ℤ) ≤ b.capacity) {p : Pair}
    (hp : p ∈ log ++ pairsOf ns blocks) :
    Retained (trim orders (touchKeys b sequence ns now (cumulativeKeys blocks)).1) p := by
  have hall (q : Pair) : q ∈ (log ++ pairsOf ns blocks).dedup ↔
      Retained (touchKeys b sequence ns now (cumulativeKeys blocks)).1 q := by
    rw [List.mem_dedup, List.mem_append, retained_touchKeys, hlog]
    rfl
  have htotal := totalEntries_eq_length (List.nodup_dedup _) hall
  rw [trim, evictLoop_of_le _ _ (by rw [htotal, capacity_touchKeys]; exact hfits)]
  exact (hall p).mp (List.mem_dedup.mpr hp)

/-- A backend without capacity retains nothing. -/
theorem capacity_pos_of_retained (ops : List Op) {id : String} {b : BackendCache}
    (hb : (run ops).backends.lookup id = some b) {p : Pair} (hp : Retained b p) :
    0 < b.capacity := by
  induction ops using List.reverseRecOn generalizing b with
  | nil => simp [run, Index.new, Finmap.lookup_empty] at hb
  | append_singleton ops op ih =>
      rw [run_concat] at hb
      cases becomes_apply hb with
      | register capacity => simp [Retained, find, Finmap.lookup_empty] at hp
      | commit _ hcap ns blocks now orders => rwa [capacity_trim, capacity_touchKeys]
      | idle hb' => exact ih hb' hp
      | other _ hb' => exact ih hb' hp

/-- **What a run retains**, without any assumption on its clock: nothing that was
not touched, and everything that was while it fits. -/
theorem run_covers (ops : List Op) {id : String} {b : BackendCache}
    (hb : (run ops).backends.lookup id = some b) :
    (∀ p, Retained b p → p ∈ touched id ops) ∧
      (((touched id ops).dedup.length : ℤ) ≤ b.capacity → ∀ p ∈ touched id ops, Retained b p) := by
  induction ops using List.reverseRecOn generalizing b with
  | nil => simp [run, Index.new, Finmap.lookup_empty] at hb
  | append_singleton ops op ih =>
      rw [run_concat] at hb
      cases becomes_apply hb with
      | register capacity =>
          rw [touched_register, if_pos rfl]
          exact ⟨fun p hp => by simp [Retained, find, Finmap.lookup_empty] at hp, by simp⟩
      | commit hb' hcap ns blocks now orders =>
          obtain ⟨hsound, hfits⟩ := ih hb'
          rw [touched_commit, if_pos rfl, capacity_trim, capacity_touchKeys]
          constructor
          · intro p hp
            obtain hp | hp := (retained_touchKeys _ _ ns now _ p).mp (retained_of_evictLoop hp)
            · exact List.mem_append_left _ (hsound p hp)
            · exact List.mem_append_right _ hp
          · intro hle p hp
            have hlog := length_dedup_le_append (touched id ops) (pairsOf ns blocks)
            have hold := hfits (by omega)
            exact retained_trim_touchKeys (fun p => ⟨hold p, hsound p⟩) _ ns blocks now orders
              hle hp
      | idle hb' hcap ns blocks now orders =>
          rw [touched_commit, if_pos rfl]
          constructor
          · exact fun p hp => List.mem_append_left _ ((ih hb').1 p hp)
          · intro hle p hp
            have hpos := List.length_pos_of_mem (List.mem_dedup.mpr hp)
            omega
      | other hop hb' =>
          rw [touched_of_ne ops hop]
          exact ih hb'

/-! ## No phantom affinity -/

/-- The block lists committed to a namespace of a backend since its last `Register`. -/
def committedTo (id ns : String) (ops : List Op) : List (List UInt64) :=
  (committed id ops).filterMap fun c => if c.1 = ns then some c.2 else none

/-- No two distinct non-empty prefixes of members of `lists` share a cumulative key. -/
def CollisionFree (lists : List (List UInt64)) : Prop :=
  ∀ p ∈ lists.flatMap heads, ∀ p' ∈ lists.flatMap heads, cumulativeKey p = cumulativeKey p' → p = p'

instance (lists : List (List UInt64)) : Decidable (CollisionFree lists) :=
  inferInstanceAs (Decidable (∀ p ∈ lists.flatMap heads, _))

/-- A list was committed to a namespace under that name. -/
theorem mem_committedTo {id ns : String} {ops : List Op} {l : List UInt64} :
    l ∈ committedTo id ns ops ↔ (ns, l) ∈ committed id ops := by
  simp only [committedTo, List.mem_filterMap]
  constructor
  · rintro ⟨⟨ns', l'⟩, hmem, h⟩
    dsimp only at h
    split at h
    · next hns =>
        rw [Option.some.injEq] at h
        rwa [← hns, ← h]
    · contradiction
  · intro h
    exact ⟨(ns, l), h, if_pos rfl⟩

/-- A pair is touched exactly when it is the key of a prefix of a committed list. -/
theorem mem_touched_iff {id ns : String} {ops : List Op} {key : UInt64} :
    (ns, key) ∈ touched id ops ↔
      ∃ l ∈ committedTo id ns ops, ∃ p ∈ heads l, key = cumulativeKey p := by
  simp only [touched, List.mem_flatMap, mem_pairsOf]
  constructor
  · rintro ⟨⟨ns', l⟩, hmem, hns, n, hpos, hn, hkey⟩
    dsimp only at hns hn hkey
    subst hns
    exact ⟨l, mem_committedTo.mpr hmem, l.take n, mem_heads.mpr ⟨n, hpos, hn, rfl⟩, hkey⟩
  · rintro ⟨l, hl, p, hp, hkey⟩
    obtain ⟨n, hpos, hn, rfl⟩ := mem_heads.mp hp
    exact ⟨(ns, l), mem_committedTo.mp hl, rfl, n, hpos, hn, hkey⟩

/-- Without collisions, a query prefix whose key was touched is a prefix of a
committed list. -/
theorem exists_committed_of_touched {id ns : String} {ops : List Op} {q : List UInt64} {n : ℕ}
    (hfree : CollisionFree (q :: committedTo id ns ops)) (hpos : 0 < n) (hn : n ≤ q.length)
    (h : (ns, cumulativeKey (q.take n)) ∈ touched id ops) :
    ∃ l ∈ committedTo id ns ops, n ≤ l.length ∧ q.take n = l.take n := by
  obtain ⟨l, hl, p, hp, hkey⟩ := mem_touched_iff.mp h
  have hq : q.take n ∈ (q :: committedTo id ns ops).flatMap heads :=
    List.mem_flatMap.mpr ⟨q, List.mem_cons_self, mem_heads.mpr ⟨n, hpos, hn, rfl⟩⟩
  have hp' : p ∈ (q :: committedTo id ns ops).flatMap heads :=
    List.mem_flatMap.mpr ⟨l, List.mem_cons_of_mem _ hl, hp⟩
  have heq := hfree _ hq _ hp' hkey
  obtain ⟨m, -, hm, rfl⟩ := mem_heads.mp hp
  have hlen := congrArg List.length heq
  rw [List.length_take_of_le hn, List.length_take_of_le hm] at hlen
  subst hlen
  exact ⟨l, hl, hm, heq⟩

/-- The lookup of `q` after `ops` claims nothing that was not committed. -/
structure HonestLookup (ops : List Op) (id ns : String) (q : List UInt64) : Prop where
  /-- It reports at most the longest common prefix of the query with a list
  committed to the same backend and namespace since the backend was registered. -/
  upper : (run ops).lookup id ns q ≤ longest q (committedTo id ns ops)
  /-- It reports exactly that while the distinct pairs committed to the backend
  fit its capacity. -/
  exact_of_fits : ∀ b, (run ops).backends.lookup id = some b →
    ((touched id ops).dedup.length : ℤ) ≤ b.capacity →
      (run ops).lookup id ns q = longest q (committedTo id ns ops)

/-- **No more is claimed than was committed**: a match is at most the longest common prefix. -/
theorem lookup_le_longest (ops : List Op) (id ns : String) (q : List UInt64)
    (hfree : CollisionFree (q :: committedTo id ns ops)) :
    (run ops).lookup id ns q ≤ longest q (committedTo id ns ops) := by
  cases hb : (run ops).backends.lookup id with
  | none =>
      rw [lookup_unregistered hb]
      exact Nat.zero_le _
  | some b =>
      by_cases hpos : 0 < (run ops).lookup id ns q
      · have hn := lookup_le_length (run ops) id ns q
        have hret := retained_of_le_lookup hb hpos (Nat.le_refl _)
        obtain ⟨l, hl, hlen, heq⟩ :=
          exists_committed_of_touched hfree hpos hn ((run_covers ops hb).1 _ hret)
        exact Nat.le_trans (le_lcp_iff.mpr ⟨hn, hlen, heq⟩) (lcp_le_longest hl)
      · omega

/-- What is still retained of the common prefix with a committed list is found. -/
theorem lcp_le_lookup {ops : List Op} {id ns : String} {b : BackendCache}
    (hb : (run ops).backends.lookup id = some b) {q l : List UInt64}
    (hret : ∀ p ∈ heads l, Retained b (ns, cumulativeKey p)) :
    lcp q l ≤ (run ops).lookup id ns q := by
  obtain ⟨hq, hlen, heq⟩ := le_lcp_iff.mp (Nat.le_refl (lcp q l))
  rw [le_lookup_iff hb ns hq, heq]
  intro p hp
  obtain ⟨m, hpos, hm, rfl⟩ := mem_heads.mp hp
  rw [List.length_take_of_le hlen] at hm
  rw [List.take_take, Nat.min_eq_left hm]
  exact hret _ (mem_heads.mpr ⟨m, hpos, Nat.le_trans hm hlen, rfl⟩)

/-- **No phantom affinity**: when no two distinct prefixes among the query and
the lists committed to its backend and namespace share a key, the lookup is
honest, whatever was committed elsewhere. -/
theorem no_phantom_affinity (ops : List Op) (id ns : String) (q : List UInt64)
    (hfree : CollisionFree (q :: committedTo id ns ops)) : HonestLookup ops id ns q where
  upper := lookup_le_longest ops id ns q hfree
  exact_of_fits b hb hfits := by
    refine Nat.le_antisymm (lookup_le_longest ops id ns q hfree) (longest_le_iff.mpr ?_)
    intro l hl
    refine lcp_le_lookup hb fun p hp => ?_
    exact (run_covers ops hb).2 hfits _ (mem_touched_iff.mpr ⟨l, hl, p, hp, rfl⟩)

/-- Two conversations that share their first block, and a query that goes on
differently after it. -/
theorem no_phantom_affinity_shared : HonestLookup
    [.register "a" 4, .commit "a" "chat:m" [1, 2] ⟨5, by decide⟩ (fun _ => default),
      .commit "a" "chat:m" [1, 3] ⟨6, by decide⟩ (fun _ => default)] "a" "chat:m" [1, 4] :=
  no_phantom_affinity _ _ _ _ (by decide)

end KvRouter.CacheIndex
