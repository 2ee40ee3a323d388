import KvRouter.CacheIndex.Lookup

/-!
# KvRouter.CacheIndex.Closure

Does `lookup` return the longest known prefix?  It stops at the first key that
is missing, so it does as long as the retained keys of a namespace are closed
under shorter prefixes.  Eviction does not respect that: a commit touches its
shortest prefix first, so of a list that is only partly evicted the short
prefixes go and the long ones stay, retained but unreachable.

`lookup_longest_iff` says exactly when this does not happen: the capacity has
to fall on a boundary between commits (`Aligned`).
-/

namespace KvRouter.CacheIndex

open Prefix Recency

/-- `n` is the greatest number of leading blocks of `q` whose key is retained,
`0` when there is none. -/
structure IsLongestRetained (b : BackendCache) (ns : String) (q : List UInt64) (n : ℕ) : Prop where
  le_length : n ≤ q.length
  retained : 0 < n → Retained b (ns, cumulativeKey (q.take n))
  greatest : ∀ m, 0 < m → m ≤ q.length → Retained b (ns, cumulativeKey (q.take m)) → m ≤ n

/-- The pairs of some commits, in the order they are touched. -/
def pairsOfAll (cs : List (String × List UInt64)) : List Pair :=
  cs.flatMap fun c => pairsOf c.1 c.2

/-- Everything committed to `id` since its last `Register` fits the capacity
`C`, or the distinct pairs of its last few commits are `C` many. -/
def Aligned (id : String) (ops : List Op) (C : ℕ) : Prop :=
  (touched id ops).dedup.length ≤ C ∨
    ∃ recent, recent <:+ committed id ops ∧ (pairsOfAll recent).dedup.length = C

/-! ## Aligned capacities retain whole commits -/

theorem pairsOfAll_append (cs cs' : List (String × List UInt64)) :
    pairsOfAll (cs ++ cs') = pairsOfAll cs ++ pairsOfAll cs' := List.flatMap_append

/-- The last commits are the last touches. -/
theorem touched_of_suffix {id : String} {ops : List Op} {recent : List (String × List UInt64)}
    (h : recent <:+ committed id ops) :
    ∃ earlier, touched id ops = earlier ++ pairsOfAll recent := by
  obtain ⟨cs, hcs⟩ := h
  exact ⟨pairsOfAll cs, by rw [touched, ← hcs]; exact pairsOfAll_append cs recent⟩

/-- At an aligned capacity the retained pairs are those of whole commits. -/
theorem Aligned.retained {id : String} {ops : List Op} {b : BackendCache}
    (h : Aligned id ops b.capacity.toNat) (hclock : (readings ops).Pairwise (· ≤ ·))
    (htouch : totalTouches ops < 2 ^ 64) (hb : (run ops).backends.lookup id = some b) :
    ∃ cs, cs ⊆ committed id ops ∧ ∀ p, Retained b p ↔ p ∈ pairsOfAll cs := by
  by_cases hcap : 0 < b.capacity
  · have htracks := run_tracks ops hclock htouch hb hcap
    obtain hfits | ⟨recent, hsuffix, hcount⟩ := h
    · refine ⟨committed id ops, List.Subset.refl _, fun p => ?_⟩
      rw [← htracks.mem_iff, mostRecent, newest_of_length_le hfits, List.mem_dedup]
      rfl
    · refine ⟨recent, hsuffix.subset, fun p => ?_⟩
      obtain ⟨earlier, heq⟩ := touched_of_suffix hsuffix
      rw [← htracks.mem_iff, mostRecent, heq, ← hcount,
        newest_eq_self_of_suffix (dedup_suffix_append _ _), List.mem_dedup]
  · refine ⟨[], List.nil_subset _, fun p => ?_⟩
    constructor
    · intro hp
      exact absurd (capacity_pos_of_retained ops hb hp) hcap
    · intro hp
      simp [pairsOfAll] at hp

/-- Where whole commits are retained, a query reaches every retained key of its
own prefixes. -/
theorem isLongestRetained_of_commits {id ns : String} {ops : List Op} {b : BackendCache}
    (hb : (run ops).backends.lookup id = some b) {cs : List (String × List UInt64)}
    (hcs : cs ⊆ committed id ops) (hret : ∀ p, Retained b p ↔ p ∈ pairsOfAll cs)
    {q : List UInt64} (hfree : CollisionFree (q :: committedTo id ns ops)) :
    IsLongestRetained b ns q ((run ops).lookup id ns q) where
  le_length := lookup_le_length _ _ _ _
  retained hpos := retained_of_le_lookup hb hpos (Nat.le_refl _)
  greatest m hpos hm hp := by
    obtain ⟨⟨ns', l⟩, hl, hpl⟩ := List.mem_flatMap.mp ((hret _).mp hp)
    obtain ⟨rfl, n, hnpos, hn, hkey⟩ := mem_pairsOf.mp hpl
    -- the prefix of the query and the one of the commit have one key, so they are one list
    have heq : q.take m = l.take n :=
      hfree _ (List.mem_flatMap.mpr ⟨q, List.mem_cons_self, mem_heads.mpr ⟨m, hpos, hm, rfl⟩⟩)
        _ (List.mem_flatMap.mpr ⟨l, List.mem_cons_of_mem _ (mem_committedTo.mpr (hcs hl)),
          mem_heads.mpr ⟨n, hnpos, hn, rfl⟩⟩) hkey
    have hlcp : m ≤ lcp q l := by
      have hlen := congrArg List.length heq
      rw [List.length_take_of_le hm, List.length_take_of_le hn] at hlen
      subst hlen
      exact le_lcp_iff.mpr ⟨hm, hn, heq⟩
    refine Nat.le_trans hlcp (lcp_le_lookup hb fun p hp => (hret _).mpr ?_)
    obtain ⟨k, hkpos, hk, rfl⟩ := mem_heads.mp hp
    exact List.mem_flatMap.mpr ⟨(ns, l), hl, mem_pairsOf.mpr ⟨rfl, k, hkpos, hk, rfl⟩⟩

/-! ## Elsewhere a commit is cut -/

/-- The pairs of a list, shorter prefixes first. -/
theorem pairwise_pairsOf (ns : String) (l : List UInt64) :
    (pairsOf ns l).Pairwise fun p p' => ∃ m n, 0 < m ∧ m ≤ n ∧ n ≤ l.length ∧
      p = (ns, cumulativeKey (l.take m)) ∧ p' = (ns, cumulativeKey (l.take n)) := by
  have hget {n : ℕ} (hn : n < (pairsOf ns l).length) :
      (pairsOf ns l)[n] = (ns, cumulativeKey (l.take (n + 1))) := by
    have hl : n < l.length := by rwa [length_pairsOf] at hn
    obtain ⟨hlt, hkey⟩ := List.getElem?_eq_some_iff.mp (getElem?_cumulativeKeys hl)
    simp only [pairsOf, List.getElem_map, hkey]
  rw [List.pairwise_iff_getElem]
  intro m n hm hn hmn
  have hl : n < l.length := by rwa [length_pairsOf] at hn
  exact ⟨m + 1, n + 1, by omega, by omega, hl, hget hm, hget hn⟩

/-- **The defect**: off the boundaries some committed list has a retained prefix
behind a missing one. -/
theorem exists_gap {id : String} {ops : List Op} {b : BackendCache}
    (h : ¬ Aligned id ops b.capacity.toNat) (hclock : (readings ops).Pairwise (· ≤ ·))
    (htouch : totalTouches ops < 2 ^ 64) (hb : (run ops).backends.lookup id = some b) :
    ∃ ns, ∃ l ∈ committedTo id ns ops, ∃ m n, 0 < m ∧ m ≤ n ∧ n ≤ l.length ∧
      ¬ Retained b (ns, cumulativeKey (l.take m)) ∧ Retained b (ns, cumulativeKey (l.take n)) := by
  obtain ⟨hover, hne⟩ := not_or.mp h
  have hzero : (pairsOfAll []).dedup.length = 0 := rfl
  have hnil : (pairsOfAll []).dedup.length ≠ b.capacity.toNat :=
    fun heq => hne ⟨[], List.nil_suffix, heq⟩
  obtain ⟨⟨ns, l⟩, recent, hsuffix, hlo, hhi⟩ :=
    exists_jump (g := fun cs => (pairsOfAll cs).dedup.length) (by omega) (Nat.lt_of_not_le hover)
      fun cs hcs heq => hne ⟨cs, hcs, heq⟩
  have htracks := run_tracks ops hclock htouch hb (by omega)
  obtain ⟨earlier, htouched⟩ := touched_of_suffix hsuffix
  have hcons : pairsOfAll ((ns, l) :: recent) = pairsOf ns l ++ pairsOfAll recent :=
    List.flatMap_cons
  rw [hcons] at htouched hhi
  obtain ⟨X₁, X₂, hX₁, hX₂, hsub, hnodup, hnewest⟩ := newest_cuts earlier hlo hhi
  rw [← htouched] at hnewest
  obtain ⟨x₁, hx₁⟩ := List.exists_mem_of_ne_nil X₁ hX₁
  obtain ⟨x₂, hx₂⟩ := List.exists_mem_of_ne_nil X₂ hX₂
  have horder := (List.pairwise_append.mp ((pairwise_pairsOf ns l).sublist hsub)).2.2 x₁ hx₁ x₂ hx₂
  obtain ⟨m, n, hm, hmn, hn, rfl, rfl⟩ := horder
  refine ⟨ns, l, mem_committedTo.mpr (hsuffix.subset List.mem_cons_self), m, n, hm, hmn, hn, ?_, ?_⟩
  · rw [← htracks.mem_iff, mostRecent, hnewest]
    exact fun hmem => (List.nodup_append.mp hnodup).2.2 _ hx₁ _ hmem rfl
  · rw [← htracks.mem_iff, mostRecent, hnewest]
    exact List.mem_append_left _ hx₂

/-! ## The longest known prefix -/

/-- Every lookup of the backend finds the longest prefix of its query that is
retained, if no prefix of the query collides with a committed one. -/
def LongestPrefixLookups (ops : List Op) (id : String) (b : BackendCache) : Prop :=
  ∀ ns q, CollisionFree (q :: committedTo id ns ops) →
    IsLongestRetained b ns q ((run ops).lookup id ns q)

/-- **When `lookup` returns the longest known prefix**: exactly at the aligned
capacities. -/
theorem lookup_longest_iff (ops : List Op) (hclock : (readings ops).Pairwise (· ≤ ·))
    (htouch : totalTouches ops < 2 ^ 64) {id : String} {b : BackendCache}
    (hb : (run ops).backends.lookup id = some b)
    (hfree : ∀ ns, CollisionFree (committedTo id ns ops)) :
    LongestPrefixLookups ops id b ↔ Aligned id ops b.capacity.toNat := by
  constructor
  · intro hlongest
    by_contra hnot
    obtain ⟨ns, l, hl, m, n, hm, hmn, hn, hmissing, hretained⟩ := exists_gap hnot hclock htouch hb
    have hfree' : CollisionFree (l :: committedTo id ns ops) := by
      have hsame (p : List UInt64) (hp : p ∈ (l :: committedTo id ns ops).flatMap heads) :
          p ∈ (committedTo id ns ops).flatMap heads := by
        rw [List.flatMap_cons, List.mem_append] at hp
        exact hp.elim (fun hp => List.mem_flatMap.mpr ⟨l, hl, hp⟩) fun hp => hp
      exact fun p hp p' hp' => hfree ns p (hsame p hp) p' (hsame p' hp')
    have hreach := (hlongest ns l hfree').greatest n (by omega) hn hretained
    refine hmissing ((le_lookup_iff hb ns hn).mp hreach _ (mem_heads.mpr ⟨m, hm, ?_, ?_⟩))
    · rwa [List.length_take_of_le hn]
    · rw [List.take_take, Nat.min_eq_left hmn]
  · intro haligned ns q hq
    obtain ⟨cs, hcs, hret⟩ := haligned.retained hclock htouch hb
    exact isLongestRetained_of_commits hb hcs hret hq

/-- A backend of capacity three, filled by one conversation, to which another
one is committed. -/
def cutRun (orders : ℕ → ScanOrder) : List Op :=
  [.register "a" 3, .commit "a" "chat:m" [1, 2, 3] ⟨5, by decide⟩ orders,
    .commit "a" "chat:m" [9] ⟨6, by decide⟩ orders]

/-- The backend has room for three keys. -/
theorem lookup_cutRun (orders : ℕ → ScanOrder) :
    ∃ b, (run (cutRun orders)).backends.lookup "a" = some b ∧ b.capacity = 3 := by
  have hregistered : (run [.register "a" 3]).backends.lookup "a" = some ⟨3, ∅⟩ :=
    Finmap.lookup_insert ∅
  exact lookup_run_append hregistered (by simp [Keeps])

theorem clock_cutRun (orders : ℕ → ScanOrder) : (readings (cutRun orders)).Pairwise (· ≤ ·) := by
  show ([5, 6] : List ℤ).Pairwise (· ≤ ·)
  decide

theorem totalTouches_cutRun (orders : ℕ → ScanOrder) : totalTouches (cutRun orders) < 2 ^ 64 :=
  Nat.lt_of_le_of_lt (totalTouches_le _) (by decide : 4 < 2 ^ 64)

/-- The prefixes of its commits have different keys. -/
theorem collisionFree_cutRun (orders : ℕ → ScanOrder) (ns : String) :
    CollisionFree (committedTo "a" ns (cutRun orders)) := by
  by_cases hns : "chat:m" = ns
  · subst hns
    have hlists : committedTo "a" "chat:m" (cutRun orders) = [[1, 2, 3], [9]] := by
      simp [committedTo, committed, cutRun]
    rw [hlists]
    decide
  · simp [committedTo, committed, cutRun, hns, CollisionFree]

/-- A capacity that cuts through a commit. -/
theorem lookup_longest_iff_cutRun : ∃ b,
    (run (cutRun fun _ => default)).backends.lookup "a" = some b ∧
    (LongestPrefixLookups (cutRun fun _ => default) "a" b ↔
      Aligned "a" (cutRun fun _ => default) b.capacity.toNat) := by
  obtain ⟨b, hb, -⟩ := lookup_cutRun fun _ => default
  exact ⟨b, hb, lookup_longest_iff _ (clock_cutRun _) (totalTouches_cutRun _) hb
    (collisionFree_cutRun _)⟩

/-- No commit of `cutRun` is longer than the capacity and no prefixes collide,
and yet the conversation it began with is retained without being found. -/
theorem lookup_misses_retained :
    (∀ c ∈ committed "a" (cutRun fun _ => default), c.2.length ≤ 3) ∧
    CollisionFree (committedTo "a" "chat:m" (cutRun fun _ => default)) ∧
    ∃ b, (run (cutRun fun _ => default)).backends.lookup "a" = some b ∧ b.capacity = 3 ∧
      Retained b ("chat:m", cumulativeKey [1, 2, 3]) ∧
      (run (cutRun fun _ => default)).lookup "a" "chat:m" [1, 2, 3] = 0 ∧
      ¬ IsLongestRetained b "chat:m" [1, 2, 3]
        ((run (cutRun fun _ => default)).lookup "a" "chat:m" [1, 2, 3]) := by
  obtain ⟨b, hb, hcap⟩ := lookup_cutRun fun _ => default
  have htracks := run_tracks _ (clock_cutRun _) (totalTouches_cutRun _) hb (by omega)
  rw [hcap] at htracks
  have hretained : Retained b ("chat:m", cumulativeKey [1, 2, 3]) := by
    rw [← htracks.mem_iff]
    decide
  have hfirst : ¬ Retained b ("chat:m", cumulativeKey [1]) := by
    rw [← htracks.mem_iff]
    decide
  have hzero : (run (cutRun fun _ => default)).lookup "a" "chat:m" [1, 2, 3] = 0 := by
    by_contra hne
    exact hfirst ((le_lookup_iff hb "chat:m" (q := [1, 2, 3]) (n := 1) (by decide)).mp (by omega) _
      (by decide))
  refine ⟨by decide, collisionFree_cutRun _ _, b, hb, hcap, hretained, hzero, fun hlongest => ?_⟩
  have hle := hlongest.greatest 3 (by decide) (by decide) hretained
  omega

end KvRouter.CacheIndex
