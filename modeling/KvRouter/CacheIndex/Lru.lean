import KvRouter.CacheIndex.History
import KvRouter.Lib.Recency

/-!
# KvRouter.CacheIndex.Lru

The directory is an exact LRU.  The abstract state of a backend is a recency
list of pairs (`Recency`): a commit touches its pairs one after another and
then keeps the `newest` ones.  The coupling invariant `Tracks` says that the
list enumerates the retained pairs and that the stamps the code stores, a clock
reading and a sequence number, grow strictly along it, so the victim of a scan
is the head of the list.

* `Tracks.touch` and `Tracks.evict` are the two simulation steps;
* `run_tracks` carries them over a whole run: the retained pairs are the
  `newest` of the touched ones, where the clock does not go back and the
  sequence counter does not wrap;
* `directory_is_lru` is the refinement theorem.
-/

namespace KvRouter.CacheIndex

open Recency

/-! ## Touching keys -/

/-- Touching a key stamps it with the time and the next sequence number, new or not. -/
theorem touchKey_eq (now : Instant) (s : Bucket × UInt64) (key : UInt64) :
    touchKey now s key = (s.1.insert key ⟨now, s.2 + 1⟩, s.2 + 1) := by
  simp only [touchKey]
  split <;> rfl

/-- Touching a key changes the entry of that pair only. -/
theorem find_touchKey (b : BackendCache) (ns : String) (now : Instant) (s : Bucket × UInt64)
    (key : UInt64) (p : Pair) :
    find { b with entries := b.entries.insert ns (touchKey now s key).1 } p =
      if p = (ns, key) then some ⟨now, s.2 + 1⟩
      else find { b with entries := b.entries.insert ns s.1 } p := by
  obtain ⟨ns', key'⟩ := p
  simp only [touchKey_eq, find_insert, Prod.mk.injEq]
  by_cases hns : ns' = ns
  · simp [hns, GoMap.lookup_insert_eq]
  · simp [hns]

/-- Storing the bucket a lookup found, or an empty one, changes no entry. -/
theorem find_insert_self (b : BackendCache) (ns : String) (p : Pair) :
    find { b with entries := b.entries.insert ns ((b.entries.lookup ns).getD ∅) } p = find b p := by
  obtain ⟨ns', key⟩ := p
  rw [find_insert]
  split
  · next h =>
      dsimp only at h
      rw [h, lookup_getD_eq_find]
  · rfl

theorem capacity_touchKeys (b : BackendCache) (sequence : UInt64) (ns : String) (now : Instant)
    (keys : List UInt64) : (touchKeys b sequence ns now keys).1.capacity = b.capacity := rfl

/-- Touching keys adds their pairs. -/
theorem retained_touchKeys (b : BackendCache) (sequence : UInt64) (ns : String) (now : Instant)
    (keys : List UInt64) (p : Pair) :
    Retained (touchKeys b sequence ns now keys).1 p ↔
      Retained b p ∨ p ∈ keys.map fun key => (ns, key) := by
  simp only [touchKeys, Retained]
  rw [← find_insert_self b ns p]
  generalize (b.entries.lookup ns).getD ∅ = entries
  induction keys generalizing entries sequence with
  | nil => simp
  | cons key keys ih =>
      have hstep := find_touchKey b ns now (entries, sequence) key p
      rw [touchKey_eq] at hstep
      rw [List.foldl_cons, touchKey_eq, ih, hstep, List.map_cons, List.mem_cons]
      by_cases hp : p = (ns, key) <;> simp [hp]

/-- The sequence counts the keys. -/
theorem sequence_touchKeys (b : BackendCache) (sequence : UInt64) (ns : String) (now : Instant)
    (keys : List UInt64) :
    (touchKeys b sequence ns now keys).2 = sequence + UInt64.ofNat keys.length := by
  simp only [touchKeys]
  generalize (b.entries.lookup ns).getD ∅ = entries
  induction keys generalizing entries sequence with
  | nil => simp
  | cons key keys ih =>
      rw [List.foldl_cons, touchKey_eq, ih, List.length_cons, Nat.add_comm, UInt64.ofNat_add,
        ← UInt64.add_assoc]
      rfl

/-! ## The sequence counter -/

/-- A call advances the counter by the keys it touches. -/
theorem sequence_apply (i : Index) (op : Op) :
    (i.apply op).sequence = i.sequence + UInt64.ofNat (i.keyTouches op) := by
  cases op with
  | register id capacity => simp [Index.apply, Index.register, Index.keyTouches]
  | commit id ns blocks now orders =>
      obtain ⟨b, hb, hcap⟩ | ⟨-, hkeys, heq⟩ := commit_cases i id ns blocks now orders
      · rw [Index.apply, commit_of_lookup hb hcap, keyTouches_of_lookup hb hcap]
        dsimp only
        rw [sequence_touchKeys, length_cumulativeKeys]
      · rw [Index.apply, heq, hkeys]
        simp

/-- The counter is the number of key touches, modulo `2 ^ 64`. -/
theorem sequence_run (ops : List Op) :
    (run ops).sequence = UInt64.ofNat (totalTouches ops) := by
  induction ops using List.reverseRecOn with
  | nil => rfl
  | append_singleton ops op ih =>
      rw [run_concat, sequence_apply, ih, totalTouches_concat, UInt64.ofNat_add]

/-- The sequence is the number of touches while it does not wrap. -/
theorem toNat_sequence_run {ops : List Op} (htouch : totalTouches ops < 2 ^ 64) :
    (run ops).sequence.toNat = totalTouches ops := by
  rw [sequence_run, UInt64.toNat_ofNat_of_lt' htouch]

/-! ## The coupling invariant -/

/-- `e` was stamped before `f`. -/
def Entry.Before (e f : Entry) : Prop :=
  e.lastSeen.time ≤ f.lastSeen.time ∧ e.sequence < f.sequence

/-- The recency list `L` describes the backend `b`, when the counter stands at
`sequence` and `times` are the clock readings so far. -/
structure Tracks (b : BackendCache) (sequence : UInt64) (times : List ℤ) (L : List Pair) :
    Prop where
  nodup : L.Nodup
  mem_iff : ∀ p, p ∈ L ↔ Retained b p
  sorted : L.Pairwise fun p q => ∀ e f, find b p = some e → find b q = some f → e.Before f
  seen : ∀ p e, find b p = some e → e.lastSeen.time ∈ times
  numbered : ∀ p e, find b p = some e → e.sequence ≤ sequence

/-- The recency list has as many pairs as the backend has entries. -/
theorem Tracks.length {b : BackendCache} {sequence : UInt64} {times : List ℤ} {L : List Pair}
    (h : Tracks b sequence times L) : totalEntries b = L.length :=
  totalEntries_eq_length h.nodup h.mem_iff

/-- The invariant depends on what is found only. -/
theorem Tracks.congr {b b' : BackendCache} {sequence : UInt64} {times : List ℤ} {L : List Pair}
    (h : Tracks b sequence times L) (hfind : ∀ p, find b' p = find b p) :
    Tracks b' sequence times L := by
  refine ⟨h.nodup, fun p => ?_, ?_, fun p e hp => ?_, fun p e hp => ?_⟩
  · rw [h.mem_iff, Retained, Retained, hfind]
  · simpa only [hfind] using h.sorted
  · exact h.seen p e (hfind p ▸ hp)
  · exact h.numbered p e (hfind p ▸ hp)

/-- An invariant survives later readings and a higher counter. -/
theorem Tracks.mono {b : BackendCache} {sequence sequence' : UInt64} {times times' : List ℤ}
    {L : List Pair} (h : Tracks b sequence times L) (hseq : sequence ≤ sequence')
    (htimes : times ⊆ times') : Tracks b sequence' times' L :=
  ⟨h.nodup, h.mem_iff, h.sorted, fun p e hp => htimes (h.seen p e hp),
    fun p e hp => UInt64.le_trans (h.numbered p e hp) hseq⟩

/-- A backend that was just registered is tracked by the empty list. -/
theorem tracks_empty (capacity : ℤ) (sequence : UInt64) (times : List ℤ) :
    Tracks ⟨capacity, ∅⟩ sequence times [] := by
  have hnone : ∀ p, find ⟨capacity, ∅⟩ p = none := fun p => by simp [find, Finmap.lookup_empty]
  refine ⟨List.nodup_nil, fun p => ?_, List.Pairwise.nil, ?_, ?_⟩
  · simp [Retained, hnone]
  · intro p e hp
    rw [hnone] at hp
    contradiction
  · intro p e hp
    rw [hnone] at hp
    contradiction

/-- **Touching, simulated**: a key stamped with the newest reading and the next
sequence number moves to the recent end of the list. -/
theorem Tracks.touch {b b' : BackendCache} {sequence : UInt64} {times : List ℤ} {L : List Pair}
    {p : Pair} {now : Instant} (h : Tracks b sequence times L) (hnow : now.time ∈ times)
    (hlast : ∀ t ∈ times, t ≤ now.time) (hseq : sequence.toNat + 1 < 2 ^ 64)
    (hfind : ∀ q, find b' q = if q = p then some ⟨now, sequence + 1⟩ else find b q) :
    Tracks b' (sequence + 1) times (touch L p) := by
  have hnext : sequence < sequence + 1 := by
    rw [UInt64.lt_iff_toNat_lt, UInt64.toNat_add]
    simp only [UInt64.toNat_one]
    omega
  have hother {q : Pair} (hq : q ≠ p) : find b' q = find b q := by rw [hfind, if_neg hq]
  refine ⟨nodup_touch h.nodup p, fun q => ?_, ?_, fun q e hq => ?_, fun q e hq => ?_⟩
  · rw [mem_touch, h.mem_iff, Retained, Retained, hfind]
    by_cases hq : q = p <;> simp [hq]
  · refine pairwise_touch h.nodup h.sorted ?_ ?_
    · intro q r hq hr hqr
      rw [hother hq, hother hr]
      exact hqr
    · intro q _ hq e f he hf
      rw [hother hq] at he
      rw [hfind, if_pos rfl, Option.some.injEq] at hf
      subst hf
      exact ⟨hlast _ (h.seen q e he), UInt64.lt_of_le_of_lt (h.numbered q e he) hnext⟩
  · rw [hfind] at hq
    split at hq
    · rw [Option.some.injEq] at hq
      subst hq
      exact hnow
    · exact h.seen q e hq
  · rw [hfind] at hq
    split at hq
    · rw [Option.some.injEq] at hq
      subst hq
      exact UInt64.le_refl _
    · exact UInt64.le_trans (h.numbered q e hq) (UInt64.le_of_lt hnext)

/-- The key loop of a commit is a batch of touches. -/
theorem Tracks.touchKeys {b : BackendCache} {sequence : UInt64} {times : List ℤ} {L : List Pair}
    {now : Instant} (h : Tracks b sequence times L) (ns : String) (keys : List UInt64)
    (hnow : now.time ∈ times) (hlast : ∀ t ∈ times, t ≤ now.time)
    (hseq : sequence.toNat + keys.length < 2 ^ 64) :
    let s := CacheIndex.touchKeys b sequence ns now keys
    Tracks s.1 s.2 times (touchAll L (keys.map fun key => (ns, key))) := by
  simp only [CacheIndex.touchKeys]
  replace h := h.congr (find_insert_self b ns)
  generalize (b.entries.lookup ns).getD ∅ = entries at h ⊢
  induction keys generalizing entries sequence L with
  | nil => exact h
  | cons key keys ih =>
      rw [List.length_cons] at hseq
      have hstep := h.touch (p := (ns, key)) hnow hlast (by omega)
        (find_touchKey b ns now (entries, sequence) key)
      have hnat : (sequence + 1).toNat = sequence.toNat + 1 := by
        rw [UInt64.toNat_add]
        simp only [UInt64.toNat_one]
        omega
      rw [touchKey_eq] at hstep
      rw [List.foldl_cons, touchKey_eq, List.map_cons, touchAll_cons]
      exact ih (by rw [hnat]; omega) _ hstep

/-- **Eviction, simulated**: the scan picks the head of the recency list. -/
theorem Tracks.evict {b : BackendCache} {sequence : UInt64} {times : List ℤ} {p : Pair}
    {L : List Pair} (h : Tracks b sequence times (p :: L)) (o : ScanOrder) :
    Tracks (evictOldest o b) sequence times L := by
  have hpos : 0 < totalEntries b := by rw [h.length]; simp
  obtain ⟨v, e, hv, hmin, heq⟩ := evictOldest_spec o hpos
  obtain ⟨f, hf⟩ := Option.isSome_iff_exists.mp ((h.mem_iff p).mp List.mem_cons_self)
  have hhead : v = p := by
    have hvL := (h.mem_iff v).mpr (Option.isSome_iff_exists.mpr ⟨e, hv⟩)
    rw [List.mem_cons] at hvL
    refine hvL.resolve_right fun hvL => ?_
    -- a victim behind the head would carry a later stamp than the head
    obtain ⟨htime, hseq⟩ := List.rel_of_pairwise_cons h.sorted hvL f e hf hv
    have hle := hmin p f hf
    rw [UInt64.lt_iff_toNat_lt] at hseq
    rw [Entry.NoLater, UInt64.le_iff_toNat_le] at hle
    omega
  subst hhead
  have hnot : v ∉ L := (List.nodup_cons.mp h.nodup).1
  have hfind : ∀ q, find (evictOldest o b) q = if q = v then none else find b q := by
    intro q
    rw [heq]
    exact find_deleteKey b v.1 v.2 q
  have hkeep {q : Pair} (hq : q ∈ L) : find (evictOldest o b) q = find b q := by
    rw [hfind, if_neg]
    rintro rfl
    exact hnot hq
  have hold {q : Pair} {g : Entry} (hq : find (evictOldest o b) q = some g) :
      find b q = some g := by
    rw [hfind] at hq
    split at hq
    · contradiction
    · exact hq
  refine ⟨(List.nodup_cons.mp h.nodup).2, fun q => ?_, ?_, fun q g hq => h.seen q g (hold hq),
    fun q g hq => h.numbered q g (hold hq)⟩
  · rw [Retained, hfind]
    by_cases hq : q = v
    · simp [hq, hnot]
    · have hmem := h.mem_iff q
      rw [List.mem_cons, or_iff_right hq] at hmem
      rw [hmem, if_neg hq, Retained]
  · refine h.sorted.of_cons.imp_of_mem ?_
    intro q r hq hr hqr
    rw [hkeep hq, hkeep hr]
    exact hqr

/-- The eviction loop keeps the newest entries. -/
theorem Tracks.evictLoop {b : BackendCache} {sequence : UInt64} {times : List ℤ} {L : List Pair}
    (h : Tracks b sequence times L) (orders : ℕ → ScanOrder) {fuel : ℕ} (hcap : 0 ≤ b.capacity)
    (hfuel : totalEntries b - b.capacity.toNat ≤ fuel) :
    Tracks (CacheIndex.evictLoop orders fuel b).2 sequence times (newest b.capacity.toNat L) := by
  rw [h.length] at hfuel
  induction fuel generalizing orders b L with
  | zero =>
      rw [newest_of_length_le (by omega)]
      exact h
  | succ fuel ih =>
      have hlen := h.length
      simp only [CacheIndex.evictLoop]
      split
      · next hlt =>
          cases L with
          | nil =>
              rw [List.length_nil] at hlen
              omega
          | cons p L =>
              rw [List.length_cons] at hlen hfuel
              have hcap' := capacity_evictOldest (orders 0) b
              have hrest := ih (h.evict (orders 0)) (fun n => orders (n + 1))
                (by rw [hcap']; exact hcap) (by rw [hcap']; omega)
              rw [hcap'] at hrest
              have hnewest : newest b.capacity.toNat (p :: L) = newest b.capacity.toNat L := by
                refine (newest_eq_of_suffix (List.suffix_cons p L) ?_).symm
                rw [List.length_cons]
                omega
              rw [hnewest]
              exact hrest
      · rw [newest_of_length_le (by omega)]
        exact h

/-! ## Whole runs -/

/-- The `n` most recently touched distinct pairs of a history, oldest first. -/
def mostRecent (n : ℕ) (log : List Pair) : List Pair := newest n log.dedup

@[simp] theorem mostRecent_nil (n : ℕ) : mostRecent n [] = [] := by simp [mostRecent, newest]

/-- A commit on a tracked backend, simulated as a whole. -/
theorem Tracks.commit {b : BackendCache} {sequence : UInt64} {times : List ℤ} {log : List Pair}
    (h : Tracks b sequence times (mostRecent b.capacity.toNat log)) (hcap : 0 < b.capacity)
    (ns : String) (blocks : List UInt64) {now : Instant} (hnow : now.time ∈ times)
    (hlast : ∀ t ∈ times, t ≤ now.time) (hseq : sequence.toNat + blocks.length < 2 ^ 64)
    (orders : ℕ → ScanOrder) :
    let s := CacheIndex.touchKeys b sequence ns now (cumulativeKeys blocks)
    Tracks (trim orders s.1) s.2 times
      (mostRecent b.capacity.toNat (log ++ pairsOf ns blocks)) := by
  have htouch := h.touchKeys ns (cumulativeKeys blocks) hnow hlast
    (by rw [length_cumulativeKeys]; exact hseq)
  have hevict := htouch.evictLoop orders hcap.le (Nat.sub_le _ _)
  rw [capacity_touchKeys, mostRecent, newest_touchAll_newest _ (List.nodup_dedup log),
    touchAll_dedup] at hevict
  exact hevict

/-- The reading of a last commit is the latest one. -/
theorem reading_latest {ops : List Op} {op : Op} {now : Instant} (hop : op.reading = some now.time)
    (hclock : (readings (ops ++ [op])).Pairwise (· ≤ ·)) :
    now.time ∈ readings (ops ++ [op]) ∧ ∀ t ∈ readings (ops ++ [op]), t ≤ now.time := by
  rw [readings_concat, hop, Option.toList_some] at hclock ⊢
  refine ⟨List.mem_append_right _ List.mem_cons_self, fun t ht => ?_⟩
  obtain ht | ht := List.mem_append.mp ht
  · exact (List.pairwise_append.mp hclock).2.2 t ht _ List.mem_cons_self
  · exact le_of_eq (List.mem_singleton.mp ht)

/-- **Every reachable backend is tracked** by its most recent touches. -/
theorem run_tracks (ops : List Op) (hclock : (readings ops).Pairwise (· ≤ ·))
    (htouch : totalTouches ops < 2 ^ 64) {id : String} {b : BackendCache}
    (hb : (run ops).backends.lookup id = some b) (hcap : 0 < b.capacity) :
    Tracks b (run ops).sequence (readings ops) (mostRecent b.capacity.toNat (touched id ops)) := by
  induction ops using List.reverseRecOn generalizing b with
  | nil => simp [run, Index.new, Finmap.lookup_empty] at hb
  | append_singleton ops op ih =>
      have htotal := totalTouches_concat ops op
      have hseq := toNat_sequence_run htouch
      have hseq' : (run ops).sequence.toNat = totalTouches ops := toNat_sequence_run (by omega)
      have htimes : readings ops ⊆ readings (ops ++ [op]) := by
        rw [readings_concat]
        exact List.subset_append_left _ _
      rw [readings_concat] at hclock
      replace ih {b : BackendCache} := ih (b := b) (List.pairwise_append.mp hclock).1 (by omega)
      rw [← readings_concat] at hclock
      rw [run_concat] at hb
      cases becomes_apply hb with
      | register capacity =>
          rw [touched_register, if_pos rfl, mostRecent_nil]
          exact tracks_empty _ _ _
      | commit hb' hcap' ns blocks now orders =>
          obtain ⟨hnow, hlast⟩ := reading_latest rfl hclock
          have hold := (ih hb' hcap').mono (UInt64.le_refl _) htimes
          rw [keyTouches_of_lookup hb' hcap'] at htotal
          rw [touched_commit, if_pos rfl, capacity_trim, capacity_touchKeys, run_concat,
            Index.apply, commit_of_lookup hb' hcap']
          exact hold.commit hcap' ns blocks hnow hlast (by omega) orders
      | idle _ hnone => omega
      | other hop hb' =>
          rw [touched_of_ne ops hop]
          exact (ih hb' hcap).mono (UInt64.le_iff_toNat_le.mpr (by omega)) htimes

/-- What an exact LRU does at the last call `op` of a run `ops ++ [op]`. -/
structure ExactLru (ops : List Op) (op : Op) : Prop where
  /-- A backend of positive capacity `C` retains exactly the `C` most recently
  touched distinct pairs since its last `Register`. -/
  retained : ∀ id b, (run (ops ++ [op])).backends.lookup id = some b → 0 < b.capacity →
    ∀ p, Retained b p ↔ p ∈ mostRecent b.capacity.toNat (touched id (ops ++ [op]))
  /-- The eviction loop of a commit ends after one eviction for each entry above
  the capacity, however many more rounds it is allowed. -/
  evictions : ∀ id ns blocks now orders, op = .commit id ns blocks now orders →
    ∀ b, (run ops).backends.lookup id = some b → 0 < b.capacity →
      let s := touchKeys b (run ops).sequence ns now (cumulativeKeys blocks)
      ∀ fuel, totalEntries s.1 - b.capacity.toNat ≤ fuel →
        (evictLoop orders fuel s.1).1 = totalEntries s.1 - b.capacity.toNat ∧
        totalEntries (evictLoop orders fuel s.1).2 ≤ b.capacity.toNat ∧
        (run (ops ++ [op])).backends.lookup id = some (evictLoop orders fuel s.1).2
  /-- No other backend changes. -/
  frame : ∀ id, op.backend ≠ id →
    (run (ops ++ [op])).backends.lookup id = (run ops).backends.lookup id

/-- **The residency directory is an exact LRU**: after every call of every run
whose clock does not go back and which makes fewer than `2 ^ 64` key touches,
whatever orders the maps are enumerated in. -/
theorem directory_is_lru (ops : List Op) (op : Op)
    (hclock : (readings (ops ++ [op])).Pairwise (· ≤ ·))
    (htouch : totalTouches (ops ++ [op]) < 2 ^ 64) : ExactLru ops op where
  retained id b hb hcap p := ((run_tracks _ hclock htouch hb hcap).mem_iff p).symm
  evictions := by
    intro id ns blocks now orders hop b hb hcap s fuel hfuel
    have hcap' : 0 ≤ s.1.capacity := hcap.le
    obtain ⟨hcount, htotal⟩ := evictLoop_done orders hcap' hfuel
    have hfuel' := evictLoop_fuel orders hcap' hfuel
    have henough := evictLoop_fuel orders hcap' (Nat.sub_le (totalEntries s.1) _)
    have hlookup : (run (ops ++ [op])).backends.lookup id = some (trim orders s.1) := by
      rw [hop, run_concat, Index.apply, commit_of_lookup hb hcap]
      exact Finmap.lookup_insert _
    rw [trim, henough, ← hfuel'] at hlookup
    exact ⟨hcount, htotal.trans_le (Nat.min_le_right _ _), hlookup⟩
  frame id hid := by
    rw [run_concat]
    exact lookup_apply_of_ne (run ops) op hid

/-- A full backend of capacity two: the second commit evicts what the first touched. -/
theorem directory_is_lru_two : ExactLru
    [.register "a" 2, .commit "a" "chat:m" [1] ⟨5, by decide⟩ (fun _ => default)]
    (.commit "a" "chat:n" [2, 3] ⟨5, by decide⟩ (fun _ => default)) :=
  directory_is_lru _ _ (by decide) (Nat.lt_of_le_of_lt (totalTouches_le _) (by decide))

end KvRouter.CacheIndex
