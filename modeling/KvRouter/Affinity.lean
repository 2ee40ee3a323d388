import KvRouter.CacheIndex.Lookup
import KvRouter.Tokenizer

/-!
# KvRouter.Affinity

The router's promise across its two lower layers: what a turn of a
conversation commits is found by the next turn.

* Chunking: appending messages leaves every block that lies within the old text
  as it was, and may change the last partial one (`take_hashPrefix_append`).
* Directory: a commit of at most `capacity` blocks is retained for as long as
  the later touches leave room for it (`retained_of_recent`).

Neither needs the hashes to be free of collisions: equal blocks have equal
keys, and the bounds only ask for keys to be found.
-/

namespace KvRouter

open CacheIndex Tokenizer

/-! ## Blocks of a growing conversation -/

/-- The blocks that lie within `M` are the same in every continuation of `M`. -/
theorem take_hashPrefix_append {bh : BlockHasher} {sum64 : Bytes → UInt64} {M E : List Message}
    {hashes hashes' : List UInt64} (h : bh.hashPrefix sum64 M = .ok hashes)
    (h' : bh.hashPrefix sum64 (M ++ E) = .ok hashes') :
    hashes'.take ((flat M).length / bh.blockSize.toNat) =
      hashes.take ((flat M).length / bh.blockSize.toNat) := by
  rw [hashPrefix_ok h, hashPrefix_ok h', flat_append, ← List.map_take, ← List.map_take,
    Chunks.take_chunks_append bh.one_le_toNat (flat M) (flat E) (Nat.le_refl _)]

/-- Both lists have a full block for each `blockSize` bytes of `M`. -/
theorem div_le_length_hashPrefix {bh : BlockHasher} {sum64 : Bytes → UInt64} {M : List Message}
    {hashes : List UInt64} (h : bh.hashPrefix sum64 M = .ok hashes) {n : ℕ}
    (hn : n ≤ (flat M).length) : n / bh.blockSize.toNat ≤ hashes.length := by
  rw [length_hashPrefix h]
  exact Nat.le_trans (Nat.div_le_div_right hn) (Chunks.div_le_numChunks _ _ bh.one_le_toNat)

/-! ## What later commits leave in place -/

/-- After a commit of `hashes`, its pairs stay while the other pairs touched
since then fit beside them. -/
theorem retained_of_recent {before later : List Op} {id ns : String} {hashes : List UInt64}
    {now : Instant} {orders : ℕ → ScanOrder} {b : BackendCache}
    (hclock : (readings (before ++ .commit id ns hashes now orders :: later)).Pairwise (· ≤ ·))
    (htouch : totalTouches (before ++ .commit id ns hashes now orders :: later) < 2 ^ 64)
    (hlater : Keeps id later)
    (hb : (run (before ++ .commit id ns hashes now orders :: later)).backends.lookup id = some b)
    (hpos : 0 < b.capacity)
    (hroom : (((touched id later).filter (· ∉ pairsOf ns hashes)).dedup.length : ℤ) +
      hashes.length ≤ b.capacity) :
    ∀ p ∈ pairsOf ns hashes, Retained b p := by
  intro p hp
  have htracks := run_tracks _ hclock htouch hb hpos
  have hhistory : touched id (before ++ .commit id ns hashes now orders :: later) =
      touched id before ++ (pairsOf ns hashes ++ touched id later) := by
    rw [← List.singleton_append, ← List.append_assoc, touched_append _ hlater, touched_commit,
      if_pos rfl, List.append_assoc]
  have hdistinct := Recency.length_dedup_append_le (pairsOf ns hashes) (touched id later)
    (q := fun p => p ∉ pairsOf ns hashes) (fun p hp => decide_eq_true hp)
  rw [length_pairsOf] at hdistinct
  rw [← htracks.mem_iff, mostRecent, hhistory]
  exact Recency.mem_newest_of_recent (List.mem_append_left _ hp) (by omega)

/-- What the next turns find: the conversation `M` itself in full, and of any
continuation of it every block that lies within `M`. -/
structure Sticky (i : Index) (id ns : String) (bh : BlockHasher) (M : List Message)
    (hashes hashes' : List UInt64) : Prop where
  same : i.lookup id ns hashes = hashes.length
  grown : (flat M).length / bh.blockSize.toNat ≤ i.lookup id ns hashes'

/-- Where the blocks of `M` are retained, the next turns find them. -/
theorem sticky_of_retained {ops : List Op} {id ns : String} {b : BackendCache}
    (hb : (run ops).backends.lookup id = some b) {bh : BlockHasher} {sum64 : Bytes → UInt64}
    {M E : List Message} {hashes hashes' : List UInt64} (h : bh.hashPrefix sum64 M = .ok hashes)
    (h' : bh.hashPrefix sum64 (M ++ E) = .ok hashes')
    (hret : ∀ p ∈ pairsOf ns hashes, Retained b p) :
    Sticky (run ops) id ns bh M hashes hashes' := by
  have hlen : (flat M).length ≤ (flat (M ++ E)).length := by
    rw [flat_append, List.length_append]
    exact Nat.le_add_right _ _
  have hheads : ∀ p ∈ Prefix.heads hashes, Retained b (ns, cumulativeKey p) := by
    intro p hp
    obtain ⟨n, hpos, hn, rfl⟩ := Prefix.mem_heads.mp hp
    exact hret _ (mem_pairsOf.mpr ⟨rfl, n, hpos, hn, rfl⟩)
  constructor
  · have hself : Prefix.lcp hashes hashes ≤ (run ops).lookup id ns hashes :=
      lcp_le_lookup hb hheads
    rw [Prefix.lcp_self] at hself
    exact Nat.le_antisymm (lookup_le_length _ _ _ _) hself
  · have hshared : (flat M).length / bh.blockSize.toNat ≤ Prefix.lcp hashes' hashes :=
      Prefix.le_lcp_iff.mpr ⟨div_le_length_hashPrefix h' hlen,
        div_le_length_hashPrefix h (Nat.le_refl _), take_hashPrefix_append h h'⟩
    exact Nat.le_trans hshared (lcp_le_lookup hb hheads)

/-! ## The promise -/

/-- The blocks of `M` and of `M ++ E` exist, and whenever those of `M` fit the
capacity `C` of a backend, a commit of them to it makes its lookups sticky for
as long as the later commits to it touch at most `C - k` distinct other pairs,
`k` being the number of blocks of `M`. -/
structure TurnAffinity (bh : BlockHasher) (sum64 : Bytes → UInt64) (M E : List Message)
    (before later : List Op) (id ns : String) (now : Instant) (orders : ℕ → ScanOrder)
    (C : ℤ) : Prop where
  promise : ∃ hashes hashes', bh.hashPrefix sum64 M = .ok hashes ∧
    bh.hashPrefix sum64 (M ++ E) = .ok hashes' ∧
    ((hashes.length : ℤ) ≤ C →
      (readings (before ++ .commit id ns hashes now orders :: later)).Pairwise (· ≤ ·) →
      totalTouches (before ++ .commit id ns hashes now orders :: later) < 2 ^ 64 →
      (((touched id later).filter (· ∉ pairsOf ns hashes)).dedup.length : ℤ) ≤ C - hashes.length →
      Sticky (run (before ++ .commit id ns hashes now orders :: later)) id ns bh M hashes hashes')

/-- **Turn-to-turn affinity**: for every reachable directory and every backend
registered in it, every conversation, continuation and later traffic. -/
theorem turn_to_turn_affinity (bh : BlockHasher) (sum64 : Bytes → UInt64) {M : List Message}
    (hM : M ≠ []) (E : List Message)
    (hrange : ((flat (M ++ E)).length : ℤ) + bh.blockSize ≤ maxInt + 1) (before : List Op)
    {later : List Op} {id : String} (ns : String) (now : Instant) (orders : ℕ → ScanOrder)
    {b : BackendCache} (hb : (run before).backends.lookup id = some b) (hlater : Keeps id later) :
    TurnAffinity bh sum64 M E before later id ns now orders b.capacity where
  promise := by
    have hlen : (flat M).length ≤ (flat (M ++ E)).length := by
      rw [flat_append, List.length_append]
      exact Nat.le_add_right _ _
    have hrangeM : ((flat M).length : ℤ) + bh.blockSize ≤ maxInt + 1 := by omega
    have hok := hashPrefix_eq bh sum64 M hrangeM
    refine ⟨_, _, hok, hashPrefix_eq bh sum64 (M ++ E) hrange, ?_⟩
    generalize hgen : (Chunks.chunks bh.blockSize.toNat (flat M)).map sum64 = hashes at hok ⊢
    intro hfits hclock htouch hroom
    have hblocks : 0 < hashes.length := by
      have hbh := bh.pos
      rw [length_hashPrefix hok]
      exact Chunks.numChunks_pos (by omega) (List.length_pos_of_ne_nil (flat_ne_nil hM))
    have hkeeps : Keeps id (.commit id ns hashes now orders :: later) := by
      unfold Keeps
      rw [List.forall_mem_cons]
      exact ⟨by simp, hlater⟩
    obtain ⟨b', hb', hcap⟩ := lookup_run_append hb hkeeps
    have hret := retained_of_recent hclock htouch hlater hb' (by omega) (by omega)
    exact sticky_of_retained hb' hok (hashPrefix_eq bh sum64 (M ++ E) hrange) hret

/-- Two turns of a conversation in blocks of four bytes, with a commit of another
namespace between them that fills the capacity. -/
theorem turn_to_turn_affinity_two : Sticky
    (run ([.register "a" 3] ++
      .commit "a" "chat:m" [0x8c009f6439531836] ⟨5, by decide⟩ (fun _ => default) ::
      [.commit "a" "chat:n" [7, 8] ⟨6, by decide⟩ (fun _ => default)]))
    "a" "chat:m" ⟨4, by decide, by decide⟩ [⟨[117], [104, 105]⟩] [0x8c009f6439531836]
    [0x8c009f6439531836, 0x5a0c7eed9e86bc6b] := by
  have hregistered : (run [.register "a" 3]).backends.lookup "a" = some ⟨3, ∅⟩ :=
    Finmap.lookup_insert ∅
  have hkeeps : Keeps "a" [.commit "a" "chat:n" [7, 8] ⟨6, by decide⟩ (fun _ => default)] := by
    simp [Keeps]
  -- the digests of "u:hi" and "a:ho"
  let sum64 (block : Bytes) : UInt64 :=
    if block = [117, 58, 104, 105] then 0x8c009f6439531836 else 0x5a0c7eed9e86bc6b
  obtain ⟨hashes, hashes', hok, hok', hpromise⟩ :=
    (turn_to_turn_affinity ⟨4, by decide, by decide⟩ sum64 (M := [⟨[117], [104, 105]⟩])
      (List.cons_ne_nil _ _) [⟨[97], [104, 111]⟩] (by decide) [.register "a" 3] "chat:m"
      ⟨5, by decide⟩ (fun _ => default) hregistered hkeeps).promise
  obtain rfl : [0x8c009f6439531836] = hashes := Except.ok.inj hok
  obtain rfl : [0x8c009f6439531836, 0x5a0c7eed9e86bc6b] = hashes' := Except.ok.inj hok'
  exact hpromise (by decide) (by decide) (Nat.lt_of_le_of_lt (totalTouches_le _) (by decide))
    (by decide)

end KvRouter
