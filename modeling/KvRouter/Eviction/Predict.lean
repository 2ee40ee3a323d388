import KvRouter.Eviction.Conservation
import Mathlib.Data.Finset.Card
import Mathlib.Data.Rat.Floor

/-!
# KvRouter.Eviction.Predict

`PredictCached`: how many blocks of a prefix are still resident on a backend, and
with which confidence.  The loop adds up the matches of all resident entries, so
a block counts once for each time it is resident (`predictCached_blocks`), and
every block of the query counts once exactly if none is resident twice.

The scores are floats in the source and exact rationals here.  An entry is
compared by its address there; its index takes that place here, as no two
entries of a cache have one address.
-/

namespace KvRouter.Eviction

/-! ## Scores -/

/-- The confidence that the place of entry `i` of `n` in the order of evictions gives. -/
def positionScore (i n : ℕ) : ℚ :=
  if n ≤ 1 then 1 else 1 / 2 + 1 / 2 * (i / (n - 1))

/-- The loop of `expDecay`: `n` halvings. -/
def halve : ℕ → ℚ → ℚ
  | 0, result => result
  | n + 1, result => halve n (result * (1 / 2))

/-- An approximation of `0.5^x`. -/
def expDecay (x : ℚ) : ℚ :=
  if x ≤ 0 then 1
  else
    let intPart := ⌊x⌋
    let fracPart := x - intPart
    let result := halve intPart.toNat 1 * (1 - 693 / 1000 * fracPart)
    if result < 0 then 1 / 100 else result

/-- The largest `time.Duration`, in nanoseconds. -/
def maxDuration : ℤ := 9223372036854775807

/-- The smallest `time.Duration`. -/
def minDuration : ℤ := -9223372036854775808

/-- `t.Sub(u)`, which saturates. -/
def sub (t u : ℤ) : ℤ := max minDuration (min maxDuration (t - u))

/-- The nanoseconds of a minute. -/
def minute : ℤ := 60000000000

/-- The half-life of the confidence. -/
def halfLife : ℤ := 5 * minute

/-- `d.Minutes()`. -/
def minutes (d : ℤ) : ℚ := d / minute

/-- The confidence that the age of an entry gives. -/
def ageScore (lastAccess now : ℤ) : ℚ :=
  let age := sub now lastAccess
  if age ≤ 0 then 1
  else
    let decay := expDecay (minutes age / minutes halfLife)
    if decay < 1 / 10 then 1 / 10 else decay

/-! ## PredictCached -/

def countMatchingHashes (entryHashes : List UInt64) (querySet : GoMap UInt64 Unit) : ℕ :=
  entryHashes.countP fun h => (querySet.lookup h).isSome

/-- The confidence of entry `i` of a cache. -/
def BackendCache.entryConfidence (bc : BackendCache) (i : ℕ) (e : Entry) (now : ℤ) : ℚ :=
  positionScore i bc.entries.length * ageScore e.lastAccess now * pressureScore bc

/-- The loop of `PredictCached` from entry `i` on. -/
def BackendCache.predictLoop (bc : BackendCache) (hashSet : GoMap UInt64 Unit) (now : ℤ) :
    List Entry → ℕ → ℕ → ℚ → ℕ × ℚ
  | [], _, matchedBlocks, confidence => (matchedBlocks, confidence)
  | e :: entries, i, matchedBlocks, confidence =>
      let matched := countMatchingHashes e.hashes hashSet
      if matched > 0 then
        let entryConfidence := bc.entryConfidence i e now
        let confidence := if entryConfidence > confidence then entryConfidence else confidence
        bc.predictLoop hashSet now entries (i + 1) (matchedBlocks + matched) confidence
      else bc.predictLoop hashSet now entries (i + 1) matchedBlocks confidence

/-- `PredictCached` at the reading `now` of the clock. -/
def Model.predictCached (m : Model) (backendID : String) (hashes : List UInt64) (now : ℤ) :
    ℕ × ℚ :=
  match m.lookup backendID with
  | none => (0, 0)
  | some bc =>
      let (matchedBlocks, confidence) :=
        bc.predictLoop (makeHashSet hashes) now bc.entries 0 0 0
      (matchedBlocks, if confidence > 1 then 1 else confidence)

/-! ## Matched blocks -/

/-- The count of an entry is that of its hashes in the query. -/
theorem countMatchingHashes_eq (entryHashes query : List UInt64) :
    countMatchingHashes entryHashes (makeHashSet query) =
      entryHashes.countP fun h => decide (h ∈ query) := by
  simp [countMatchingHashes, isSome_lookup_makeHashSet]

/-- The loop adds up the counts of all entries. -/
theorem predictLoop_blocks (bc : BackendCache) (hashSet : GoMap UInt64 Unit) (now : ℤ)
    (entries : List Entry) (i matchedBlocks : ℕ) (confidence : ℚ) :
    (bc.predictLoop hashSet now entries i matchedBlocks confidence).1 =
      matchedBlocks + (entries.map fun e => countMatchingHashes e.hashes hashSet).sum := by
  induction entries generalizing i matchedBlocks confidence with
  | nil => rfl
  | cons e entries ih =>
      simp only [BackendCache.predictLoop]
      split
      · rw [ih, List.map_cons, List.sum_cons, Nat.add_assoc]
      · next hnone =>
          rw [ih, List.map_cons, List.sum_cons, Nat.eq_zero_of_not_pos hnone, Nat.zero_add]

/-- The entries that are resident on a backend. -/
def Model.resident (m : Model) (backendID : String) : List Entry :=
  match m.lookup backendID with
  | none => []
  | some bc => bc.entries

/-- The resident blocks that are blocks of the query, each as often as it is resident. -/
def Model.residentBlocks (m : Model) (backendID : String) (query : List UInt64) : List UInt64 :=
  ((m.resident backendID).flatMap (·.hashes)).filter (· ∈ query)

/-- **The matched blocks are all occurrences** of blocks of the query in resident entries. -/
theorem predictCached_blocks (m : Model) (id : String) (query : List UInt64) (now : ℤ) :
    (m.predictCached id query now).1 = (m.residentBlocks id query).length := by
  rw [Model.predictCached, Model.residentBlocks, Model.resident]
  cases m.lookup id with
  | none => rfl
  | some bc =>
      dsimp only
      rw [predictLoop_blocks, Nat.zero_add, ← List.countP_eq_length_filter, List.countP_flatMap]
      simp only [countMatchingHashes_eq, Function.comp_def]

/-- The blocks of the query that occur in some resident entry. -/
def Model.cachedBlocks (m : Model) (backendID : String) (query : List UInt64) : Finset UInt64 :=
  query.toFinset.filter fun h => ∃ e ∈ m.resident backendID, h ∈ e.hashes

/-- The blocks counted are those cached, some perhaps more than once. -/
theorem toFinset_residentBlocks (m : Model) (id : String) (query : List UInt64) :
    (m.residentBlocks id query).toFinset = m.cachedBlocks id query := by
  ext h
  simp [Model.residentBlocks, Model.cachedBlocks, and_comm]

/-- **A predicted match counts each block once** exactly if no block of the query is resident
twice. -/
theorem predicts_once_iff (ops : List Op) (id : String) (query : List UInt64) (now : ℤ) :
    (((run ops).predictCached id query now).1 ≤ query.toFinset.card ∧
      ((run ops).predictCached id query now).1 = ((run ops).cachedBlocks id query).card) ↔
    ((run ops).residentBlocks id query).Nodup := by
  rw [predictCached_blocks, ← toFinset_residentBlocks]
  constructor
  · intro h
    exact Multiset.coe_nodup.mp (Multiset.toFinset_card_eq_card_iff_nodup.mp h.2.symm)
  · intro hnodup
    have hsub : (run ops).cachedBlocks id query ⊆ query.toFinset := Finset.filter_subset _ _
    rw [← List.toFinset_card_of_nodup hnodup, toFinset_residentBlocks]
    exact ⟨Finset.card_le_card hsub, rfl⟩

/-- A prefix and its extension, both resident: four of the two blocks of the query. -/
theorem predicts_twice :
    let ops : List Op :=
      [.register "b" 10, .recordInsert "b" [1, 2] 10, .recordInsert "b" [1, 2, 3] 20]
    ((run ops).predictCached "b" [1, 2] 30).1 = 4 ∧
      ¬ (((run ops).predictCached "b" [1, 2] 30).1 ≤ ([1, 2] : List UInt64).toFinset.card ∧
        ((run ops).predictCached "b" [1, 2] 30).1 = ((run ops).cachedBlocks "b" [1, 2]).card) := by
  intro ops
  have hbc : (run ops).lookup "b" =
      some ⟨[⟨[1, 2], 10, 10, 2⟩, ⟨[1, 2, 3], 20, 20, 3⟩], 10, 5, []⟩ := by decide
  have hblocks : ((run ops).predictCached "b" [1, 2] 30).1 = 4 := by
    rw [predictCached_blocks, Model.residentBlocks, Model.resident, hbc]
    rfl
  refine ⟨hblocks, fun h => ?_⟩
  rw [hblocks] at h
  exact absurd h.1 (by decide)

end KvRouter.Eviction
