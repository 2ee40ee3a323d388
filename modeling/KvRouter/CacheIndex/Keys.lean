import KvRouter.CacheIndex
import Mathlib.Data.List.TakeWhile
import Mathlib.Data.List.Basic

/-!
# KvRouter.CacheIndex.Keys

Cumulative keys by prefix: the key at position `n` of `cumulativeKeys blocks`
is the FNV-1a state after the first `n + 1` blocks (`cumulativeKey`), so block
lists that share a prefix share its keys.  `lookup` is then described by the
keys of the prefixes of its query (`le_matchKeys_iff`).
-/

namespace KvRouter.CacheIndex

/-! ## Keys of prefixes -/

/-- The hash state after the blocks of `p`, from state `h`. -/
def cumulativeKeyFrom (h : UInt64) (p : List UInt64) : UInt64 :=
  p.foldl (fun h block => fnvWrite h (putUint64 block)) h

/-- The cumulative key of a prefix `p`. -/
def cumulativeKey (p : List UInt64) : UInt64 := cumulativeKeyFrom fnvOffset64 p

theorem length_cumulativeKeysFrom (h : UInt64) (blocks : List UInt64) :
    (cumulativeKeysFrom h blocks).length = blocks.length := by
  induction blocks generalizing h with
  | nil => rfl
  | cons block blocks ih => simp [cumulativeKeysFrom, ih]

@[simp] theorem length_cumulativeKeys (blocks : List UInt64) :
    (cumulativeKeys blocks).length = blocks.length := length_cumulativeKeysFrom _ _

theorem getElem?_cumulativeKeysFrom (h : UInt64) (blocks : List UInt64) (n : ℕ)
    (hn : n < blocks.length) :
    (cumulativeKeysFrom h blocks)[n]? = some (cumulativeKeyFrom h (blocks.take (n + 1))) := by
  induction blocks generalizing h n with
  | nil => simp at hn
  | cons block blocks ih =>
      cases n with
      | zero => simp [cumulativeKeysFrom, cumulativeKeyFrom]
      | succ n =>
          simp only [List.length_cons, Nat.add_lt_add_iff_right] at hn
          simp only [cumulativeKeysFrom, List.getElem?_cons_succ, List.take_succ_cons]
          rw [ih _ n hn]
          simp [cumulativeKeyFrom]

/-- The key at a position is that of the prefix up to there. -/
theorem getElem?_cumulativeKeys {blocks : List UInt64} {n : ℕ} (hn : n < blocks.length) :
    (cumulativeKeys blocks)[n]? = some (cumulativeKey (blocks.take (n + 1))) :=
  getElem?_cumulativeKeysFrom _ _ _ hn

theorem cumulativeKeysFrom_take (h : UInt64) (blocks : List UInt64) (n : ℕ) :
    cumulativeKeysFrom h (blocks.take n) = (cumulativeKeysFrom h blocks).take n := by
  induction blocks generalizing h n with
  | nil => simp [cumulativeKeysFrom]
  | cons block blocks ih =>
      cases n with
      | zero => simp [cumulativeKeysFrom]
      | succ n => simp [cumulativeKeysFrom, ih]

/-- The keys of a prefix are a prefix of the keys. -/
theorem cumulativeKeys_take (blocks : List UInt64) (n : ℕ) :
    cumulativeKeys (blocks.take n) = (cumulativeKeys blocks).take n :=
  cumulativeKeysFrom_take _ _ _

/-- The keys of `blocks` are the keys of its non-empty prefixes. -/
theorem mem_cumulativeKeys {blocks : List UInt64} {key : UInt64} :
    key ∈ cumulativeKeys blocks ↔
      ∃ n, 0 < n ∧ n ≤ blocks.length ∧ key = cumulativeKey (blocks.take n) := by
  rw [List.mem_iff_getElem?]
  constructor
  · rintro ⟨n, hn⟩
    have hlt : n < blocks.length := by
      have h := (List.getElem?_eq_some_iff.mp hn).1
      rwa [length_cumulativeKeys] at h
    rw [getElem?_cumulativeKeys hlt] at hn
    exact ⟨n + 1, by omega, hlt, (Option.some.inj hn).symm⟩
  · rintro ⟨n, hpos, hle, rfl⟩
    refine ⟨n - 1, ?_⟩
    rw [getElem?_cumulativeKeys (by omega)]
    rw [Nat.sub_add_cancel hpos]

/-! ## The lookup loop -/

/-- `matchKeys` counts the leading keys that are present. -/
theorem matchKeys_eq (entries : Bucket) (matched : ℕ) (keys : List UInt64) :
    matchKeys entries matched keys =
      matched + (keys.takeWhile fun key => (entries.lookup key).isSome).length := by
  induction keys generalizing matched with
  | nil => rfl
  | cons key keys ih =>
      simp only [matchKeys, List.takeWhile_cons]
      split
      · next h => rw [ih, List.length_cons]; omega
      · next h => rfl

theorem matchKeys_le (entries : Bucket) (keys : List UInt64) :
    matchKeys entries 0 keys ≤ keys.length := by
  rw [matchKeys_eq, Nat.zero_add]
  exact (List.takeWhile_prefix _).length_le

/-- The loop reaches `n` exactly when the first `n` keys are present. -/
theorem le_matchKeys_iff {entries : Bucket} {keys : List UInt64} {n : ℕ} (hn : n ≤ keys.length) :
    n ≤ matchKeys entries 0 keys ↔ ∀ key ∈ keys.take n, (entries.lookup key).isSome := by
  rw [matchKeys_eq, Nat.zero_add]
  induction keys generalizing n with
  | nil =>
      have h0 : n = 0 := Nat.le_zero.mp hn
      simp [h0]
  | cons key keys ih =>
      cases n with
      | zero => simp
      | succ n =>
          rw [List.length_cons, Nat.add_le_add_iff_right] at hn
          rw [List.takeWhile_cons, List.take_succ_cons, List.forall_mem_cons]
          cases hkey : (entries.lookup key).isSome with
          | false => simp
          | true => simpa using ih hn

end KvRouter.CacheIndex
