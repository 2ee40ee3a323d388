import KvRouter.Eviction.Conservation
import Mathlib.Algebra.Order.BigOperators.Group.List
import Mathlib.Algebra.Order.Field.Basic
import Mathlib.Tactic.Linarith
import Mathlib.Tactic.NormNum

/-!
# KvRouter.Eviction.Capacity

When the capacity of the eviction model holds.  The loop of `recordInsert` ends
when the entry fits or when nothing is left to evict, and the insertion that
follows is unconditional.  So an insertion that is longer than the capacity of
its backend leaves more blocks than the backend can hold, and nothing else does.
-/

namespace KvRouter.Eviction

/-- Every registration gives a positive capacity. -/
def PositiveCapacities (ops : List Op) : Prop :=
  ∀ id capacity, Op.register id capacity ∈ ops → 0 < capacity

/-- No insertion is longer than the capacity its backend has at the time of the call. -/
def InsertionsFit (ops : List Op) : Prop :=
  ∀ earlier id hashes now, earlier ++ [Op.recordInsert id hashes now] <+: ops →
    ∀ bc, (run earlier).lookup id = some bc → (hashes.length : ℤ) ≤ bc.capacity

theorem PositiveCapacities.of_prefix {ops earlier : List Op} (h : PositiveCapacities ops)
    (hpre : earlier <+: ops) : PositiveCapacities earlier :=
  fun id capacity hmem => h id capacity (hpre.subset hmem)

theorem InsertionsFit.of_prefix {ops earlier : List Op} (h : InsertionsFit ops)
    (hpre : earlier <+: ops) : InsertionsFit earlier :=
  fun first id hashes now hfirst => h first id hashes now (hfirst.trans hpre)

/-- Sizes that count hashes are not negative. -/
theorem sizes_nonneg {entries : List Entry} (h : ∀ e ∈ entries, e.sizeBlocks = e.hashes.length) :
    0 ≤ sizes entries := by
  refine List.sum_nonneg ?_
  intro size hsize
  obtain ⟨e, he, rfl⟩ := List.mem_map.mp hsize
  simp [h e he]

/-! ## One insertion -/

/-- The blocks used after an insertion that fits the capacity. -/
theorem used_inserted_le {bc : BackendCache} {hashes : List UInt64} {n : ℕ}
    (hn : ShortestPrefix bc.entries hashes.length bc.capacity n)
    (hfits : (hashes.length : ℤ) ≤ bc.capacity) (now : ℤ) :
    (bc.inserted hashes now n).used ≤ bc.capacity := by
  rw [BackendCache.inserted]
  obtain hlt | heq := hn.le.lt_or_eq
  · exact hn.fits hlt
  · simp [heq, hfits]

/-- The new entry is among the blocks used. -/
theorem length_le_used_inserted {bc : BackendCache}
    (hsized : ∀ e ∈ bc.entries, e.sizeBlocks = e.hashes.length) (hashes : List UInt64) (now : ℤ)
    (n : ℕ) : (hashes.length : ℤ) ≤ (bc.inserted hashes now n).used := by
  have hrest : 0 ≤ sizes (bc.entries.drop n) :=
    sizes_nonneg fun e he => hsized e (List.mem_of_mem_drop he)
  rw [BackendCache.inserted]
  exact le_add_of_nonneg_left hrest

/-! ## Runs -/

/-- **A run whose insertions fit keeps every cache within its capacity.** -/
theorem run_within (id : String) (ops : List Op) (bc : BackendCache)
    (hbc : (run ops).lookup id = some bc) (hpos : PositiveCapacities ops)
    (hfit : InsertionsFit ops) : 0 < bc.capacity ∧ bc.used ≤ bc.capacity := by
  refine cache_induction (P := fun ops bc => PositiveCapacities ops → InsertionsFit ops →
      0 < bc.capacity ∧ bc.used ≤ bc.capacity)
    (fun ops capacity hpos _ => ?_) (fun ops bc hashes now hbc ih hpos hfit => ?_)
    (fun ops bc hashes now _ ih hpos hfit => ?_) (fun ops op bc _ ih hpos hfit => ?_)
    ops bc hbc hpos hfit
  · have hcap := hpos id capacity (by simp)
    exact ⟨hcap, hcap.le⟩
  · have h := ih (hpos.of_prefix (List.prefix_append _ _)) (hfit.of_prefix (List.prefix_append _ _))
    have hlen := hfit ops id hashes now (List.prefix_refl _) bc hbc
    obtain ⟨n, hn, heq⟩ := recordInsert_spec (run_ledger id ops bc hbc).used hashes now
    rw [heq]
    exact ⟨h.1, used_inserted_le hn hlen now⟩
  · exact ih (hpos.of_prefix (List.prefix_append _ _)) (hfit.of_prefix (List.prefix_append _ _))
  · exact ih (hpos.of_prefix (List.prefix_append _ _)) (hfit.of_prefix (List.prefix_append _ _))

/-- The usage is at most full where the capacity is respected. -/
theorem usageRatio_le_one {m : Model} {id : String} {bc : BackendCache}
    (hbc : m.lookup id = some bc) (hcap : 0 < bc.capacity) (hused : bc.used ≤ bc.capacity) :
    m.usageRatio id ≤ 1 := by
  have hcap' : (0 : ℚ) < bc.capacity := by exact_mod_cast hcap
  have hused' : (bc.used : ℚ) ≤ bc.capacity := by exact_mod_cast hused
  simp only [Model.usageRatio, hbc, hcap.ne', if_false]
  exact (div_le_one hcap').mpr hused'

/-- So the pressure takes at most half of the score. -/
theorem half_le_pressureScore {bc : BackendCache} (hcap : 0 < bc.capacity)
    (hused : bc.used ≤ bc.capacity) : 1 / 2 ≤ pressureScore bc := by
  have hcap' : (0 : ℚ) < bc.capacity := by exact_mod_cast hcap
  have hused' : (bc.used : ℚ) ≤ bc.capacity := by exact_mod_cast hused
  have hratio : (bc.used : ℚ) / bc.capacity ≤ 1 := (div_le_one hcap').mpr hused'
  rw [pressureScore, if_neg hcap.ne']
  dsimp only
  linarith

/-- **The capacity holds in every state of a run iff every insertion of the run fits it.** -/
theorem within_capacity_iff (ops : List Op) (hpos : PositiveCapacities ops) :
    (∀ earlier, earlier <+: ops → ∀ id bc, (run earlier).lookup id = some bc →
      bc.used ≤ bc.capacity ∧ (run earlier).usageRatio id ≤ 1 ∧ 1 / 2 ≤ pressureScore bc) ↔
    InsertionsFit ops := by
  constructor
  · intro h earlier id hashes now hpre bc hbc
    obtain ⟨n, -, heq⟩ := recordInsert_spec (run_ledger id earlier bc hbc).used hashes now
    have hbc' : (run (earlier ++ [.recordInsert id hashes now])).lookup id =
        some (bc.inserted hashes now n) := by
      rw [lookup_recordInsert hbc, heq]
    have hused := (h _ hpre id _ hbc').1
    exact (length_le_used_inserted (run_ledger id earlier bc hbc).sized hashes now n).trans hused
  · intro hfit earlier hpre id bc hbc
    obtain ⟨hcap, hused⟩ :=
      run_within id earlier bc hbc (hpos.of_prefix hpre) (hfit.of_prefix hpre)
    exact ⟨hused, usageRatio_le_one hbc hcap hused, half_le_pressureScore hcap hused⟩

/-- The theorem at a capacity of 5 and two insertions of which the second evicts the first. -/
theorem within_capacity_sample :
    let ops : List Op :=
      [.register "b" 5, .recordInsert "b" [1, 2, 3] 10, .recordInsert "b" [4, 5, 6] 20]
    PositiveCapacities ops ∧
      ((∀ earlier, earlier <+: ops → ∀ id bc, (run earlier).lookup id = some bc →
        bc.used ≤ bc.capacity ∧ (run earlier).usageRatio id ≤ 1 ∧ 1 / 2 ≤ pressureScore bc) ↔
      InsertionsFit ops) := by
  have hpos : PositiveCapacities [.register "b" 5, .recordInsert "b" [1, 2, 3] 10,
      .recordInsert "b" [4, 5, 6] 20] := by
    intro id capacity hmem
    simp only [List.mem_cons, Op.register.injEq, reduceCtorEq, List.not_mem_nil, or_false] at hmem
    omega
  exact ⟨hpos, within_capacity_iff _ hpos⟩

/-- Six blocks on a backend that can hold five: everything is evicted, the new entry still does
not fit, and it is inserted. -/
theorem oversized_insertion_exceeds :
    let ops : List Op := [.register "b" 5, .recordInsert "b" [1, 2, 3, 4, 5, 6] 10]
    PositiveCapacities ops ∧ ∃ bc, (run ops).lookup "b" = some bc ∧
      bc.capacity = 5 ∧ bc.used = 6 ∧ 1 < (run ops).usageRatio "b" ∧ pressureScore bc < 1 / 2 := by
  have hbc : (run [.register "b" 5, .recordInsert "b" [1, 2, 3, 4, 5, 6] 10]).lookup "b" =
      some ⟨[⟨[1, 2, 3, 4, 5, 6], 10, 10, 6⟩], 5, 6, []⟩ := by decide
  refine ⟨?_, _, hbc, rfl, rfl, ?_, ?_⟩
  · intro id capacity hmem
    simp only [List.mem_cons, Op.register.injEq, reduceCtorEq, List.not_mem_nil, or_false] at hmem
    omega
  · norm_num [Model.usageRatio, hbc]
  · norm_num [pressureScore]

end KvRouter.Eviction
