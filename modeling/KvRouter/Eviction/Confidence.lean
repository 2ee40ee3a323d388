import KvRouter.Eviction.Predict
import Mathlib.Algebra.Order.Field.Basic
import Mathlib.Order.Bounds.Basic
import Mathlib.Tactic.Linarith
import Mathlib.Tactic.NormNum
import Mathlib.Tactic.Positivity

/-!
# KvRouter.Eviction.Confidence

The confidence of `PredictCached` as time passes.  Between two whole half-lives
the decay falls by a straight line from `1` to `0.307`, and at each whole
half-life it starts again at one half of the former `1`: it jumps up (`Rises`).
Whether the confidence rises with it depends on the other matching entries, of
which the most confident one counts.

* `expDecay_eq` — the pieces of the decay;
* `ageScore_lt_iff` — when the score of an age rises;
* `isGreatest_predictLoop` — the confidence of a prediction;
* `confidence_never_rises_iff` — when it does not rise.
-/

namespace KvRouter.Eviction

/-! ## The decay -/

/-- The loop of `expDecay` halves once for each whole half-life. -/
theorem halve_eq (n : ℕ) (result : ℚ) : halve n result = result * (1 / 2) ^ n := by
  induction n generalizing result with
  | zero => simp [halve]
  | succ n ih => rw [halve, ih, pow_succ']; ring

/-- The straight line from one whole half-life to the next. -/
def line (fracPart : ℚ) : ℚ := 1 - 693 / 1000 * fracPart

theorem line_pos {f : ℚ} (hf : f < 1) : 307 / 1000 < line f := by
  unfold line
  linarith

theorem line_le_one {f : ℚ} (hf : 0 ≤ f) : line f ≤ 1 := by
  unfold line
  linarith

/-- The pieces of the decay; the patch for negative results is never needed. -/
theorem expDecay_eq {x : ℚ} (hx : 0 ≤ x) :
    expDecay x = (1 / 2) ^ ⌊x⌋.toNat * line (Int.fract x) := by
  rw [expDecay]
  split
  · next hle =>
      obtain rfl : x = 0 := le_antisymm hle hx
      simp [line]
  · have hline : 0 < line (Int.fract x) := lt_trans (by norm_num) (line_pos (Int.fract_lt_one x))
    have hpos : 0 < (1 / 2 : ℚ) ^ ⌊x⌋.toNat * line (Int.fract x) := mul_pos (by positivity) hline
    have hfract : x - (⌊x⌋ : ℚ) = Int.fract x := rfl
    dsimp only
    rw [halve_eq, one_mul, hfract, ← line, if_neg hpos.not_gt]

/-! ## Ages -/

/-- The whole half-lives of an age. -/
def halfLives (age : ℤ) : ℕ := (age / halfLife).toNat

/-- The part of an age since the last whole half-life. -/
def sinceHalfLife (age : ℤ) : ℚ := (age % halfLife : ℤ) / halfLife

theorem halfLife_pos : 0 < halfLife := by decide

theorem sinceHalfLife_nonneg (age : ℤ) : 0 ≤ sinceHalfLife age := by
  have hmod : (0 : ℚ) ≤ (age % halfLife : ℤ) :=
    Int.cast_nonneg (Int.emod_nonneg age halfLife_pos.ne')
  exact div_nonneg hmod (Int.cast_nonneg halfLife_pos.le)

theorem sinceHalfLife_lt_one (age : ℤ) : sinceHalfLife age < 1 := by
  rw [sinceHalfLife, div_lt_one (Int.cast_pos.mpr halfLife_pos), Int.cast_lt]
  exact Int.emod_lt_of_pos age halfLife_pos

/-- The decay of an age: a power of one half, and the line in between. -/
theorem expDecay_age {age : ℤ} (hage : 0 ≤ age) : expDecay (minutes age / minutes halfLife) =
    (1 / 2) ^ halfLives age * line (sinceHalfLife age) := by
  have hminute : (minute : ℚ) ≠ 0 := by norm_num [minute]
  have hcast : ((halfLife.toNat : ℕ) : ℤ) = halfLife := Int.toNat_of_nonneg halfLife_pos.le
  have hnat : (halfLife : ℚ) = ((halfLife.toNat : ℕ) : ℚ) := by rw [← Int.cast_natCast, hcast]
  have hratio : minutes age / minutes halfLife = age / ((halfLife.toNat : ℕ) : ℚ) := by
    rw [minutes, minutes, div_div_div_cancel_right₀ hminute, hnat]
  have hnonneg : (0 : ℚ) ≤ age / ((halfLife.toNat : ℕ) : ℚ) :=
    div_nonneg (Int.cast_nonneg hage) (Nat.cast_nonneg _)
  rw [hratio, expDecay_eq hnonneg, Rat.floor_intCast_div_natCast,
    Int.fract_div_intCast_eq_div_intCast_mod, hcast, halfLives, sinceHalfLife, hnat]

theorem age_nonneg {lastAccess now : ℤ} (h : lastAccess ≤ now) : 0 ≤ sub now lastAccess := by
  unfold sub maxDuration
  omega

theorem age_mono {lastAccess t₁ t₂ : ℤ} (h : t₁ ≤ t₂) : sub t₁ lastAccess ≤ sub t₂ lastAccess := by
  unfold sub
  omega

/-- The age score is the decay, with a floor. -/
theorem ageScore_eq {lastAccess now : ℤ} (h : lastAccess ≤ now) : ageScore lastAccess now =
    max (1 / 10) ((1 / 2) ^ halfLives (sub now lastAccess) *
      line (sinceHalfLife (sub now lastAccess))) := by
  have hnonneg := age_nonneg h
  rw [ageScore]
  dsimp only
  rw [← expDecay_age hnonneg]
  split
  · next hle =>
      have hzero : sub now lastAccess = 0 := le_antisymm hle hnonneg
      rw [hzero]
      norm_num [minutes, expDecay]
  · split
    · next hlt => exact (max_eq_left hlt.le).symm
    · next hge => exact (max_eq_right (not_lt.mp hge)).symm

/-! ## When a score rises -/

/-- Between two times the age of an entry passes a whole half-life, its decay is higher after the
jump than before, and not below the floor. -/
structure Rises (lastAccess t₁ t₂ : ℤ) : Prop where
  next : halfLives (sub t₂ lastAccess) = halfLives (sub t₁ lastAccess) + 1
  jump : line (sinceHalfLife (sub t₁ lastAccess)) < line (sinceHalfLife (sub t₂ lastAccess)) / 2
  floor : 1 / 10 <
    (1 / 2) ^ halfLives (sub t₂ lastAccess) * line (sinceHalfLife (sub t₂ lastAccess))

/-- Within a half-life the decay falls, and over more than one it falls too. -/
theorem decay_le {n₁ n₂ : ℕ} {f₁ f₂ : ℚ} (hf₁ : f₁ < 1) (hf₂ : 0 ≤ f₂)
    (hle : n₁ < n₂ ∨ n₁ = n₂ ∧ f₁ ≤ f₂) (hne : n₂ = n₁ + 1 → line f₂ / 2 ≤ line f₁) :
    (1 / 2) ^ n₂ * line f₂ ≤ (1 / 2) ^ n₁ * line f₁ := by
  have hpow : 0 < (1 / 2 : ℚ) ^ n₁ := by positivity
  obtain hlt | ⟨rfl, hf⟩ := hle
  · obtain hnext | hmore := (Nat.succ_le_of_lt hlt).eq_or_lt
    · rw [← hnext, pow_succ, mul_assoc]
      refine mul_le_mul_of_nonneg_left ?_ hpow.le
      linarith [hne hnext.symm]
    · -- two halvings outweigh the straight line
      calc (1 / 2 : ℚ) ^ n₂ * line f₂
          ≤ (1 / 2) ^ n₂ := mul_le_of_le_one_right (by positivity) (line_le_one hf₂)
        _ ≤ (1 / 2) ^ (n₁ + 2) := pow_le_pow_of_le_one (by norm_num) (by norm_num) hmore
        _ = (1 / 2) ^ n₁ * (1 / 4) := by ring
        _ ≤ (1 / 2) ^ n₁ * line f₁ :=
            mul_le_mul_of_nonneg_left (by linarith [line_pos hf₁]) hpow.le
  · refine mul_le_mul_of_nonneg_left ?_ hpow.le
    unfold line
    linarith

/-- Ages in their order. -/
theorem halfLives_mono {a₁ a₂ : ℤ} (h : a₁ ≤ a₂) (ha : 0 ≤ a₁) :
    halfLives a₁ < halfLives a₂ ∨
      halfLives a₁ = halfLives a₂ ∧ sinceHalfLife a₁ ≤ sinceHalfLife a₂ := by
  unfold halfLives
  obtain hlt | heq := (Int.ediv_le_ediv halfLife_pos h).lt_or_eq
  · have hnonneg := Int.ediv_nonneg ha halfLife_pos.le
    left
    omega
  · right
    refine ⟨congrArg Int.toNat heq, ?_⟩
    unfold sinceHalfLife
    have hmod : a₁ % halfLife ≤ a₂ % halfLife := by
      rw [Int.emod_def, Int.emod_def, heq]
      omega
    exact div_le_div_of_nonneg_right (Int.cast_le.mpr hmod) (Int.cast_nonneg halfLife_pos.le)

/-- **When the score of an age rises.** -/
theorem ageScore_lt_iff {lastAccess t₁ t₂ : ℤ} (h : t₁ ≤ t₂) (hpast : lastAccess ≤ t₁) :
    ageScore lastAccess t₁ < ageScore lastAccess t₂ ↔ Rises lastAccess t₁ t₂ := by
  rw [ageScore_eq hpast, ageScore_eq (hpast.trans h)]
  have hage : sub t₁ lastAccess ≤ sub t₂ lastAccess := age_mono h
  have hdecay := decay_le (sinceHalfLife_lt_one (sub t₁ lastAccess))
    (sinceHalfLife_nonneg (sub t₂ lastAccess)) (halfLives_mono hage (age_nonneg hpast))
  constructor
  · intro hlt
    rw [lt_max_iff] at hlt
    obtain hlow | hlt := hlt
    · exact absurd hlow (le_max_left _ _).not_gt
    · obtain ⟨hfloor, hlt⟩ := max_lt_iff.mp hlt
      have hnext : halfLives (sub t₂ lastAccess) = halfLives (sub t₁ lastAccess) + 1 := by
        by_contra hne
        exact absurd (hdecay fun heq => absurd heq hne) hlt.not_ge
      refine ⟨hnext, ?_, hfloor⟩
      by_contra hjump
      exact absurd (hdecay fun _ => not_lt.mp hjump) hlt.not_ge
  · intro hrises
    have hpow : 0 < (1 / 2 : ℚ) ^ halfLives (sub t₁ lastAccess) := by positivity
    have hgt : (1 / 2) ^ halfLives (sub t₁ lastAccess) * line (sinceHalfLife (sub t₁ lastAccess)) <
        (1 / 2) ^ halfLives (sub t₂ lastAccess) * line (sinceHalfLife (sub t₂ lastAccess)) := by
      rw [hrises.next, pow_succ, mul_assoc]
      refine mul_lt_mul_of_pos_left ?_ hpow
      linarith [hrises.jump]
    exact max_lt (lt_max_of_lt_right hrises.floor) (lt_max_of_lt_right hgt)

/-- An age above the floor has passed at most three half-lives. -/
theorem Rises.halfLives_le {lastAccess t₁ t₂ : ℤ} (h : Rises lastAccess t₁ t₂) :
    halfLives (sub t₂ lastAccess) ≤ 3 := by
  by_contra hgt
  have hpow : (1 / 2 : ℚ) ^ halfLives (sub t₂ lastAccess) ≤ (1 / 2) ^ 4 :=
    pow_le_pow_of_le_one (by norm_num) (by norm_num) (Nat.lt_of_not_le hgt)
  have hle : (1 / 2 : ℚ) ^ halfLives (sub t₂ lastAccess) *
      line (sinceHalfLife (sub t₂ lastAccess)) ≤ (1 / 2) ^ halfLives (sub t₂ lastAccess) :=
    mul_le_of_le_one_right (by positivity) (line_le_one (sinceHalfLife_nonneg _))
  linarith [h.floor]

/-! ## The most confident entry -/

/-- The entries with their indices that share a block with the query. -/
def matching (query : List UInt64) (entries : List (Entry × ℕ)) : List (Entry × ℕ) :=
  entries.filter fun x => matchesHashes x.1.hashes (makeHashSet query)

theorem countMatchingHashes_pos_iff {entryHashes : List UInt64} {hashSet : GoMap UInt64 Unit} :
    countMatchingHashes entryHashes hashSet > 0 ↔ matchesHashes entryHashes hashSet = true := by
  simp [countMatchingHashes, matchesHashes]

/-- The loop finds the greatest of the confidences and the one it starts with. -/
theorem isGreatest_predictLoop (bc : BackendCache) (query : List UInt64) (now : ℤ)
    (entries : List Entry) (i matchedBlocks : ℕ) (confidence : ℚ) :
    IsGreatest (insert confidence
        {s | ∃ x ∈ matching query (entries.zipIdx i), bc.entryConfidence x.2 x.1 now = s})
      (bc.predictLoop (makeHashSet query) now entries i matchedBlocks confidence).2 := by
  induction entries generalizing i matchedBlocks confidence with
  | nil => simp [BackendCache.predictLoop, matching]
  | cons e entries ih =>
      rw [List.zipIdx_cons, matching, List.filter_cons]
      simp only [BackendCache.predictLoop, countMatchingHashes_pos_iff]
      split
      · have hmax : (if bc.entryConfidence i e now > confidence then bc.entryConfidence i e now
            else confidence) = max confidence (bc.entryConfidence i e now) := (max_def_lt _ _).symm
        rw [hmax]
        obtain ⟨hmem, hupper⟩ := ih (i + 1)
          (matchedBlocks + countMatchingHashes e.hashes (makeHashSet query))
          (max confidence (bc.entryConfidence i e now))
        have hbest := max_le_iff.mp (hupper (Set.mem_insert _ _))
        constructor
        · obtain heq | ⟨x, hx, heq⟩ := hmem
          · rw [heq]
            obtain hmax | hmax := max_choice confidence (bc.entryConfidence i e now)
            · exact .inl hmax
            · exact .inr ⟨(e, i), List.mem_cons_self .., hmax.symm⟩
          · exact .inr ⟨x, List.mem_cons_of_mem _ hx, heq⟩
        · rintro s (rfl | ⟨x, hx, rfl⟩)
          · exact hbest.1
          · obtain rfl | hx := List.mem_cons.mp hx
            · exact hbest.2
            · exact hupper (.inr ⟨x, hx, rfl⟩)
      · exact ih _ _ _

/-- The entries of a cache that match a query, with their indices. -/
def BackendCache.matches (bc : BackendCache) (query : List UInt64) : List (Entry × ℕ) :=
  matching query bc.entries.zipIdx

/-- Whenever the age score of a matching entry rises between two times, some matching entry, by its
place and its age at the earlier time, was already as sure as this one becomes, or fully. -/
def Covered (bc : BackendCache) (query : List UInt64) (t₁ t₂ : ℤ) : Prop :=
  ∀ x ∈ bc.matches query, Rises x.1.lastAccess t₁ t₂ → ∃ y ∈ bc.matches query,
    min 1 (positionScore x.2 bc.entries.length * ageScore x.1.lastAccess t₂ * pressureScore bc) ≤
      positionScore y.2 bc.entries.length * ageScore y.1.lastAccess t₁ * pressureScore bc

/-- Every position has a positive score. -/
theorem positionScore_pos (i n : ℕ) : 0 < positionScore i n := by
  unfold positionScore
  split
  · norm_num
  · next hn =>
      have hlast : (0 : ℚ) ≤ n - 1 := by
        have hone : (1 : ℚ) ≤ n := by exact_mod_cast (not_le.mp hn).le
        linarith
      have hquot : (0 : ℚ) ≤ i / (n - 1) := div_nonneg (Nat.cast_nonneg i) hlast
      linarith

theorem ageScore_pos {lastAccess now : ℤ} (h : lastAccess ≤ now) : 0 < ageScore lastAccess now := by
  rw [ageScore_eq h]
  exact lt_max_of_lt_left (by norm_num)

section
variable {bc : BackendCache} {i : ℕ} {e : Entry} {t₁ t₂ now : ℤ}

/-- With pressure to spare, the confidence follows the age score. -/
theorem entryConfidence_le (hpressure : 0 ≤ pressureScore bc)
    (h : ageScore e.lastAccess t₁ ≤ ageScore e.lastAccess t₂) :
    bc.entryConfidence i e t₁ ≤ bc.entryConfidence i e t₂ := by
  have hposition := (positionScore_pos i bc.entries.length).le
  unfold BackendCache.entryConfidence
  gcongr

/-- With a negative pressure score it goes against it. -/
theorem entryConfidence_ge (hpressure : pressureScore bc ≤ 0)
    (h : ageScore e.lastAccess t₁ ≤ ageScore e.lastAccess t₂) :
    bc.entryConfidence i e t₂ ≤ bc.entryConfidence i e t₁ := by
  have hposition := (positionScore_pos i bc.entries.length).le
  exact mul_le_mul_of_nonpos_right (mul_le_mul_of_nonneg_left h hposition) hpressure

theorem entryConfidence_pos (hpressure : 0 < pressureScore bc) (h : e.lastAccess ≤ now) :
    0 < bc.entryConfidence i e now :=
  mul_pos (mul_pos (positionScore_pos _ _) (ageScore_pos h)) hpressure

theorem entryConfidence_nonpos (hpressure : pressureScore bc ≤ 0) (h : e.lastAccess ≤ now) :
    bc.entryConfidence i e now ≤ 0 :=
  mul_nonpos_of_nonneg_of_nonpos (mul_pos (positionScore_pos _ _) (ageScore_pos h)).le hpressure

end

theorem mem_entries_of_matches {bc : BackendCache} {query : List UInt64} {x : Entry × ℕ}
    (hx : x ∈ bc.matches query) : x.1 ∈ bc.entries := by
  have hzip : (x.1, x.2) ∈ bc.entries.zipIdx := List.mem_of_mem_filter hx
  exact List.mem_of_getElem? (List.mem_zipIdx_iff_getElem?.mp hzip)

section
variable {bc : BackendCache} {query : List UInt64} {t₁ t₂ : ℤ} {c₁ c₂ : ℚ}

/-- The confidences of the matching entries at some time, and `0`. -/
def BackendCache.confidences (bc : BackendCache) (query : List UInt64) (now : ℤ) : Set ℚ :=
  insert 0 {s | ∃ x ∈ bc.matches query, bc.entryConfidence x.2 x.1 now = s}

/-- If the confidence does not rise, then each entry that rises is covered by another. -/
theorem covered_of_le (hle : t₁ ≤ t₂) (hpast : ∀ e ∈ bc.entries, e.lastAccess ≤ t₁)
    (h₁ : IsGreatest (bc.confidences query t₁) c₁) (h₂ : IsGreatest (bc.confidences query t₂) c₂)
    (h : min 1 c₂ ≤ min 1 c₁) : Covered bc query t₁ t₂ := by
  intro x hx hrises
  have hpast' := hpast _ (mem_entries_of_matches hx)
  have hrise := (ageScore_lt_iff hle hpast').mpr hrises
  obtain hpressure | hpressure := le_or_gt (pressureScore bc) 0
  · exact ⟨x, hx, (min_le_right _ _).trans (entryConfidence_ge hpressure hrise.le)⟩
  · have hlater : min 1 (bc.entryConfidence x.2 x.1 t₂) ≤ c₁ :=
      (min_le_min_left 1 (h₂.2 (.inr ⟨x, hx, rfl⟩))).trans (h.trans (min_le_right _ _))
    obtain rfl | ⟨y, hy, rfl⟩ := h₁.1
    · have hpos := entryConfidence_pos (i := x.2) hpressure (hpast'.trans hle)
      exact absurd hlater (lt_min one_pos hpos).not_ge
    · exact ⟨y, hy, hlater⟩

/-- If each entry that rises is covered, then the confidence does not rise. -/
theorem le_of_covered (hle : t₁ ≤ t₂) (hpast : ∀ e ∈ bc.entries, e.lastAccess ≤ t₁)
    (h₁ : IsGreatest (bc.confidences query t₁) c₁) (h₂ : IsGreatest (bc.confidences query t₂) c₂)
    (h : Covered bc query t₁ t₂) : min 1 c₂ ≤ min 1 c₁ := by
  have hnonneg : 0 ≤ c₁ := h₁.2 (Set.mem_insert _ _)
  obtain rfl | ⟨x, hx, rfl⟩ := h₂.1
  · exact min_le_min_left 1 hnonneg
  · have hpast' := hpast _ (mem_entries_of_matches hx)
    by_cases hrises : Rises x.1.lastAccess t₁ t₂
    · obtain ⟨y, hy, hcovers⟩ := h x hx hrises
      exact le_min (min_le_left _ _) (hcovers.trans (h₁.2 (.inr ⟨y, hy, rfl⟩)))
    · have hfalls := not_lt.mp (mt (ageScore_lt_iff hle hpast').mp hrises)
      refine min_le_min_left 1 ?_
      obtain hpressure | hpressure := le_or_gt 0 (pressureScore bc)
      · exact (entryConfidence_le hpressure hfalls).trans (h₁.2 (.inr ⟨x, hx, rfl⟩))
      · exact (entryConfidence_nonpos hpressure.le (hpast'.trans hle)).trans hnonneg

end

/-- **Confidence does not rise between two times** exactly if every score that rises is covered. -/
theorem confidence_never_rises_iff (m : Model) (id : String) (query : List UInt64) {t₁ t₂ : ℤ}
    (hle : t₁ ≤ t₂) (hpast : ∀ e ∈ m.resident id, e.lastAccess ≤ t₁) :
    (m.predictCached id query t₂).2 ≤ (m.predictCached id query t₁).2 ↔
      ∀ bc, m.lookup id = some bc → Covered bc query t₁ t₂ := by
  rw [Model.resident] at hpast
  rw [Model.predictCached, Model.predictCached]
  cases hbc : m.lookup id with
  | none => simp
  | some bc =>
      rw [hbc] at hpast
      have h₁ := isGreatest_predictLoop bc query t₁ bc.entries 0 0 0
      have h₂ := isGreatest_predictLoop bc query t₂ bc.entries 0 0 0
      simp only [gt_iff_lt, ← min_def_lt, Option.some.injEq, forall_eq']
      exact ⟨covered_of_le hle hpast h₁ h₂, le_of_covered hle hpast h₁ h₂⟩

/-- One entry, one and two minutes after its insertion. -/
theorem confidence_never_rises_iff_sample :
    let m := run [.register "b" 10, .recordInsert "b" [1] 0]
    (m.predictCached "b" [1] (2 * minute)).2 ≤ (m.predictCached "b" [1] minute).2 ↔
      ∀ bc, m.lookup "b" = some bc → Covered bc [1] minute (2 * minute) :=
  confidence_never_rises_iff _ "b" [1] (by decide) (by decide)

/-- One entry, just before and at its first half-life. -/
theorem confidence_rises :
    let m := run [.register "b" 10, .recordInsert "b" [1] 0]
    (∀ e ∈ m.resident "b", e.lastAccess ≤ halfLife - 1) ∧
      (m.predictCached "b" [1] (halfLife - 1)).2 < 3 / 10 ∧
      (m.predictCached "b" [1] halfLife).2 = 19 / 40 ∧
      ¬ (m.predictCached "b" [1] halfLife).2 ≤ (m.predictCached "b" [1] (halfLife - 1)).2 := by
  refine ⟨by decide, ?_, ?_, ?_⟩
  · decide +kernel
  · decide +kernel
  · decide +kernel

end KvRouter.Eviction
