import KvRouter.Scorer
import Mathlib.Tactic.GCongr
import Mathlib.Tactic.Linarith
import Mathlib.Tactic.Positivity

/-!
# KvRouter.Ranking

What `Rank` promises about its result.  Both of its modes order the healthy
states strictly, so the result does not depend on the order in which the states
are given (`rank_eq_of_perm`), and who stands ahead of whom is a comparison of
two states (`ahead_iff`).

* `rank_deterministic` — the result is the healthy states in the strict order of
  the mode, and neither a permutation nor unhealthy states change it;
* `improved_stays_ahead` — an improved state stays ahead of those it was ahead
  of, unless its match is the first one and switches the mode.
-/

namespace KvRouter.Scorer

/-! ## The order of a mode -/

/-- Some healthy state has a match: `Rank` orders by score. -/
def AnyHit (states : List BackendState) : Prop := ∃ st ∈ states, st.healthy ∧ 0 < st.matchedBlocks

instance (states : List BackendState) : Decidable (AnyHit states) :=
  inferInstanceAs (Decidable (∃ st ∈ states, _))

/-- By score descending, and by ID among equals. -/
def ScoreBefore (w : Weights) (req : Request) (a b : BackendState) : Prop :=
  score w req b < score w req a ∨ score w req a = score w req b ∧ a.id < b.id

/-- By queue depth ascending, and by ID among equals. -/
def DepthBefore (a b : BackendState) : Prop :=
  a.queueDepth < b.queueDepth ∨ a.queueDepth = b.queueDepth ∧ a.id < b.id

/-- The order in which `Rank` puts the healthy states of a list. -/
def Before (w : Weights) (req : Request) (states : List BackendState) (a b : BackendState) : Prop :=
  if AnyHit states then ScoreBefore w req a b else DepthBefore a b

variable {w : Weights} {req : Request} {states states' : List BackendState}

/-- The order by score is that of the keys. -/
theorem scoreBefore_iff {a b : BackendState} :
    ScoreBefore w req a b ↔ scoreKey (score w req) a < scoreKey (score w req) b := by
  simp only [ScoreBefore, scoreKey, Prod.Lex.toLex_lt_toLex, OrderDual.toDual_lt_toDual,
    EmbeddingLike.apply_eq_iff_eq]

/-- The order by depth is that of the keys. -/
theorem depthBefore_iff {a b : BackendState} : DepthBefore a b ↔ depthKey a < depthKey b := by
  simp only [DepthBefore, depthKey, Prod.Lex.toLex_lt_toLex]

/-- No two states are ahead of each other. -/
theorem before_asymm {a b : BackendState} (h : Before w req states a b) :
    ¬ Before w req states b a := by
  unfold Before at *
  split at h
  · next hany =>
      rw [if_pos hany, scoreBefore_iff]
      exact (scoreBefore_iff.mp h).asymm
  · next hany =>
      rw [if_neg hany, depthBefore_iff]
      exact (depthBefore_iff.mp h).asymm

/-- The mode depends on the healthy states only. -/
theorem anyHit_iff_filter :
    AnyHit states ↔ (states.filter (·.healthy)).any (·.matchedBlocks > 0) = true := by
  simp [AnyHit]

/-- The mode only depends on the healthy states. -/
theorem anyHit_congr (h : (states.filter (·.healthy)).Perm (states'.filter (·.healthy))) :
    AnyHit states ↔ AnyHit states' := by
  rw [anyHit_iff_filter, anyHit_iff_filter, h.any_eq]

/-! ## Rank is a strict order -/

theorem nodup_ids_healthy (hids : (states.map (·.id)).Nodup) :
    ((states.filter (·.healthy)).map (·.id)).Nodup :=
  hids.sublist (List.filter_sublist.map _)

/-- **The result is strictly ordered** by the mode of its input. -/
theorem pairwise_rank (w : Weights) (req : Request) (hids : (states.map (·.id)).Nodup) :
    (rank w req states).Pairwise (Before w req states) := by
  have hperm := perm_rank w req states
  have hne : (rank w req states).Pairwise fun a b => a.id ≠ b.id :=
    List.pairwise_map.mp ((hperm.map _).nodup_iff.mpr (nodup_ids_healthy hids))
  by_cases hany : AnyHit states
  · have hrank : rank w req states = Sorting.sliceStable
        (lessByScore (scoresOf w req (states.filter (·.healthy)))) (states.filter (·.healthy)) :=
      if_pos (anyHit_iff_filter.mp hany)
    have hsorted := Sorting.pairwise_sliceStable
      (lessByScore_iff (scoresOf w req (states.filter (·.healthy)))) (states.filter (·.healthy))
    rw [← hrank] at hsorted
    refine (hsorted.and hne).imp_of_mem ?_
    intro a b ha hb hab
    obtain ⟨hle, hid⟩ := hab
    rw [hperm.mem_iff] at ha hb
    simp only [scoreKey, lookup_scoresOf (nodup_ids_healthy hids) ha,
      lookup_scoresOf (nodup_ids_healthy hids) hb, Option.getD_some] at hle
    rw [Before, if_pos hany, scoreBefore_iff]
    refine lt_of_le_of_ne hle fun heq => hid ?_
    simp only [scoreKey, EmbeddingLike.apply_eq_iff_eq, Prod.mk.injEq] at heq
    exact heq.2
  · have hrank : rank w req states = Sorting.sliceStable lessByDepth (states.filter (·.healthy)) :=
      if_neg fun h => hany (anyHit_iff_filter.mpr h)
    have hsorted := Sorting.pairwise_sliceStable lessByDepth_iff (states.filter (·.healthy))
    rw [← hrank] at hsorted
    refine (hsorted.and hne).imp ?_
    intro a b hab
    obtain ⟨hle, hid⟩ := hab
    rw [Before, if_neg hany, depthBefore_iff]
    refine lt_of_le_of_ne hle fun heq => hid ?_
    simp only [depthKey, EmbeddingLike.apply_eq_iff_eq, Prod.mk.injEq] at heq
    exact heq.2

/-- The result only depends on which states are healthy. -/
theorem rank_eq_of_perm (w : Weights) (req : Request) (hids : (states.map (·.id)).Nodup)
    (hids' : (states'.map (·.id)).Nodup)
    (h : (states.filter (·.healthy)).Perm (states'.filter (·.healthy))) :
    rank w req states = rank w req states' := by
  have hbefore : Before w req states' = Before w req states := by
    funext a b
    simp only [Before, anyHit_congr h]
  have hsorted' := pairwise_rank w req hids'
  rw [hbefore] at hsorted'
  refine List.Perm.eq_of_pairwise ?_ (pairwise_rank w req hids) hsorted'
    ((perm_rank w req states).trans (h.trans (perm_rank w req states').symm))
  intro a b _ _ hab hba
  exact absurd hba (before_asymm hab)

/-! ## Who stands ahead -/

/-- In a strictly ordered list, one member stands ahead of another iff it is related to it. -/
theorem pair_sublist_iff {α : Type*} {r : α → α → Prop} (hasymm : ∀ {a b}, r a b → ¬ r b a)
    {l : List α} (hl : l.Pairwise r) {a b : α} :
    [a, b].Sublist l ↔ a ∈ l ∧ b ∈ l ∧ r a b := by
  constructor
  · intro hab
    have hpair := hl.sublist hab
    exact ⟨hab.subset (by simp), hab.subset (by simp), by simpa using hpair⟩
  · rintro ⟨ha, hb, hab⟩
    obtain ⟨front, back, rfl⟩ := List.append_of_mem ha
    have hback : b ∈ back := by
      rw [List.mem_append, List.mem_cons] at hb
      obtain hb | rfl | hb := hb
      · have hba := (List.pairwise_append.mp hl).2.2 b hb a (by simp)
        exact absurd hba (hasymm hab)
      · exact absurd hab (hasymm hab)
      · exact hb
    have htail : [a, b].Sublist (a :: back) := (List.singleton_sublist.mpr hback).cons_cons a
    exact htail.trans (List.sublist_append_right front _)

/-- **Who is ahead of whom** in a ranking depends on the two and on the mode. -/
theorem ahead_iff (hids : (states.map (·.id)).Nodup) {a b : BackendState} :
    [a, b].Sublist (rank w req states) ↔
      (a ∈ states ∧ a.healthy) ∧ (b ∈ states ∧ b.healthy) ∧ Before w req states a b := by
  rw [pair_sublist_iff before_asymm (pairwise_rank w req hids)]
  simp only [(perm_rank w req states).mem_iff, List.mem_filter]

/-! ## Rank is deterministic -/

/-- What `Rank` promises about a list of states: the healthy ones in a strict order, whatever
the order of the list and whichever unhealthy states stand in it. -/
structure Deterministic (w : Weights) (req : Request) (states : List BackendState) : Prop where
  /-- Each healthy state once, and no other. -/
  exactly : (rank w req states).Perm (states.filter (·.healthy)) ∧ (rank w req states).Nodup
  /-- By score and ID when some healthy state has a match. -/
  byScore : (∃ st ∈ states, st.healthy ∧ 0 < st.matchedBlocks) →
    (rank w req states).Pairwise fun a b =>
      score w req b < score w req a ∨ score w req a = score w req b ∧ a.id < b.id
  /-- By queue depth and ID otherwise. -/
  byDepth : ¬ (∃ st ∈ states, st.healthy ∧ 0 < st.matchedBlocks) →
    (rank w req states).Pairwise fun a b =>
      a.queueDepth < b.queueDepth ∨ a.queueDepth = b.queueDepth ∧ a.id < b.id
  permuted : ∀ states', states'.Perm states → rank w req states' = rank w req states
  /-- Lists that agree on the healthy states differ by unhealthy states only. -/
  unhealthy : ∀ states', (states'.map (·.id)).Nodup →
    states'.filter (·.healthy) = states.filter (·.healthy) →
    rank w req states' = rank w req states

/-- **Rank is a deterministic total order of the healthy backends.** -/
theorem rank_deterministic (w : Weights) (req : Request) (states : List BackendState)
    (hids : (states.map (·.id)).Nodup) : Deterministic w req states where
  exactly := by
    have hperm := perm_rank w req states
    exact ⟨hperm, hperm.nodup_iff.mpr (nodup_ids_healthy hids).of_map⟩
  byScore := by
    intro hany
    have hsorted := pairwise_rank w req hids
    refine hsorted.imp fun {a b} hab => ?_
    rwa [Before, if_pos (show AnyHit states from hany)] at hab
  byDepth := by
    intro hany
    have hsorted := pairwise_rank w req hids
    refine hsorted.imp fun {a b} hab => ?_
    rwa [Before, if_neg (show ¬ AnyHit states from hany)] at hab
  permuted := by
    intro states' hperm
    have hids' : (states'.map (·.id)).Nodup := (hperm.map _).nodup_iff.mpr hids
    exact rank_eq_of_perm w req hids' hids (hperm.filter _)
  unhealthy := by
    intro states' hids' hfilter
    exact rank_eq_of_perm w req hids' hids (hfilter ▸ List.Perm.refl _)

/-- Two healthy states and an unhealthy one with a match. -/
theorem rank_deterministic_sample :
    let states : List BackendState :=
      [⟨"b", 0, 1, 4, 0, 8, true⟩, ⟨"c", 3, 0, 4, 0, 8, false⟩, ⟨"a", 0, 1, 4, 0, 8, true⟩]
    (states.map (·.id)).Nodup ∧ Deterministic defaultWeights ⟨[], 4⟩ states :=
  ⟨by decide, rank_deterministic _ _ _ (by decide)⟩

/-! ## Improving a backend -/

/-- At least as many matched blocks, no larger depth, no larger directory, all else equal. -/
structure Improves (x x' : BackendState) : Prop where
  id : x'.id = x.id
  matchedBlocks : x.matchedBlocks ≤ x'.matchedBlocks
  queueDepth : x'.queueDepth ≤ x.queueDepth
  usedBlocks : x'.usedBlocks ≤ x.usedBlocks
  maxQueueDepth : x'.maxQueueDepth = x.maxQueueDepth
  totalCapacity : x'.totalCapacity = x.totalCapacity
  healthy : x'.healthy = x.healthy

/-- The list with the state of that ID replaced. -/
def replaceState (x' : BackendState) (states : List BackendState) : List BackendState :=
  states.map fun st => if st.id = x'.id then x' else st

/-- Replacing a state keeps the IDs. -/
theorem ids_replaceState (x' : BackendState) (states : List BackendState) :
    (replaceState x' states).map (·.id) = states.map (·.id) := by
  rw [replaceState, List.map_map]
  refine List.map_congr_left fun st _ => ?_
  by_cases h : st.id = x'.id
  · simp [h]
  · simp [h]

section
variable {x x' y : BackendState}

theorem mem_replaceState_self (hx : x ∈ states) (h : Improves x x') :
    x' ∈ replaceState x' states :=
  List.mem_map.mpr ⟨x, hx, if_pos h.id.symm⟩

theorem mem_replaceState_of_ne (hy : y ∈ states) (hne : y.id ≠ x'.id) :
    y ∈ replaceState x' states :=
  List.mem_map.mpr ⟨y, hy, if_neg hne⟩

/-- The divisor of the match ratio is positive. -/
theorem divisor_pos (hreq : 0 ≤ req.totalBlocks) : 0 < divisor req := by
  unfold divisor
  dsimp only
  have htotal : (0 : ℚ) ≤ req.totalBlocks := by exact_mod_cast hreq
  have hlen : (0 : ℚ) ≤ req.blockHashes.length := by positivity
  split_ifs with h h'
  · exact one_pos
  · exact lt_of_le_of_ne hlen (Ne.symm h')
  · exact lt_of_le_of_ne htotal (Ne.symm h)

/-- **An improved state does not score less.** -/
theorem score_mono (hc : 0 ≤ w.cacheHit) (hq : 0 ≤ w.queueDepth) (he : 0 ≤ w.evictionRisk)
    (hreq : 0 ≤ req.totalBlocks) (h : Improves x x') : score w req x ≤ score w req x' := by
  unfold score
  rw [h.healthy, h.maxQueueDepth, h.totalCapacity]
  split
  · exact le_refl _
  · rw [WithBot.coe_le_coe]
    have hdiv := divisor_pos hreq
    have hmatched : (x.matchedBlocks : ℚ) ≤ x'.matchedBlocks := by exact_mod_cast h.matchedBlocks
    have hdepth : (x'.queueDepth : ℚ) ≤ x.queueDepth := by exact_mod_cast h.queueDepth
    have hused : (x'.usedBlocks : ℚ) ≤ x.usedBlocks := by exact_mod_cast h.usedBlocks
    have hratio : (x.matchedBlocks : ℚ) / divisor req * w.cacheHit ≤
        x'.matchedBlocks / divisor req * w.cacheHit := by gcongr
    have hpressure : (if x.maxQueueDepth > 0 then (x'.queueDepth : ℚ) / x.maxQueueDepth else 0) ≤
        if x.maxQueueDepth > 0 then (x.queueDepth : ℚ) / x.maxQueueDepth else 0 := by
      split
      · next hmax =>
          have hmax' : (0 : ℚ) < x.maxQueueDepth := by exact_mod_cast hmax
          gcongr
      · exact le_refl _
    have hrisk : (if x.totalCapacity > 0 then
          1 - ((x.totalCapacity - x'.usedBlocks : ℤ) : ℚ) / x.totalCapacity else 0) ≤
        if x.totalCapacity > 0 then
          1 - ((x.totalCapacity - x.usedBlocks : ℤ) : ℚ) / x.totalCapacity else 0 := by
      split
      · next hcap =>
          have hcap' : (0 : ℚ) < x.totalCapacity := by exact_mod_cast hcap
          push_cast
          gcongr
      · exact le_refl _
    exact sub_le_sub (sub_le_sub hratio (mul_le_mul_of_nonneg_right hpressure hq))
      (mul_le_mul_of_nonneg_right hrisk he)

/-- A higher score stays ahead. -/
theorem scoreBefore_mono (hle : score w req x ≤ score w req x') (hid : x'.id = x.id)
    (h : ScoreBefore w req x y) : ScoreBefore w req x' y := by
  unfold ScoreBefore at *
  rw [hid]
  obtain hlt | ⟨heq, hxy⟩ := h
  · exact .inl (hlt.trans_le hle)
  · obtain hlt | heq' := hle.lt_or_eq
    · exact .inl (heq ▸ hlt)
    · exact .inr ⟨heq' ▸ heq, hxy⟩

/-- An improved state stays ahead by depth. -/
theorem depthBefore_mono (h : Improves x x') (hxy : DepthBefore x y) : DepthBefore x' y := by
  have hdepth := h.queueDepth
  unfold DepthBefore at *
  rw [h.id]
  grind

/-- A match in the list stays one when a state is improved. -/
theorem anyHit_replaceState (hids : (states.map (·.id)).Nodup) (hx : x ∈ states)
    (h : Improves x x') (hany : AnyHit states) : AnyHit (replaceState x' states) := by
  obtain ⟨st, hst, hhealthy, hmatched⟩ := hany
  by_cases hid : st.id = x'.id
  · have hstx : st = x := List.inj_on_of_nodup_map hids hst hx (hid.trans h.id)
    subst hstx
    exact ⟨x', mem_replaceState_self hst h, h.healthy ▸ hhealthy,
      lt_of_lt_of_le hmatched h.matchedBlocks⟩
  · exact ⟨st, mem_replaceState_of_ne hst hid, hhealthy, hmatched⟩

end

/-- **An improved state stays ahead** of every state it was ahead of, as long as the mode of the
ranking stays the same.  Where its match is the first one of the list, `Rank` turns from the
queue depths to the scores, and it is ahead of the states that score less. -/
theorem improved_stays_ahead (w : Weights) (hc : 0 ≤ w.cacheHit) (hq : 0 ≤ w.queueDepth)
    (he : 0 ≤ w.evictionRisk) (req : Request) (hreq : 0 ≤ req.totalBlocks)
    (states : List BackendState) (hhealthy : ∀ st ∈ states, st.healthy)
    (hids : (states.map (·.id)).Nodup) (x x' : BackendState) (hx : x ∈ states)
    (himproves : Improves x x') (y : BackendState) (hy : y ∈ states) (hne : y.id ≠ x.id) :
    (AnyHit states ∨ ¬ AnyHit (replaceState x' states) →
      [x, y].Sublist (rank w req states) →
      [x', y].Sublist (rank w req (replaceState x' states))) ∧
    (¬ AnyHit states ∧ AnyHit (replaceState x' states) →
      ([x', y].Sublist (rank w req (replaceState x' states)) ↔
        score w req y < score w req x' ∨ score w req x' = score w req y ∧ x'.id < y.id)) := by
  have hne' : y.id ≠ x'.id := himproves.id ▸ hne
  have hids' : ((replaceState x' states).map (·.id)).Nodup := by rwa [ids_replaceState]
  have hx' := mem_replaceState_self hx himproves
  have hy' := mem_replaceState_of_ne hy hne'
  have hxhealthy : x'.healthy := himproves.healthy ▸ hhealthy x hx
  have hafter : [x', y].Sublist (rank w req (replaceState x' states)) ↔
      Before w req (replaceState x' states) x' y := by
    rw [ahead_iff hids']
    exact ⟨fun h => h.2.2, fun h => ⟨⟨hx', hxhealthy⟩, ⟨hy', hhealthy y hy⟩, h⟩⟩
  rw [hafter, ahead_iff hids]
  constructor
  · rintro hmode ⟨-, -, hbefore⟩
    unfold Before at hbefore ⊢
    by_cases hany : AnyHit states
    · rw [if_pos hany] at hbefore
      rw [if_pos (anyHit_replaceState hids hx himproves hany)]
      exact scoreBefore_mono (score_mono hc hq he hreq himproves) himproves.id hbefore
    · rw [if_neg hany] at hbefore
      rw [if_neg (hmode.resolve_left hany)]
      exact depthBefore_mono himproves hbefore
  · rintro ⟨-, hany'⟩
    rw [Before, if_pos hany', ScoreBefore]

namespace Sample

def hundred : Request := ⟨[], 100⟩
def x : BackendState := ⟨"x", 0, 1, 1, 0, 8, true⟩
def y : BackendState := ⟨"y", 0, 2, 100, 0, 8, true⟩

/-- `x` with its first match. -/
def x' : BackendState := { x with matchedBlocks := 1 }

theorem improves : Improves x x' :=
  ⟨rfl, by decide, by decide, by decide, rfl, rfl, rfl⟩

end Sample

open Sample in
/-- The theorem at two backends without a match, of which one gets its first. -/
theorem improved_stays_ahead_sample :
    (AnyHit [x, y] ∨ ¬ AnyHit (replaceState x' [x, y]) →
      [x, y].Sublist (rank defaultWeights hundred [x, y]) →
      [x', y].Sublist (rank defaultWeights hundred (replaceState x' [x, y]))) ∧
    (¬ AnyHit [x, y] ∧ AnyHit (replaceState x' [x, y]) →
      ([x', y].Sublist (rank defaultWeights hundred (replaceState x' [x, y])) ↔
        score defaultWeights hundred y < score defaultWeights hundred x' ∨
          score defaultWeights hundred x' = score defaultWeights hundred y ∧ x'.id < y.id)) :=
  improved_stays_ahead defaultWeights (by simp [defaultWeights]) (by simp [defaultWeights])
    (by norm_num [defaultWeights]) hundred (by decide) [x, y] (by decide) (by decide) x x'
    (by decide) improves y (by decide) (by decide)

open Sample in
/-- The first match of the list moves `x` behind `y`: as long as nobody has a match, `x` is ahead
for its smaller depth, and by the scores `y` is, for its small depth relative to its limit.  A
negative number of blocks turns the ratio of matches around. -/
theorem improved_falls_behind :
    (Improves x x' ∧ [x, y].Sublist (rank defaultWeights hundred [x, y]) ∧
      ¬ [x', y].Sublist (rank defaultWeights hundred (replaceState x' [x, y]))) ∧
    (let a : BackendState := ⟨"a", 1, 0, 1, 0, 1, true⟩
     let a' : BackendState := { a with matchedBlocks := 2 }
     let b : BackendState := ⟨"b", 1, 0, 1, 0, 1, true⟩
     Improves a a' ∧ [a, b].Sublist (rank defaultWeights ⟨[], -1⟩ [a, b]) ∧
      ¬ [a', b].Sublist (rank defaultWeights ⟨[], -1⟩ (replaceState a' [a, b]))) := by
  refine ⟨⟨improves, ?_, ?_⟩, ⟨rfl, by decide, by decide, by decide, rfl, rfl, rfl⟩, ?_, ?_⟩
  · rw [ahead_iff (by decide)]
    refine ⟨by decide, by decide, ?_⟩
    rw [Before, if_neg (by decide)]
    exact .inl (by decide)
  · rw [ahead_iff (by decide)]
    rintro ⟨-, -, hbefore⟩
    rw [Before, if_pos (by decide), ScoreBefore] at hbefore
    norm_num [score, divisor, defaultWeights, hundred, x, x', y] at hbefore
  · rw [ahead_iff (by decide)]
    refine ⟨by decide, by decide, ?_⟩
    rw [Before, if_pos (by decide), ScoreBefore]
    exact .inr ⟨by norm_num [score, divisor, defaultWeights], by decide⟩
  · rw [ahead_iff (by decide)]
    rintro ⟨-, -, hbefore⟩
    rw [Before, if_pos (by decide), ScoreBefore] at hbefore
    norm_num [score, divisor, defaultWeights] at hbefore

end KvRouter.Scorer
