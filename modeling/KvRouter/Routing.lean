import KvRouter.Ranking
import Mathlib.Data.Int.ConditionallyCompleteOrder

/-!
# KvRouter.Routing

`Route` agrees with `Rank`.  Its two loops select the first healthy state of the
best key (`bestID_eq`), in the order of the list, where `Rank` breaks ties by ID;
on a list in ascending order of IDs, which is how `Healthy` returns the backends,
the two are the same.

`""` stands for no backend, and it is only told apart from a backend when no
backend has the empty ID.  Neither `Config.validate` nor `NewPool` admits one.
-/

namespace KvRouter.Scorer

variable {w : Weights} {req : Request} {states : List BackendState}

/-! ## The loops -/

/-- **The loop is a search** for the first healthy state of least key. -/
theorem bestID_eq {ι κ : Type} [LinearOrder κ] {better : ι → ι → Bool} (order : ι → κ)
    (hbetter : ∀ x y, better x y ↔ order x < order y) {key : BackendState → ι} {sentinel : ι}
    (hsentinel : ∀ st ∈ states, st.healthy → order (key st) < order sentinel) :
    bestID better key sentinel states =
      ((states.filter (·.healthy)).argmin fun st => order (key st)).elim "" (·.id) := by
  have hfilter (st : BackendState) (hst : st ∈ states.filter (·.healthy)) :
      order (key st) < order sentinel := by
    obtain ⟨hmem, hhealthy⟩ := List.mem_filter.mp hst
    exact hsentinel st hmem hhealthy
  have hbest := Sorting.foldl_best hbetter hfilter (·.id) ""
  have hloop : bestID better key sentinel states = ((states.filter (·.healthy)).foldl
      (fun best b => if better (key b) best.2 then (b.id, key b) else best) ("", sentinel)).1 := by
    rw [bestID, List.foldl_filter]
    congr 2
    funext best b
    cases b.healthy <;> rfl
  rw [hloop, hbest]
  cases (states.filter (·.healthy)).argmin fun st => order (key st) <;> rfl

/-- The fallback of `Route` is the first healthy state of least depth. -/
theorem leastLoaded_eq (hdepth : ∀ st ∈ states, st.healthy → st.queueDepth < maxInt) :
    leastLoaded states =
      ((states.filter (·.healthy)).argmin (·.queueDepth)).elim "" (·.id) :=
  bestID_eq id (fun _ _ => decide_eq_true_iff) hdepth

/-- A healthy state has a score. -/
theorem bot_lt_score {st : BackendState} (h : st.healthy) : ⊥ < score w req st := by
  simp only [score, h, Bool.not_true, Bool.false_eq_true, if_false]
  exact WithBot.bot_lt_coe _

/-- `Route` takes the best healthy state by score or by depth. -/
theorem route_eq (hdepth : ∀ st ∈ states, st.healthy → st.queueDepth < maxInt) :
    route w req states =
      if AnyHit states then ((states.filter (·.healthy)).argmax (score w req)).elim "" (·.id)
      else ((states.filter (·.healthy)).argmin (·.queueDepth)).elim "" (·.id) := by
  have hany : (states.any fun b => b.healthy && b.matchedBlocks > 0) = true ↔ AnyHit states := by
    simp [AnyHit]
  unfold route
  cases states with
  | nil => rfl
  | cons st states =>
      rw [if_neg (by simp)]
      by_cases hhit : AnyHit (st :: states)
      · rw [hany.mpr hhit, if_pos hhit]
        exact bestID_eq OrderDual.toDual (fun _ _ => decide_eq_true_iff)
          fun st _ hhealthy => OrderDual.toDual_lt_toDual.mpr (bot_lt_score hhealthy)
      · rw [Bool.eq_false_of_not_eq_true (mt hany.mp hhit), if_neg hhit]
        exact leastLoaded_eq hdepth

/-! ## The head of the ranking -/

/-- The first of least key and the head of a list sorted by key and ID. -/
theorem argmin_head {κ : Type} [LinearOrder κ] (key : BackendState → κ)
    {healthy rest : List BackendState} {first : BackendState}
    (hperm : (first :: rest).Perm healthy)
    (hsorted : (first :: rest).Pairwise fun a b =>
      key a < key b ∨ key a = key b ∧ a.id < b.id) :
    ∃ m, healthy.argmin key = some m ∧ key m = key first ∧
      (healthy.Pairwise (fun a b => a.id < b.id) → m = first) := by
  have hfirst : first ∈ healthy := hperm.mem_iff.mp List.mem_cons_self
  have hsome : healthy.argmin key ≠ none := fun hnone => by
    simp [List.argmin_eq_none.mp hnone] at hfirst
  obtain ⟨m, hm⟩ := Option.ne_none_iff_exists'.mp hsome
  obtain ⟨hmem, hleast, hearliest⟩ := List.mem_argmin_iff.mp hm
  have hrest (b : BackendState) (hb : b ∈ healthy) (hne : b ≠ first) :
      key first < key b ∨ key first = key b ∧ first.id < b.id := by
    have hb' := hperm.mem_iff.mpr hb
    rw [List.mem_cons] at hb'
    exact List.rel_of_pairwise_cons hsorted (hb'.resolve_left hne)
  by_cases heq : m = first
  · exact ⟨m, hm, by rw [heq], fun _ => heq⟩
  · have hle := hleast first hfirst
    obtain hlt | ⟨hkey, hid⟩ := hrest m hmem heq
    · exact absurd hle (not_le_of_gt hlt)
    · refine ⟨m, hm, hkey.symm, fun hascending => ?_⟩
      -- `m` stands before `first`, so in a list by ID it has the smaller one
      have hindex := hearliest first hfirst (le_of_eq hkey)
      have hm_lt := List.idxOf_lt_length_of_mem hmem
      have hfirst_lt := List.idxOf_lt_length_of_mem hfirst
      have hbefore : healthy.idxOf m < healthy.idxOf first :=
        lt_of_le_of_ne hindex fun hidx => heq ((List.idxOf_inj hmem).mp hidx)
      have hlt := List.pairwise_iff_getElem.mp hascending _ _ hm_lt hfirst_lt hbefore
      rw [List.getElem_idxOf, List.getElem_idxOf] at hlt
      exact absurd hid hlt.asymm

/-- The head of a sorted list is a minimum of its key, and the minimum where the IDs ascend. -/
theorem argmin_healthy {κ : Type} [LinearOrder κ] (key : BackendState → κ)
    {states rest : List BackendState} {first : BackendState}
    (hperm : (first :: rest).Perm (states.filter (·.healthy)))
    (hsorted : (first :: rest).Pairwise fun a b =>
      key a < key b ∨ key a = key b ∧ a.id < b.id) :
    ∃ m ∈ states, m.healthy ∧ (states.filter (·.healthy)).argmin key = some m ∧
      key m = key first ∧ (states.Pairwise (fun a b => a.id < b.id) → m = first) := by
  obtain ⟨m, hm, hkey, hfirst⟩ := argmin_head key hperm hsorted
  obtain ⟨hmem, hhealthy⟩ := List.mem_filter.mp (List.argmin_mem hm)
  exact ⟨m, hmem, hhealthy, hm, hkey, fun hascending => hfirst (hascending.filter _)⟩

/-! ## Route and Rank -/

/-- What `Route` returns, as the head of `Rank`. -/
structure Agrees (w : Weights) (req : Request) (states : List BackendState) : Prop where
  empty : rank w req states = [] → route w req states = ""
  /-- With non-empty IDs, `""` says that there is no backend. -/
  empty_iff : (∀ st ∈ states, st.healthy → st.id ≠ "") →
    (route w req states = "" ↔ rank w req states = [])
  /-- The state it selects is as good as the first in the order of the mode. -/
  best : ∀ first rest, rank w req states = first :: rest → ∃ st ∈ states, st.healthy ∧
    route w req states = st.id ∧
    ((∃ st ∈ states, st.healthy ∧ 0 < st.matchedBlocks) →
      score w req st = score w req first) ∧
    (¬ (∃ st ∈ states, st.healthy ∧ 0 < st.matchedBlocks) → st.queueDepth = first.queueDepth)
  /-- On a list by ID it is the first. -/
  ascending : states.Pairwise (fun a b => a.id < b.id) →
    ∀ first rest, rank w req states = first :: rest → route w req states = first.id

/-- The state that `Route` selects, where `Rank` has a first. -/
theorem exists_selected (hids : (states.map (·.id)).Nodup)
    (hdepth : ∀ st ∈ states, st.healthy → st.queueDepth < maxInt) {first : BackendState}
    {rest : List BackendState} (hrank : rank w req states = first :: rest) :
    ∃ st ∈ states, st.healthy ∧ route w req states = st.id ∧
      (AnyHit states → score w req st = score w req first) ∧
      (¬ AnyHit states → st.queueDepth = first.queueDepth) ∧
      (states.Pairwise (fun a b => a.id < b.id) → st = first) := by
  have hperm := perm_rank w req states
  have hsorted := pairwise_rank w req hids
  rw [hrank] at hperm hsorted
  by_cases hhit : AnyHit states
  · have hmode : Before w req states = ScoreBefore w req := by
      funext a b
      exact if_pos hhit
    rw [hmode] at hsorted
    obtain ⟨m, hmem, hhealthy, hm, hkey, hfirst⟩ :=
      argmin_healthy (fun st => OrderDual.toDual (score w req st)) hperm hsorted
    refine ⟨m, hmem, hhealthy, ?_, fun _ => hkey, fun h => absurd hhit h, hfirst⟩
    rw [route_eq hdepth, if_pos hhit]
    exact congrArg (Option.elim · "" (·.id)) hm
  · have hmode : Before w req states = DepthBefore := by
      funext a b
      exact if_neg hhit
    rw [hmode] at hsorted
    obtain ⟨m, hmem, hhealthy, hm, hkey, hfirst⟩ :=
      argmin_healthy (·.queueDepth) hperm hsorted
    refine ⟨m, hmem, hhealthy, ?_, fun h => absurd h hhit, fun _ => hkey, hfirst⟩
    rw [route_eq hdepth, if_neg hhit, hm, Option.elim_some]

/-- **Route agrees with Rank.** -/
theorem route_agrees (w : Weights) (req : Request) (states : List BackendState)
    (hids : (states.map (·.id)).Nodup)
    (hdepth : ∀ st ∈ states, st.healthy → st.queueDepth < maxInt) : Agrees w req states := by
  have hempty (hnil : rank w req states = []) : route w req states = "" := by
    have hperm := perm_rank w req states
    rw [hnil] at hperm
    rw [route_eq hdepth, hperm.nil_eq.symm]
    split <;> rfl
  refine ⟨hempty, fun hne => ⟨fun hroute => ?_, hempty⟩, fun first rest hrank => ?_,
    fun hascending first rest hrank => ?_⟩
  · cases hrank : rank w req states with
    | nil => rfl
    | cons first rest =>
        obtain ⟨st, hmem, hhealthy, hid, -⟩ := exists_selected hids hdepth hrank
        exact absurd (hid.symm.trans hroute) (hne st hmem hhealthy)
  · obtain ⟨st, hmem, hhealthy, hid, hscore, hleast, -⟩ := exists_selected hids hdepth hrank
    exact ⟨st, hmem, hhealthy, hid, hscore, hleast⟩
  · obtain ⟨st, -, -, hid, -, -, hfirst⟩ := exists_selected hids hdepth hrank
    rw [hid, hfirst hascending]

/-- Two backends of one score, and an unhealthy one with a match. -/
theorem route_agrees_sample : Agrees defaultWeights ⟨[], 4⟩
    [⟨"a", 1, 1, 4, 0, 8, true⟩, ⟨"b", 1, 1, 4, 0, 8, true⟩, ⟨"c", 3, 0, 4, 0, 8, false⟩] :=
  route_agrees _ _ _ (by decide) (by decide)

/-- A backend with the empty ID is ranked first, and `Route` returns the empty string for it. -/
theorem route_empty_id :
    let states : List BackendState := [⟨"", 0, 0, 1, 0, 1, true⟩]
    (states.map (·.id)).Nodup ∧ (∀ st ∈ states, st.queueDepth < maxInt) ∧
      route defaultWeights ⟨[], 1⟩ states = "" ∧ rank defaultWeights ⟨[], 1⟩ states ≠ [] := by
  refine ⟨by decide, by decide, rfl, ?_⟩
  rw [← List.length_pos_iff, (perm_rank _ _ _).length_eq]
  decide

end KvRouter.Scorer
