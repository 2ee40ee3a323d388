import KvRouter.CacheIndex.Lookup
import KvRouter.Directory
import KvRouter.Handler.Reads
import KvRouter.Reservation
import Mathlib.Algebra.Order.Field.Basic
import Mathlib.Tactic.Linarith
import Mathlib.Tactic.NormNum

/-!
# KvRouter.Normalised

Scores stay normalised.  Each of the three ratios of a score is bounded by an
invariant of another component: a lookup never exceeds the length of its query,
the queue depth never exceeds the limit it is divided by (`counted_run`), and a
cache never exceeds its capacity (`configured_run`).  Each reading is made in
some state of the run, so it does not matter that the readings of one state are
made at different moments.

* `handler_records` — the event a handler records carries the score of a state
  it has read;
* `scores_normalised` — every state that a request ranks, and every score that
  is recorded, is within the bounds.
-/

namespace KvRouter

open CacheIndex Config Handler Interleave Prog Telemetry
open Scorer (BackendState Weights divisor score rank)

/-! ## The ratios of a score -/

namespace Scorer

def cacheHitRatio (req : Request) (b : BackendState) : ℚ := b.matchedBlocks / divisor req

def queuePressure (b : BackendState) : ℚ :=
  if b.maxQueueDepth > 0 then (b.queueDepth : ℚ) / b.maxQueueDepth else 0

def evictionRisk (b : BackendState) : ℚ :=
  if b.totalCapacity > 0 then
    1 - ((b.totalCapacity - b.usedBlocks : ℤ) : ℚ) / b.totalCapacity
  else 0

/-- The score of a healthy backend weighs the three ratios. -/
theorem score_eq (w : Weights) (req : Request) {b : BackendState} (hb : b.healthy = true) :
    score w req b = ((cacheHitRatio req b * w.cacheHit - queuePressure b * w.queueDepth -
      evictionRisk b * w.evictionRisk : ℚ) : WithBot ℚ) := by
  rw [score, hb]
  rfl

/-- Every ratio of the state is within `[0, 1]`, and so is its score within its bounds. -/
structure Normal (w : Weights) (req : Request) (b : BackendState) : Prop where
  cacheHitRatio : 0 ≤ cacheHitRatio req b ∧ cacheHitRatio req b ≤ 1
  queuePressure : 0 ≤ queuePressure b ∧ queuePressure b ≤ 1
  evictionRisk : 0 ≤ evictionRisk b ∧ evictionRisk b ≤ 1
  score : ∃ x : ℚ, score w req b = x ∧ -(w.queueDepth + w.evictionRisk) ≤ x ∧ x ≤ w.cacheHit

/-- A part of a whole is a ratio within `[0, 1]`. -/
theorem div_mem_unit {x y : ℤ} (hx : 0 ≤ x) (hxy : x ≤ y) (hy : 0 < y) :
    0 ≤ (x : ℚ) / y ∧ (x : ℚ) / y ≤ 1 := by
  have hx' : (0 : ℚ) ≤ x := by exact_mod_cast hx
  have hxy' : (x : ℚ) ≤ y := by exact_mod_cast hxy
  have hy' : (0 : ℚ) < y := by exact_mod_cast hy
  exact ⟨div_nonneg hx' hy'.le, (div_le_one hy').mpr hxy'⟩

/-- A state whose readings are within their limits is normal under non-negative weights. -/
theorem normal_of_readings {w : Weights} {req : Request} {b : BackendState}
    (hc : 0 ≤ w.cacheHit) (hq : 0 ≤ w.queueDepth) (he : 0 ≤ w.evictionRisk)
    (hb : b.healthy = true) (htotal : 0 < req.totalBlocks)
    (hmatched : 0 ≤ b.matchedBlocks ∧ b.matchedBlocks ≤ req.totalBlocks)
    (hdepth : 0 ≤ b.queueDepth ∧ b.queueDepth ≤ b.maxQueueDepth)
    (hused : 0 ≤ b.usedBlocks ∧ b.usedBlocks ≤ b.totalCapacity) : Normal w req b := by
  have hhit : 0 ≤ cacheHitRatio req b ∧ cacheHitRatio req b ≤ 1 := by
    have hdiv : divisor req = req.totalBlocks := by
      have hne : (req.totalBlocks : ℚ) ≠ 0 := by exact_mod_cast htotal.ne'
      simp [divisor, hne]
    rw [cacheHitRatio, hdiv]
    exact div_mem_unit hmatched.1 hmatched.2 htotal
  have hpressure : 0 ≤ queuePressure b ∧ queuePressure b ≤ 1 := by
    unfold queuePressure
    split
    · next hmax => exact div_mem_unit hdepth.1 hdepth.2 hmax
    · norm_num
  have hrisk : 0 ≤ evictionRisk b ∧ evictionRisk b ≤ 1 := by
    unfold evictionRisk
    split
    · next hcap =>
        have hremaining := div_mem_unit (show 0 ≤ b.totalCapacity - b.usedBlocks by omega)
          (show b.totalCapacity - b.usedBlocks ≤ b.totalCapacity by omega) hcap
        exact ⟨sub_nonneg.mpr hremaining.2, sub_le_self 1 hremaining.1⟩
    · norm_num
  refine ⟨hhit, hpressure, hrisk, _, score_eq w req hb, ?_, ?_⟩
  · have h₁ := mul_nonneg hhit.1 hc
    have h₂ := mul_le_of_le_one_left hq hpressure.2
    have h₃ := mul_le_of_le_one_left he hrisk.2
    linarith
  · have h₁ := mul_le_of_le_one_left hc hhit.2
    have h₂ := mul_nonneg hpressure.1 hq
    have h₃ := mul_nonneg hrisk.1 he
    linarith

end Scorer

/-! ## What a handler records -/

/-- The event of a route carries the score of a state that the handler has read. -/
def ScoreRead (s : Server) (r : Request) (h : List Event) : Act → Prop
  | .writeRing event => ∃ c b st, prepare s r = .ok c ∧ s.pool.get b.id = some b ∧
      StateRead c b st h ∧ event.score = score s.weights c.routeReq st
  | _ => True

/-- The contract restricts only what is recorded. -/
theorem scoreRead_of_ne {s : Server} {r : Request} (h : List Event) {a : Act}
    (ha : ∀ event, a ≠ .writeRing event) : ScoreRead s r h a := by
  cases a with
  | writeRing event => exact absurd rfl (ha event)
  | _ => trivial

/-- **A handler records the score of a state it has read**, under every interleaving. -/
theorem handler_records (s : Server) (r : Request) :
    Obeys (ScoreRead s r) (fun _ _ => True) [] (handleChatCompletions s r) := by
  have hread (h : List Event) (a : Act) (ha : IsRead a) : ScoreRead s r h a := by
    refine scoreRead_of_ne h fun event heq => ?_
    subst heq
    exact ha
  refine obeys_of_snapshot hread (fun _ _ => trivial) (fun _ _ _ _ => trivial)
    fun c states h hc hsnap => ?_
  refine Obeys.bind ((reserveFirst_selects hread (fun _ _ _ _ => trivial) s.pool _).mono
    fun sel h' hsel => ?_)
  cases sel with
  | none => trivial
  | some x =>
      obtain ⟨b, state⟩ := x
      obtain ⟨hsub, hsel⟩ := hsel
      obtain ⟨hmem, -⟩ := hsel b state rfl
      have hstate : state ∈ states :=
        (List.mem_filter.mp ((Scorer.perm_rank _ _ _).mem_iff.mp hmem)).1
      obtain ⟨b', hget, -, hstateRead⟩ := hsnap.read state hstate
      have hdispatch : (dispatch r ⟨c, b, state,
          ((matchesByBackend states).lookup state.id).getD 0,
          score s.weights c.routeReq state⟩).Uses fun a =>
            ∀ event, a = .writeRing event → event.score = score s.weights c.routeReq state :=
        uses_dispatch (fun a _ hne event heq => absurd heq (hne event))
          (fun event heq => by simp [commitCacheObservation] at heq)
          fun status ttftMillis id event heq => by
            cases heq
            rfl
      refine Obeys.bind ((hdispatch.obeys (I := fun h'' => StateRead c b' state h'') ?_ ?_
        (hstateRead.mono hsub)).mono fun out h'' _ => ⟨trivial, fun _ => trivial⟩)
      · intro h'' a hh'' ha
        cases a with
        | writeRing event => exact ⟨c, b', state, hc, hstateRead.id_eq ▸ hget, hh'', ha event rfl⟩
        | _ => trivial
      · exact fun h'' a x hh'' _ => hh''.mono (List.subset_append_left _ _)

/-- A request keeps the contract of its handler. -/
theorem task_records (s : Server) (r : Request) :
    Obeys (ScoreRead s r) (fun _ _ => True) [] ((Task.request r).prog s) :=
  Obeys.bind ((handler_records s r).mono fun _ _ _ => trivial)

/-- A probe records nothing. -/
theorem probe_records_nothing (s : Server) (b : Backend) (ping : Bool) :
    ((Task.probe b ping).prog s).Uses fun a => ∀ event, a ≠ .writeRing event :=
  (uses_probe (fun _ _ ha => ha) b ping).bind fun _ => trivial

/-! ## Every interleaving -/

section
variable {parseURL : String → Option URL} {sum64 : Bytes → UInt64}
  {unmarshal : Bytes → Except String ChatCompletionRequest} {cfg : Config}
  {hvalid : Valid parseURL cfg} {s : Server} {w : World} {tasks : List Task} {log : Log}
  {c : System}

theorem cells_boot (hboot : boot sum64 unmarshal cfg hvalid = .ok (s, w)) (id : String) :
    w.cells id = .fresh := by
  obtain ⟨pool, -, -, rfl⟩ := boot_eq_ok_iff.mp hboot
  rfl

/-- A valid configuration has finite weights that are not negative. -/
theorem weights_nonneg (hboot : boot sum64 unmarshal cfg hvalid = .ok (s, w)) :
    0 ≤ s.weights.cacheHit ∧ 0 ≤ s.weights.queueDepth ∧ 0 ≤ s.weights.evictionRisk := by
  obtain ⟨pool, -, rfl, -⟩ := boot_eq_ok_iff.mp hboot
  exact ⟨hvalid.cacheHit.value_nonneg, hvalid.queueDepth.value_nonneg,
    hvalid.evictionRisk.value_nonneg⟩

/-- The usage of a cache is within its capacity. -/
theorem Configured.usage {backends : List Config.BackendConfig} {i : Index}
    (h : Configured backends i) (id : String) :
    ((i.usage id).used : ℤ) ≤ (i.usage id).capacity := by
  unfold Index.usage
  split
  · exact le_rfl
  · next b hb =>
      obtain ⟨cfg, -, -, -, hbound⟩ := h.only id b hb
      exact hbound.within

/-- **The readings of a state are normal**, although each is made in its own state of the run. -/
theorem StateRead.normal (hboot : boot sum64 unmarshal cfg hvalid = .ok (s, w))
    (h : Steps (System.start s w tasks) log c) {i : ℕ} {r : Request} {ch : Chat}
    (hch : prepare s r = .ok ch) {b : Backend} (hb : s.pool.get b.id = some b)
    {st : BackendState} (hread : StateRead ch b st (own i log)) :
    Scorer.Normal s.weights ch.routeReq st := by
  obtain ⟨m, u, v, hm, hu, hv, rfl⟩ := hread
  obtain ⟨x, hx, -, hlookup⟩ := mem_own.mp hm
  obtain ⟨y, hy, -, husage⟩ := mem_own.mp hu
  obtain ⟨z, hz, -, hdepth⟩ := mem_own.mp hv
  have hmatched : m = x.before.cache.lookup b.id ch.namespace ch.hashes := by
    have hsound := h.sound x hx
    rw [hlookup] at hsound
    exact hsound
  have hused : u = y.before.cache.usage b.id := by
    have hsound := h.sound y hy
    rw [husage] at hsound
    exact hsound
  have hloaded : v = z.before.depth b.id := by
    have hsound := h.sound z hz
    rw [hdepth] at hsound
    exact hsound
  obtain ⟨earlier, later, hlog⟩ := List.append_of_mem hz
  obtain ⟨threads, hpath⟩ := h.before hlog
  have hcounted := counted_run (cells_boot hboot) hpath
  have howners := hcounted.depth b.id
  have hlimit := Int64.le_iff_toInt_le.mp (hcounted.limit b.id b hb)
  have hconfigured := (configured_run hboot h).1 y hy
  have hlength := CacheIndex.lookup_le_length x.before.cache b.id ch.namespace ch.hashes
  have hblocks := List.length_pos_iff.mpr (hashes_ne_nil hch)
  obtain ⟨hc, hq, he⟩ := weights_nonneg hboot
  refine Scorer.normal_of_readings hc hq he rfl ?_ ?_ ?_ ?_
  · exact Int.natCast_pos.mpr hblocks
  · exact ⟨Int.natCast_nonneg m, Int.ofNat_le.mpr (hmatched ▸ hlength)⟩
  · subst hloaded
    exact ⟨howners ▸ Int.natCast_nonneg _, hlimit⟩
  · subst hused
    exact ⟨Int.natCast_nonneg _, hconfigured.usage b.id⟩

/-- The scores of a run stay within the bounds that the weights give. -/
structure Normalised (s : Server) (tasks : List Task) (log : Log) : Prop where
  /-- When a request has taken its snapshot, every state that it is about to rank is normal. -/
  ranked : ∀ i r, tasks[i]? = some (.request r) → ∀ ch, prepare s r = .ok ch →
    ∀ h₁ h₂ rest found states, own i log = h₁ ++ h₂ ++ rest →
      Returns (s.pool.healthy r.order) h₁ found → Returns (statesOf ch found) h₂ states →
        ∀ st ∈ states, Scorer.Normal s.weights ch.routeReq st
  recorded : ∀ x ∈ log, ∀ event, x.event.1 = .writeRing event → ∃ score : ℚ,
    event.score = score ∧ -(s.weights.queueDepth + s.weights.evictionRisk) ≤ score ∧
      score ≤ s.weights.cacheHit

/-- **Scores stay normalised**, for every configuration that passes validation, in every run of
any number of requests and probes from the start of the process. -/
theorem scores_normalised (hboot : boot sum64 unmarshal cfg hvalid = .ok (s, w))
    (h : Steps (System.start s w tasks) log c) : Normalised s tasks log where
  ranked i r _ ch hch h₁ h₂ rest found states hown hfound hstates := by
    have hread : ∀ (h : List Event) (a : Act), IsRead a → True := fun _ _ _ => trivial
    have hget := (healthy_reads hread s.pool r.order).returns hfound
    rw [List.nil_append] at hget
    obtain ⟨reads, hreads, -, hstate, -⟩ :=
      (statesOf_reads hread ch found (h := h₁)).returns hstates
    rw [List.append_cancel_left_eq] at hreads
    subst hreads
    have hsub : h₂ ⊆ own i log := by
      rw [hown]
      exact List.subset_append_of_subset_left _ (List.subset_append_right _ _)
    intro st hst
    obtain ⟨b, hb, hread⟩ := hstate st hst
    exact (hread.mono hsub).normal hboot h hch (hget.1 b hb).1
  recorded x hx event hevent := by
    obtain ⟨earlier, later, hlog⟩ := List.append_of_mem hx
    obtain ⟨t, ht⟩ : ∃ t, (System.start s w tasks).threads[x.who]? = some t :=
      ⟨_, List.getElem?_eq_getElem (h.who_lt x hx)⟩
    obtain ⟨task, -, rfl⟩ := System.start_thread ht
    cases task with
    | probe b ping =>
        have hnone : Obeys (fun _ a => ∀ event, a ≠ .writeRing event) (fun _ _ => True) []
            ((Task.probe b ping).prog s) :=
          (probe_records_nothing s b ping).obeys (I := fun _ => True) (fun _ _ _ ha => ha)
            (fun _ _ _ _ _ => trivial) trivial
        exact absurd hevent (h.permitted ht hnone hlog rfl event)
    | request r =>
        have hrecords := h.permitted ht (task_records s r) hlog rfl
        rw [hevent] at hrecords
        obtain ⟨ch, b, st, hch, hget, hread, hscore⟩ := hrecords
        have hsub : own x.who earlier ⊆ own x.who log := by
          rw [hlog, own_append]
          exact List.subset_append_left _ _
        obtain ⟨score, hnormal, hbounds⟩ := ((hread.mono hsub).normal hboot h hch hget).score
        exact ⟨score, hscore.trans hnormal, hbounds⟩

end

/-- Two requests are scored, the second with a match. -/
theorem scores_normalised_run :
    let tasks := Sample.tasks (Sample.request default fun _ => default)
    ∃ s w log c, boot Sample.sum64 Sample.unmarshal Sample.config Sample.valid_config =
        .ok (s, w) ∧
      Steps (System.start s w tasks) log c ∧ c.shared.telemetry.requests = 2 ∧
      c.shared.telemetry.cacheHits = 1 ∧ Normalised s tasks log := by
  intro tasks
  obtain ⟨log, c, hsteps, hrequests, hhits, -⟩ := Sample.exists_served_twice
  exact ⟨_, _, log, c, Sample.boot_server, hsteps, hrequests, hhits,
    scores_normalised Sample.boot_server hsteps⟩

end KvRouter
