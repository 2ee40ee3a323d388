import KvRouter.Boot.Accepted
import KvRouter.Directory
import KvRouter.Operations.Scrape
import KvRouter.Operations.Slots

/-!
# KvRouter.Operations.Overview

What the answers of the operations API say of the router.  A handler reads one
value after the other while the router goes on, so no single state need agree
with an answer.  But every value in it is the one that the router had at the
moment at which this call loaded it (`Moment`), for every backend exactly once,
and the totals are bounded as those of a single state would be.
-/

namespace KvRouter

open CacheIndex Handler Interleave Latch Prog Telemetry

/-! ## What the handlers read -/

/-- The loads that a snapshot of `b` is made of. -/
structure Loaded (loads : List OpsEvent) (b : Backend) (snapshot : BackendSnapshot) : Prop where
  id : snapshot.id = b.id
  url : snapshot.url = b.url
  healthy : (⟨.inl (.loadHealthy b.id), snapshot.healthy⟩ : OpsEvent) ∈ loads
  inflight : (⟨.inl (.loadDepth b.id), snapshot.inflight⟩ : OpsEvent) ∈ loads
  ups : (⟨.inr (.healthyTransitions b.id), snapshot.healthyTransitions⟩ : OpsEvent) ∈ loads
  downs : (⟨.inr (.unhealthyTransitions b.id), snapshot.unhealthyTransitions⟩ : OpsEvent) ∈ loads

theorem Loaded.mono {loads loads' : List OpsEvent} {b : Backend} {snapshot : BackendSnapshot}
    (h : Loaded loads b snapshot) (hsub : loads ⊆ loads') : Loaded loads' b snapshot :=
  ⟨h.id, h.url, hsub h.healthy, hsub h.inflight, hsub h.ups, hsub h.downs⟩

/-- A snapshot is made of four loads. -/
theorem loaded_snapshot {b : Backend} {loads : List OpsEvent} {snapshot : BackendSnapshot}
    (h : Returns b.snapshot loads snapshot) : Loaded loads b snapshot := by
  obtain ⟨healthy, _, rfl, h₁⟩ := Returns.of_act h
  obtain ⟨inflight, _, rfl, h₂⟩ := Returns.of_act h₁
  obtain ⟨ups, _, rfl, h₃⟩ := Returns.of_act h₂
  obtain ⟨downs, _, rfl, h₄⟩ := Returns.of_act h₃
  obtain ⟨rfl, rfl⟩ := Returns.of_ret h₄
  constructor <;> simp

/-- Each of the snapshots is made of its loads. -/
theorem loaded_snapshotsOf {bs : List Backend} {loads : List OpsEvent}
    {snapshots : List BackendSnapshot} (h : Returns (snapshotsOf bs) loads snapshots) :
    List.Forall₂ (Loaded loads) bs snapshots := by
  induction bs generalizing loads snapshots with
  | nil =>
      obtain ⟨rfl, rfl⟩ := Returns.of_ret h
      exact .nil
  | cons b bs ih =>
      obtain ⟨snapshot, loads₁, loads₂, rfl, hfirst, hrest⟩ := Returns.of_bind h
      obtain ⟨snapshots, loads₃, loads₄, rfl, hsecond, hret⟩ := Returns.of_bind hrest
      obtain ⟨rfl, rfl⟩ := Returns.of_ret hret
      refine .cons ((loaded_snapshot hfirst).mono (by simp)) ?_
      exact (ih hsecond).imp fun _ _ hloaded => hloaded.mono (by simp)

/-- `Healthy` has read each backend, and returns those that it found healthy. -/
theorem loaded_healthyAmong {bs : List Backend} {loads : List Event} {found : List Backend}
    (h : Returns (healthyAmong bs) loads found) :
    (∀ b ∈ found, b ∈ bs ∧ (⟨.loadHealthy b.id, true⟩ : Event) ∈ loads) ∧
      ∀ b ∈ bs, b ∈ found ∨ (⟨.loadHealthy b.id, false⟩ : Event) ∈ loads := by
  induction bs generalizing loads found with
  | nil =>
      obtain ⟨rfl, rfl⟩ := Returns.of_ret h
      simp
  | cons b bs ih =>
      obtain ⟨healthy, _, rfl, hbody⟩ := Returns.of_act h
      obtain ⟨rest, loads₁, loads₂, rfl, hrest, hret⟩ :=
        Returns.of_bind (p := healthyAmong bs) hbody
      obtain ⟨rfl, rfl⟩ := Returns.of_ret hret
      obtain ⟨hread, hall⟩ := ih hrest
      cases hhealthy : (healthy : Bool) with
      | true => grind
      | false => grind

/-- `Healthy` has read each backend of the pool, and returns those that it found healthy. -/
theorem loaded_healthy {p : Pool} {o : GoMap.RangeOrder String Backend} {loads : List Event}
    {found : List Backend} (h : Returns (p.healthy o) loads found) :
    (∀ b ∈ found, p.get b.id = some b ∧ (⟨.loadHealthy b.id, true⟩ : Event) ∈ loads) ∧
      ∀ b, p.get b.id = some b → b ∈ found ∨ (⟨.loadHealthy b.id, false⟩ : Event) ∈ loads := by
  obtain ⟨among, loads, rest, rfl, hamong, hsorted⟩ := Returns.of_bind h
  obtain ⟨rfl, rfl⟩ := Returns.of_ret hsorted
  obtain ⟨hread, hall⟩ := loaded_healthyAmong hamong
  simp only [Sorting.mem_sliceStable, List.append_nil]
  exact ⟨fun b hb => ⟨Pool.mem_visit.mp (hread b hb).1, (hread b hb).2⟩,
    fun b hb => hall b (Pool.mem_visit.mpr hb)⟩

/-- `handleReady` has read a backend to be healthy, or each not to be. -/
theorem loaded_handleReady {p : Pool} {o : GoMap.RangeOrder String Backend} {loads : List OpsEvent}
    {r : Response} (h : Returns (handleReady p o) loads r) :
    (r.status = 200 ∧ ∃ b, p.get b.id = some b ∧
      (⟨.inl (.loadHealthy b.id), true⟩ : OpsEvent) ∈ loads) ∨
    (r.status = 503 ∧ ∀ b, p.get b.id = some b →
      (⟨.inl (.loadHealthy b.id), false⟩ : OpsEvent) ∈ loads) := by
  obtain ⟨found, loads, rest, rfl, hhealthy, hverdict⟩ := Returns.of_bind h
  obtain ⟨loads, rfl, hhealthy'⟩ := returns_of_inl hhealthy
  obtain ⟨hread, hall⟩ := loaded_healthy hhealthy'
  have hinl {b : Backend} {healthy : Bool} (hmem : (⟨.loadHealthy b.id, healthy⟩ : Event) ∈ loads) :
      (⟨.inl (.loadHealthy b.id), healthy⟩ : OpsEvent) ∈ loads.map inlEvent ++ rest :=
    List.mem_append_left _ (List.mem_map.mpr ⟨_, hmem, rfl⟩)
  split at hverdict
  · next hempty =>
      obtain ⟨rfl, rfl⟩ := Returns.of_ret hverdict
      refine .inr ⟨rfl, fun b hb => ?_⟩
      obtain hmem | hmem := hall b hb
      · simp [List.length_eq_zero_iff.mp hempty] at hmem
      · exact hinl hmem
  · next hne =>
      obtain ⟨rfl, rfl⟩ := Returns.of_ret hverdict
      obtain ⟨b, hmem⟩ := List.exists_mem_of_length_pos (Nat.pos_of_ne_zero hne)
      exact .inl ⟨rfl, b, (hread b hmem).1, hinl (hread b hmem).2⟩

/-! ## What they tell of a backend -/

section
variable {s : Server} {w : World} {checks : ChecksEnv} {requests : List Request}
  {endpoints : List Endpoint} {log : OpsLog} {c : Observed}

variable (s w checks requests log) in
/-- Every value in a snapshot of thread `i` is that of the moment at which the thread loaded it:
what the pings of the backend answered by then, or these but the last, made of its health, and the
number of requests that held a slot of it. -/
structure Shown (i : ℕ) (b : Backend) (snapshot : BackendSnapshot) : Prop where
  id : snapshot.id = b.id
  url : snapshot.url = b.url
  healthy : ∃ earlier c, Moment s w checks requests log i (.inl (.loadHealthy b.id))
      snapshot.healthy earlier c ∧
    Lagging (fun pings => snapshot.healthy = true ↔ HealthyBy pings)
      (answered b.id (earlier.map (·.event)))
  inflight : ∃ earlier c, Moment s w checks requests log i (.inl (.loadDepth b.id))
      snapshot.inflight earlier c ∧
    snapshot.inflight.toInt = owners c b.id ∧ snapshot.inflight ≤ b.maxConcurrent
  healthyTransitions : ∃ earlier c, Moment s w checks requests log i
      (.inr (.healthyTransitions b.id)) snapshot.healthyTransitions earlier c ∧
    Lagging (fun pings => snapshot.healthyTransitions = UInt64.ofNat (rises HealthyBy pings))
      (answered b.id (earlier.map (·.event)))
  unhealthyTransitions : ∃ earlier c, Moment s w checks requests log i
      (.inr (.unhealthyTransitions b.id)) snapshot.unhealthyTransitions earlier c ∧
    Lagging (fun pings => snapshot.unhealthyTransitions = UInt64.ofNat (falls HealthyBy pings))
      (answered b.id (earlier.map (·.event)))

/-- At every moment the atomics of a backend follow its pings. -/
theorem Moment.following (hw : ∀ id, w.cells id = .fresh) {i : ℕ} {a : OpsAct} {r : OpsResult a}
    {earlier : Log} {c₀ : System} (h : Moment s w checks requests log i a r earlier c₀)
    {b : Backend} (hb : s.pool.get b.id = some b) :
    Following (answered b.id (earlier.map (·.event))) (c₀.shared.cells b.id) := by
  obtain ⟨k, -, hanswered, hfollow⟩ := Router.following (hw b.id) hb h.steps
  rwa [hanswered]

/-- **A snapshot shows each value as it was** when it was loaded. -/
theorem Loaded.shown (hw : ∀ id, w.cells id = .fresh) {i : ℕ} {loads : List OpsEvent}
    (hloads : ∀ x ∈ loads, ∃ earlier c₀, Moment s w checks requests log i x.1 x.2 earlier c₀)
    {b : Backend} (hb : s.pool.get b.id = some b) {snapshot : BackendSnapshot}
    (h : Loaded loads b snapshot) : Shown s w checks requests log i b snapshot where
  id := h.id
  url := h.url
  healthy := by
    obtain ⟨earlier, c₀, hmoment⟩ := hloads _ h.healthy
    have hread : snapshot.healthy = (c₀.shared.cells b.id).healthy := hmoment.answer
    refine ⟨earlier, c₀, hmoment, ?_⟩
    rw [hread]
    exact (hmoment.following hw hb).healthy
  inflight := by
    obtain ⟨earlier, c₀, hmoment⟩ := hloads _ h.inflight
    have hread : snapshot.inflight = c₀.shared.depth b.id := hmoment.answer
    have hcounted := Router.counted hw hmoment.steps
    refine ⟨earlier, c₀, hmoment, ?_⟩
    rw [hread]
    exact ⟨hcounted.depth b.id, hcounted.limit b.id b hb⟩
  healthyTransitions := by
    obtain ⟨earlier, c₀, hmoment⟩ := hloads _ h.ups
    have hread : snapshot.healthyTransitions = (c₀.shared.cells b.id).healthyTransitions :=
      hmoment.answer
    refine ⟨earlier, c₀, hmoment, ?_⟩
    rw [hread]
    exact (hmoment.following hw hb).ups
  unhealthyTransitions := by
    obtain ⟨earlier, c₀, hmoment⟩ := hloads _ h.downs
    have hread : snapshot.unhealthyTransitions = (c₀.shared.cells b.id).unhealthyTransitions :=
      hmoment.answer
    refine ⟨earlier, c₀, hmoment, ?_⟩
    rw [hread]
    exact (hmoment.following hw hb).downs

theorem Pool.mem_all {p : Pool} {o : GoMap.RangeOrder String Backend} {b : Backend} :
    b ∈ p.all o ↔ p.get b.id = some b := by
  rw [Pool.all, Sorting.mem_sliceStable, Pool.mem_visit]

theorem Pool.nodup_ids_all (p : Pool) (o : GoMap.RangeOrder String Backend) :
    ((p.all o).map (·.id)).Nodup :=
  (((Sorting.perm_sliceStable _ _).map _).nodup_iff).mpr (p.nodup_ids_visit o)

/-- Each of the snapshots shows its backend. -/
theorem shown_snapshots (hw : ∀ id, w.cells id = .fresh) {i : ℕ} {loads : List OpsEvent}
    (hloads : ∀ x ∈ loads, ∃ earlier c₀, Moment s w checks requests log i x.1 x.2 earlier c₀)
    {order : GoMap.RangeOrder String Backend} {snapshots : List BackendSnapshot}
    (h : Returns (s.pool.snapshots order) loads snapshots) :
    List.Forall₂ (Shown s w checks requests log i) (s.pool.all order) snapshots := by
  refine List.forall₂_iff_zip.mpr ?_
  obtain ⟨hlength, hzip⟩ := List.forall₂_iff_zip.mp (loaded_snapshotsOf h)
  refine ⟨hlength, fun hmem => (hzip hmem).shown hw hloads ?_⟩
  exact Pool.mem_all.mp (List.of_mem_zip hmem).1

/-! ## Readiness -/

variable (s w checks requests log) in
/-- Thread `i` loaded that `b` was admitted or not, at a moment at which its pings, or these but the
last, had it so. -/
def AdmittedAt (i : ℕ) (b : Backend) (admitted : Bool) : Prop :=
  ∃ earlier c, Moment s w checks requests log i (.inl (.loadHealthy b.id)) admitted earlier c ∧
    Lagging (fun pings => HealthyBy pings ↔ admitted = true) (answered b.id (earlier.map (·.event)))

/-- A reading of the health is what the pings made of it, up to the last of them. -/
theorem Moment.admittedAt (hw : ∀ id, w.cells id = .fresh) {i : ℕ} {b : Backend}
    (hb : s.pool.get b.id = some b) {healthy : Bool} {earlier : Log} {c₀ : System}
    (h : Moment s w checks requests log i (.inl (.loadHealthy b.id)) healthy earlier c₀) :
    AdmittedAt s w checks requests log i b healthy := by
  have hread : healthy = (c₀.shared.cells b.id).healthy := h.answer
  refine ⟨earlier, c₀, h, ?_⟩
  rw [hread]
  exact (h.following hw hb).healthy.imp Iff.symm Iff.symm

/-- What `/readyz` answers with in thread `i`, and what it means. -/
structure ReadyShown (s : Server) (w : World) (checks : ChecksEnv) (requests : List Request)
    (log : OpsLog) (i : ℕ) (r : Response) : Prop where
  status : r.status = 200 ∨ r.status = 503
  /-- Some backend was admitted when the call looked at it. -/
  ready : r.status = 200 → ∃ b, s.pool.get b.id = some b ∧
    AdmittedAt s w checks requests log i b true
  /-- No backend was admitted when the call looked at it. -/
  notReady : r.status = 503 → ∀ b, s.pool.get b.id = some b →
    AdmittedAt s w checks requests log i b false

/-- **Readiness follows the health checks**, in every run with calls. -/
theorem readiness_follows_checks (hw : ∀ id, w.cells id = .fresh)
    (h : ObservedSteps (Router.observed s w checks requests endpoints) log c) {j : ℕ}
    {order : GoMap.RangeOrder String Backend} {r : Except Panic Response}
    (hr : Router.Answers s requests endpoints c j (.ready order) r) :
    ∃ response, r = .ok response ∧
      ReadyShown s w checks requests log (Router.size s requests + j) response := by
  obtain ⟨loads, hreturns, hloads⟩ := Router.answers h hr
  obtain ⟨response, loads₁, loads₂, rfl, hready, hret⟩ :=
    Returns.of_bind (p := handleReady s.pool order) hreturns
  obtain ⟨rfl, rfl⟩ := hret.of_ret
  rw [List.append_nil] at hloads
  refine ⟨response, rfl, ?_⟩
  obtain ⟨hstatus, b, hb, hmem⟩ | ⟨hstatus, hall⟩ := loaded_handleReady hready
  · refine ⟨.inl hstatus, fun _ => ⟨b, hb, ?_⟩, fun hother => by simp [hstatus] at hother⟩
    obtain ⟨earlier, c₀, hmoment⟩ := hloads _ hmem
    exact hmoment.admittedAt hw hb
  · refine ⟨.inr hstatus, fun hother => by simp [hstatus] at hother, fun _ b hb => ?_⟩
    obtain ⟨earlier, c₀, hmoment⟩ := hloads _ (hall b hb)
    exact hmoment.admittedAt hw hb

/-- A call that comes when the backend has been checked. -/
theorem readiness_follows_checks_admitted :
    let s := Sample.server Sample.pool
    let e := Endpoint.ready default
    ∃ log c response, ObservedSteps
        (Router.observed s .fresh (Sample.checks default) [] [e]) log c ∧
      Router.Answers s [] [e] c 0 e (.ok response) ∧ response.status = 200 ∧
      ReadyShown s .fresh (Sample.checks default) [] log (Router.size s [] + 0) response := by
  intro s e
  have hcall : e.prog s.pool = (((s.pool.healthy default).inl.bind _).bind _).bind _ := rfl
  have hhealthy : s.pool.healthy default = _ := Sample.healthy_pool default
  obtain ⟨log, c, hpath, hstatus⟩ : ∃ log c,
      ObservedSteps (Router.observed s .fresh (Sample.checks default) [] [e]) log c ∧
        (Router.response s [] c 0).map (·.status) = some 200 := by
    refine Path.exists_of_scheduled (List.replicate 8 0 ++ [1] ++ List.replicate 3 0)
      (fun x => (Router.response s [] x.2 0).map (·.status)) ?_
    rw [Router.observed, Sample.start_eq rfl]
    simp only [List.map_cons, List.map_nil]
    rw [hcall, hhealthy]
    decide +kernel
  obtain ⟨response, hresponse, hstatus⟩ := Option.map_eq_some_iff.mp hstatus
  have hanswers : Router.Answers s [] [e] c 0 e (.ok response) :=
    Router.answers_of_response rfl hresponse
  obtain ⟨response', heq, hshown⟩ := readiness_follows_checks (fun _ => rfl) hpath hanswers
  obtain rfl : response = response' := Except.ok.inj heq
  exact ⟨log, c, response, hpath, hanswers, hstatus, hshown⟩

/-! ## The overview -/

/-- A sum that wraps around, of numbers that are counts. -/
theorem foldl_inflight (snapshots : List BackendSnapshot)
    (hnonneg : ∀ x ∈ snapshots, 0 ≤ x.inflight.toInt) (n : ℕ) :
    snapshots.foldl (fun inflight b => inflight + b.inflight) (Int64.ofNat n) =
      Int64.ofNat (n + (snapshots.map fun x => x.inflight.toInt.toNat).sum) := by
  induction snapshots generalizing n with
  | nil => rfl
  | cons x snapshots ih =>
      rw [List.forall_mem_cons] at hnonneg
      have hx : x.inflight = Int64.ofNat x.inflight.toInt.toNat := by
        rw [← Int64.ofInt_eq_ofNat, Int.toNat_of_nonneg hnonneg.1, Int64.ofInt_toInt]
      rw [List.foldl_cons, hx, ← Int64.ofNat_add, ih hnonneg.2, List.map_cons, List.sum_cons,
        Nat.add_assoc]

/-- The snapshots come in the order of the backends. -/
theorem ids_of_shown {i : ℕ} {bs : List Backend} {snapshots : List BackendSnapshot}
    (h : List.Forall₂ (Shown s w checks requests log i) bs snapshots) :
    snapshots.map (·.id) = bs.map (·.id) := by
  induction h with
  | nil => rfl
  | cons hx _ ih => simp [hx.id, ih]

/-- The requests that the snapshots of one answer count. -/
def inflightOf (snapshots : List BackendSnapshot) : ℕ :=
  (snapshots.map fun x => x.inflight.toInt.toNat).sum

/-- They are never more than there are. -/
theorem inflightOf_le
    (h : ObservedSteps (Router.observed s w checks requests endpoints) log c) {i : ℕ}
    {order : GoMap.RangeOrder String Backend} {snapshots : List BackendSnapshot}
    (hshown : List.Forall₂ (Shown s w checks requests log i) (s.pool.all order) snapshots) :
    inflightOf snapshots ≤ requests.length ∧
      snapshots.foldl (fun inflight b => inflight + b.inflight) 0 =
        Int64.ofNat (inflightOf snapshots) := by
  have hall : ∀ x ∈ snapshots, ∃ b, Shown s w checks requests log i b x := fun x hx => by
    obtain ⟨n, hn, rfl⟩ := List.mem_iff_getElem.mp hx
    exact ⟨_, hshown.get (hshown.length_eq.symm ▸ hn) hn⟩
  have hids : (snapshots.map (·.id)).Nodup := by
    rw [ids_of_shown hshown]
    exact s.pool.nodup_ids_all order
  obtain ⟨log₀, c₀, observers, hsteps, -, hlog⟩ := Router.of_observed h
  constructor
  · refine Router.sum_owners_le hsteps hids (fun x => x.inflight.toInt.toNat) fun x hx => ?_
    obtain ⟨b, hx⟩ := hall x hx
    obtain ⟨earlier, c₁, hmoment, hcount, -⟩ := hx.inflight
    refine ⟨earlier, c₁, hmoment.steps, ?_, by rw [hcount, hx.id, Int.toNat_natCast]⟩
    have hprefix := hmoment.earlier_prefix
    rwa [hlog, List.prefix_map_iff_of_injective Entry.inl_injective] at hprefix
  · have hfold := foldl_inflight snapshots (fun x hx => by
      obtain ⟨b, hx⟩ := hall x hx
      obtain ⟨-, c₁, -, hcount, -⟩ := hx.inflight
      omega) 0
    simpa [inflightOf] using hfold

/-- The usage of a directory that is as configured: each backend once, within its capacity. -/
structure UsageShown (backends : List Config.BackendConfig) (usage : List Stats) : Prop where
  ids : (usage.map (·.backendID)).Perm (backends.map (·.id))
  within : ∀ x ∈ usage, ∃ cfg ∈ backends, cfg.id = x.backendID ∧
    x.capacity = cfg.cacheCapacityBlocks.toInt ∧ (x.used : ℤ) ≤ x.capacity

/-- The usage of a configured directory shows each backend within its capacity. -/
theorem Configured.usageShown {backends : List Config.BackendConfig} {i : Index}
    (h : Configured backends i) (hids : (backends.map (·.id)).Nodup)
    (order : GoMap.RangeOrder String BackendCache) : UsageShown backends (i.allUsage order) where
  ids := by
    have hmap : (i.allUsage order).map (·.backendID) = (order.visit i.backends).map Sigma.fst := by
      simp [Index.allUsage]
    rw [hmap, List.perm_ext_iff_of_nodup (order.nodup_keys_visit _) hids]
    intro id
    simp only [List.mem_map, Sigma.exists, order.mem_visit]
    constructor
    · rintro ⟨_, cache, hlookup, rfl⟩
      obtain ⟨cfg, hcfg, hid, -⟩ := h.only _ cache hlookup
      exact ⟨cfg, hcfg, hid⟩
    · rintro ⟨cfg, hcfg, rfl⟩
      obtain ⟨cache, hlookup⟩ := h.every cfg hcfg
      exact ⟨_, cache, hlookup, rfl⟩
  within x hx := by
    obtain ⟨⟨id, cache⟩, hvisit, rfl⟩ := List.mem_map.mp hx
    obtain ⟨cfg, hcfg, hid, hcapacity, hbounded⟩ := h.only id cache (order.mem_visit.mp hvisit)
    exact ⟨cfg, hcfg, hid, hcapacity, hbounded.within⟩

section
variable {parseURL : String → Option Config.URL} {sum64 : Bytes → UInt64}
  {unmarshal : Bytes → Except String ChatCompletionRequest} {cfg : Config}
  {hvalid : Config.Valid parseURL cfg}

/-- In every state of the router the directory is as configured. -/
theorem Router.configured (hboot : boot sum64 unmarshal cfg hvalid = .ok (s, w)) {log : Log}
    {c : System} (h : Steps (Router.start s w checks requests) log c) :
    Configured cfg.backends c.shared.cache := by
  have hfilled : ∀ x ∈ log, FilledCommit x.event.1 := h.performs fun t ht => by
    obtain ⟨i, hi⟩ := List.mem_iff_getElem?.mp ht
    obtain ⟨b, -, rfl⟩ | ⟨-, r, -, rfl⟩ := Router.start_thread hi
    · exact (onHealth_prog checks b).mono fun _ ha => filledCommit_of_quiet (quiet_of_onHealth ha)
    · exact uses_filledCommit s (.request r)
  exact (h.keeps (I := fun w => Configured cfg.backends w.cache) (configured_boot hboot)
    fun x hx hnow => hnow.sem (hfilled x hx)).2

/-- The pool lists the configured backends. -/
theorem perm_ids_all (hboot : boot sum64 unmarshal cfg hvalid = .ok (s, w))
    (order : GoMap.RangeOrder String Backend) :
    ((s.pool.all order).map (·.id)).Perm (cfg.backends.map (·.id)) := by
  rw [List.perm_ext_iff_of_nodup (s.pool.nodup_ids_all order) hvalid.ids]
  intro id
  simp only [List.mem_map, Pool.mem_all, get_boot hboot]
  constructor
  · rintro ⟨b, ⟨cfg, hcfg, hid, -⟩, rfl⟩
    exact ⟨cfg, hcfg, hid⟩
  · rintro ⟨cfg, hcfg, rfl⟩
    exact ⟨newBackend (poolConfig cfg), ⟨cfg, hcfg, rfl, rfl⟩, rfl⟩

/-- What an overview means that thread `i` answers with. -/
structure OverviewShown (cfg : Config) (s : Server) (w : World) (checks : ChecksEnv)
    (requests : List Request) (log : OpsLog) (i : ℕ) (usage : GoMap.RangeOrder String BackendCache)
    (o : Overview) : Prop where
  /-- Every configured backend is counted once, as it was when the call looked at it, and no request
  in flight is counted twice. -/
  backends : ∃ bs snapshots, (bs.map (·.id)).Perm (cfg.backends.map (·.id)) ∧
    (∀ b ∈ bs, s.pool.get b.id = some b) ∧
    List.Forall₂ (Shown s w checks requests log i) bs snapshots ∧
    o.total = cfg.backends.length ∧ o.healthy = snapshots.countP (·.healthy) ∧
    o.inflight = Int64.ofNat (inflightOf snapshots) ∧ inflightOf snapshots ≤ requests.length
  /-- The directory is shown as it was when the call read it. -/
  cache : ∃ earlier c, Moment s w checks requests log i (.inr (.allUsage usage)) o.cache earlier c ∧
    UsageShown cfg.backends o.cache
  /-- Each counter is shown as the number of requests that had added to it when the call loaded
  it. -/
  routing : ∀ k, ∃ earlier c, Moment s w checks requests log i (.inr (.counter k))
      (o.routing.counter k) earlier c ∧
    o.routing.counter k = UInt64.ofNat ((earlier.map (·.event)).countP (addsTo k)) ∧
    (earlier.map (·.event)).countP (addsTo k) ≤ requests.length

/-- **Overviews are sound**: in every run with calls, from the start of the process. -/
theorem overview_sound (hboot : boot sum64 unmarshal cfg hvalid = .ok (s, w))
    (h : ObservedSteps (Router.observed s w checks requests endpoints) log c) {j : ℕ}
    {order : GoMap.RangeOrder String Backend} {usage : GoMap.RangeOrder String BackendCache}
    {r : Except Panic Response}
    (hr : Router.Answers s requests endpoints c j (.overview order usage) r) :
    ∃ o, r = .ok (writeJSON (.overview o)) ∧
      OverviewShown cfg s w checks requests log (Router.size s requests + j) usage o := by
  have hw : (∀ id, w.cells id = .fresh) ∧ w.telemetry = .new 1000 := by
    obtain ⟨pool, -, -, rfl⟩ := boot_eq_ok_iff.mp hboot
    exact ⟨fun _ => rfl, rfl⟩
  have hids := perm_ids_all hboot order
  obtain ⟨loads, hreturns, hloads⟩ := Router.answers h hr
  obtain ⟨response, loads₁, loads₂, rfl, hoverview, hret⟩ :=
    Returns.of_bind (p := handleOverview s.pool order usage) hreturns
  obtain ⟨rfl, rfl⟩ := hret.of_ret
  rw [List.append_nil] at hloads
  obtain ⟨snapshots, loads₃, loads₄, rfl, hsnapshots, hrest⟩ := Returns.of_bind hoverview
  obtain ⟨cache, loads₅, rfl, hsummary⟩ := Returns.of_act hrest
  obtain ⟨routing, loads₆, loads₇, rfl, hrouting, hwritten⟩ :=
    Returns.of_bind (p := summaryOf) hsummary
  obtain ⟨rfl, rfl⟩ := Returns.of_ret hwritten
  have hshown := shown_snapshots hw.1 (fun x hx => hloads x (List.mem_append_left _ hx)) hsnapshots
  obtain ⟨hle, hinflight⟩ := inflightOf_le h hshown
  refine ⟨_, rfl, ⟨_, snapshots, hids, fun b hb => Pool.mem_all.mp hb, hshown, ?_, rfl, hinflight,
    hle⟩, ?_, fun k => ?_⟩
  · have hlength := hids.length_eq
    simp only [List.length_map] at hlength
    exact hshown.length_eq.symm.trans hlength
  · obtain ⟨earlier, c₀, hmoment⟩ := hloads ⟨.inr (.allUsage usage), cache⟩ (by simp)
    refine ⟨earlier, c₀, hmoment, ?_⟩
    obtain rfl : cache = c₀.shared.cache.allUsage usage := hmoment.answer
    exact (Router.configured hboot hmoment.steps).usageShown hvalid.ids usage
  · have hload := returns_summaryOf hrouting k
    obtain ⟨earlier, c₀, hmoment⟩ := hloads ⟨.inr (.counter k), routing.counter k⟩ (by simp [hload])
    have hread : routing.counter k = c₀.shared.telemetry.counter k := hmoment.answer
    refine ⟨earlier, c₀, hmoment, ?_, Router.additions_le hmoment.steps k⟩
    exact hread.trans ((Router.tallied hmoment.steps hw.2).counter k)

end

end

/-- An overview while a request is served: the backend is healthy and holds the slot of the request,
which has been counted. -/
theorem overview_sound_serving :
    let requests := [Sample.request default fun _ => default]
    let e := Endpoint.overview default default
    ∃ s w log c o, boot Sample.sum64 Sample.unmarshal Sample.config Sample.valid_config =
        .ok (s, w) ∧
      ObservedSteps (Router.observed s w (Sample.checks default) requests [e]) log c ∧
      Router.Answers s requests [e] c 0 e (.ok (writeJSON (.overview o))) ∧
      o.healthy = 1 ∧ o.inflight = 1 ∧ o.routing = ⟨1, 0, 0, 0⟩ ∧
      OverviewShown Sample.config s w (Sample.checks default) requests log
        (Router.size s requests + 0) default o := by
  intro requests e
  obtain ⟨log, c, o, hpath, hanswers, hhealthy, hinflight, hrouting⟩ := Sample.exists_overview
  obtain ⟨o', heq, hshown⟩ := overview_sound Sample.boot_server hpath hanswers
  cases heq
  exact ⟨_, _, log, c, o, Sample.boot_server, hpath, hanswers, hhealthy, hinflight, hrouting,
    hshown⟩

end KvRouter
