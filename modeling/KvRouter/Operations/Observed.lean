import KvRouter.Boot
import KvRouter.Liveness
import KvRouter.Operations

/-!
# KvRouter.Operations.Observed

The router with its operations API: the health checks, any number of requests, and
any number of calls of the API, interleaved.  The calls only load, so the router
runs as it does without them (`operations_transparent`), and each value that a call
has loaded is the one that the router had at that `Moment` of its run.
-/

namespace KvRouter

open CacheIndex Handler Interleave Prog Telemetry

/-! ## The system -/

/-- How a thread ended: one of the router, or a call of the operations API. -/
abbrev Ended := Done ⊕ Except Panic Response

def Endpoint.prog (p : Pool) (e : Endpoint) : OpsProgram Ended :=
  (e.handler p).bind fun r => .ret (.inr r)

abbrev Observed := Interleave.Config World OpsAct OpsResult Ended

/-- The router and the calls before any thread has taken a step. -/
def Router.observed (s : Server) (w : World) (checks : ChecksEnv) (requests : List Request)
    (endpoints : List Endpoint) : Observed :=
  ⟨w, (Router.start s w checks requests).threads.map (Thread.inl .inl) ++
    endpoints.map fun e => .start (e.prog s.pool)⟩

/-- The number of threads of the router. -/
def Router.size (s : Server) (requests : List Request) : ℕ := s.pool.size + requests.length

abbrev ObservedSteps := Path opsSem (α := Ended)

abbrev OpsEvent := Event OpsResult

abbrev OpsLog := List (Entry World OpsAct OpsResult)

/-- The router has a thread for each goroutine and each request. -/
theorem Router.length_start (s : Server) (w : World) (checks : ChecksEnv)
    (requests : List Request) :
    (Router.start s w checks requests).threads.length = Router.size s requests := by
  simp [Router.start, Router.size, length_startHealthChecks]

/-! ## The calls only load, and end -/

/-- A load. -/
def Loads : OpsAct → Prop
  | .inl a => IsRead a
  | .inr _ => True

theorem Loads.sem {a : OpsAct} (ha : Loads a) (w : World) : (opsSem a w).2 = w := by
  cases a with
  | inl a => exact silent_of_idle (idle_of_read ha _)
  | inr a => cases a <;> rfl

theorem loads_healthyAmong (bs : List Backend) : Straight IsRead (healthyAmong bs) := by
  induction bs with
  | nil => trivial
  | cons b bs ih => exact ⟨trivial, fun _ => ih.bind fun _ => by trivial⟩

/-- The readiness check only loads. -/
theorem loads_handleReady (p : Pool) (order : GoMap.RangeOrder String Backend) :
    Straight Loads (handleReady p order) := by
  have hhealthy : Straight Loads ((p.healthy order).inl : OpsProgram (List Backend)) :=
    straight_inl ((loads_healthyAmong _).bind fun _ => by trivial) fun _ ha => ha
  refine hhealthy.bind fun found => ?_
  show Straight Loads (ite _ _ _)
  split <;> trivial

/-- The snapshots of the backends are loads. -/
theorem loads_snapshotsOf (bs : List Backend) : Straight Loads (snapshotsOf bs) := by
  induction bs with
  | nil => trivial
  | cons b bs ih =>
      have hsnapshot : Straight Loads b.snapshot :=
        ⟨trivial, fun _ => ⟨trivial, fun _ => ⟨trivial, fun _ => ⟨trivial, fun _ => trivial⟩⟩⟩⟩
      exact hsnapshot.bind fun _ => ih.bind fun _ => trivial

theorem loads_summaryOf : Straight Loads summaryOf :=
  ⟨trivial, fun _ => ⟨trivial, fun _ => ⟨trivial, fun _ => ⟨trivial, fun _ => trivial⟩⟩⟩⟩

theorem loads_handleRecentRoutes : Straight Loads handleRecentRoutes :=
  ⟨trivial, fun (events : Except Panic (List RouteEvent)) => by cases events <;> trivial⟩

/-- **Every handler only loads.** -/
theorem loads_handler (p : Pool) (e : Endpoint) : Straight Loads (e.handler p) := by
  cases e with
  | live => trivial
  | ready order => exact (loads_handleReady p order).bind fun _ => by trivial
  | metrics => exact Straight.bind (loads_summaryOf.bind fun _ => by trivial) fun _ => by trivial
  | overview order usage =>
      exact Straight.bind ((loads_snapshotsOf _).bind fun _ => ⟨trivial, fun _ =>
        loads_summaryOf.bind fun _ => by trivial⟩) fun _ => by trivial
  | backends order =>
      exact Straight.bind ((loads_snapshotsOf _).bind fun _ => by trivial) fun _ => by trivial
  | cache usage => exact ⟨trivial, fun _ => trivial⟩
  | recentRoutes => exact loads_handleRecentRoutes

/-! ## Calls are short -/

/-- `p` performs at most `n` loads, whatever they answer. -/
abbrev CostsLoads (n : ℕ) {α : Type} (Q : α → Prop) (p : OpsProgram α) : Prop :=
  Costs (fun _ => 0) n Q p

/-- A snapshot takes four loads of each backend. -/
theorem costs_snapshotsOf (bs : List Backend) :
    CostsLoads (4 * bs.length) (fun _ => True) (snapshotsOf bs) := by
  induction bs with
  | nil => exact costs_ret trivial
  | cons b bs ih =>
      have hsnapshot : CostsLoads 4 (fun _ => True) b.snapshot :=
        costs_act fun _ => costs_act fun _ => costs_act fun _ => costs_act fun _ =>
          costs_ret trivial
      rw [List.length_cons, Nat.mul_succ, Nat.add_comm]
      exact hsnapshot.bind fun _ _ => ih.bind (n := 0) fun _ _ => costs_ret trivial

theorem costs_summaryOf : CostsLoads 4 (fun _ => True) summaryOf :=
  costs_act fun _ => costs_act fun _ => costs_act fun _ => costs_act fun _ => costs_ret trivial

theorem Pool.length_all (p : Pool) (o : GoMap.RangeOrder String Backend) :
    (p.all o).length = p.size := by
  rw [Pool.all, (Sorting.perm_sliceStable _ _).length_eq, p.length_visit]

theorem costs_snapshots (p : Pool) (o : GoMap.RangeOrder String Backend) :
    CostsLoads (4 * p.size) (fun _ => True) (p.snapshots o) := by
  rw [← p.length_all o]
  exact costs_snapshotsOf _

theorem costs_healthyInl (bs : List Backend) :
    CostsLoads bs.length (fun _ => True) (healthyAmong bs).inl := by
  induction bs with
  | nil => exact costs_ret trivial
  | cons b bs ih =>
      refine costs_act fun healthy => ?_
      show CostsLoads _ _ ((healthyAmong bs).bind _).inl
      rw [inl_bind]
      exact ih.bind (n := 0) fun _ _ => costs_ret trivial

/-- The readiness check loads the health of each backend. -/
theorem costs_handleReady (p : Pool) (order : GoMap.RangeOrder String Backend) :
    CostsLoads p.size (fun _ => True) (handleReady p order) := by
  have hhealthy : CostsLoads p.size (fun _ => True) (p.healthy order).inl := by
    rw [← p.length_visit order, Pool.healthy, bind_eq, inl_bind]
    exact (costs_healthyInl _).bind (n := 0) fun _ _ => costs_ret trivial
  refine hhealthy.bind (n := 0) fun found _ => ?_
  show CostsLoads 0 (fun _ => True) (ite _ _ _)
  split <;> exact costs_ret trivial

/-- An overview takes four loads of each backend, and five more. -/
theorem costs_handleOverview (p : Pool) (order : GoMap.RangeOrder String Backend)
    (usage : GoMap.RangeOrder String BackendCache) :
    CostsLoads (4 * p.size + 5) (fun _ => True) (handleOverview p order usage) :=
  (costs_snapshots p order).bind fun _ _ => costs_act fun _ =>
    costs_summaryOf.bind (n := 0) fun _ _ => costs_ret trivial

/-- **What a call costs.** -/
theorem costs_handler (p : Pool) (e : Endpoint) :
    CostsLoads (4 * p.size + 5) (fun _ => True) (e.handler p) := by
  have hok {n : ℕ} (hn : n ≤ 4 * p.size + 5) {q : OpsProgram Response}
      (hq : CostsLoads n (fun _ => True) q) :
      CostsLoads (4 * p.size + 5) (fun _ => True)
        (q.bind fun r => .ret (.ok r : Except Panic Response)) := by
    refine Costs.mono (m := n) ?_ hn fun _ h => h
    exact hq.bind (n := 0) fun _ _ => costs_ret trivial
  cases e with
  | live => exact costs_return trivial
  | ready order => exact hok (by omega) (costs_handleReady p order)
  | metrics =>
      exact hok (n := 4) (by omega) (costs_summaryOf.bind (n := 0) fun _ _ => costs_ret trivial)
  | overview order usage => exact hok (Nat.le_refl _) (costs_handleOverview p order usage)
  | backends order =>
      exact hok (by omega) ((costs_snapshots p order).bind (n := 0) fun _ _ => costs_ret trivial)
  | cache usage => exact hok (n := 1) (by omega) (costs_act fun _ => costs_ret trivial)
  | recentRoutes =>
      have hrecent : CostsLoads 1 (fun _ => True) handleRecentRoutes :=
        costs_act fun (events : Except Panic (List RouteEvent)) => by
          cases events <;> exact costs_ret trivial
      exact hrecent.mono (by omega) fun _ _ => trivial

section
variable {s : Server} {w : World} {checks : ChecksEnv} {requests : List Request}
  {endpoints : List Endpoint} {log : OpsLog} {c : Observed}

/-- The thread of a call. -/
theorem Router.call_thread {j : ℕ} {e : Endpoint} (he : endpoints[j]? = some e) :
    (Router.observed s w checks requests endpoints).threads[Router.size s requests + j]? =
      some (.start (e.prog s.pool)) := by
  rw [Router.observed, List.getElem?_append_right (by simp [Router.length_start])]
  simp [Router.length_start, he]

/-- The threads after those of the router are the calls. -/
theorem Router.observed_thread {i : ℕ} (hi : Router.size s requests ≤ i)
    {t : Thread OpsAct OpsResult Ended}
    (ht : (Router.observed s w checks requests endpoints).threads[i]? = some t) :
    ∃ e, endpoints[i - Router.size s requests]? = some e ∧ t = .start (e.prog s.pool) := by
  rw [Router.observed, List.getElem?_append_right (by simpa [Router.length_start] using hi)] at ht
  simpa [Router.length_start, eq_comm] using ht

/-- A call leaves the shared state as it is. -/
theorem Router.silent (h : ObservedSteps (Router.observed s w checks requests endpoints) log c) :
    ∀ x ∈ log, Router.size s requests ≤ x.who → (opsSem x.event.1 x.before).2 = x.before := by
  have huses := h.uses (P := fun i a => Router.size s requests ≤ i → Loads a) fun i t ht => by
    by_cases hi : Router.size s requests ≤ i
    · obtain ⟨e, -, rfl⟩ := Router.observed_thread hi ht
      have hprog : (e.prog s.pool).Uses Loads :=
        ((loads_handler s.pool e).bind fun _ => by trivial).uses
      exact hprog.mono fun _ ha _ => ha
    · exact uses_of_forall (fun _ hle => absurd hle hi) t.prog
  exact fun x hx hwho => (huses x hx hwho).sem x.before

/-! ## Transparency -/

/-- What a run with calls is to the router and to the calls. -/
structure Transparent (s : Server) (w : World) (checks : ChecksEnv) (requests : List Request)
    (log : OpsLog) (c : Observed) : Prop where
  /-- The threads of the router have taken the steps of a run without the calls. -/
  router : ∃ log₀ c₀ observers, Steps (Router.start s w checks requests) log₀ c₀ ∧
    c = ⟨c₀.shared, c₀.threads.map (Thread.inl .inl) ++ observers⟩ ∧
    log.filter (·.who < Router.size s requests) = log₀.map Entry.inl
  /-- A call ends after four loads for each backend and five more, whatever the others do. -/
  calls : ∀ i, Router.size s requests ≤ i → (own i log).length ≤ 4 * s.pool.size + 5

/-- **A run with calls is one without them**, with the calls beside it. -/
theorem Router.of_observed
    (h : ObservedSteps (Router.observed s w checks requests endpoints) log c) :
    ∃ log₀ c₀ observers, Steps (Router.start s w checks requests) log₀ c₀ ∧
      c = ⟨c₀.shared, c₀.threads.map (Thread.inl .inl) ++ observers⟩ ∧
      log.filter (·.who < Router.size s requests) = log₀.map Entry.inl := by
  rw [← Router.length_start s w checks requests]
  refine Path.of_observed h fun x hx hwho => Router.silent h x hx ?_
  rwa [← Router.length_start s w checks requests]

/-- **The operations API is transparent**: in every run with calls of it, the router runs as it
does without them, to the same shared state. -/
theorem operations_transparent
    (h : ObservedSteps (Router.observed s w checks requests endpoints) log c) :
    Transparent s w checks requests log c where
  router := Router.of_observed h
  calls i hi := by
    by_cases hlt : i < (Router.observed s w checks requests endpoints).threads.length
    · obtain ⟨e, -, hthread⟩ := Router.observed_thread hi (List.getElem?_eq_getElem hlt)
      have ht := List.getElem?_eq_getElem hlt
      rw [hthread] at ht
      have hcosts := h.costs ht (n := 4 * s.pool.size + 5) (Q := fun _ => True)
        (Costs.bind (n := 0) (costs_handler s.pool e) fun _ _ => costs_ret trivial)
      simpa [credits] using hcosts
    · have hnil : own i log = [] := List.eq_nil_iff_forall_not_mem.mpr fun e he => by
        obtain ⟨x, hx, rfl, -⟩ := mem_own.mp he
        exact hlt (h.who_lt x hx)
      simp [hnil]

/-! ## Moments of the router -/

/-- The moment at which thread `i` performed `a` and got the answer `r`: by then the run of the
router was `earlier`, and had come to `c`. -/
structure Moment (s : Server) (w : World) (checks : ChecksEnv) (requests : List Request)
    (log : OpsLog) (i : ℕ) (a : OpsAct) (r : OpsResult a) (earlier : Log) (c : System) : Prop where
  steps : Steps (Router.start s w checks requests) earlier c
  entry : ∃ before after, log = before ++ ⟨i, c.shared, ⟨a, r⟩⟩ :: after ∧
    before.filter (·.who < Router.size s requests) = earlier.map Entry.inl
  answer : r = (opsSem a c.shared).1

/-- What the router had done by a moment is the first part of what it does. -/
theorem Moment.earlier_prefix {i : ℕ} {a : OpsAct} {r : OpsResult a} {earlier : Log} {c₀ : System}
    (h : Moment s w checks requests log i a r earlier c₀) :
    earlier.map Entry.inl <+: log.filter (·.who < Router.size s requests) := by
  obtain ⟨before, after, rfl, hearlier⟩ := h.entry
  rw [List.filter_append, hearlier]
  exact List.prefix_append _ _

/-- **Each action has its moment**: what a run has found is found in a state of the router. -/
theorem Router.moment (h : ObservedSteps (Router.observed s w checks requests endpoints) log c)
    {i : ℕ} {e : OpsEvent} (he : e ∈ own i log) :
    ∃ earlier c₀, Moment s w checks requests log i e.1 e.2 earlier c₀ := by
  obtain ⟨⟨_, before, e⟩, hx, rfl, rfl⟩ := mem_own.mp he
  have hsound := h.sound _ hx
  obtain ⟨front, back, hlog⟩ := List.append_of_mem hx
  obtain ⟨threads, hbefore⟩ := h.before hlog
  obtain ⟨log₀, c₀, observers, hsteps, hconfig, hfront⟩ := Router.of_observed hbefore
  obtain rfl : before = c₀.shared := congrArg Config.shared hconfig
  exact ⟨log₀, c₀, hsteps, ⟨front, back, hlog, hfront⟩, hsound⟩

/-- Call `j`, of `e`, has been answered with `r`. -/
def Router.Answers (s : Server) (requests : List Request) (endpoints : List Endpoint)
    (c : Observed) (j : ℕ) (e : Endpoint) (r : Except Panic Response) : Prop :=
  endpoints[j]? = some e ∧
    ∃ trace, c.threads[Router.size s requests + j]? = some ⟨trace, .ret (.inr r)⟩

/-- The answer to a call is made of the loads that it performed. -/
theorem Router.answers (h : ObservedSteps (Router.observed s w checks requests endpoints) log c)
    {j : ℕ} {e : Endpoint} {r : Except Panic Response}
    (hr : Router.Answers s requests endpoints c j e r) :
    ∃ loads, Returns (e.handler s.pool) loads r ∧ ∀ x ∈ loads, ∃ earlier c₀,
      Moment s w checks requests log (Router.size s requests + j) x.1 x.2 earlier c₀ := by
  obtain ⟨he, trace, ht⟩ := hr
  have hreturns := h.returns (Router.call_thread he) ht (.ret _)
  obtain ⟨r', loads, rest, hsplit, hhandler, hret⟩ := Returns.of_bind hreturns
  obtain ⟨rfl, heq⟩ := hret.of_ret
  obtain rfl : r = r' := Sum.inr.inj heq
  simp only [List.append_nil] at hsplit
  exact ⟨loads, hhandler, fun x hx => Router.moment h (hsplit ▸ hx)⟩

end

/-! ## A small router -/

/-- The response to call `j`. -/
def Router.response (s : Server) (requests : List Request) (c : Observed) (j : ℕ) :
    Option Response :=
  match c.result (Router.size s requests + j) with
  | some (.inr (.ok r)) => some r
  | _ => none

/-- A response that a call has returned is its answer. -/
theorem Router.answers_of_response {s : Server} {requests : List Request}
    {endpoints : List Endpoint} {c : Observed} {j : ℕ} {e : Endpoint} (he : endpoints[j]? = some e)
    {r : Response} (hr : Router.response s requests c j = some r) :
    Router.Answers s requests endpoints c j e (.ok r) := by
  unfold Router.response at hr
  split at hr
  · next response hresult =>
      cases hr
      exact ⟨he, Config.result_eq_some_iff.mp hresult⟩
  · contradiction

namespace Sample

/-- All backends of the sample pool. -/
theorem all_pool (order : GoMap.RangeOrder String Backend) : pool.all order = [backend] := by
  rw [Pool.all, visit_pool]
  rfl

/-- What is read of the answer to an overview. -/
def shownBy (r : Response) : Option (String × ℕ × ℕ × Int64 × Summary) :=
  match r.body with
  | .overview o => some (r.contentType, r.status, o.healthy, o.inflight, o.routing)
  | _ => none

/-- A response that shows these values is an overview with them. -/
theorem eq_writeJSON_of_shownBy {r : Response} {healthy : ℕ} {inflight : Int64} {routing : Summary}
    (h : shownBy r = some ("application/json", 200, healthy, inflight, routing)) :
    ∃ o, r = writeJSON (.overview o) ∧ o.healthy = healthy ∧ o.inflight = inflight ∧
      o.routing = routing := by
  obtain ⟨contentType, status, body⟩ := r
  cases body with
  | overview o =>
      simp only [shownBy, Option.some.injEq, Prod.mk.injEq] at h
      obtain ⟨rfl, rfl, hhealthy, hinflight, hrouting⟩ := h
      exact ⟨o, rfl, hhealthy, hinflight, hrouting⟩
  | _ => simp [shownBy] at h

/-- The backend is checked, a request takes its slot, and a call that has counted the slot goes on
when the request has counted itself. -/
theorem exists_overview :
    let s := server pool
    let requests := [request default fun _ => default]
    let e := Endpoint.overview default default
    ∃ log c o, ObservedSteps (Router.observed s booted (checks default) requests [e]) log c ∧
      Router.Answers s requests [e] c 0 e (.ok (writeJSON (.overview o))) ∧
      o.healthy = 1 ∧ o.inflight = 1 ∧ o.routing = ⟨1, 0, 0, 0⟩ := by
  intro s requests e
  have hcall : e.prog s.pool =
      (((snapshotsOf (s.pool.all default)).bind _).bind _).bind _ := rfl
  have hall : s.pool.all default = [backend] := all_pool default
  obtain ⟨log, c, hpath, hshown⟩ : ∃ log c,
      ObservedSteps (Router.observed s booted (checks default) requests [e]) log c ∧
        (Router.response s requests c 0).bind shownBy =
          some ("application/json", 200, 1, 1, ⟨1, 0, 0, 0⟩) := by
    refine Path.exists_of_scheduled (List.replicate 8 0 ++ List.replicate 8 1 ++
      [2, 2, 2, 2, 1, 1, 1, 2, 2, 2, 2, 2])
      (fun x => (Router.response s requests x.2 0).bind shownBy) ?_
    rw [Router.observed, start_eq rfl]
    simp only [requests, List.map_cons, List.map_nil]
    rw [prog_of_prepare rfl (prepare_request pool _ _), hcall, hall]
    decide +kernel
  obtain ⟨r, hr, hshown⟩ := Option.bind_eq_some_iff.mp hshown
  obtain ⟨o, rfl, ho⟩ := eq_writeJSON_of_shownBy hshown
  exact ⟨log, c, o, hpath, Router.answers_of_response rfl hr, ho⟩

end Sample

/-- An overview while a request is served. -/
theorem operations_transparent_overview :
    let s := Sample.server Sample.pool
    let requests := [Sample.request default fun _ => default]
    let e := Endpoint.overview default default
    ∃ log c o, ObservedSteps
        (Router.observed s Sample.booted (Sample.checks default) requests [e]) log c ∧
      Router.Answers s requests [e] c 0 e (.ok (writeJSON (.overview o))) ∧ o.inflight = 1 ∧
      Transparent s Sample.booted (Sample.checks default) requests log c := by
  intro s requests e
  obtain ⟨log, c, o, hpath, hanswers, -, hinflight, -⟩ := Sample.exists_overview
  exact ⟨log, c, o, hpath, hanswers, hinflight, operations_transparent hpath⟩

end KvRouter
