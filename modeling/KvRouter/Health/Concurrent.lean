import KvRouter.Admission
import KvRouter.Boot
import KvRouter.Eligibility
import KvRouter.Health.Checks
import KvRouter.System

/-!
# KvRouter.Health.Concurrent

The running router with its health checks: one goroutine for each backend of the
pool, as `StartHealthChecks` starts them, and any number of requests, interleaved.
The health of a backend is private to its goroutine, so under every interleaving
it follows that goroutine's pings; and a slot of a backend is only ever taken
after its pings admitted it.
-/

namespace KvRouter

open Handler Prog Interleave

/-! ## The system -/

/-- What `StartHealthChecks` meets: the order in which it ranges over the pool,
and the pings and ticks of each backend. -/
structure ChecksEnv where
  order : GoMap.RangeOrder String Backend
  env : String → HealthEnv

/-- The goroutine of `b`, as a thread of the system. -/
def ChecksEnv.prog (checks : ChecksEnv) (b : Backend) : Program Done := do
  healthCheck b (checks.env b.id)
  return .probed

/-- The goroutines of `StartHealthChecks`. -/
def Pool.startHealthChecks (p : Pool) (checks : ChecksEnv) : List (Program Done) :=
  (p.visit checks.order).map checks.prog

/-- The router before any thread has taken a step. -/
def Router.start (s : Server) (w : World) (checks : ChecksEnv) (requests : List Request) :
    System :=
  ⟨w, (s.pool.startHealthChecks checks ++ requests.map fun r => (Task.request r).prog s).map .start⟩

/-! ## The health of a backend -/

/-- The atomics of a backend that its probes work on. -/
def World.health (id : String) (w : World) : Cells := { w.cells id with queueDepth := 0 }

/-- An action on the health of backend `id`. -/
def OnHealth (id : String) : Act → Prop
  | .loadHealthy id' => id' = id
  | .casHealthy id' _ _ => id' = id
  | .storeFails id' _ => id' = id
  | .addFails id' _ => id' = id
  | .storeSuccesses id' _ => id' = id
  | .addSuccesses id' _ => id' = id
  | .addHealthyTransitions id' _ => id' = id
  | .addUnhealthyTransitions id' _ => id' = id
  | _ => False

/-- An action that changes no backend's health. -/
def KeepsHealth : Act → Prop
  | .casHealthy _ _ _ => False
  | .storeFails _ _ => False
  | .addFails _ _ => False
  | .storeSuccesses _ _ => False
  | .addSuccesses _ _ => False
  | .addHealthyTransitions _ _ => False
  | .addUnhealthyTransitions _ _ => False
  | _ => True

theorem health_updateCells_of_ne {id id' : String} (h : id' ≠ id) (w : World) (f : Cells → Cells) :
    (w.updateCells id' f).health id = w.health id := by
  simp [World.health, World.updateCells, h.symm]

/-- An action on the health atomics sees and changes only these. -/
theorem OnHealth.within {id : String} {a : Act} (ha : OnHealth id a) :
    Within Act.sem (World.health id) a := by
  intro w w' hview
  simp only [World.health, Cells.mk.injEq] at hview
  obtain ⟨hhealthy, -, hfails, hsuccesses, hups, hdowns⟩ := hview
  cases a with
  | loadHealthy | casHealthy | storeFails | addFails | storeSuccesses | addSuccesses
  | addHealthyTransitions | addUnhealthyTransitions =>
      obtain rfl := ha
      simp only [Act.sem, World.health, hhealthy]
      try split
      all_goals simp [hhealthy, hfails, hsuccesses, hups, hdowns]
  | _ => exact ha.elim

/-- An action on those of another backend is outside of them. -/
theorem OnHealth.outside {id id' : String} (hne : id' ≠ id) {a : Act} (ha : OnHealth id' a) :
    Outside Act.sem (World.health id) a := by
  intro w
  cases a with
  | loadHealthy => rfl
  | casHealthy =>
      obtain rfl := ha
      simp only [Act.sem]
      split <;> simp [health_updateCells_of_ne hne]
  | storeFails | addFails | storeSuccesses | addSuccesses | addHealthyTransitions
  | addUnhealthyTransitions =>
      obtain rfl := ha
      simp [Act.sem, health_updateCells_of_ne hne]
  | _ => exact ha.elim

/-- An update of the depth keeps the health atomics. -/
theorem health_updateCells_depth (id id' : String) (w : World) (n : Cells → Int64) :
    (w.updateCells id' fun c => { c with queueDepth := n c }).health id = w.health id := by
  by_cases h : id = id'
  · subst h
    simp [World.health]
  · exact health_updateCells_of_ne (Ne.symm h) w _

/-- An action that keeps the health atomics is outside of them. -/
theorem KeepsHealth.outside {id : String} {a : Act} (ha : KeepsHealth a) :
    Outside Act.sem (World.health id) a := by
  intro w
  cases a with
  | casDepth id' old new =>
      simp only [Act.sem]
      split
      · exact health_updateCells_depth id id' w fun _ => new
      · rfl
  | addDepth id' delta => exact health_updateCells_depth id id' w fun c => c.queueDepth + delta
  | casHealthy | storeFails | addFails | storeSuccesses | addSuccesses | addHealthyTransitions
  | addUnhealthyTransitions => exact ha.elim
  | _ => rfl

/-! ## The actions of the threads -/

/-- A probe acts on the health atomics of its backend. -/
theorem onHealth_probe (b : Backend) (ping : Bool) : (probe b ping).Uses (OnHealth b.id) := by
  unfold probe
  cases ping with
  | false => exact ⟨rfl, fun _ => ⟨rfl, fun _ => uses_flip (by exact rfl) (by exact rfl) _⟩⟩
  | true => exact ⟨rfl, fun _ => ⟨rfl, fun _ => uses_flip (by exact rfl) (by exact rfl) _⟩⟩

/-- So does the ticker loop. -/
theorem onHealth_tickerLoop (b : Backend) (env : HealthEnv) (n i : ℕ) :
    (tickerLoop b env n i).Uses (OnHealth b.id) := by
  induction n generalizing i with
  | zero => trivial
  | succ n ih => exact (onHealth_probe b _).bind fun _ => ih (i + 1)

/-- So does the bootstrap burst. -/
theorem onHealth_bootstrap (b : Backend) (env : HealthEnv) (n i : ℕ) :
    (bootstrap b env n i).Uses (OnHealth b.id) := by
  induction n generalizing i with
  | zero => trivial
  | succ n ih =>
      exact ⟨rfl, fun healthy => uses_ite (fun _ => trivial)
        fun _ => (onHealth_probe b _).bind fun _ => ih (i + 1)⟩

/-- A goroutine of the health checks works on the health of its own backend only. -/
theorem onHealth_healthCheck (b : Backend) (env : HealthEnv) :
    (healthCheck b env).Uses (OnHealth b.id) :=
  (onHealth_bootstrap b env _ _).bind fun i => onHealth_tickerLoop b env _ i

/-- **A goroutine acts on the health atomics of its backend** and on nothing else. -/
theorem onHealth_prog (checks : ChecksEnv) (b : Backend) :
    (checks.prog b).Uses (OnHealth b.id) :=
  (onHealth_healthCheck b _).bind fun _ => trivial

theorem keepsHealth_of_read {a : Act} (ha : IsRead a) : KeepsHealth a := by
  cases a with
  | loadHealthy | loadDepth | lookup | usage => trivial
  | _ => exact ha.elim

theorem keepsHealth_recordRoute (r : Request) (d : Dispatch) (status : ℕ) (ttftMillis : ℤ) :
    (recordRoute r d status ttftMillis).Uses KeepsHealth :=
  ⟨trivial, fun _ => ⟨trivial, fun _ => (uses_actIf fun _ => trivial).bind fun _ =>
    (uses_actIf fun _ => trivial).bind fun _ => (uses_actIf fun _ => trivial).bind fun _ =>
      ⟨trivial, fun _ => trivial⟩⟩⟩

/-- A dispatch keeps the health atomics. -/
theorem keepsHealth_dispatch (r : Request) (d : Dispatch) : (dispatch r d).Uses KeepsHealth := by
  have hobserve (c : Prop) [Decidable c] : (actIf c (commitCacheObservation r d)).Uses
      KeepsHealth := uses_actIf fun _ => trivial
  unfold dispatch dispatchStream dispatchPlain
  split
  · split
    · trivial
    · next ttft err w _ =>
        refine (hobserve _).bind fun _ => ?_
        cases err with
        | none => exact (keepsHealth_recordRoute r d _ _).bind fun _ => trivial
        | some e => exact (keepsHealth_recordRoute r d _ _).bind fun _ => trivial
  · split
    · exact (keepsHealth_recordRoute r d _ _).bind fun _ => trivial
    · split
      · trivial
      · exact (hobserve _).bind fun _ => (keepsHealth_recordRoute r d _ _).bind fun _ => trivial

/-- A request changes no backend's health. -/
theorem keepsHealth_handler (s : Server) (r : Request) :
    (handleChatCompletions s r).Uses KeepsHealth := by
  unfold handleChatCompletions
  split
  · trivial
  · next c _ =>
      refine (uses_healthy (fun _ => keepsHealth_of_read) s.pool r.order).bind fun found => ?_
      refine uses_ite (fun _ => trivial) fun _ => ?_
      refine (uses_statesOf (fun _ => keepsHealth_of_read) c found).bind fun states => ?_
      refine (uses_reserveFirst (fun _ => keepsHealth_of_read) (fun _ _ _ => trivial) s.pool
        _).bind fun sel => ?_
      cases sel with
      | none => trivial
      | some x => exact (keepsHealth_dispatch r _).bind fun _ => ⟨trivial, fun _ => trivial⟩

/-! ## The threads -/

section
variable {s : Server} {w : World} {checks : ChecksEnv} {requests : List Request} {log : Log}
  {c : System} {b : Backend}

/-- A range over the pool comes to each ID once. -/
theorem visit_unique {p : Pool} {o : GoMap.RangeOrder String Backend} {i j : ℕ} {b b' : Backend}
    (hi : (p.visit o)[i]? = some b) (hj : (p.visit o)[j]? = some b') (hid : b.id = b'.id) :
    i = j := by
  have hlt : i < ((p.visit o).map (·.id)).length := by
    simpa using (List.getElem?_eq_some_iff.mp hi).1
  refine (List.getElem?_inj hlt (p.nodup_ids_visit o)).mp ?_
  simp [hi, hj, hid]

/-- A thread is the goroutine of a backend, or a request. -/
theorem Router.start_thread {i : ℕ} {t : Thread Act Act.Result Done}
    (ht : (Router.start s w checks requests).threads[i]? = some t) :
    (∃ b, (s.pool.visit checks.order)[i]? = some b ∧
      t = Thread.start (checks.prog b)) ∨
    (s.pool.visit checks.order)[i]? = none ∧
      ∃ r ∈ requests, t = Thread.start ((Task.request r).prog s) := by
  rw [Router.start, Pool.startHealthChecks, List.getElem?_map, List.getElem?_append] at ht
  split at ht
  · left
    simpa [eq_comm] using ht
  · next hi =>
      obtain ⟨_, hr, rfl⟩ := Option.map_eq_some_iff.mp ht
      obtain ⟨r, hmem, rfl⟩ := List.mem_map.mp (List.mem_of_getElem? hr)
      exact Or.inr ⟨by simpa using hi, r, hmem, rfl⟩

variable (w checks requests) in
/-- The goroutine of a backend of the pool. -/
theorem Router.exists_goroutine (hb : s.pool.get b.id = some b) :
    ∃ i : ℕ, (s.pool.visit checks.order)[i]? = some b ∧
      (Router.start s w checks requests).threads[i]? = some (Thread.start (checks.prog b)) := by
  have hmem : b ∈ s.pool.visit checks.order := Pool.mem_visit.mpr hb
  obtain ⟨i, hi⟩ := List.mem_iff_getElem?.mp hmem
  refine ⟨i, hi, ?_⟩
  rw [Router.start, Pool.startHealthChecks, List.getElem?_map, List.getElem?_append_left]
  · simp [hi]
  · simpa using (List.getElem?_eq_some_iff.mp hi).1

/-- The goroutine that checks a backend is the only thread that works on its health. -/
theorem Router.uses (h : Steps (Router.start s w checks requests) log c) {i : ℕ}
    (hi : (s.pool.visit checks.order)[i]? = some b) :
    ∀ x ∈ log, (x.who = i → OnHealth b.id x.event.1) ∧
      (x.who ≠ i → Outside Act.sem (World.health b.id) x.event.1 ∧
        ∀ r, outcomeOf b.id ⟨x.event.1, r⟩ = none) := by
  refine h.uses (P := fun j a => (j = i → OnHealth b.id a) ∧ (j ≠ i →
    Outside Act.sem (World.health b.id) a ∧ ∀ r, outcomeOf b.id ⟨a, r⟩ = none)) fun j t ht => ?_
  obtain ⟨b', hb', rfl⟩ | ⟨hnone, r, -, rfl⟩ := Router.start_thread ht
  · refine (onHealth_prog checks b').mono fun a ha => ⟨?_, ?_⟩
    · rintro rfl
      rw [hi, Option.some.injEq] at hb'
      exact hb' ▸ ha
    · intro hne
      have hid : b'.id ≠ b.id := mt (visit_unique hb' hi) hne
      refine ⟨ha.outside hid, fun r => ?_⟩
      cases a with
      | storeSuccesses id n | storeFails id n =>
          obtain rfl := ha
          simp [outcomeOf, hid]
      | _ => rfl
  · refine Uses.mono ((keepsHealth_handler s r).bind fun _ => trivial) fun a ha => ⟨?_, ?_⟩
    · rintro rfl
      simp [hi] at hnone
    · refine fun _ => ⟨ha.outside, fun r => ?_⟩
      cases a with
      | storeSuccesses | storeFails => exact ha.elim
      | _ => rfl

/-- The outcomes of the pings of a backend are in the trace of its goroutine. -/
theorem Router.answered_own (h : Steps (Router.start s w checks requests) log c) {i : ℕ}
    (hi : (s.pool.visit checks.order)[i]? = some b) :
    answered b.id (log.map (·.event)) = answered b.id (own i log) := by
  have hall := Router.uses h hi
  clear h
  induction log with
  | nil => rfl
  | cons x log ih =>
      obtain ⟨hx, hlog⟩ := List.forall_mem_cons.mp hall
      rw [List.map_cons, ← List.singleton_append, answered_append, ih hlog]
      by_cases hwho : x.who = i
      · simp [own, hwho, answered, List.filterMap_cons]
        cases outcomeOf b.id x.event <;> simp
      · simp [own, hwho, answered, (hx.2 hwho).2]

end

/-! ## Every interleaving -/

/-- The health of `b` in a reachable state, by the pings of its goroutine. -/
structure ChecksFollowed (s : Server) (checks : ChecksEnv) (b : Backend) (log : Log) (c : System) :
    Prop where
  /-- At every point the atomics follow the pings answered so far: each is up to date, or the last
  ping is not yet in it. -/
  following : ∃ k ≤ 2 + (checks.env b.id).ticks,
    answered b.id (log.map (·.event)) = (checks.env b.id).pings k ∧
      Following ((checks.env b.id).pings k) (c.shared.cells b.id)
  /-- When the goroutine has ended, it has pinged twice and then once for each tick. -/
  settled : ∀ (i : ℕ) (t : Thread Act Act.Result Done), (s.pool.visit checks.order)[i]? = some b →
    c.threads[i]? = some t → t.prog = .ret .probed →
      answered b.id (log.map (·.event)) = (checks.env b.id).pings (2 + (checks.env b.id).ticks) ∧
      Hysteresis ((checks.env b.id).pings (2 + (checks.env b.id).ticks)) (c.shared.cells b.id)

/-- Atomics that are coupled to the pings show their hysteresis. -/
theorem Coupled.hysteresis {pings : List Bool} {c : Cells} (h : Coupled pings c) :
    Hysteresis pings c where
  healthy := h.healthy
  healthyTransitions := by rw [h.ups, UInt64.toNat_ofNat']
  unhealthyTransitions := by rw [h.downs, UInt64.toNat_ofNat']
  difference := by
    rw [h.ups, h.downs, Latch.rises_eq_falls_add HealthyBy not_healthyBy_nil, UInt64.ofNat_add,
      UInt64.add_comm, UInt64.add_sub_cancel]
    split <;> rfl

/-- `Following` and `Coupled` are about the health of a backend alone. -/
theorem following_health {pings : List Bool} {w : World} {id : String} :
    Following pings (w.health id) ↔ Following pings (w.cells id) :=
  ⟨fun h => ⟨h.1, h.2, h.3, h.4, h.5⟩, fun h => ⟨h.1, h.2, h.3, h.4, h.5⟩⟩

theorem coupled_health {pings : List Bool} {w : World} {id : String} :
    Coupled pings (w.health id) ↔ Coupled pings (w.cells id) :=
  ⟨fun h => ⟨h.1, h.2, h.3, h.4, h.5, h.6, h.7⟩, fun h => ⟨h.1, h.2, h.3, h.4, h.5, h.6, h.7⟩⟩

section
variable {s : Server} {w : World} {checks : ChecksEnv} {requests : List Request} {log : Log}
  {c : System} {b : Backend}

variable (checks) in
/-- The goroutine of a fresh backend, as it runs alone. -/
theorem Router.runs_prog (hw : w.cells b.id = .fresh) :
    ∃ h w', Runs Act.sem (checks.prog b) w h Done.probed w' ∧
      Applied (checks.env b.id) b 0 (2 + (checks.env b.id).ticks) h w' := by
  obtain ⟨h, w', hrun, hdone⟩ := applied_healthCheck (checks.env b.id) hw
  refine ⟨h, w', ?_, hdone⟩
  rw [← List.append_nil h]
  exact hrun.bind ⟨.ret _, .nil _⟩

/-- The thread that checks a backend, and its actions beside those of the others. -/
theorem Router.health_private (hb : s.pool.get b.id = some b)
    (h : Steps (Router.start s w checks requests) log c) :
    ∃ i : ℕ, (s.pool.visit checks.order)[i]? = some b ∧
      (Router.start s w checks requests).threads[i]? = some (Thread.start (checks.prog b)) ∧
      (∀ x ∈ log, x.who = i → Within Act.sem (World.health b.id) x.event.1) ∧
      ∀ x ∈ log, x.who ≠ i → Outside Act.sem (World.health b.id) x.event.1 := by
  obtain ⟨i, hi, hthread⟩ := Router.exists_goroutine w checks requests hb
  have huses := Router.uses h hi
  exact ⟨i, hi, hthread, fun x hx hwho => ((huses x hx).1 hwho).within,
    fun x hx hwho => ((huses x hx).2 hwho).1⟩

/-- At every point of a run the atomics of a backend follow the pings answered so far. -/
theorem Router.following (hw : w.cells b.id = .fresh) (hb : s.pool.get b.id = some b)
    (h : Steps (Router.start s w checks requests) log c) :
    ∃ k ≤ 2 + (checks.env b.id).ticks,
      answered b.id (log.map (·.event)) = (checks.env b.id).pings k ∧
        Following ((checks.env b.id).pings k) (c.shared.cells b.id) := by
  obtain ⟨run, w', hrun, hdone⟩ := Router.runs_prog checks hw
  have hpings : answered b.id run = (checks.env b.id).pings (2 + (checks.env b.id).ticks) :=
    hdone.answered
  obtain ⟨i, hi, hthread, hwithin, houtside⟩ := Router.health_private hb h
  have hlt : i < c.threads.length := h.length_threads ▸ (List.getElem?_eq_some_iff.mp hthread).1
  obtain ⟨rest, w'', hsplit, hreplays, -, hview⟩ := h.simulates hwithin houtside hthread hrun
    (List.getElem?_eq_getElem hlt)
  have hpoint : Answering (checks.env b.id) b 0 (own i log) w'' :=
    (answering_healthCheck hw).map (fun _ => Done.probed) (hsplit ▸ hrun.returns) hreplays
  obtain ⟨k, hk, hfollow⟩ := hpoint
  have hown : answered b.id (own i log) = (checks.env b.id).pings k := hk
  refine ⟨k, ?_, by rw [Router.answered_own h hi, hown], ?_⟩
  · have hlength := congrArg List.length hpings
    rw [hsplit, answered_append, hown] at hlength
    simp [HealthEnv.pings] at hlength
    omega
  · rw [← following_health, ← hview, following_health]
    exact hfollow

/-- **Health checks under every interleaving**: with any requests, and with the goroutines of the
other backends. -/
theorem checks_followed (hw : w.cells b.id = .fresh) (hb : s.pool.get b.id = some b)
    (h : Steps (Router.start s w checks requests) log c) : ChecksFollowed s checks b log c := by
  refine ⟨Router.following hw hb h, fun j t hj ht hret => ?_⟩
  obtain ⟨run, w', hrun, hdone⟩ := Router.runs_prog checks hw
  obtain ⟨i, hi, hthread, hwithin, houtside⟩ := Router.health_private hb h
  obtain rfl := visit_unique hj hi rfl
  obtain ⟨rfl, hview⟩ := h.alone hwithin houtside hthread hrun ht hret
  have hpings : answered b.id (own j log) = (checks.env b.id).pings (2 + (checks.env b.id).ticks) :=
    hdone.answered
  refine ⟨by rw [Router.answered_own h hi, hpings], ?_⟩
  refine (coupled_health.mp ?_).hysteresis
  rw [hview, coupled_health]
  exact hdone.coupled

end

/-! ## Admission comes before routing -/

/-- A slot is only asked of a backend of the pool that the thread has read to be healthy. -/
def ReadHealthy (p : Pool) (h : List Event) : Act → Prop
  | .casDepth id _ _ => p.get id ≠ none ∧ (⟨.loadHealthy id, true⟩ : Event) ∈ h
  | _ => True

/-- The contract restricts nothing but swaps. -/
theorem readHealthy_of_noSwap {p : Pool} {a : Act} (ha : NoSwap a) (h : List Event) :
    ReadHealthy p h a := by
  cases a with
  | casDepth id old new => exact absurd rfl (ha id old new)
  | _ => trivial

theorem noSwap_of_read {a : Act} (ha : IsRead a) : NoSwap a := noSwap_of_quiet (quiet_of_read ha)

/-- The reserve loop asks for a slot only right after it has read the backend to be healthy. -/
theorem reserveFirst_readHealthy (p : Pool) (ranked : List Scorer.BackendState) (h : List Event) :
    Obeys (ReadHealthy p) (fun _ _ => True) h (reserveFirst p ranked) := by
  refine obeys_reserveFirst (fun _ _ => True) trivial (fun _ _ => trivial)
    (fun _ _ _ _ _ _ _ => trivial) ?_
  intro front st back h' b _ _ hb
  have hid : b.id = st.id := p.keyed st.id b hb
  refine ⟨trivial, trivial, ?_⟩
  refine obeys_tryReserve (fun h'' => (⟨.loadHealthy b.id, true⟩ : Event) ∈ h'') (by simp)
    (fun _ _ => trivial) (fun _ _ _ _ _ => trivial) fun h'' v hh'' _ => ⟨⟨?_, ?_⟩, trivial, ?_⟩
  · simp [hid, hb]
  · simp [hh'']
  · simp [hh'']

/-- **A handler reads a backend to be healthy** before it tries for a slot of it. -/
theorem handler_readHealthy (s : Server) (r : Request) :
    Obeys (ReadHealthy s.pool) (fun _ _ => True) [] (handleChatCompletions s r) := by
  refine obeys_of_snapshot (fun h a ha => readHealthy_of_noSwap (noSwap_of_read ha) h)
    (fun _ _ => trivial) (fun _ _ _ _ => trivial) fun c states h _ _ => ?_
  refine Obeys.bind ((reserveFirst_readHealthy s.pool _ h).mono fun sel h' _ => ?_)
  cases sel with
  | none => trivial
  | some x =>
      have hrest : (finish s r c states (Scorer.rank s.weights c.routeReq states) (some x)).Uses
          NoSwap :=
        (noSwap_dispatch r _).bind fun _ => ⟨fun _ _ _ heq => by simp at heq, fun _ => trivial⟩
      exact hrest.obeys (I := fun _ => True) (fun h' _ _ ha => readHealthy_of_noSwap ha h')
        (fun _ _ _ _ _ => trivial) trivial

section
variable {s : Server} {w : World} {checks : ChecksEnv} {requests : List Request} {log : Log}
  {c : System}

/-- The health atomics hold no slot. -/
theorem quiet_of_onHealth {id : String} {a : Act} (ha : OnHealth id a) : Quiet a := by
  cases a with
  | loadHealthy | casHealthy | storeFails | addFails | storeSuccesses | addSuccesses
  | addHealthyTransitions | addUnhealthyTransitions => exact fun _ => rfl
  | _ => exact ha.elim

/-- Every thread keeps to it. -/
theorem Router.readHealthy {i : ℕ} {t : Thread Act Act.Result Done}
    (ht : (Router.start s w checks requests).threads[i]? = some t) :
    Obeys (ReadHealthy s.pool) (fun _ _ => True) t.trace t.prog := by
  obtain ⟨b, -, rfl⟩ | ⟨-, r, -, rfl⟩ := Router.start_thread ht
  · have hnoSwap : (checks.prog b).Uses NoSwap :=
      (onHealth_prog checks b).mono fun _ ha => noSwap_of_quiet (quiet_of_onHealth ha)
    exact hnoSwap.obeys (I := fun _ => True) (fun h' _ _ ha => readHealthy_of_noSwap ha h')
      (fun _ _ _ _ _ => trivial) trivial
  · exact Obeys.bind ((handler_readHealthy s r).mono fun _ _ _ => trivial)

/-- Thread `i` has read backend `id` to be healthy, when the pings answered until then, or these
but the last, made it so. -/
def AdmittedBefore (i : ℕ) (id : String) (earlier : Log) : Prop :=
  ∃ before x after, earlier = before ++ x :: after ∧ x.who = i ∧
    x.event = ⟨.loadHealthy id, true⟩ ∧ Lagging HealthyBy (answered id (before.map (·.event)))

/-- **Admission comes before routing**: in every run of a router that starts fresh, whoever takes a
slot of a backend has read that its pings admitted it. -/
theorem admitted_before_reserved (hw : ∀ id, w.cells id = .fresh)
    (h : Steps (Router.start s w checks requests) log c) {earlier later : Log}
    {x : Entry World Act Act.Result} (hlog : log = earlier ++ x :: later) {id : String}
    {old new : Int64} (hx : x.event = ⟨.casDepth id old new, true⟩) :
    AdmittedBefore x.who id earlier := by
  obtain ⟨t, ht⟩ : ∃ t, (Router.start s w checks requests).threads[x.who]? = some t :=
    ⟨_, List.getElem?_eq_getElem (h.who_lt x (by simp [hlog]))⟩
  have hread := h.permitted ht (Router.readHealthy ht) hlog rfl
  rw [hx] at hread
  obtain ⟨hpool, hread⟩ := hread
  obtain ⟨b, hb⟩ := Option.ne_none_iff_exists'.mp hpool
  obtain rfl : b.id = id := s.pool.keyed id b hb
  have hfresh : t.trace = [] := by
    obtain ⟨_, -, rfl⟩ | ⟨-, _, -, rfl⟩ := Router.start_thread ht <;> rfl
  rw [hfresh, List.nil_append] at hread
  obtain ⟨front, back, hown⟩ := List.append_of_mem hread
  obtain ⟨before, y, after, rfl, hwho, hy, -⟩ := own_eq_append_cons hown
  have hsplit : log = before ++ y :: (after ++ x :: later) := by simp [hlog]
  refine ⟨before, y, after, rfl, hwho, hy, ?_⟩
  obtain ⟨threads, hpath⟩ := h.before hsplit
  obtain ⟨k, -, hanswered, hfollow⟩ := Router.following (hw b.id) hb hpath
  have hhealthy : (y.before.cells b.id).healthy = true := by
    have hsound := h.sound y (by simp [hsplit])
    obtain ⟨i, state, event⟩ := y
    obtain rfl : event = ⟨.loadHealthy b.id, true⟩ := hy
    exact hsound.symm
  rw [hanswered]
  exact hfollow.healthy.imp (·.mp hhealthy) (·.mp hhealthy)

end

/-! ## A cold start -/

namespace Sample

/-- A backend that always answers its pings, and a ticker that fires once. -/
def checks (order : GoMap.RangeOrder String Backend) : ChecksEnv :=
  ⟨order, fun _ => ⟨fun _ => .ok 200, 1⟩⟩

/-- The threads of a router with the one backend, whatever order the pool is ranged over in. -/
theorem start_eq {s : Server} (hpool : s.pool = pool) (w : World)
    (order : GoMap.RangeOrder String Backend) (requests : List Request) :
    Router.start s w (checks order) requests = ⟨w, .start ((checks order).prog backend) ::
      requests.map fun r => .start ((Task.request r).prog s)⟩ := by
  have hvisit : s.pool.visit (checks order).order = [backend] := by rw [hpool, visit_pool]
  rw [Router.start, Pool.startHealthChecks, hvisit]
  simp

/-- The backend comes up, and then its goroutine and a request take turns. -/
def schedule : List ℕ := List.replicate 8 0 ++ [1, 0, 1, 1, 0, 1, 1, 0] ++ List.replicate 8 1

end Sample

/-- The goroutine of a backend can run to its end before any other thread moves. -/
theorem exists_checked {s : Server} {w : World} (checks : ChecksEnv) (requests : List Request)
    {b : Backend} (hw : w.cells b.id = .fresh) (hb : s.pool.get b.id = some b) :
    ∃ (i : ℕ) (log : Log) (c : System) (trace : List Event),
      (s.pool.visit checks.order)[i]? = some b ∧
      Steps (Router.start s w checks requests) log c ∧
      c.threads[i]? = some ⟨trace, .ret .probed⟩ ∧
      (∀ j ≠ i, c.threads[j]? = (Router.start s w checks requests).threads[j]?) ∧
      Coupled ((checks.env b.id).pings (2 + (checks.env b.id).ticks)) (c.shared.cells b.id) ∧
      c.shared.depth b.id = w.depth b.id := by
  obtain ⟨run, w', hrun, hdone⟩ := Router.runs_prog checks hw
  have hdepth : w'.depth b.id = w.depth b.id :=
    hrun.outside (fun w => w.depth b.id)
      ((onHealth_prog checks b).mono fun a ha w => depth_of_quiet (quiet_of_onHealth ha) w b.id)
  obtain ⟨i, hi, hthread⟩ := Router.exists_goroutine w checks requests hb
  obtain ⟨log, hpath⟩ := Path.replays hrun.returns hrun.replays .refl hthread
  exact ⟨i, log, _, _, hi, hpath, List.getElem?_set_self (List.getElem?_eq_some_iff.mp hthread).1,
    fun j hj => List.getElem?_set_ne hj.symm, hdone.coupled, hdepth⟩

/-- A backend that its pings admit and that holds no slot is free. -/
theorem World.free_of_coupled {w : World} {p : Pool} {b : Backend} {pings : List Bool}
    (hget : p.get b.id = some b) (hcoupled : Coupled pings (w.cells b.id)) (hup : HealthyBy pings)
    (hdepth : w.depth b.id = 0) : w.free p b.id := by
  have hhealthy : (w.cells b.id).healthy = true := hcoupled.healthy.mpr hup
  have hroom : (w.cells b.id).queueDepth < b.maxConcurrent :=
    hdepth.trans_lt (p.limited b.id b hget)
  rw [World.free, hget]
  simp [hhealthy, hroom]

/-- A request that has not started can run to its answer before any other thread moves. -/
theorem exists_served {s : Server} {r : Request} {start c : System} {log : Log} {h : List Event}
    {out : Outcome} {w : World} (hreturns : Returns (handleChatCompletions s r) h out)
    (hreplays : Replays Act.sem c.shared h w) (hpath : Steps start log c) {j : ℕ}
    (hstart : start.threads[j]? = some (.start ((Task.request r).prog s)))
    (hthread : c.threads[j]? = start.threads[j]?) :
    ∃ log', Steps start log' ⟨w, c.threads.set j ⟨h, .ret (.handled out)⟩⟩ ∧ own j log' = h := by
  have hprog : Returns ((Task.request r).prog s) (h ++ []) (.handled out) := hreturns.bind (.ret _)
  rw [List.append_nil] at hprog
  rw [hstart] at hthread
  obtain ⟨log', hpath'⟩ := Path.replays hprog hreplays hpath hthread
  refine ⟨log', hpath', ?_⟩
  obtain ⟨p, hp⟩ := hpath'.thread hstart
  rw [List.getElem?_set_self (List.getElem?_eq_some_iff.mp hthread).1] at hp
  simpa [Thread.start, eq_comm] using congrArg (Option.map (·.trace)) hp

/-- A request that is served among the checks. -/
theorem checks_followed_served :
    let s := Sample.server Sample.pool
    let start := Router.start s Sample.booted (Sample.checks default)
      [Sample.request default fun _ => default]
    ∃ (log : Log) (c : System), Steps start log c ∧ c.result 0 = some .probed ∧
      (c.result 1).bind Done.served = some "a" ∧
      ChecksFollowed s (Sample.checks default) Sample.backend log c := by
  intro s start
  obtain ⟨log, c, hpath, hended⟩ : ∃ log c, Steps start log c ∧
      (c.result 0, (c.result 1).bind Done.served) = (some .probed, some "a") := by
    refine Path.exists_of_scheduled Sample.schedule
      (fun x => (x.2.result 0, (x.2.result 1).bind Done.served)) ?_
    simp only [start]
    rw [Sample.start_eq rfl, List.map_cons,
      Sample.prog_of_prepare rfl (Sample.prepare_request Sample.pool _ _)]
    decide +kernel
  obtain ⟨hprobed, hserved⟩ := Prod.mk.inj hended
  exact ⟨log, c, hpath, hprobed, hserved, checks_followed rfl rfl hpath⟩

/-- A request that names a backend has taken a slot of it. -/
theorem exists_swap {s : Server} {r : Request} {h : List Event} {out : Outcome}
    (hreturns : Returns (handleChatCompletions s r) h out) (hnamed : out.writer.backend ≠ none) :
    ∃ id old new, (⟨.casDepth id old new, true⟩ : Event) ∈ h := by
  obtain ⟨hnone, -⟩ | ⟨_, b, -, -, -, heffects⟩ := (handler_contract s r).returns hreturns
  · exact absurd hnone hnamed
  · have hmem : Effect.reserved b.id ∈ effects h := by
      rw [List.nil_append] at heffects
      simp [heffects]
    obtain ⟨⟨a, x⟩, he, heffect⟩ := List.mem_filterMap.mp hmem
    cases a with
    | casDepth id old new =>
        cases x with
        | false => cases heffect
        | true => exact ⟨id, old, new, he⟩
    | _ => cases heffect

/-- A request that comes after the checks is routed. -/
theorem admitted_before_reserved_cold_start :
    let s := Sample.server Sample.pool
    ∃ (earlier later : Log) (x : Entry World Act Act.Result) (id : String) (old new : Int64)
      (c : System), Steps (Router.start s .fresh (Sample.checks default)
        [Sample.request default fun _ => default]) (earlier ++ x :: later) c ∧
      x.event = ⟨.casDepth id old new, true⟩ ∧ AdmittedBefore x.who id earlier := by
  intro s
  let r := Sample.request default fun _ => default
  obtain ⟨i, log, ⟨w, threads⟩, trace, hi, hpath, -, hrest, hcoupled, hdepth⟩ := exists_checked
    (s := s) (w := .fresh) (Sample.checks default) [r] (b := ⟨"a", "http://a", 1⟩) rfl rfl
  have hfree : w.free s.pool "a" := World.free_of_coupled rfl hcoupled (by decide) hdepth
  obtain ⟨st, hst⟩ := Option.isSome_iff_exists.mp
    (selected_isSome (r := r) (c := Sample.chat) hfree)
  obtain ⟨out, w', hexec, hheader⟩ := exec_handleChatCompletions 0 s r w
  have hnamed : w.named s r = some st.id := by
    rw [World.named, Sample.prepare_request]
    simp [hst]
  obtain ⟨h, hreturns, hreplays⟩ := returns_of_exec hexec
  obtain ⟨id, old, new, hmem⟩ := exists_swap hreturns (by simp [hheader, hnamed])
  -- the request is the thread after the goroutines
  let j := (s.pool.startHealthChecks (Sample.checks default)).length
  have hj : (Router.start s .fresh (Sample.checks default) [r]).threads[j]? =
      some (Thread.start ((Task.request r).prog s)) := by
    simp [Router.start, j]
  have hne : j ≠ i := by
    rintro rfl
    have hlt := (List.getElem?_eq_some_iff.mp hi).1
    simp [j, Pool.startHealthChecks] at hlt
  obtain ⟨log', hpath', hown⟩ := exists_served hreturns hreplays hpath hj (hrest j hne)
  obtain ⟨front, back, hsplit⟩ := List.append_of_mem hmem
  obtain ⟨earlier, x, later, rfl, -, hx, -⟩ := own_eq_append_cons (hown.trans hsplit)
  exact ⟨earlier, later, x, id, old, new, _, hpath', hx,
    admitted_before_reserved (fun _ => rfl) hpath' rfl hx⟩

end KvRouter
