import KvRouter.Handler.Phases
import KvRouter.Health.Concurrent
import KvRouter.Lib.Progress

/-!
# KvRouter.Liveness

Every run of the router ends, however its threads are scheduled: no request is
starved.  The only loop without a bound of its own is that of `TryReserve`,
which tries again when its swap fails.  Each swap that fails is a slot that
another request has taken or given back in the meantime, and a request does
either at most once, so the races that can be lost are bounded
(`Path.lost_le_moves`), and with them the actions of every thread.
-/

namespace KvRouter

open Handler Interleave Prog

/-! ## What a thread costs -/

/-- A lost race pays for its load and its swap. -/
def raceCredit : Event → ℕ
  | ⟨.casDepth _ _ _, false⟩ => 2
  | _ => 0

/-- `p` performs at most `n` actions beyond those of the races it loses. -/
abbrev CostsAtMost (n : ℕ) {α : Type} (Q : α → Prop) (p : Program α) : Prop :=
  Costs raceCredit n Q p

/-- A round of `TryReserve` that is not lost costs two actions. -/
theorem costs_tryReserve (b : Backend) : CostsAtMost 2 (fun _ => True) b.tryReserve := by
  refine costs_untilSome fun m h hh => ⟨by omega, fun v => ?_⟩
  have hload : (h ++ [(⟨.loadDepth b.id, v⟩ : Event)]).length = h.length + 1 := by simp
  have hcredit : credits raceCredit (h ++ [(⟨.loadDepth b.id, v⟩ : Event)]) =
      credits raceCredit h := by simp [raceCredit]
  by_cases hv : 0 < b.maxConcurrent ∧ (v : Int64) ≥ b.maxConcurrent
  · simp only [ret_bind, if_pos hv]
    exact ⟨trivial, by omega⟩
  · simp only [ret_bind, if_neg hv]
    refine ⟨by omega, fun swapped => ?_⟩
    cases hs : (swapped : Bool) with
    | false =>
        show (_ ++ [_]).length ≤ _ + credits raceCredit (_ ++ [_])
        rw [List.length_append, hload, credits_concat, hcredit]
        simp only [raceCredit, List.length_singleton]
        omega
    | true =>
        refine ⟨trivial, ?_⟩
        rw [List.length_append, hload, credits_concat, hcredit, List.length_singleton]
        omega

/-- The filter of `Healthy` reads each backend once. -/
theorem costs_healthyAmong (bs : List Backend) :
    CostsAtMost bs.length (fun found => found.length ≤ bs.length) (healthyAmong bs) := by
  induction bs with
  | nil => exact costs_ret (Nat.le_refl 0)
  | cons b bs ih =>
      refine costs_act fun healthy => ih.bind fun found hfound => costs_ret ?_
      show (if _ then b :: found else found).length ≤ bs.length + 1
      split
      · exact Nat.succ_le_succ hfound
      · exact Nat.le_succ_of_le hfound

/-- The number of backends. -/
def Pool.size (p : Pool) : ℕ := GoMap.len p.backends

theorem Pool.length_visit (p : Pool) (o : GoMap.RangeOrder String Backend) :
    (p.visit o).length = p.size := by
  rw [Pool.visit, List.length_map, Pool.size, GoMap.len, ← o.coe_visit, Multiset.coe_card]

/-- `Healthy` reads each backend once. -/
theorem costs_healthy (p : Pool) (o : GoMap.RangeOrder String Backend) :
    CostsAtMost p.size (fun found => found.length ≤ p.size) (p.healthy o) := by
  rw [← p.length_visit o]
  refine (costs_healthyAmong _).bind fun found hfound => costs_ret ?_
  rw [(Sorting.perm_sliceStable _ _).length_eq]
  exact hfound

/-- The snapshot takes three readings of each healthy backend. -/
theorem costs_statesOf (c : Chat) (bs : List Backend) :
    CostsAtMost (3 * bs.length) (fun states => states.length = bs.length) (statesOf c bs) := by
  induction bs with
  | nil => exact costs_ret rfl
  | cons b bs ih =>
      have hadd : 3 * (b :: bs).length = 3 * bs.length + 1 + 1 + 1 := by
        rw [List.length_cons]
        omega
      rw [hadd]
      refine costs_act fun _ => costs_act fun _ => costs_act fun _ => ih.bind (n := 0) ?_
      exact fun states hstates => costs_ret (by simpa using hstates)

/-- The reserve loop costs at most three actions for each candidate. -/
theorem costs_reserveFirst (p : Pool) (ranked : List Scorer.BackendState) :
    CostsAtMost (3 * ranked.length) (fun _ => True) (reserveFirst p ranked) := by
  induction ranked with
  | nil => exact costs_ret trivial
  | cons candidate ranked ih =>
      have hadd : 3 * (candidate :: ranked).length = 2 + 3 * ranked.length + 1 := by
        rw [List.length_cons]
        omega
      have hskip : CostsAtMost (2 + 3 * ranked.length) (fun _ => True) (reserveFirst p ranked) :=
        ih.mono (by omega) fun _ _ => trivial
      rw [hadd]
      unfold reserveFirst
      split
      · exact ih.mono (by omega) fun _ _ => trivial
      · next b _ =>
          refine costs_act fun healthy => ?_
          show CostsAtMost _ _ (ite _ _ _)
          split
          · exact hskip
          · refine (costs_tryReserve b).bind fun reserved _ => ?_
            show CostsAtMost _ _ (ite _ _ _)
            split
            · exact ih
            · exact costs_return trivial

theorem costs_actIf (c : Prop) [Decidable c] (a : Act) :
    CostsAtMost 1 (fun _ => True) (actIf c a) := by
  unfold actIf
  split
  · exact costs_act fun _ => costs_ret trivial
  · exact costs_return trivial

/-- `Record` takes at most six actions. -/
theorem costs_record (event : Telemetry.RouteEvent) (now : ℤ) :
    CostsAtMost 6 (fun _ => True) (record event now) :=
  costs_act fun _ => costs_act fun _ => (costs_actIf _ _).bind fun _ _ =>
    (costs_actIf _ _).bind fun _ _ => (costs_actIf _ _).bind fun _ _ =>
      costs_act fun _ => costs_ret trivial

/-- A dispatch takes at most one commit and one `Record`. -/
theorem costs_dispatch (r : Request) (d : Dispatch) :
    CostsAtMost 7 (fun _ => True) (dispatch r d) := by
  have hrecord (status : ℕ) (ttftMillis : ℤ) (out : Outcome) :
      CostsAtMost 6 (fun _ => True) ((recordRoute r d status ttftMillis).bind fun _ => .ret out) :=
    (costs_record _ _).bind fun _ _ => costs_ret trivial
  unfold dispatch dispatchStream dispatchPlain
  split
  · split
    · exact costs_return trivial
    · next ttft err w _ =>
        refine (costs_actIf _ _).bind (n := 6) fun _ _ => ?_
        cases err with
        | none => exact hrecord 200 _ _
        | some e => exact hrecord 502 0 _
  · split
    · exact (hrecord 502 0 _).mono (by omega) fun _ _ => trivial
    · split
      · exact costs_return trivial
      · exact (costs_actIf _ _).bind (n := 6) fun _ _ => hrecord _ 0 _

/-- **What a request costs**, beyond the races it loses. -/
theorem costs_handleChatCompletions (s : Server) (r : Request) :
    CostsAtMost (7 * s.pool.size + 8) (fun _ => True) (handleChatCompletions s r) := by
  have hadd : 7 * s.pool.size + 8 = s.pool.size + (3 * s.pool.size + (3 * s.pool.size + 8)) := by
    omega
  unfold handleChatCompletions
  cases prepare s r with
  | error out => exact costs_return trivial
  | ok c =>
      rw [hadd]
      refine (costs_healthy s.pool r.order).bind fun found hfound => ?_
      show CostsAtMost _ _ (ite _ _ _)
      split
      · exact costs_return trivial
      · refine ((costs_statesOf c found).mono (Nat.mul_le_mul_left 3 hfound)
          fun _ h => h).bind fun states hstates => ?_
        have hranked : (Scorer.rank s.weights c.routeReq states).length ≤ s.pool.size := by
          rw [(Scorer.perm_rank s.weights c.routeReq states).length_eq]
          exact (List.length_filter_le _ _).trans (hstates.le.trans hfound)
        refine ((costs_reserveFirst s.pool _).mono (Nat.mul_le_mul_left 3 hranked)
          fun _ h => h).bind fun sel _ => ?_
        cases sel with
        | none => exact costs_return (n := 8) trivial
        | some x =>
            exact (costs_dispatch r _).bind fun _ _ => costs_act fun _ => costs_ret trivial

/-- A probe takes at most four actions. -/
theorem costs_probe (b : Backend) (ping : Bool) : CostsAtMost 4 (fun _ => True) (probe b ping) := by
  have hflip (c : Prop) [Decidable c] (old new : Bool) (count : Act) :
      CostsAtMost 2 (fun _ => True) (if c then do
        let swapped : Bool ← act (.casHealthy b.id old new)
        if swapped then
          let _ ← act count
          return
        else return
      else return) := by
    split
    · refine costs_act fun swapped => ?_
      show CostsAtMost _ _ (ite _ _ _)
      split
      · exact costs_act fun _ => costs_ret trivial
      · exact costs_return trivial
    · exact costs_return trivial
  unfold probe
  cases ping with
  | false => exact costs_act fun _ => costs_act fun _ => hflip _ true false _
  | true => exact costs_act fun _ => costs_act fun _ => hflip _ false true _

/-- Each tick costs a probe. -/
theorem costs_tickerLoop (b : Backend) (env : HealthEnv) (n i : ℕ) :
    CostsAtMost (4 * n) (fun _ => True) (tickerLoop b env n i) := by
  induction n generalizing i with
  | zero => exact costs_ret trivial
  | succ n ih =>
      rw [Nat.mul_succ, Nat.add_comm]
      exact (costs_probe b _).bind fun _ _ => ih (i + 1)

/-- Each round of the bootstrap burst costs a probe and a reading. -/
theorem costs_bootstrap (b : Backend) (env : HealthEnv) (n i : ℕ) :
    CostsAtMost (5 * n) (fun _ => True) (bootstrap b env n i) := by
  induction n generalizing i with
  | zero => exact costs_ret trivial
  | succ n ih =>
      have hadd : 5 * (n + 1) = 4 + 5 * n + 1 := by omega
      rw [hadd]
      refine costs_act fun healthy => ?_
      show CostsAtMost _ _ (ite _ _ _)
      split
      · exact costs_return trivial
      · exact (costs_probe b _).bind fun _ _ => ih (i + 1)

/-- What the goroutine of a backend costs. -/
def ChecksEnv.actions (checks : ChecksEnv) (b : Backend) : ℕ :=
  5 * healthyAfter.toInt.toNat + 4 * (checks.env b.id).ticks

/-- A goroutine costs no more than its probes. -/
theorem costs_prog (checks : ChecksEnv) (b : Backend) :
    CostsAtMost (checks.actions b) (fun _ => True) (checks.prog b) :=
  Costs.bind (n := 0) ((costs_bootstrap b _ _ 0).bind fun i _ => costs_tickerLoop b _ _ i)
    fun _ _ => costs_ret trivial

/-! ## Steps that perform no action -/

theorem guarded_actIf (c : Prop) [Decidable c] (a : Act) : (actIf c a).Guarded :=
  guarded_ite (fun _ => trivial) trivial

theorem guarded_record (event : Telemetry.RouteEvent) (now : ℤ) : (record event now).Guarded :=
  fun _ _ => (guarded_actIf _ _).bind fun _ => (guarded_actIf _ _).bind fun _ =>
    (guarded_actIf _ _).bind fun _ _ => trivial

/-- A dispatch has no loop that could spin. -/
theorem guarded_dispatch (r : Request) (d : Dispatch) : (dispatch r d).Guarded := by
  have hrecord (status : ℕ) (ttftMillis : ℤ) (out : Outcome) :
      ((recordRoute r d status ttftMillis).bind fun _ => .ret out).Guarded :=
    (guarded_record _ _).bind fun _ => trivial
  unfold dispatch dispatchStream dispatchPlain
  split
  · split
    · trivial
    · next ttft err w _ =>
        refine (guarded_actIf _ _).bind fun _ => ?_
        cases err with
        | none => exact hrecord 200 _ _
        | some e => exact hrecord 502 0 _
  · split
    · exact hrecord 502 0 _
    · split
      · trivial
      · exact (guarded_actIf _ _).bind fun _ => hrecord _ 0 _

theorem guarded_healthyAmong (bs : List Backend) : (healthyAmong bs).Guarded := by
  induction bs with
  | nil => trivial
  | cons b bs ih => exact fun _ => ih.bind fun _ => trivial

theorem guarded_statesOf (c : Chat) (bs : List Backend) : (statesOf c bs).Guarded := by
  induction bs with
  | nil => trivial
  | cons b bs ih => exact fun _ _ _ => ih.bind fun _ => trivial

/-- Each round of `TryReserve` begins with a load. -/
theorem guarded_tryReserve (b : Backend) : b.tryReserve.Guarded :=
  ⟨rfl, fun _ => guarded_ite trivial fun _ => guarded_ite trivial trivial, fun _ => trivial⟩

/-- A round of the reserve loop always acts. -/
theorem guarded_reserveFirst (p : Pool) (ranked : List Scorer.BackendState) :
    (reserveFirst p ranked).Guarded := by
  induction ranked with
  | nil => trivial
  | cons candidate ranked ih =>
      unfold reserveFirst
      split
      · exact ih
      · next b _ =>
          exact fun _ => guarded_ite ih
            ((guarded_tryReserve b).bind fun _ => guarded_ite ih trivial)

/-- **No loop of the handler spins** without an action. -/
theorem guarded_handleChatCompletions (s : Server) (r : Request) :
    (handleChatCompletions s r).Guarded := by
  unfold handleChatCompletions
  split
  · trivial
  · next c _ =>
      refine Guarded.bind ((guarded_healthyAmong _).bind fun _ => trivial) fun found => ?_
      refine guarded_ite trivial ((guarded_statesOf c found).bind fun states => ?_)
      refine (guarded_reserveFirst s.pool _).bind fun sel => ?_
      cases sel with
      | none => trivial
      | some x => exact (guarded_dispatch r _).bind fun _ _ => trivial

theorem guarded_probe (b : Backend) (ping : Bool) : (probe b ping).Guarded := by
  unfold probe
  cases ping with
  | false =>
      exact fun _ _ => guarded_ite (fun _ => guarded_ite (fun _ => trivial) trivial) trivial
  | true =>
      exact fun _ _ => guarded_ite (fun _ => guarded_ite (fun _ => trivial) trivial) trivial

theorem guarded_tickerLoop (b : Backend) (env : HealthEnv) (n i : ℕ) :
    (tickerLoop b env n i).Guarded := by
  induction n generalizing i with
  | zero => trivial
  | succ n ih => exact (guarded_probe b _).bind fun _ => ih (i + 1)

theorem guarded_bootstrap (b : Backend) (env : HealthEnv) (n i : ℕ) :
    (bootstrap b env n i).Guarded := by
  induction n generalizing i with
  | zero => trivial
  | succ n ih =>
      exact fun _ => guarded_ite trivial ((guarded_probe b _).bind fun _ => ih (i + 1))

/-- A goroutine does not spin. -/
theorem guarded_prog (checks : ChecksEnv) (b : Backend) : (checks.prog b).Guarded :=
  Guarded.bind ((guarded_bootstrap b _ _ 0).bind fun i => guarded_tickerLoop b _ _ i)
    fun _ => trivial

/-! ## Races for a slot -/

/-- A depth that was loaded. -/
def readDepth : Event → Option (String × Int64)
  | ⟨.loadDepth id, v⟩ => some (id, v)
  | _ => none

/-- A swap that failed, with the depth it expected. -/
def lostRace : Event → Option (String × Int64)
  | ⟨.casDepth id old _, false⟩ => some (id, old)
  | _ => none

/-- A slot taken or given back. -/
def movesDepth (e : Event) : Bool :=
  match effectOf e with
  | some (.reserved _) => true
  | some (.released _) => true
  | _ => false

/-- A lost race gives back the two actions of its round. -/
theorem credits_eq (h : List Event) :
    credits raceCredit h = 2 * (h.filter fun e => (lostRace e).isSome).length := by
  induction h with
  | nil => rfl
  | cons e h ih =>
      have hcredit : raceCredit e = if (lostRace e).isSome then 2 else 0 := by
        obtain ⟨a, r⟩ := e
        cases a with
        | casDepth id old new => cases hr : (r : Bool) <;> rfl
        | _ => rfl
      rw [credits, List.map_cons, List.sum_cons, ← credits, ih, hcredit, List.filter_cons]
      split
      · rw [List.length_cons]
        omega
      · omega

/-- A depth that is read is that of the state. -/
theorem depth_of_readDepth {a : Act} {w : World} {id : String} {v : Int64}
    (h : readDepth ⟨a, (a.sem w).1⟩ = some (id, v)) : w.depth id = v := by
  cases a with
  | loadDepth id' =>
      obtain ⟨rfl, rfl⟩ : id' = id ∧ (w.cells id').queueDepth = v := by
        simpa [readDepth, Act.sem] using h
      rfl
  | _ => contradiction

/-- A swap is lost when the depth is not the one expected. -/
theorem depth_of_lostRace {a : Act} {w : World} {id : String} {v : Int64}
    (h : lostRace ⟨a, (a.sem w).1⟩ = some (id, v)) : w.depth id ≠ v := by
  cases a with
  | casDepth id' old new =>
      by_cases hold : (w.cells id').queueDepth = old
      · have hsem : (Act.casDepth id' old new).sem w =
            (true, w.updateCells id' fun c => { c with queueDepth := new }) := if_pos hold
        rw [hsem] at h
        contradiction
      · have hsem : (Act.casDepth id' old new).sem w = (false, w) := if_neg hold
        rw [hsem] at h
        obtain ⟨rfl, rfl⟩ : id' = id ∧ old = v := by simpa [lostRace] using h
        exact hold
  | _ => contradiction

/-- An action that takes and gives back no slot leaves every depth as it is. -/
theorem depth_of_still {a : Act} {w : World} (h : movesDepth ⟨a, (a.sem w).1⟩ = false) :
    (a.sem w).2.depth = w.depth := by
  have hquiet (ha : Quiet a) : (a.sem w).2.depth = w.depth := funext (depth_of_quiet ha w)
  cases a with
  | casDepth id old new =>
      by_cases hold : (w.cells id).queueDepth = old
      · have hsem : (Act.casDepth id old new).sem w =
            (true, w.updateCells id fun c => { c with queueDepth := new }) := if_pos hold
        rw [hsem] at h
        contradiction
      · have hsem : (Act.casDepth id old new).sem w = (false, w) := if_neg hold
        rw [hsem]
  | addDepth id delta => contradiction
  | commit id ns blocks now orders => rfl
  | _ => exact hquiet fun _ => rfl

/-- How often a handler has taken or given back a slot, by its phase. -/
structure Moved (h : List Event) : Prop where
  le_two : (h.filter movesDepth).length ≤ 2
  looking : effects h = [] → (h.filter movesDepth).length = 0
  serving : Serving h → (h.filter movesDepth).length ≤ 1

/-- An action that is neither. -/
theorem Moved.still {h : List Event} {e : Event} (hh : Moved h) (he : movesDepth e = false) :
    Moved (h ++ [e]) := by
  have hfilter : (h ++ [e]).filter movesDepth = h.filter movesDepth := by simp [he]
  refine ⟨?_, fun hnil => ?_, fun hserving => ?_⟩ <;> rw [hfilter]
  · exact hh.le_two
  · rw [effects_append, List.append_eq_nil_iff] at hnil
    exact hh.looking hnil.1
  · by_cases hnil : effects h = []
    · exact (hh.looking hnil).le.trans (Nat.zero_le 1)
    · refine hh.serving ⟨hnil, fun id hid => hserving.2 id ?_⟩
      rw [effects_append]
      exact List.mem_append_left _ hid

/-- An action that keeps to its phase keeps the count of the moves. -/
theorem Moved.concat {h : List Event} {e : Event} (hh : Moved h) (he : Phased h e.1) :
    Moved (h ++ [e]) := by
  have hone (hmove : movesDepth e = true) :
      ((h ++ [e]).filter movesDepth).length = (h.filter movesDepth).length + 1 := by simp [hmove]
  have hmem (x : Effect) (hx : effectOf e = some x) : x ∈ effects (h ++ [e]) := by
    rw [effects_concat, hx]
    simp
  obtain ⟨a, r⟩ := e
  cases a with
  | casDepth id old new =>
      cases hr : (r : Bool) with
      | false => exact hh.still rfl
      | true =>
          subst hr
          rw [Phased] at he
          have hzero := hh.looking he.1.effects_eq
          have hmoved := hone rfl
          refine ⟨by omega, fun hnil => ?_, fun _ => by omega⟩
          have hin := hmem _ rfl
          simp [hnil] at hin
  | addDepth id delta =>
      have hle := hh.serving he
      have hmoved := hone rfl
      have hin := hmem (.released id) rfl
      refine ⟨by omega, fun hnil => ?_, fun hserving => absurd hin (hserving.2 id)⟩
      simp [hnil] at hin
  | _ => exact hh.still rfl

/-- **A handler takes a slot at most once**, and gives it back at most once. -/
theorem moved_of_phased {h : List Event}
    (hphased : ∀ h₁ e h₂, h = h₁ ++ e :: h₂ → Phased h₁ e.1) : Moved h := by
  induction h using List.reverseRecOn with
  | nil => exact ⟨Nat.zero_le 2, fun _ => rfl, fun _ => Nat.zero_le 1⟩
  | append_singleton h e ih =>
      refine (ih fun h₁ e' h₂ heq => hphased h₁ e' (h₂ ++ [e]) ?_).concat (hphased h e [] rfl)
      rw [heq, List.append_assoc, List.cons_append]

/-! ## The threads -/

section
variable {s : Server} {w : World} {checks : ChecksEnv} {requests : List Request} {log : Log}
  {c : System}

/-- The number of goroutines of the health checks. -/
theorem length_startHealthChecks (p : Pool) (checks : ChecksEnv) :
    (p.startHealthChecks checks).length = p.size := by
  rw [Pool.startHealthChecks, List.length_map, p.length_visit]

/-- What a request performs at most, among `n` requests. -/
def Pool.requestActions (p : Pool) (n : ℕ) : ℕ := 7 * p.size + 8 + 4 * n

/-- What the threads of the router perform at most. -/
def Router.actions (s : Server) (checks : ChecksEnv) (requests : List Request) : ℕ :=
  ((s.pool.visit checks.order).map checks.actions).sum +
    requests.length * s.pool.requestActions requests.length

/-- A thread that is no goroutine of the health checks goes through the phases of a handler. -/
theorem Router.phased (h : Steps (Router.start s w checks requests) log c) {i : ℕ}
    (hi : s.pool.size ≤ i) {earlier later : Log} {x : Entry World Act Act.Result}
    (hlog : log = earlier ++ x :: later) (hx : x.who = i) : Phased (own i earlier) x.event.1 := by
  obtain ⟨t, ht⟩ : ∃ t, (Router.start s w checks requests).threads[i]? = some t :=
    ⟨_, List.getElem?_eq_getElem (hx ▸ h.who_lt x (by simp [hlog]))⟩
  obtain ⟨b, hb, -⟩ | ⟨-, r, -, rfl⟩ := Router.start_thread ht
  · have hlt := (List.getElem?_eq_some_iff.mp hb).1
    rw [Pool.length_visit] at hlt
    omega
  · have hobeys : Obeys Phased (fun _ _ => True) [] ((Task.request r).prog s) :=
      Obeys.bind ((handler_phased s r).mono fun _ _ _ => trivial)
    exact h.permitted ht hobeys hlog hx

/-- A goroutine of the health checks neither takes nor gives back slots. -/
theorem Router.still (h : Steps (Router.start s w checks requests) log c) {i : ℕ}
    (hi : i < s.pool.size) : ∀ e ∈ own i log, Quiet e.1 := by
  intro e he
  obtain ⟨x, hx, rfl, rfl⟩ := mem_own.mp he
  have hlt : x.who < (s.pool.visit checks.order).length := by rwa [Pool.length_visit]
  have hb := List.getElem?_eq_getElem hlt
  exact quiet_of_onHealth ((Router.uses h hb x hx).1 rfl)

theorem movesDepth_of_quiet {e : Event} (he : Quiet e.1) : movesDepth e = false := by
  rw [movesDepth, he e.2]

theorem lostRace_of_quiet {e : Event} (he : Quiet e.1) : lostRace e = none := by
  obtain ⟨a, r⟩ := e
  cases a with
  | casDepth id old new => exact absurd (he true) (Option.some_ne_none _)
  | _ => rfl

/-- The threads of a router are its goroutines and its requests. -/
theorem Router.who_lt (h : Steps (Router.start s w checks requests) log c) :
    ∀ x ∈ log, x.who < s.pool.size + requests.length := by
  intro x hx
  have hlt := h.who_lt x hx
  simpa [Router.start, length_startHealthChecks] using hlt

/-- A request takes and gives back a slot at most once. -/
theorem Router.moved (h : Steps (Router.start s w checks requests) log c) {i : ℕ}
    (hi : s.pool.size ≤ i) : Moved (own i log) := by
  refine moved_of_phased fun h₁ e h₂ hown => ?_
  obtain ⟨earlier, x, later, hlog, hwho, rfl, rfl⟩ := own_eq_append_cons hown
  exact Router.phased h hi hlog hwho

/-- The slots that are taken and given back. -/
theorem Router.moves_le (h : Steps (Router.start s w checks requests) log c) :
    (log.filter (movesDepth ·.event)).length ≤ requests.length * 2 := by
  have hbound := length_filter_log_le movesDepth (List.replicate s.pool.size 0) (d := 2)
    (by simpa using Router.who_lt h) fun i => ?_
  · simpa using hbound
  · by_cases hi : i < s.pool.size
    · have hnone : (own i log).filter movesDepth = [] := List.filter_eq_nil_iff.mpr fun e he => by
        simp [movesDepth_of_quiet (Router.still h hi e he)]
      simp [hnone]
    · have hle := (Router.moved h (Nat.le_of_not_lt hi)).le_two
      simpa [List.getD, hi] using hle

/-- **No request is starved in its races**: each that it loses is a slot that some request has
taken or given back. -/
theorem Router.lost_le (h : Steps (Router.start s w checks requests) log c) {i : ℕ}
    (hi : s.pool.size ≤ i) :
    ((own i log).filter fun e => (lostRace e).isSome).length ≤ requests.length * 2 := by
  refine (h.lost_le_moves World.depth readDepth lostRace movesDepth
    (fun _ _ _ _ => depth_of_readDepth) (fun _ _ _ _ => depth_of_lostRace)
    (fun _ _ => depth_of_still) ?_).trans (Router.moves_le h)
  intro earlier y later hlog hwho r hr
  have hphased := Router.phased h hi hlog hwho
  obtain ⟨who, before, a, answer⟩ := y
  cases a with
  | casDepth id old new =>
      cases hanswer : (answer : Bool) with
      | true =>
          subst hanswer
          contradiction
      | false =>
          subst hanswer
          obtain ⟨-, h', hh'⟩ := hphased
          exact ⟨h', _, hh'.symm, hr⟩
  | _ => contradiction

/-- What each thread performs at most. -/
theorem Router.length_own_le (h : Steps (Router.start s w checks requests) log c) (i : ℕ) :
    (own i log).length ≤ ((s.pool.visit checks.order).map checks.actions).getD i
      (s.pool.requestActions requests.length) := by
  by_cases hi : i < s.pool.size
  · have hlt : i < (s.pool.visit checks.order).length := by rwa [Pool.length_visit]
    have hthread : (Router.start s w checks requests).threads[i]? =
        some (.start (checks.prog (s.pool.visit checks.order)[i])) := by
      simp [Router.start, Pool.startHealthChecks, hlt, List.getElem?_append]
    have hcosts := h.costs hthread (costs_prog checks _)
    have hnone : (own i log).filter (fun e => (lostRace e).isSome) = [] :=
      List.filter_eq_nil_iff.mpr fun e he => by
        simp [lostRace_of_quiet (Router.still h hi e he)]
    rw [credits_eq, hnone] at hcosts
    simpa [List.getD, hlt] using hcosts
  · have hle : s.pool.size ≤ i := Nat.le_of_not_lt hi
    have hrest : ((s.pool.visit checks.order).map checks.actions).getD i
        (s.pool.requestActions requests.length) = s.pool.requestActions requests.length := by
      simp [List.getD, Pool.length_visit, hle]
    rw [hrest]
    by_cases hnil : own i log = []
    · simp [hnil]
    · obtain ⟨e, he⟩ := List.exists_mem_of_ne_nil _ hnil
      obtain ⟨x, hx, rfl, -⟩ := mem_own.mp he
      have ht := List.getElem?_eq_getElem (h.who_lt x hx)
      obtain ⟨b, hb, -⟩ | ⟨-, r, -, hthread⟩ := Router.start_thread ht
      · have hlt := (List.getElem?_eq_some_iff.mp hb).1
        rw [Pool.length_visit] at hlt
        omega
      · rw [hthread] at ht
        have hprog : CostsAtMost (7 * s.pool.size + 8) (fun _ => True) ((Task.request r).prog s) :=
          Costs.bind (n := 0) (costs_handleChatCompletions s r) fun _ _ => costs_ret trivial
        have hcosts := h.costs ht hprog
        have hlost := Router.lost_le h hle
        rw [credits_eq] at hcosts
        rw [Pool.requestActions]
        omega

/-- **Every run ends**: however the threads are interleaved, they perform a bounded number of
actions. -/
theorem Router.length_log_le (h : Steps (Router.start s w checks requests) log c) :
    log.length ≤ Router.actions s checks requests := by
  have hbound := length_filter_log_le (fun _ => true)
    ((s.pool.visit checks.order).map checks.actions) (m := requests.length)
    (d := s.pool.requestActions requests.length)
    (by simpa [Pool.length_visit] using Router.who_lt h)
    fun i => (List.length_filter_le _ _).trans (Router.length_own_le h i)
  simpa [Router.actions] using hbound

/-- No thread of a router can spin. -/
theorem Router.guarded : ∀ t ∈ (Router.start s w checks requests).threads, t.prog.Guarded := by
  intro t ht
  obtain ⟨i, hi⟩ := List.mem_iff_getElem?.mp ht
  obtain ⟨b, -, rfl⟩ | ⟨-, r, -, rfl⟩ := Router.start_thread hi
  · exact guarded_prog checks b
  · exact (guarded_handleChatCompletions s r).bind fun _ => trivial

end

/-! ## Every schedule -/

/-- The steps of the threads of the router, with those that perform no action. -/
def Router.steps (s : Server) (checks : ChecksEnv) (requests : List Request) : ℕ :=
  2 * Router.actions s checks requests + (s.pool.size + requests.length)

/-- Every thread has returned, and every request has its answer; the threads of the requests come
after the goroutines. -/
structure Returned (p : Pool) (requests : List Request) (c : System) : Prop where
  all : ∀ t ∈ c.threads, ∃ x, t.prog = .ret x
  answered : ∀ j < requests.length, ∃ trace out,
    c.threads[p.size + j]? = some ⟨trace, .ret (.handled out)⟩

/-- What the schedules of the router come to; this one has led to `c`. -/
structure Ends (s : Server) (checks : ChecksEnv) (requests : List Request) (schedule : List ℕ)
    (c : System) : Prop where
  bounded : schedule.length ≤ Router.steps s checks requests
  /-- some thread can move until all have returned -/
  stuck : (∀ i, c.next Act.sem i = none) → Returned s.pool requests c
  completes : ∃ rest log c', c.scheduled Act.sem rest = some (log, c') ∧
    Returned s.pool requests c'

/-- Where nobody can move, everybody has returned. -/
theorem ret_of_next {c : System} (h : ∀ i, c.next Act.sem i = none) :
    ∀ t ∈ c.threads, ∃ x, t.prog = .ret x := by
  intro t ht
  obtain ⟨i, hi⟩ := List.mem_iff_getElem?.mp ht
  have hnext := h i
  unfold Config.next at hnext
  rw [hi] at hnext
  obtain ⟨trace, prog⟩ := t
  cases prog with
  | ret x => exact ⟨x, rfl⟩
  | _ => contradiction

section
variable {s : Server} {w : World} {checks : ChecksEnv} {requests : List Request} {log : Log}
  {c : System} {schedule : List ℕ}

/-- **A schedule is no longer than the bound** on the steps of its router. -/
theorem Router.length_schedule_le
    (h : (Router.start s w checks requests).scheduled Act.sem schedule = some (log, c)) :
    schedule.length ≤ Router.steps s checks requests := by
  have hactions := Router.length_log_le (Path.of_scheduled h)
  have hsteps := length_scheduled Router.guarded h
  have hidle : (Router.start s w checks requests).idle ≤ s.pool.size + requests.length := by
    refine List.countP_le_length.trans ?_
    simp [Router.start, length_startHealthChecks]
  unfold Router.steps
  omega

/-- The thread of a request returns its answer. -/
theorem Router.returned (h : Steps (Router.start s w checks requests) log c)
    (hall : ∀ t ∈ c.threads, ∃ x, t.prog = .ret x) : Returned s.pool requests c := by
  refine ⟨hall, fun j hj => ?_⟩
  have hstart : (Router.start s w checks requests).threads[s.pool.size + j]? =
      some (.start ((Task.request requests[j]).prog s)) := by
    simp [Router.start, length_startHealthChecks, hj]
  obtain ⟨p, hp⟩ := h.thread hstart
  obtain ⟨x, hx⟩ := hall _ (List.mem_of_getElem? hp)
  obtain rfl : p = .ret x := hx
  obtain ⟨out, _, _, -, -, hret⟩ := (h.returns hstart hp (.ret x)).of_bind
  obtain rfl : x = .handled out := hret.of_ret.2
  exact ⟨_, out, hp⟩

/-- A schedule can be continued until every thread has returned. -/
theorem Router.completes
    (h : (Router.start s w checks requests).scheduled Act.sem schedule = some (log, c)) :
    ∃ rest log' c', c.scheduled Act.sem rest = some (log', c') ∧
      Returned s.pool requests c' := by
  induction hn : Router.steps s checks requests - schedule.length using Nat.strong_induction_on
    generalizing schedule log c with
  | _ n ih =>
      by_cases hstuck : ∀ i, c.next Act.sem i = none
      · exact ⟨[], [], c, rfl, Router.returned (Path.of_scheduled h) (ret_of_next hstuck)⟩
      · obtain ⟨i, hi⟩ := not_forall.mp hstuck
        obtain ⟨⟨es, c₁⟩, hnext⟩ := Option.ne_none_iff_exists'.mp hi
        have hconcat := scheduled_concat h hnext
        have hle := Router.length_schedule_le hconcat
        rw [List.length_append, List.length_singleton] at hle
        obtain ⟨rest, log', c', hrest, hreturned⟩ := ih _ (by simp; omega) hconcat rfl
        exact ⟨i :: rest, es ++ log', c', by simp [Config.scheduled, hnext, hrest], hreturned⟩

/-- **Every request is answered**: every schedule of the router ends, within a bound that depends
on the numbers of backends, ticks and requests alone, with every thread returned. -/
theorem every_schedule_ends
    (h : (Router.start s w checks requests).scheduled Act.sem schedule = some (log, c)) :
    Ends s checks requests schedule c :=
  ⟨Router.length_schedule_le h, fun hstuck => Router.returned (Path.of_scheduled h)
    (ret_of_next hstuck), Router.completes h⟩

end

/-- A schedule of a small router to its end. -/
theorem every_schedule_ends_cold_start :
    let s := Sample.server Sample.pool
    let checks := Sample.checks default
    let requests := [Sample.request default fun _ => default]
    ∃ schedule log c,
      (Router.start s .fresh checks requests).scheduled Act.sem schedule = some (log, c) ∧
      Returned s.pool requests c ∧ Ends s checks requests schedule c := by
  intro s checks requests
  have hnone : (Router.start s .fresh checks requests).scheduled Act.sem [] =
      some ([], Router.start s .fresh checks requests) := rfl
  obtain ⟨schedule, log, c, h, hreturned⟩ := Router.completes hnone
  exact ⟨schedule, log, c, h, hreturned, every_schedule_ends h⟩

end KvRouter
