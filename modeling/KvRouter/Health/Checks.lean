import KvRouter.Health
import KvRouter.Lib.Private

/-!
# KvRouter.Health.Checks

The goroutine that `StartHealthChecks` runs for each backend: a bootstrap burst,
then a probe at each tick until its context is done.  `answered` reads the
outcomes of its pings off a trace.  At every point of its run the atomics of the
backend agree, field by field, with the outcomes answered so far or with these
but the last (`Following`): `probe` is several atomic actions, and what it shows
in between is never older than one probe.
-/

namespace KvRouter

open Prog Latch Interleave

/-! ## The goroutine -/

/-- The errors of `pingOnce`. -/
inductive PingError
  | failed (err : String)
  | status (code : ℕ)
deriving DecidableEq

/-- `pingOnce`, given what the health client answers: a status code, or its error. -/
def pingOnce : Except String ℕ → Except PingError Unit
  | .error err => .error (.failed err)
  | .ok code => if code < 200 ∨ code ≥ 300 then .error (.status code) else .ok ()

/-- What one goroutine meets: the answers to its pings, in order, and how often
its ticker fires before the context is done. -/
structure HealthEnv where
  replies : ℕ → Except String ℕ
  ticks : ℕ

/-- Whether ping `i` succeeds. -/
def HealthEnv.ping (env : HealthEnv) (i : ℕ) : Bool := (pingOnce (env.replies i)).isOk

/-- The outcomes of the first `k` pings. -/
def HealthEnv.pings (env : HealthEnv) (k : ℕ) : List Bool := (List.range k).map env.ping

theorem HealthEnv.pings_succ (env : HealthEnv) (k : ℕ) :
    env.pings (k + 1) = env.pings k ++ [env.ping k] := by
  simp [pings, List.range_succ]

/-- The bootstrap burst, with `n` rounds to go; returns the number of the next ping. -/
def bootstrap (b : Backend) (env : HealthEnv) : ℕ → ℕ → Program ℕ
  | 0, i => return i
  | n + 1, i => do
      let healthy ← b.isHealthy
      if healthy then return i
      else
        probe b (env.ping i)
        bootstrap b env n (i + 1)

/-- The loop over the ticker, from ping `i` on. -/
def tickerLoop (b : Backend) (env : HealthEnv) : ℕ → ℕ → Program Unit
  | 0, _ => return
  | n + 1, i => do
      probe b (env.ping i)
      tickerLoop b env n (i + 1)

/-- The goroutine of `b`. -/
def healthCheck (b : Backend) (env : HealthEnv) : Program Unit := do
  let i ← bootstrap b env healthyAfter.toInt.toNat 0
  tickerLoop b env env.ticks i

/-! ## The outcomes in a trace -/

/-- The outcome of a ping of `id`: `probe` first resets the run that it ends. -/
def outcomeOf (id : String) : Event Act.Result → Option Bool
  | ⟨.storeSuccesses id' _, _⟩ => if id' = id then some false else none
  | ⟨.storeFails id' _, _⟩ => if id' = id then some true else none
  | _ => none

/-- The outcomes of the pings of `id` that `probe` has been told, in order. -/
def answered (id : String) (h : List (Event Act.Result)) : List Bool := h.filterMap (outcomeOf id)

@[simp] theorem answered_nil (id : String) : answered id [] = [] := rfl

@[simp] theorem answered_append (id : String) (h h' : List (Event Act.Result)) :
    answered id (h ++ h') = answered id h ++ answered id h' := List.filterMap_append

/-! ## A probe, at every point -/

/-- Each field of `x` is that of `c` or that of `c'`. -/
structure Between (c c' x : Cells) : Prop where
  healthy : x.healthy = c.healthy ∨ x.healthy = c'.healthy
  fails : x.consecutiveFails = c.consecutiveFails ∨ x.consecutiveFails = c'.consecutiveFails
  successes : x.consecutiveSuccesses = c.consecutiveSuccesses ∨
    x.consecutiveSuccesses = c'.consecutiveSuccesses
  ups : x.healthyTransitions = c.healthyTransitions ∨ x.healthyTransitions = c'.healthyTransitions
  downs : x.unhealthyTransitions = c.unhealthyTransitions ∨
    x.unhealthyTransitions = c'.unhealthyTransitions

/-- The flip of the state that both branches of `probe` end with. -/
theorem throughout_flip (id : String) {c : Prop} [Decidable c] {old new : Bool} {count : Act}
    {w : World} {P : Cells → Prop} (hP : P (w.cells id))
    (hswap : c → (w.cells id).healthy = old → P { w.cells id with healthy := new })
    (hcount : c → (w.cells id).healthy = old →
      P ((count.sem (w.updateCells id fun c => { c with healthy := new })).2.cells id))
    (hquiet : ∀ r, outcomeOf id ⟨count, r⟩ = none) :
    Throughout Act.sem (fun h w' => answered id h = [] ∧ P (w'.cells id)) (if c then do
        let swapped : Bool ← act (.casHealthy id old new)
        if swapped then
          let _ ← act count
          return
        else return
      else return) w := by
  by_cases hc : c
  · let cas := Act.casHealthy id old new
    rw [if_pos hc]
    refine throughout_act ⟨rfl, hP⟩ ?_
    show Throughout Act.sem _ (ite ((cas.sem w).1 = true) _ _) (cas.sem w).2
    by_cases hold : (w.cells id).healthy = old
    · have hcas : cas.sem w = (true, w.updateCells id fun c => { c with healthy := new }) :=
        if_pos hold
      rw [hcas, if_pos rfl]
      have hswapped : P ((w.updateCells id fun c => { c with healthy := new }).cells id) := by
        simpa using hswap hc hold
      refine throughout_act ⟨rfl, hswapped⟩ (throughout_ret ⟨?_, hcount hc hold⟩)
      rw [answered, List.filterMap_cons_none rfl, List.filterMap_cons_none (hquiet _)]
      rfl
    · have hcas : cas.sem w = (false, w) := if_neg hold
      rw [hcas, if_neg Bool.false_ne_true]
      exact throughout_ret ⟨rfl, hP⟩
  · rw [if_neg hc]
    exact throughout_ret ⟨rfl, hP⟩

/-- The run lengths after a probe, whether or not the state flips. -/
@[simp] theorem consecutiveFails_probed (c : Cells) (ping : Bool) :
    (c.probed ping).consecutiveFails = if ping then 0 else c.consecutiveFails + 1 := by
  cases ping <;> simp [Cells.probed, apply_ite Cells.consecutiveFails]

@[simp] theorem consecutiveSuccesses_probed (c : Cells) (ping : Bool) :
    (c.probed ping).consecutiveSuccesses = if ping then c.consecutiveSuccesses + 1 else 0 := by
  cases ping <;> simp [Cells.probed, apply_ite Cells.consecutiveSuccesses]

/-- **A probe, at every point**: before `probe` is told the outcome nothing has changed, and then
each field is as before the probe or as after it. -/
theorem throughout_probe (b : Backend) (ping : Bool) (w : World) :
    Throughout Act.sem (fun h w' => (h = [] ∧ w' = w) ∨ (answered b.id h = [ping] ∧
      Between (w.cells b.id) ((w.cells b.id).probed ping) (w'.cells b.id))) (probe b ping) w := by
  cases ping with
  | false =>
      refine throughout_act (Or.inl ⟨rfl, rfl⟩) (throughout_act (Or.inr ⟨?_, ?_⟩) ?_)
      · simp [answered, outcomeOf]
      · constructor <;> simp [Act.sem]
      · refine (throughout_flip b.id (P := Between _ _) ?_ ?_ ?_ fun _ => rfl).mono
          fun h w' hw' => Or.inr ⟨by simpa [answered, outcomeOf] using hw'.1, hw'.2⟩
        · constructor <;> simp [Act.sem]
        · intro hc hold
          simp [Act.sem] at hc hold
          constructor <;> simp [Act.sem, Cells.probed, hc, hold]
        · intro hc hold
          simp [Act.sem] at hc hold
          constructor <;> simp [Act.sem, Cells.probed, hc, hold]
  | true =>
      refine throughout_act (Or.inl ⟨rfl, rfl⟩) (throughout_act (Or.inr ⟨?_, ?_⟩) ?_)
      · simp [answered, outcomeOf]
      · constructor <;> simp [Act.sem]
      · refine (throughout_flip b.id (P := Between _ _) ?_ ?_ ?_ fun _ => rfl).mono
          fun h w' hw' => Or.inr ⟨by simpa [answered, outcomeOf] using hw'.1, hw'.2⟩
        · constructor <;> simp [Act.sem]
        · intro hc hold
          simp [Act.sem] at hc hold
          constructor <;> simp [Act.sem, Cells.probed, hc, hold]
        · intro hc hold
          simp [Act.sem] at hc hold
          constructor <;> simp [Act.sem, Cells.probed, hc, hold]

/-- A probe without interference. -/
theorem probe_runs {b : Backend} {ping : Bool} {w w' : World} {h : List (Event Act.Result)}
    {x : Unit} (hrun : Runs Act.sem (probe b ping) w h x w') :
    answered b.id h = [ping] ∧ w' = w.updateCells b.id fun c => c.probed ping := by
  obtain ⟨hreturns, hreplays⟩ := hrun
  refine ⟨?_, (hreplays.exec_eq hreturns (exec_probe 0 b ping w)).2⟩
  have hpoint := (throughout_probe b ping w).at_end ⟨hreturns, hreplays⟩
  obtain ⟨rfl, -⟩ | ⟨hanswered, -⟩ := hpoint
  · cases ping <;> cases hreturns
  · exact hanswered

/-- A probe that nobody disturbs applies its outcome. -/
theorem exists_probe (b : Backend) (ping : Bool) (w : World) :
    ∃ h, Runs Act.sem (probe b ping) w h () (w.updateCells b.id fun c => c.probed ping) := by
  obtain ⟨h, hreturns, hreplays⟩ := returns_of_exec (exec_probe 0 b ping w)
  exact ⟨h, hreturns, hreplays⟩

/-! ## The goroutine, at every point -/

/-- `P` holds of the outcomes answered so far, or of these but the last. -/
def Lagging (P : List Bool → Prop) (pings : List Bool) : Prop := P pings ∨ P pings.dropLast

/-- The atomics of a backend while the last of the `pings` is under way or done:
each is what the outcomes up to that ping make it, or those before it. -/
structure Following (pings : List Bool) (c : Cells) : Prop where
  healthy : Lagging (fun l => c.healthy = true ↔ HealthyBy l) pings
  fails : Lagging (fun l => c.consecutiveFails = Int32.ofNat (trailing false l)) pings
  successes : Lagging (fun l => c.consecutiveSuccesses = Int32.ofNat (trailing true l)) pings
  ups : Lagging (fun l => c.healthyTransitions = UInt64.ofNat (rises HealthyBy l)) pings
  downs : Lagging (fun l => c.unhealthyTransitions = UInt64.ofNat (falls HealthyBy l)) pings

theorem Coupled.following {pings : List Bool} {c : Cells} (h : Coupled pings c) :
    Following pings c :=
  ⟨Or.inl h.healthy, Or.inl h.fails, Or.inl h.successes, Or.inl h.ups, Or.inl h.downs⟩

/-- What is between two coupled states is behind by at most one probe. -/
theorem Between.following {pings : List Bool} {ping : Bool} {c x : Cells} (hc : Coupled pings c)
    (hx : Between c (c.probed ping) x) : Following (pings ++ [ping]) x := by
  have hc' := hc.probed ping
  have hlag {P : List Bool → Prop} (h : P pings ∨ P (pings ++ [ping])) :
      Lagging P (pings ++ [ping]) := by
    rw [Lagging, List.dropLast_concat]
    exact h.symm
  constructor
  · exact hlag (hx.healthy.imp (fun h => by rw [h]; exact hc.healthy)
      fun h => by rw [h]; exact hc'.healthy)
  · exact hlag (hx.fails.imp (·.trans hc.fails) (·.trans hc'.fails))
  · exact hlag (hx.successes.imp (·.trans hc.successes) (·.trans hc'.successes))
  · exact hlag (hx.ups.imp (·.trans hc.ups) (·.trans hc'.ups))
  · exact hlag (hx.downs.imp (·.trans hc.downs) (·.trans hc'.downs))

/-- The invariant of the goroutine of `b` from ping `i` on: it has been told the outcomes of its
first `k` pings, and the atomics of `b` follow these. -/
def Answering (env : HealthEnv) (b : Backend) (i : ℕ) (h : List (Event Act.Result)) (w : World) :
    Prop :=
  ∃ k, env.pings i ++ answered b.id h = env.pings k ∧ Following (env.pings k) (w.cells b.id)

section
variable {env : HealthEnv} {b : Backend} {i : ℕ} {w : World}
  (hw : Coupled (env.pings i) (w.cells b.id))
include hw

theorem answering_start : Answering env b i [] w := ⟨i, by simp, hw.following⟩

/-- During a probe the atomics follow the pings. -/
theorem answering_probe : Throughout Act.sem (Answering env b i) (probe b (env.ping i)) w := by
  refine (throughout_probe b (env.ping i) w).mono fun h w' hpoint => ?_
  obtain ⟨rfl, rfl⟩ | ⟨hanswered, hbetween⟩ := hpoint
  · exact answering_start hw
  · refine ⟨i + 1, by rw [hanswered, env.pings_succ], ?_⟩
    rw [env.pings_succ]
    exact hbetween.following hw

/-- After a probe. -/
theorem coupled_probe : Coupled (env.pings (i + 1))
    ((w.updateCells b.id fun c => c.probed (env.ping i)).cells b.id) := by
  rw [cells_updateCells_self, env.pings_succ]
  exact hw.probed _

/-- A probe and what follows it. -/
theorem answering_probe_bind {α : Type} {f : Unit → Program α}
    (hf : ∀ w', Coupled (env.pings (i + 1)) (w'.cells b.id) →
      Throughout Act.sem (Answering env b (i + 1)) (f ()) w') :
    Throughout Act.sem (Answering env b i) ((probe b (env.ping i)).bind f) w := by
  refine throughout_bind (answering_probe hw) fun h x w' hrun => ?_
  obtain ⟨hanswered, rfl⟩ := probe_runs hrun
  refine (hf _ (coupled_probe hw)).mono fun h' w'' hpoint => ?_
  obtain ⟨k, heq, hfollow⟩ := hpoint
  refine ⟨k, ?_, hfollow⟩
  rw [answered_append, hanswered, ← List.append_assoc, ← env.pings_succ]
  exact heq

end

/-- At every point of the ticker loop the atomics follow the pings answered. -/
theorem answering_tickerLoop {env : HealthEnv} {b : Backend} (n : ℕ) {i : ℕ} {w : World}
    (hw : Coupled (env.pings i) (w.cells b.id)) :
    Throughout Act.sem (Answering env b i) (tickerLoop b env n i) w := by
  induction n generalizing i w with
  | zero => exact throughout_ret (answering_start hw)
  | succ n ih => exact answering_probe_bind hw fun w' hw' => ih hw'

/-- And at every point of the bootstrap burst, with what comes after it. -/
theorem answering_bootstrap {env : HealthEnv} {b : Backend} {f : ℕ → Program Unit}
    (hf : ∀ i w, Coupled (env.pings i) (w.cells b.id) →
      Throughout Act.sem (Answering env b i) (f i) w) (n : ℕ) {i : ℕ} {w : World}
    (hw : Coupled (env.pings i) (w.cells b.id)) :
    Throughout Act.sem (Answering env b i) ((bootstrap b env n i).bind f) w := by
  induction n generalizing i w with
  | zero => exact hf i w hw
  | succ n ih =>
      refine throughout_act (answering_start hw) ?_
      show Throughout Act.sem (Answering env b i) (Prog.bind (ite ((w.cells b.id).healthy = true)
        (.ret i) ((probe b (env.ping i)).bind fun _ => bootstrap b env n (i + 1))) f) w
      split
      · exact hf i w hw
      · rw [bind_assoc]
        exact answering_probe_bind hw fun w' hw' => ih hw'

/-- **The goroutine follows its pings** at every point of its run. -/
theorem answering_healthCheck {env : HealthEnv} {b : Backend} {w : World}
    (hw : w.cells b.id = .fresh) :
    Throughout Act.sem (Answering env b 0) (healthCheck b env) w :=
  answering_bootstrap (fun _ _ => answering_tickerLoop env.ticks) _ (hw ▸ coupled_fresh)

/-! ## The goroutine to its end -/

/-- The goroutine has been told the outcomes of pings `i` to `k`, and has applied them. -/
structure Applied (env : HealthEnv) (b : Backend) (i k : ℕ) (h : List (Event Act.Result))
    (w : World) : Prop where
  answered : env.pings i ++ answered b.id h = env.pings k
  coupled : Coupled (env.pings k) (w.cells b.id)

/-- A probe in front of a run. -/
theorem applied_probe_bind {α : Type} {env : HealthEnv} {b : Backend} {i k : ℕ} {w : World}
    (hw : Coupled (env.pings i) (w.cells b.id)) {f : Unit → Program α} {x : α}
    (hf : ∀ w, Coupled (env.pings (i + 1)) (w.cells b.id) →
      ∃ h w', Runs Act.sem (f ()) w h x w' ∧ Applied env b (i + 1) k h w') :
    ∃ h w', Runs Act.sem ((probe b (env.ping i)).bind f) w h x w' ∧ Applied env b i k h w' := by
  obtain ⟨h, hprobe⟩ := exists_probe b (env.ping i) w
  obtain ⟨h', w', hrun, hdone⟩ := hf _ (coupled_probe hw)
  refine ⟨h ++ h', w', hprobe.bind hrun, ?_, hdone.coupled⟩
  rw [answered_append, (probe_runs hprobe).1, ← List.append_assoc, ← env.pings_succ]
  exact hdone.answered

/-- Each tick applies its ping. -/
theorem applied_tickerLoop {env : HealthEnv} {b : Backend} (n : ℕ) {i : ℕ} {w : World}
    (hw : Coupled (env.pings i) (w.cells b.id)) :
    ∃ h w', Runs Act.sem (tickerLoop b env n i) w h () w' ∧ Applied env b i (i + n) h w' := by
  induction n generalizing i w with
  | zero => exact ⟨[], w, ⟨.ret _, .nil _⟩, by simp, hw⟩
  | succ n ih =>
      have hadd : i + (n + 1) = i + 1 + n := by omega
      rw [hadd]
      exact applied_probe_bind hw fun w' hw' => ih hw'

/-- Fewer than two outcomes do not make a backend healthy. -/
theorem not_healthyBy_of_length {pings : List Bool} (h : pings.length < 2) :
    ¬ HealthyBy pings := by
  match pings, h with
  | [], _ => exact not_healthyBy_nil
  | [ping], _ => cases ping <;> decide

/-- The burst of a fresh backend makes all its probes. -/
theorem applied_bootstrap {env : HealthEnv} {b : Backend} (n : ℕ) {i : ℕ} (hi : i + n ≤ 2)
    {w : World} (hw : Coupled (env.pings i) (w.cells b.id)) :
    ∃ h w', Runs Act.sem (bootstrap b env n i) w h (i + n) w' ∧ Applied env b i (i + n) h w' := by
  induction n generalizing i w with
  | zero => exact ⟨[], w, ⟨.ret _, .nil _⟩, by simp, hw⟩
  | succ n ih =>
      have hadd : i + (n + 1) = i + 1 + n := by omega
      have hdown : (w.cells b.id).healthy = false := by
        rw [← Bool.not_eq_true, hw.healthy]
        exact not_healthyBy_of_length (by simp [HealthEnv.pings]; omega)
      rw [hadd]
      obtain ⟨h, w', ⟨hreturns, hreplays⟩, hdone⟩ :=
        applied_probe_bind (f := fun _ => bootstrap b env n (i + 1)) hw fun w' hw' =>
          ih (by omega) hw'
      have hload : (Act.loadHealthy b.id).sem w = (false, w) := by simp [Act.sem, hdown]
      refine ⟨⟨.loadHealthy b.id, ((Act.loadHealthy b.id).sem w).1⟩ :: h, w',
        ⟨.act ?_, .cons ?_⟩, hdone.answered, hdone.coupled⟩
      · rw [hload]
        exact hreturns
      · rw [hload]
        exact hreplays

/-- **The goroutine to its end**: the burst makes two probes, whatever their outcomes, and the
ticker one each time it fires. -/
theorem applied_healthCheck (env : HealthEnv) {b : Backend} {w : World}
    (hw : w.cells b.id = .fresh) :
    ∃ h w', Runs Act.sem (healthCheck b env) w h () w' ∧
      Applied env b 0 (2 + env.ticks) h w' := by
  have hfresh : Coupled (env.pings 0) (w.cells b.id) := hw ▸ coupled_fresh
  obtain ⟨h, w', hburst, hdone⟩ := applied_bootstrap 2 (Nat.le_refl 2) hfresh
  obtain ⟨h', w'', hticks, hdone'⟩ := applied_tickerLoop env.ticks hdone.coupled
  refine ⟨h ++ h', w'', hburst.bind hticks, ?_, hdone'.coupled⟩
  rw [answered_append, ← List.append_assoc, hdone.answered]
  exact hdone'.answered

end KvRouter
