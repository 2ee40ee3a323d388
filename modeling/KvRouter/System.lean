import KvRouter.Handler.Solo
import KvRouter.Health
import KvRouter.Lib.Interleave

/-!
# KvRouter.System

The running router: any number of chat-completion handlers and health probes,
each a thread, on one shared state.  The results about concurrent behaviour are
about the interleavings (`Interleave.Path`) of such a system.
-/

namespace KvRouter

open Handler Interleave

/-- What a thread of the router runs. -/
inductive Task
  | request (r : Request)
  | probe (b : Backend) (ping : Bool)

/-- How a thread ended. -/
inductive Done
  | handled (out : Outcome)
  | probed
deriving DecidableEq

/-- The backend that served a request, if the handler did not panic. -/
def Handler.Outcome.served (out : Outcome) : Option String :=
  if out.panicked then none else out.writer.backend

/-- The backend that served what a thread did. -/
def Done.served : Done → Option String
  | .handled out => out.served
  | .probed => none

def Task.prog (s : Server) : Task → Program Done
  | .request r => do
      let out ← handleChatCompletions s r
      return .handled out
  | .probe b ping => do
      KvRouter.probe b ping
      return .probed

/-- The configurations of a running router. -/
abbrev System := Interleave.Config World Act Act.Result Done

/-- The system before any of its threads has taken a step. -/
def System.start (s : Server) (w : World) (tasks : List Task) : System :=
  ⟨w, tasks.map fun t => .start (t.prog s)⟩

/-- The steps of a system. -/
abbrev Steps := Path Act.sem (α := Done)

/-- A log of a system. -/
abbrev Log := List (Entry World Act Act.Result)

/-- Each thread of a system starts with its task. -/
theorem System.start_thread {s : Server} {w : World} {tasks : List Task} {i : ℕ}
    {t : Thread Act Act.Result Done} (h : (System.start s w tasks).threads[i]? = some t) :
    ∃ task, tasks[i]? = some task ∧ t = .start (task.prog s) := by
  rw [System.start, List.getElem?_map, Option.map_eq_some_iff] at h
  obtain ⟨task, htask, rfl⟩ := h
  exact ⟨task, htask, rfl⟩

/-! ## The contract of every thread -/

/-- The flip of the state that both branches of `probe` end with. -/
theorem uses_flip {P : Act → Prop} {id : String} {old new : Bool} {count : Act}
    (hcas : P (.casHealthy id old new)) (hcount : P count) (c : Prop) [Decidable c] :
    Prog.Uses (R := Act.Result) P (if c then do
        let swapped : Bool ← act (.casHealthy id old new)
        if swapped then
          let _ ← act count
          return
        else return
      else return) :=
  Prog.uses_ite
    (fun _ => ⟨hcas, fun _ => Prog.uses_ite (fun _ => ⟨hcount, fun _ => trivial⟩)
      fun _ => trivial⟩)
    fun _ => trivial

/-- A probe performs quiet actions only, and records nothing. -/
theorem uses_probe {P : Act → Prop} (hquiet : ∀ a, Quiet a → (∀ event, a ≠ .writeRing event) → P a)
    (b : Backend) (ping : Bool) : (KvRouter.probe b ping).Uses P := by
  unfold KvRouter.probe
  cases ping with
  | false =>
      exact ⟨hquiet _ (fun _ => rfl) fun _ => Act.noConfusion, fun _ =>
        ⟨hquiet _ (fun _ => rfl) fun _ => Act.noConfusion, fun _ =>
          uses_flip (hquiet _ (fun _ => rfl) fun _ => Act.noConfusion)
            (hquiet _ (fun _ => rfl) fun _ => Act.noConfusion) _⟩⟩
  | true =>
      exact ⟨hquiet _ (fun _ => rfl) fun _ => Act.noConfusion, fun _ =>
        ⟨hquiet _ (fun _ => rfl) fun _ => Act.noConfusion, fun _ =>
          uses_flip (hquiet _ (fun _ => rfl) fun _ => Act.noConfusion)
            (hquiet _ (fun _ => rfl) fun _ => Act.noConfusion) _⟩⟩

theorem quiet_probe (b : Backend) (ping : Bool) : (KvRouter.probe b ping).Uses Quiet :=
  uses_probe (fun _ ha _ => ha) b ping

/-- Every thread of the router only takes and gives back slots as it may, and
ends without one. -/
theorem task_contract (s : Server) (t : Task) :
    ObeysEffects s.pool (fun _ es => holding es = []) [] (t.prog s) := by
  cases t with
  | request r =>
      exact Prog.Obeys.bind ((handler_contract s r).mono fun out h hout => hout.holding_eq)
  | probe b ping =>
      refine Prog.Obeys.bind ((obeys_of_quiet (quiet_probe b ping)).mono fun _ h hh => ?_)
      show holding (effects h) = []
      rw [hh]
      rfl

/-- In every reachable state, each thread obeys the contract of its task. -/
theorem thread_contract {s : Server} {w : World} {tasks : List Task} {log : Log} {c : System}
    (h : Steps (System.start s w tasks) log c) {i : ℕ} {t : Thread Act Act.Result Done}
    (ht : c.threads[i]? = some t) :
    ∃ task, tasks[i]? = some task ∧
      ObeysEffects s.pool (fun _ es => holding es = []) t.trace t.prog := by
  have hlt : i < (System.start s w tasks).threads.length := by
    rw [← h.length_threads]
    exact (List.getElem?_eq_some_iff.mp ht).1
  obtain ⟨task, htask, hstart⟩ := System.start_thread (List.getElem?_eq_getElem hlt)
  refine ⟨task, htask, h.obeys (List.getElem?_eq_getElem hlt) ?_ ht⟩
  rw [hstart]
  exact task_contract s task

/-! ## Runs to the end -/

/-- A request that runs without interference is answered. -/
theorem exec_request (s : Server) (r : Request) (w : World) :
    ∃ out w', Prog.exec Act.sem 1 ((Task.request r).prog s) w = some (.handled out, w') := by
  obtain ⟨out, w', hexec, -⟩ := exec_handleChatCompletions 0 s r w
  refine ⟨out, w', ?_⟩
  show Prog.exec Act.sem 1 ((handleChatCompletions s r).bind _) w = _
  rw [Prog.exec_bind, hexec]
  rfl

/-- A task that runs without interference ends. -/
theorem exec_task (s : Server) (t : Task) (w : World) :
    ∃ x w', Prog.exec Act.sem 1 (t.prog s) w = some (x, w') := by
  cases t with
  | request r =>
      obtain ⟨out, w', hexec⟩ := exec_request s r w
      exact ⟨.handled out, w', hexec⟩
  | probe b ping =>
      refine ⟨.probed, w.updateCells b.id fun c => c.probed ping, ?_⟩
      show Prog.exec Act.sem 1 ((KvRouter.probe b ping).bind _) w = _
      rw [Prog.exec_bind, exec_probe]
      rfl

/-- Every system has a run in which all its threads return: one after another. -/
theorem exists_run (s : Server) (w : World) (tasks : List Task) :
    ∃ log c, Steps (System.start s w tasks) log c ∧
      ∀ i < tasks.length, ∃ trace x, c.threads[i]? = some ⟨trace, .ret x⟩ := by
  have hfirst (n : ℕ) (hn : n ≤ tasks.length) : ∃ log c, Steps (System.start s w tasks) log c ∧
      (∀ i < n, ∃ trace x, c.threads[i]? = some ⟨trace, .ret x⟩) ∧
      ∀ i, n ≤ i → c.threads[i]? = (System.start s w tasks).threads[i]? := by
    induction n with
    | zero => exact ⟨[], _, .refl, fun i hi => absurd hi (Nat.not_lt_zero i), fun i _ => rfl⟩
    | succ n ih =>
        have hlt : n < tasks.length := hn
        obtain ⟨log, ⟨w₁, threads⟩, hpath, hdone, hrest⟩ := ih (Nat.le_of_lt hlt)
        dsimp only at hdone hrest
        have hthread : threads[n]? = some (.start (tasks[n].prog s)) := by
          rw [hrest n (Nat.le_refl n), System.start, List.getElem?_map,
            List.getElem?_eq_getElem hlt]
          rfl
        obtain ⟨x, w₂, hexec⟩ := exec_task s tasks[n] w₁
        obtain ⟨log', trace', hpath'⟩ := Path.exec hexec hpath hthread
        refine ⟨log', _, hpath', fun i hi => ?_, fun i hi => ?_⟩
        · by_cases hin : i = n
          · rw [hin, List.getElem?_set_self (List.getElem?_eq_some_iff.mp hthread).1]
            exact ⟨trace', x, rfl⟩
          · rw [List.getElem?_set_ne (Ne.symm hin)]
            exact hdone i (by omega)
        · rw [List.getElem?_set_ne (by omega)]
          exact hrest i (by omega)
  obtain ⟨log, c, hpath, hdone, -⟩ := hfirst tasks.length (Nat.le_refl _)
  exact ⟨log, c, hpath, hdone⟩

/-- A request that is alone in the system is answered. -/
theorem exists_answer (s : Server) (w : World) (r : Request) :
    ∃ log c out trace, Steps (System.start s w [.request r]) log c ∧
      c.threads[0]? = some ⟨trace, .ret (.handled out)⟩ ∧ ∀ x ∈ log, x.who = 0 := by
  obtain ⟨out, w', hexec⟩ := exec_request s r w
  have hthread : (System.start s w [.request r]).threads[0]? =
      some ⟨[], (Task.request r).prog s⟩ := rfl
  obtain ⟨log, trace, hpath⟩ := Path.exec hexec .refl hthread
  refine ⟨log, _, out, trace, hpath, rfl, fun x hx => ?_⟩
  have hwho : x.who < 1 := hpath.who_lt x hx
  omega

/-- The trace of a request that is alone in the system. -/
theorem exists_solo (s : Server) (w : World) (r : Request) :
    ∃ log c out, Steps (System.start s w [.request r]) log c ∧
      c.threads[0]? = some ⟨own 0 log, .ret (.handled out)⟩ ∧
      Prog.Replays Act.sem w (own 0 log) c.shared ∧
      Prog.exec Act.sem 1 ((Task.request r).prog s) w = some (.handled out, c.shared) := by
  obtain ⟨out, w', hexec⟩ := exec_request s r w
  obtain ⟨trace, hreturns, hreplays⟩ := Prog.returns_of_exec hexec
  have hthread : (System.start s w [.request r]).threads[0]? =
      some ⟨[], (Task.request r).prog s⟩ := rfl
  obtain ⟨log, hpath⟩ := Path.replays hreturns hreplays .refl hthread
  obtain ⟨prog, hown⟩ := hpath.thread hthread
  obtain rfl : trace = own 0 log := by
    simpa [System.start] using congrArg (Option.map (·.trace)) hown
  exact ⟨log, _, out, hpath, rfl, hreplays, hexec⟩

namespace Sample

/-- The program of a request to the one backend, whatever order the pool is ranged over in. -/
theorem prog_of_prepare {s : Server} {r : Request} {c : Chat} (hpool : s.pool = pool)
    (hc : prepare s r = .ok c) : (Task.request r).prog s =
      ((((healthyAmong [backend]).bind fun found =>
        .ret (Sorting.sliceStable (fun a b => a.id < b.id) found)).bind fun found =>
          if found.length = 0 then .ret (refuse 503 "no healthy backends available")
          else (statesOf c found).bind (selectAndDispatch s r c)).bind fun out =>
            .ret (.handled out) : Program Done) := by
  rw [← healthy_pool r.order, ← hpool, Task.prog, handleChatCompletions, hc]
  rfl

end Sample

end KvRouter
