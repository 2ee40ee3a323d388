import KvRouter.Health.Concurrent
import KvRouter.Lib.Atomic

/-!
# KvRouter.Reservation.Atomic

`TryReserve` takes effect at once.  It loads the queue depth and then swaps it,
again and again while other requests come in between; but each call is as good as
a check and an increment in one step (`atomically_tryReserve`).  The router with
such slots (`Atomic.start`) is the abstract one, and the router implements it:
the two reach the same states with the same answers.
-/

namespace KvRouter

open Handler Interleave Prog

/-! ## Slots -/

/-- What a slot of `b` is for: it is taken if the backend has a free one. -/
def Backend.takeSlot (b : Backend) (w : World) : Bool × World :=
  if 0 < b.maxConcurrent ∧ (w.cells b.id).queueDepth ≥ b.maxConcurrent then (false, w)
  else (true, w.reserve b.id)

/-- The swap in a round of `TryReserve`. -/
def Backend.swapDepth (b : Backend) (current : Int64) : Program (Option Bool) := do
  let swapped : Bool ← act (.casDepth b.id current (current + 1))
  if swapped then return some true else return none

/-- The rest of `TryReserve` after a round. -/
def Backend.nextRound (b : Backend) : Option Bool → Program Bool :=
  unroll b.tryReserveOnce .ret

/-- A call of `TryReserve` that has not taken effect: between two rounds, in front of the load, or
in front of the swap. -/
inductive Reserving (b : Backend) : Program Bool → Prop
  | between : Reserving b b.tryReserve
  | load : Reserving b (b.tryReserveOnce.bind b.nextRound)
  | swap (current : Int64) (hfree : ¬(0 < b.maxConcurrent ∧ current ≥ b.maxConcurrent)) :
      Reserving b ((b.swapDepth current).bind b.nextRound)

theorem not_reserving_ret (b : Backend) (x : Bool) : ¬Reserving b (.ret x) := by
  generalize hp : (Prog.ret x : Program Bool) = p
  intro h
  cases h <;> contradiction

/-- **A step of a reservation** either changes nothing, or is the one that takes the slot. -/
theorem Reserving.step {b : Backend} {p p' : Program Bool} {w w' : World} {e : Option Event}
    (hp : Reserving b p) (hstep : Step Act.sem p w e p' w') :
    w' = w ∧ Reserving b p' ∨
    e.isSome = true ∧ p' = .ret (b.takeSlot w).1 ∧ w' = (b.takeSlot w).2 := by
  cases hp with
  | between =>
      cases hstep
      exact Or.inl ⟨rfl, .load⟩
  | load =>
      cases hstep
      dsimp only [Act.sem]
      by_cases hfull : 0 < b.maxConcurrent ∧ (w.cells b.id).queueDepth ≥ b.maxConcurrent
      · right
        simp [Backend.takeSlot, hfull, Backend.nextRound, unroll]
      · left
        show w = w ∧ Reserving b ((ite _ _ _ : Program (Option Bool)).bind b.nextRound)
        rw [if_neg hfull]
        exact ⟨rfl, .swap _ hfull⟩
  | swap current hfree =>
      cases hstep
      dsimp only [Act.sem]
      by_cases hsame : (w.cells b.id).queueDepth = current
      · right
        subst hsame
        rw [Backend.takeSlot, if_neg hfree, if_pos rfl]
        exact ⟨rfl, rfl, rfl⟩
      · left
        rw [if_neg hsame]
        exact ⟨rfl, .between⟩

/-- A round that nobody disturbs is an atomic one. -/
theorem exec_tryReserveOnce (b : Backend) (w : World) :
    exec Act.sem 1 b.tryReserveOnce w = some (some (b.takeSlot w).1, (b.takeSlot w).2) := by
  show exec Act.sem 1
    (ite (0 < b.maxConcurrent ∧ (w.cells b.id).queueDepth ≥ b.maxConcurrent) _ _) w = _
  rw [Backend.takeSlot]
  split
  · rfl
  · let cas := Act.casDepth b.id (w.cells b.id).queueDepth ((w.cells b.id).queueDepth + 1)
    have hcas : cas.sem w = (true, w.reserve b.id) := if_pos rfl
    show exec Act.sem 1 (ite ((cas.sem w).1 = true) _ _) (cas.sem w).2 = _
    rw [hcas]
    rfl

theorem exec_nextRound (b : Backend) (o : Option Bool) (w : World) :
    exec Act.sem 1 (b.nextRound o) w = some (o.elim (b.takeSlot w) (·, w)) := by
  cases o with
  | some x => rfl
  | none => exact exec_untilSome (exec_tryReserveOnce b w)

/-- A swap that nobody disturbs succeeds where the depth is as read. -/
theorem exec_swapDepth (b : Backend) (current : Int64) (w : World) :
    exec Act.sem 1 (b.swapDepth current) w =
      if (w.cells b.id).queueDepth = current then some (some true, w.reserve b.id)
      else some (none, w) := by
  let cas := Act.casDepth b.id current (current + 1)
  show exec Act.sem 1 (ite ((cas.sem w).1 = true) _ _) (cas.sem w).2 = _
  by_cases hsame : (w.cells b.id).queueDepth = current
  · subst hsame
    have hcas : cas.sem w = (true, w.reserve b.id) := if_pos rfl
    rw [hcas]
    exact (if_pos rfl).symm
  · have hcas : cas.sem w = (false, w) := if_neg hsame
    rw [hcas, if_neg hsame]
    rfl

/-- Undisturbed, a call takes effect from wherever it is. -/
theorem Reserving.exec {b : Backend} {p : Program Bool} (hp : Reserving b p) (w : World) :
    exec Act.sem 1 p w = some (b.takeSlot w) := by
  cases hp with
  | between => exact exec_nextRound b none w
  | load =>
      rw [exec_bind, exec_tryReserveOnce]
      exact exec_nextRound b _ _
  | swap current hfree =>
      rw [exec_bind, exec_swapDepth]
      split
      · next hsame =>
          subst hsame
          rw [Backend.takeSlot, if_neg hfree]
          rfl
      · exact exec_nextRound b none w

/-- **A call of `TryReserve` is one step.** -/
theorem atomically_tryReserve (b : Backend) :
    Atomically Act.sem Backend.takeSlot b (Reserving b) :=
  ⟨not_reserving_ret b, fun _ _ _ _ _ hp hstep => hp.step hstep,
    fun _ w hp => returns_of_exec (hp.exec w)⟩

/-! ## The router with slots -/

namespace Atomic

/-- An action of the router with slots: one of the router, or the taking of a slot. -/
abbrev SlotAct := Act ⊕ Backend

/-- The programs of the router with slots. -/
abbrev SlotProgram := Prog SlotAct (Sum.elim Act.Result fun _ : Backend => Bool)

/-- The selection of `handleChatCompletions`, with slots. -/
def reserveFirst (p : Pool) : List Scorer.BackendState →
    SlotProgram (Option (Backend × Scorer.BackendState))
  | [] => return none
  | candidate :: ranked =>
      match p.get candidate.id with
      | none => reserveFirst p ranked
      | some b => do
          let healthy ← b.isHealthy.inl
          if !healthy then reserveFirst p ranked
          else
            let reserved : Bool ← Prog.perform (Sum.inr b)
            if !reserved then reserveFirst p ranked else return some (b, candidate)

/-- `handleChatCompletions`, with slots. -/
def handleChatCompletions (s : Server) (r : Request) : SlotProgram Outcome :=
  match prepare s r with
  | .error out => return out
  | .ok c => do
      let healthyBackends ← (s.pool.healthy r.order).inl
      if healthyBackends.length = 0 then return refuse 503 "no healthy backends available"
      else
        let states ← (statesOf c healthyBackends).inl
        let ranked := Scorer.rank s.weights c.routeReq states
        let selected ← reserveFirst s.pool ranked
        (finish s r c states ranked selected).inl

/-- A request of the router with slots. -/
def request (s : Server) (r : Request) : SlotProgram Done := do
  let out ← handleChatCompletions s r
  return .handled out

/-- The configurations of the router with slots. -/
abbrev System :=
  Interleave.Config World SlotAct (Sum.elim Act.Result fun _ : Backend => Bool) Done

/-- The router with slots before any thread has taken a step. -/
def start (s : Server) (w : World) (checks : ChecksEnv) (requests : List Request) : System :=
  ⟨w, ((s.pool.startHealthChecks checks).map Prog.inl ++ requests.map (request s)).map .start⟩

/-- The steps of the router with slots. -/
abbrev Steps := Path (both Act.sem Backend.takeSlot) (α := Done)

end Atomic

/-- The reserve loop implements the one with atomic slots. -/
theorem implements_reserveFirst (p : Pool) (ranked : List Scorer.BackendState) :
    Implements Reserving (reserveFirst p ranked) (Atomic.reserveFirst p ranked) := by
  induction ranked with
  | nil => rfl
  | cons candidate ranked ih =>
      rw [reserveFirst, Atomic.reserveFirst]
      cases p.get candidate.id with
      | none => exact ih
      | some b =>
          refine (implements_inl b.isHealthy).bind fun healthy => implements_ite ih ?_
          exact ⟨b.tryReserve, _, .between, rfl, fun reserved => implements_ite ih rfl⟩

/-- **The handler implements the one with atomic slots.** -/
theorem implements_handler (s : Server) (r : Request) :
    Implements Reserving (handleChatCompletions s r) (Atomic.handleChatCompletions s r) := by
  rw [handleChatCompletions, Atomic.handleChatCompletions]
  cases prepare s r with
  | error out => rfl
  | ok c =>
      refine (implements_inl _).bind fun found => implements_ite rfl ?_
      refine (implements_inl _).bind fun states => ?_
      exact (implements_reserveFirst s.pool _).bind fun selected => implements_inl _

/-- So does the router at its start. -/
theorem implements_start (s : Server) (w : World) (checks : ChecksEnv) (requests : List Request) :
    (Router.start s w checks requests).Implements Reserving (Atomic.start s w checks requests) := by
  refine ⟨rfl, by simp [Router.start, Atomic.start], fun i t u ht hu => ?_⟩
  rw [Router.start, List.getElem?_map, List.getElem?_append] at ht
  rw [Atomic.start, List.getElem?_map, List.getElem?_append, List.length_map] at hu
  split at ht
  · next hi =>
      rw [if_pos hi, List.getElem?_map, Option.map_map] at hu
      obtain ⟨p, hp, rfl⟩ := Option.map_eq_some_iff.mp ht
      rw [hp, Option.map_some, Option.some.injEq] at hu
      obtain rfl := hu
      exact implements_inl p
  · next hi =>
      rw [if_neg hi, List.getElem?_map, Option.map_map] at hu
      rw [List.getElem?_map, Option.map_map] at ht
      obtain ⟨r, hr, rfl⟩ := Option.map_eq_some_iff.mp ht
      rw [hr, Option.map_some, Option.some.injEq] at hu
      obtain rfl := hu
      exact (implements_handler s r).bind fun out => rfl

/-- The router and the router with slots have come to the same: the shared state, and what each
thread has returned, if it has. -/
structure Atomic.Agrees (c : KvRouter.System) (d : Atomic.System) : Prop where
  shared : c.shared = d.shared
  returned : ∀ (i : ℕ) (x : Done), (∃ trace, c.threads[i]? = some ⟨trace, .ret x⟩) ↔
    ∃ trace, d.threads[i]? = some ⟨trace, .ret x⟩

/-- Systems that implement one another agree on what has been returned. -/
theorem agrees_of_implements {c : System} {d : Atomic.System} (h : c.Implements Reserving d) :
    Atomic.Agrees c d := by
  refine ⟨h.shared, fun i x => ⟨?_, ?_⟩⟩
  · intro ⟨trace, ht⟩
    obtain ⟨⟨trace', q⟩, hu, hq⟩ := h.other ht
    obtain rfl := (hq.ret_iff atomically_tryReserve x).mp rfl
    exact ⟨trace', hu⟩
  · intro ⟨trace', hu⟩
    have hlt : i < c.threads.length := h.length ▸ (List.getElem?_eq_some_iff.mp hu).1
    obtain ⟨⟨trace, p⟩, ht⟩ : ∃ t, c.threads[i]? = some t := ⟨_, List.getElem?_eq_getElem hlt⟩
    have hp := h.threads i _ _ ht hu
    obtain rfl := (hp.ret_iff atomically_tryReserve x).mpr rfl
    exact ⟨trace, ht⟩

/-- **The router is the router with slots**: whatever the one comes to, the other can, and each
action of the latter is the effect that a step of the former had at that moment. -/
theorem slots_atomic (s : Server) (w : World) (checks : ChecksEnv) (requests : List Request) :
    (∀ log c, Steps (Router.start s w checks requests) log c →
      ∃ log' d, Atomic.Steps (Atomic.start s w checks requests) log' d ∧ Atomic.Agrees c d ∧
        List.SublistForall₂ (Marks Act.sem Backend.takeSlot) log' log) ∧
    ∀ log' d, Atomic.Steps (Atomic.start s w checks requests) log' d →
      ∃ log c, Steps (Router.start s w checks requests) log c ∧ Atomic.Agrees c d := by
  have hstart := implements_start s w checks requests
  constructor
  · intro log c h
    obtain ⟨log', d, hpath, himpl, hmarks⟩ := h.implements atomically_tryReserve hstart
    exact ⟨log', d, hpath, agrees_of_implements himpl, hmarks⟩
  · intro log' d h
    obtain ⟨log, c, hpath, himpl⟩ := Path.implemented atomically_tryReserve h hstart
    exact ⟨log, c, hpath, agrees_of_implements himpl⟩

end KvRouter
