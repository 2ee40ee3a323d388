import KvRouter.Exchange
import KvRouter.Handler.Solo
import KvRouter.Lib.Context

/-!
# KvRouter.Shutdown

The life of the process from its first request to its exit, `run` of
`cmd/kv-router/main.go` and `Start` of `internal/api/server.go`: requests are
accepted and served one step at a time, a signal cancels the context of the
process, `Start` then calls `Shutdown`, and the process exits when no handler is
left or the deadline of `Shutdown` passes.

`BaseContext` returns the context of the process, so the context of every request
is derived from it and is done from the signal on: the upstream calls of the
requests in flight fail while `Shutdown` waits for their handlers.
`drained_iff` says which requests come to what their upstream and client
determine all the same.
-/

namespace KvRouter.Shutdown

open Handler Exchange

/-! ## The process -/

/-- The context that `run` makes and cancels. -/
def mainContext : Context := Context.background.child 0

/-- The context of `Shutdown`, derived from the background. -/
def shutdownContext : Context := Context.background.child 1

/-- The context of the `n`-th request: `BaseContext` returns that of the process. -/
def requestContext (n : ℕ) : Context := mainContext.child n

/-- 30 seconds, in nanoseconds. -/
def shutdownTimeout : ℤ := 30000000000

/-- A request and how far its handler has come. -/
structure Serving where
  request : Request
  context : Context
  stage : Stage

inductive Phase
  | serving
  /-- the context is cancelled, and `Shutdown` is not yet called -/
  | signalled
  | draining
  | exited
deriving DecidableEq

structure Process where
  contexts : Contexts
  now : ℤ
  phase : Phase
  requests : List Serving

def Process.start : Process := ⟨.empty, 0, .serving, []⟩

/-- The context of a request is done. -/
def Process.done (s : Process) (q : Serving) : Bool := s.contexts.Done s.now q.context

inductive Event
  | accept (r : Request)
  /-- the handler of the `i`-th request ends its routing -/
  | route (i : ℕ) (decision : Except Outcome Dispatch)
  /-- it makes any other step -/
  | serve (i : ℕ)
  | signal
  | shutdown
  | tick (n : ℕ)
  /-- `Shutdown` finds no handler left -/
  | drained
  /-- `Shutdown` finds its context done -/
  | expired

/-- A step of the `i`-th handler. -/
def Process.advance (s : Process) (i : ℕ) (f : Serving → Option Stage) : Option Process :=
  if s.phase = .exited then none
  else
    s.requests[i]?.bind fun q => (f q).map fun stage =>
      { s with requests := s.requests.set i { q with stage := stage } }

def Process.step (s : Process) : Event → Option Process
  | .accept r =>
      -- the listener is open until `Shutdown` closes it
      if s.phase = .serving ∨ s.phase = .signalled then
        some { s with
          requests := s.requests ++ [⟨r, requestContext s.requests.length, .routing⟩] }
      else none
  | .route i decision => s.advance i fun q => q.stage.route decision
  | .serve i => s.advance i fun q => q.stage.serve q.request (s.done q)
  | .signal =>
      if s.phase = .serving then
        some { s with phase := .signalled, contexts := s.contexts.cancel mainContext }
      else none
  | .shutdown =>
      if s.phase = .signalled then
        some { s with
          phase := .draining
          contexts := s.contexts.withDeadline shutdownContext (s.now + shutdownTimeout) }
      else none
  | .tick n => if s.phase = .exited then none else some { s with now := s.now + n }
  | .drained =>
      if s.phase = .draining ∧ ∀ q ∈ s.requests, q.stage.isEnded = true then
        some { s with phase := .exited }
      else none
  | .expired =>
      if s.phase = .draining ∧ s.contexts.Done s.now shutdownContext then
        some { s with phase := .exited }
      else none

def Process.run (s : Process) : List Event → Option Process
  | [] => some s
  | e :: events => (s.step e).bind fun s' => s'.run events

/-! ## One step -/

variable {s s' : Process} {e : Event}

/-- A step of a handler, whose context is done or is not. -/
def Moves (r : Request) (done : Bool) (st st' : Stage) : Prop :=
  (∃ decision, st.route decision = some st') ∨ st.serve r done = some st'

/-- A request that advances was in a stage that allows it, and the others stay. -/
theorem advance_cases {i : ℕ} {f : Serving → Option Stage} (h : s.advance i f = some s') :
    s.phase ≠ .exited ∧ ∃ q stage, s.requests[i]? = some q ∧ f q = some stage ∧
      s' = { s with requests := s.requests.set i { q with stage := stage } } := by
  unfold Process.advance at h
  split at h
  · contradiction
  · next hphase =>
      obtain ⟨q, hq, hmap⟩ := Option.bind_eq_some_iff.mp h
      obtain ⟨stage, hstage, rfl⟩ := Option.map_eq_some_iff.mp hmap
      exact ⟨hphase, q, stage, hq, hstage, rfl⟩

/-- What a step of the process can do. -/
theorem step_cases (h : s.step e = some s') :
    ((s.phase = .serving ∨ s.phase = .signalled) ∧ ∃ r, s' = { s with
      requests := s.requests ++ [⟨r, requestContext s.requests.length, .routing⟩] }) ∨
    (s.phase ≠ .exited ∧ ∃ i q stage, s.requests[i]? = some q ∧
      Moves q.request (s.done q) q.stage stage ∧
      s' = { s with requests := s.requests.set i { q with stage := stage } }) ∨
    (s.phase = .serving ∧
      s' = { s with phase := .signalled, contexts := s.contexts.cancel mainContext }) ∨
    (s.phase = .signalled ∧ s' = { s with
      phase := .draining
      contexts := s.contexts.withDeadline shutdownContext (s.now + shutdownTimeout) }) ∨
    (s.phase ≠ .exited ∧ ∃ n : ℕ, s' = { s with now := s.now + n }) ∨
    (s.phase = .draining ∧ ((∀ q ∈ s.requests, q.stage.isEnded = true) ∨
      s.contexts.Done s.now shutdownContext) ∧ s' = { s with phase := .exited }) := by
  cases e with
  | accept r =>
      simp only [Process.step, Option.ite_none_right_eq_some, Option.some.injEq] at h
      exact Or.inl ⟨h.1, r, h.2.symm⟩
  | route i decision =>
      obtain ⟨hphase, q, stage, hq, hstage, hs'⟩ := advance_cases h
      exact Or.inr (Or.inl ⟨hphase, i, q, stage, hq, Or.inl ⟨decision, hstage⟩, hs'⟩)
  | serve i =>
      obtain ⟨hphase, q, stage, hq, hstage, hs'⟩ := advance_cases h
      exact Or.inr (Or.inl ⟨hphase, i, q, stage, hq, Or.inr hstage, hs'⟩)
  | signal =>
      simp only [Process.step, Option.ite_none_right_eq_some, Option.some.injEq] at h
      exact Or.inr (Or.inr (Or.inl ⟨h.1, h.2.symm⟩))
  | shutdown =>
      simp only [Process.step, Option.ite_none_right_eq_some, Option.some.injEq] at h
      exact Or.inr (Or.inr (Or.inr (Or.inl ⟨h.1, h.2.symm⟩)))
  | tick n =>
      simp only [Process.step, Option.ite_none_left_eq_some, Option.some.injEq] at h
      exact Or.inr (Or.inr (Or.inr (Or.inr (Or.inl ⟨h.1, n, h.2.symm⟩))))
  | drained =>
      simp only [Process.step, Option.ite_none_right_eq_some, Option.some.injEq] at h
      exact Or.inr (Or.inr (Or.inr (Or.inr (Or.inr ⟨h.1.1, Or.inl h.1.2, h.2.symm⟩))))
  | expired =>
      simp only [Process.step, Option.ite_none_right_eq_some, Option.some.injEq] at h
      exact Or.inr (Or.inr (Or.inr (Or.inr (Or.inr ⟨h.1.1, Or.inr h.1.2, h.2.symm⟩))))

/-- No request is lost, and a step moves its handler if it moves it at all. -/
theorem moves_step (h : s.step e = some s') {i : ℕ} {q : Serving}
    (hq : s.requests[i]? = some q) :
    ∃ stage, s'.requests[i]? = some { q with stage := stage } ∧
      (stage = q.stage ∨ Moves q.request (s.done q) q.stage stage) := by
  obtain ⟨-, r, rfl⟩ | ⟨-, j, p, stage, hp, hmoves, rfl⟩ | ⟨-, rfl⟩ | ⟨-, rfl⟩ | ⟨-, n, rfl⟩ |
    ⟨-, -, rfl⟩ := step_cases h
  · refine ⟨q.stage, ?_, Or.inl rfl⟩
    rw [List.getElem?_append_left (List.getElem?_eq_some_iff.mp hq).1, hq]
  · by_cases hij : j = i
    · subst hij
      obtain rfl := Option.some.inj (hp.symm.trans hq)
      refine ⟨stage, ?_, Or.inr hmoves⟩
      rw [List.getElem?_set_self (List.getElem?_eq_some_iff.mp hp).1]
    · exact ⟨q.stage, by rw [List.getElem?_set_ne hij, hq], Or.inl rfl⟩
  · exact ⟨q.stage, hq, Or.inl rfl⟩
  · exact ⟨q.stage, hq, Or.inl rfl⟩
  · exact ⟨q.stage, hq, Or.inl rfl⟩
  · exact ⟨q.stage, hq, Or.inl rfl⟩

/-- A context that is done stays done. -/
theorem done_step (h : s.step e = some s') {c : Context} (hdone : s.contexts.Done s.now c) :
    s'.contexts.Done s'.now c := by
  obtain ⟨-, r, rfl⟩ | ⟨-, j, p, stage, hp, hmoves, rfl⟩ | ⟨-, rfl⟩ | ⟨-, rfl⟩ | ⟨-, n, rfl⟩ |
    ⟨-, -, rfl⟩ := step_cases h
  · exact hdone
  · exact hdone
  · exact Contexts.done_cancel.mpr (Or.inr hdone)
  · exact Contexts.done_withDeadline.mpr (Or.inr hdone)
  · exact hdone.later (by simp)
  · exact hdone

/-! ## Where a handler is headed -/

/-- The routing of a handler has not led to anything but `decision`. -/
def Allows (st : Stage) (decision : Except Outcome Dispatch) : Prop :=
  ∀ decision', st.decision = some decision' → decision' = decision

/-- A move within the process keeps to a decision that is still open to it. -/
theorem Moves.outcome {r : Request} {done : Bool} {st st' : Stage} (h : Moves r done st st')
    {decision : Except Outcome Dispatch} (hallows : Allows st' decision) :
    Allows st decision ∧ st'.outcome r done decision = st.outcome r done decision := by
  obtain ⟨decision', hroute⟩ | hserve := h
  · obtain ⟨rfl, houtcome, hdecision⟩ : st = .routing ∧
        st'.outcome r done decision' = destined r done decision' ∧
        st'.decision = some decision' := outcome_route hroute
    obtain rfl := hallows decision' hdecision
    exact ⟨fun decision hnone => by contradiction, houtcome⟩
  · obtain ⟨houtcome, hdecision⟩ := outcome_serve hserve decision
    exact ⟨fun decision' hsome => hallows decision' (hdecision.trans hsome), houtcome⟩

/-- **From the signal on**, a handler is headed for what it comes to when its upstream fails. -/
theorem outcome_run {events : List Event} (h : s.run events = some s') {i : ℕ} {q : Serving}
    (hq : s.requests[i]? = some q) (hdone : s.contexts.Done s.now q.context) :
    ∃ stage, s'.requests[i]? = some { q with stage := stage } ∧ ∀ decision,
      Allows stage decision → Allows q.stage decision ∧
        stage.outcome q.request true decision = q.stage.outcome q.request true decision := by
  induction events generalizing s q with
  | nil =>
      obtain rfl := Option.some.inj h
      exact ⟨q.stage, hq, fun decision hallows => ⟨hallows, rfl⟩⟩
  | cons e events ih =>
      obtain ⟨s₁, hstep, hrun⟩ := Option.bind_eq_some_iff.mp h
      obtain ⟨stage₁, hq₁, hmoves⟩ := moves_step hstep hq
      obtain ⟨stage, hq', hkept⟩ := ih hrun hq₁ (done_step hstep hdone)
      refine ⟨stage, hq', fun decision hallows => ?_⟩
      obtain ⟨hallows₁, houtcome⟩ := hkept decision hallows
      obtain rfl | hmoves := hmoves
      · exact ⟨hallows₁, houtcome⟩
      · rw [Process.done, decide_eq_true hdone] at hmoves
        obtain ⟨hallows₀, hfirst⟩ := hmoves.outcome hallows₁
        exact ⟨hallows₀, houtcome.trans hfirst⟩

/-- The handler is headed for what its upstream and client determine. -/
def OnCourse (q : Serving) : Prop :=
  ∀ decision, Allows q.stage decision →
    q.stage.outcome q.request false decision = destined q.request false decision

/-- While its context is alive, a request stays on course. -/
theorem Moves.onCourse {q : Serving} {stage : Stage} (h : Moves q.request false q.stage stage)
    (hq : OnCourse q) : OnCourse { q with stage := stage } := by
  intro decision hallows
  obtain ⟨hallows', houtcome⟩ := h.outcome hallows
  exact houtcome.trans (hq decision hallows')

/-- Before the signal nothing is cancelled, and every handler is on course; every context of a
request is derived from that of the process. -/
structure Process.Undisturbed (s : Process) : Prop where
  contexts : s.phase = .serving → s.contexts = .empty
  derived : ∀ q ∈ s.requests, mainContext <+: q.context
  onCourse : s.phase = .serving → ∀ q ∈ s.requests, OnCourse q

theorem undisturbed_start : Process.start.Undisturbed :=
  ⟨fun _ => rfl, by simp [Process.start], by simp [Process.start]⟩

/-- No step before the signal disturbs an exchange. -/
theorem undisturbed_step (hs : s.Undisturbed) (h : s.step e = some s') : s'.Undisturbed := by
  obtain ⟨-, r, rfl⟩ | ⟨-, i, p, stage, hp, hmoves, rfl⟩ | ⟨-, rfl⟩ | ⟨-, rfl⟩ | ⟨-, n, rfl⟩ |
    ⟨-, -, rfl⟩ := step_cases h
  · refine ⟨hs.contexts, fun q hq => ?_, fun hserving q hq => ?_⟩
    · obtain hq | rfl := List.mem_append.mp hq |>.imp_right List.mem_singleton.mp
      · exact hs.derived q hq
      · exact Context.prefix_child mainContext _
    · obtain hq | rfl := List.mem_append.mp hq |>.imp_right List.mem_singleton.mp
      · exact hs.onCourse hserving q hq
      · exact fun decision _ => rfl
  · have hmem := List.mem_of_getElem? hp
    refine ⟨hs.contexts, fun q hq => ?_, fun hserving q hq => ?_⟩
    · obtain hq | rfl := List.mem_or_eq_of_mem_set hq
      · exact hs.derived q hq
      · exact hs.derived p hmem
    · obtain hq | rfl := List.mem_or_eq_of_mem_set hq
      · exact hs.onCourse hserving q hq
      · have hdone : s.done p = false := by
          rw [Process.done, hs.contexts hserving]
          exact decide_eq_false Contexts.not_done_empty
        rw [hdone] at hmoves
        exact hmoves.onCourse (hs.onCourse hserving p hmem)
  · exact ⟨fun hserving => by contradiction, hs.derived, fun hserving => by contradiction⟩
  · exact ⟨fun hserving => by contradiction, hs.derived, fun hserving => by contradiction⟩
  · exact ⟨hs.contexts, hs.derived, hs.onCourse⟩
  · exact ⟨fun hserving => by contradiction, hs.derived, fun hserving => by contradiction⟩

/-- **Before the signal** every request is on course. -/
theorem undisturbed_run {events : List Event} (hs : s.Undisturbed) (h : s.run events = some s') :
    s'.Undisturbed := by
  induction events generalizing s with
  | nil => exact Option.some.inj h ▸ hs
  | cons e events ih =>
      obtain ⟨s₁, hstep, hrun⟩ := Option.bind_eq_some_iff.mp h
      exact ih (undisturbed_step hs hstep) hrun

/-! ## The exit -/

/-- The process has not exited before the deadline with a handler still running. -/
def Process.Waited (s : Process) : Prop :=
  s.phase = .exited → ¬s.contexts.Done s.now shutdownContext →
    ∀ q ∈ s.requests, q.stage.isEnded = true

/-- Whoever has exited has waited for the requests, or for the deadline. -/
theorem waited_step (h : s.step e = some s') : s'.Waited := by
  obtain ⟨hphase, r, rfl⟩ | ⟨hphase, i, p, stage, hp, hmoves, rfl⟩ | ⟨-, rfl⟩ | ⟨-, rfl⟩ |
    ⟨hphase, n, rfl⟩ | ⟨-, hexit, rfl⟩ := step_cases h
  · intro hexited
    dsimp only at hexited
    simp [hexited] at hphase
  · exact fun hexited => absurd hexited hphase
  · exact fun hexited => by contradiction
  · exact fun hexited => by contradiction
  · exact fun hexited => absurd hexited hphase
  · exact fun _ hearly => hexit.resolve_right hearly

/-- This holds after every run. -/
theorem waited_run {events : List Event} (hs : s.Waited) (h : s.run events = some s') :
    s'.Waited := by
  induction events generalizing s with
  | nil => exact Option.some.inj h ▸ hs
  | cons e events ih =>
      obtain ⟨s₁, hstep, hrun⟩ := Option.bind_eq_some_iff.mp h
      exact ih (waited_step hstep) hrun

/-! ## Graceful drain -/

/-- The `i`-th request is `r`; once its handler has ended it has come to what its upstream and
client determine, and the process does not exit before the deadline while it runs. -/
structure Drained (r : Request) (i : ℕ) (s : Process) : Prop where
  served : ∃ q, s.requests[i]? = some q ∧ q.request = r
  outcome : ∀ q decision x, s.requests[i]? = some q → q.stage = .ended decision x →
    x.delivery = (destined r false decision).delivery
  waited : s.phase = .exited → ¬s.contexts.Done s.now shutdownContext →
    ∀ q, s.requests[i]? = some q → q.stage.isEnded = true

/-- From the signal on, a request in flight comes to what it comes to when its upstream fails. -/
theorem ended_of_signal {before after : List Event} {q : Serving} {i : ℕ}
    (hbefore : Process.start.run before = some s) (hq : s.requests[i]? = some q)
    (hafter : s.run (.signal :: after) = some s') :
    ∃ stage, s'.requests[i]? = some { q with stage := stage } ∧ ∀ decision x,
      stage = .ended decision x → x = q.stage.outcome q.request true decision ∧
        q.stage.outcome q.request false decision = destined q.request false decision := by
  have hundisturbed := undisturbed_run undisturbed_start hbefore
  have hmem := List.mem_of_getElem? hq
  simp only [Process.run, Process.step, Option.bind_eq_some_iff, Option.ite_none_right_eq_some,
    Option.some.injEq] at hafter
  obtain ⟨s₁, ⟨hserving, rfl⟩, hrun⟩ := hafter
  obtain ⟨stage, hq', hkept⟩ := outcome_run hrun hq
    (Contexts.done_cancel.mpr (Or.inl (hundisturbed.derived q hmem)))
  refine ⟨stage, hq', ?_⟩
  rintro decision x rfl
  obtain ⟨hallows, houtcome⟩ := hkept decision fun decision' h => (Option.some.inj h).symm
  exact ⟨houtcome, hundisturbed.onCourse hserving q hmem decision hallows⟩

/-- **Which requests in flight at the signal are drained**: those whose stage at the signal is
spared by the failure of the upstream. -/
theorem drained_iff {before after : List Event} {q : Serving} {i : ℕ}
    (hbefore : Process.start.run before = some s) (hq : s.requests[i]? = some q)
    (hafter : s.run (.signal :: after) = some s') :
    Drained q.request i s' ↔ ∀ decision x,
      s'.requests[i]? = some { q with stage := .ended decision x } →
        q.stage.Spared q.request decision := by
  obtain ⟨stage, hq', hended⟩ := ended_of_signal hbefore hq hafter
  constructor
  · intro hdrained decision x hx
    obtain rfl : stage = .ended decision x := by
      rw [hq', Option.some.injEq, Serving.mk.injEq] at hx
      exact hx.2.2
    obtain ⟨rfl, hcourse⟩ := hended decision x rfl
    rw [← delivery_outcome_iff, hcourse]
    exact hdrained.outcome _ decision _ hx rfl
  · intro hspared
    have hwaited : s'.Waited :=
      waited_run (waited_run (by intro h; contradiction) hbefore) hafter
    refine ⟨⟨_, hq', rfl⟩, fun q' decision x hx hstage => ?_, fun hexit hearly q' hx => ?_⟩
    · obtain rfl := Option.some.inj (hq'.symm.trans hx)
      obtain rfl : stage = .ended decision x := hstage
      obtain ⟨rfl, hcourse⟩ := hended decision x rfl
      rw [← hcourse, delivery_outcome_iff]
      exact hspared decision _ hx
    · exact hwaited hexit hearly q' (List.mem_of_getElem? hx)

/-- A stream of two reads, `A` and `B`. -/
def twoReads (order : GoMap.RangeOrder String Backend) (evictions : ℕ → CacheIndex.ScanOrder) :
    Request :=
  { Sample.request order evictions with
    upstream := fun _ => .ok ⟨200, .read [65] (.last [66] none)⟩ }

/-- Its dispatch. -/
def toBackend : Dispatch :=
  ⟨{ Sample.chat with req := { Sample.chat.req with stream := true } }, ⟨"a", "http://a", 1⟩,
    ⟨"a", 0, 0, 1, 0, 10, true⟩, 0, 0⟩

/-- The signal falls between two reads, and the rest of the stream is lost. -/
theorem stream_cut_by_signal :
    let r := twoReads default fun _ => default
    let before : List Event := [.accept r, .route 0 (.ok toBackend), .serve 0]
    let after : List Event := [.signal, .shutdown, .serve 0, .serve 0, .serve 0, .drained]
    ∃ s s' x, Process.start.run before = some s ∧ s.run after = some s' ∧
      s'.phase = .exited ∧ ¬s'.contexts.Done s'.now shutdownContext ∧
      s'.requests = [⟨r, requestContext 0, .ended (.ok toBackend) x⟩] ∧
      x.delivery = ⟨200, [], false, false⟩ ∧
      (destined r false (.ok toBackend)).delivery =
        ⟨200, [.bytes [65], .bytes [66]], false, true⟩ ∧
      ¬Drained r 0 s' := by
  intro r before after
  refine ⟨_, _, _, rfl, rfl, rfl, by decide, rfl, rfl, rfl, fun h => ?_⟩
  have hlost := h.outcome _ _ _ rfl rfl
  have hcommits := congrArg Delivery.commits hlost
  contradiction

/-- A signal after the last read leaves the stream whole. -/
theorem drained_iff_lastRead :
    let r := twoReads default fun _ => default
    let before : List Event := [.accept r, .route 0 (.ok toBackend), .serve 0, .serve 0, .serve 0,
      .serve 0]
    let after : List Event := [.shutdown, .serve 0, .serve 0, .drained]
    ∃ s s', Process.start.run before = some s ∧ s.run (.signal :: after) = some s' ∧
      s'.phase = .exited ∧ Drained r 0 s' := by
  intro r before after
  let t : Relay := ⟨200, some ⟨"a", 0⟩, ⟨some "a", some 200, [.bytes [65]]⟩⟩
  let q : Serving := ⟨r, requestContext 0, .writing toBackend t [66] (.stop none)⟩
  have hbefore : Process.start.run before = some ⟨.empty, 0, .serving, [q]⟩ := rfl
  have hq : ([q] : List Serving)[0]? = some q := rfl
  let x : Ending := .stream t.ttft none ⟨some "a", some 200, [.bytes [65], .bytes [66]]⟩
  let s' : Process := ⟨⟨[mainContext], [(shutdownContext, shutdownTimeout)]⟩, 0, .exited,
    [{ q with stage := .ended (.ok toBackend) x }]⟩
  have hafter : Process.run ⟨.empty, 0, .serving, [q]⟩ (.signal :: after) = some s' := rfl
  refine ⟨_, s', hbefore, hafter, rfl, (drained_iff hbefore hq hafter).mpr ?_⟩
  intro decision x hx rest hrest
  contradiction

end KvRouter.Shutdown
