import KvRouter.Lib.Channel
import KvRouter.Shutdown

/-!
# KvRouter.Lifecycle

The goroutines around the handlers: `run` of `cmd/kv-router/main.go`, the
goroutine in which it calls `Start`, and the listener goroutine of `Start`.  They
talk through three channels of capacity one: the signals, the result of `Start`
and the error of `ListenAndServe`.  A step is a step of one goroutine, of a
handler, of the clock, or of the environment: a signal, the return of
`ListenAndServe`, the return of `Shutdown`.

`Moves` says what each step can do; the results are in `KvRouter.Lifecycle.ExitCode`
and `KvRouter.Lifecycle.Progress`.
-/

namespace KvRouter.Lifecycle

open Shutdown

/-! ## The goroutines -/

/-- An error that `Start` returns. -/
inductive StartError
  /-- of `ListenAndServe` -/
  | listen (err : String)
  /-- of `Shutdown`: the deadline has passed -/
  | deadline
deriving DecidableEq

/-- `run`, from its `select` on. -/
inductive MainStage
  | selecting
  /-- the signal is received and the context cancelled -/
  | joining
  | exited (code : ℕ)
deriving DecidableEq

/-- `Start`, and the send of its result. -/
inductive StartStage
  | selecting
  | shutting
  | draining
  | returning (err : Option StartError)
  | returned (err : Option StartError)
deriving DecidableEq

/-- The listener goroutine. -/
inductive ListenStage
  | serving
  /-- `ListenAndServe` has returned; `none` is `ErrServerClosed` -/
  | returned (err : Option String)
  | sent (err : String)
  | ended (err : Option String)
deriving DecidableEq

structure Life where
  process : Process
  main : MainStage
  start : StartStage
  listen : ListenStage
  sigCh : Channel Unit
  /-- `errCh` of `run` -/
  startCh : Channel (Option StartError)
  /-- `errCh` of `Start` -/
  listenCh : Channel String

/-- The process when `run` has come to its `select`. -/
def Life.boot : Life :=
  ⟨.start, .selecting, .selecting, .serving, .make 1, .make 1, .make 1⟩

/-! ## Steps -/

inductive LifeEvent
  /-- a request, a step of its handler, or the clock -/
  | request (e : Event)
  | signal
  | listenReturns (err : Option String)
  | listenSends
  | listenCloses
  | startReceives
  | startCancelled
  | shutdownReturns (expired : Bool)
  | startReturns
  | mainSignalled
  | mainReceives

/-- The events of the process that are not those of its goroutines. -/
def isRequest : Event → Bool
  | .accept _ => true
  | .route _ _ => true
  | .serve _ => true
  | .tick _ => true
  | _ => false

/-- The listener takes new connections. -/
def Life.accepts (s : Life) : Event → Bool
  | .accept _ => s.listen = .serving
  | _ => true

/-- The exit code that `run` returns for the result of `Start`. -/
def exitCode (err : Option StartError) : ℕ := if err.isSome then 1 else 0

/-- A step while `run` has not returned. -/
def Life.move (s : Life) : LifeEvent → Option Life
  | .request e =>
      if isRequest e ∧ s.accepts e then (s.process.step e).map fun p => { s with process := p }
      else none
  | .signal => some { s with sigCh := s.sigCh.offer () }
  | .listenReturns err =>
      -- `ErrServerClosed` is returned only once `Shutdown` is called
      if s.listen = .serving ∧
          (err = none → s.process.phase = .draining ∨ s.process.phase = .exited) then
        some { s with listen := .returned err }
      else none
  | .listenSends =>
      match s.listen with
      | .returned (some err) =>
          (s.listenCh.send err).map fun ch => { s with listenCh := ch, listen := .sent err }
      | _ => none
  | .listenCloses =>
      match s.listen with
      | .returned none =>
          s.listenCh.close.map fun ch => { s with listenCh := ch, listen := .ended none }
      | .sent err =>
          s.listenCh.close.map fun ch => { s with listenCh := ch, listen := .ended (some err) }
      | _ => none
  | .startReceives =>
      -- a case of the `select`, or the receive after `Shutdown`
      if s.start = .selecting ∨ s.start = .draining then
        s.listenCh.recv.map fun x =>
          { s with listenCh := x.2, start := .returning (x.1.map .listen) }
      else none
  | .startCancelled =>
      if s.start = .selecting then
        (s.process.step .shutdown).map fun p => { s with process := p, start := .shutting }
      else none
  | .shutdownReturns expired =>
      if s.start = .shutting then
        (s.process.step (if expired then .expired else .drained)).map fun p =>
          { s with
            process := p
            start := if expired then .returning (some .deadline) else .draining }
      else none
  | .startReturns =>
      match s.start with
      | .returning err => (s.startCh.send err).map fun ch =>
          { s with startCh := ch, start := .returned err }
      | _ => none
  | .mainSignalled =>
      if s.main = .selecting then
        s.sigCh.recv.bind fun x => (s.process.step .signal).map fun p =>
          { s with sigCh := x.2, process := p, main := .joining }
      else none
  | .mainReceives =>
      s.startCh.recv.map fun x =>
        { s with startCh := x.2, main := .exited (exitCode (x.1.getD none)) }

def Life.exited (s : Life) : Bool :=
  match s.main with
  | .exited _ => true
  | _ => false

/-- When `run` has returned, the process is gone. -/
def Life.step (s : Life) (e : LifeEvent) : Option Life := if s.exited then none else s.move e

def Life.run (s : Life) : List LifeEvent → Option Life
  | [] => some s
  | e :: events => (s.step e).bind fun s' => s'.run events

/-! ## What a step can do -/

/-- A step of one goroutine, a handler or the environment. -/
inductive Moves (s : Life) : LifeEvent → Life → Prop
  | request {e : Event} {p : Process} (he : isRequest e) (hp : s.process.step e = some p) :
      Moves s (.request e) { s with process := p }
  | signal : Moves s .signal { s with sigCh := s.sigCh.offer () }
  | listenReturns {err : Option String} (hlisten : s.listen = .serving)
      (hclosed : err = none → s.process.phase = .draining ∨ s.process.phase = .exited) :
      Moves s (.listenReturns err) { s with listen := .returned err }
  | listenSends {err : String} {ch : Channel String} (hlisten : s.listen = .returned (some err))
      (hch : s.listenCh.send err = some ch) :
      Moves s .listenSends { s with listenCh := ch, listen := .sent err }
  | listenCloses {err : Option String} {ch : Channel String}
      (hlisten : s.listen = .returned none ∧ err = none ∨ ∃ x, s.listen = .sent x ∧ err = some x)
      (hch : s.listenCh.close = some ch) :
      Moves s .listenCloses { s with listenCh := ch, listen := .ended err }
  | startReceives {y : Option String} {ch : Channel String}
      (hstart : s.start = .selecting ∨ s.start = .draining) (hch : s.listenCh.recv = some (y, ch)) :
      Moves s .startReceives { s with listenCh := ch, start := .returning (y.map .listen) }
  | startCancelled (hstart : s.start = .selecting) (hphase : s.process.phase = .signalled) :
      Moves s .startCancelled { s with
        process := { s.process with
          phase := .draining
          contexts := s.process.contexts.withDeadline shutdownContext
            (s.process.now + shutdownTimeout) }
        start := .shutting }
  | drained (hstart : s.start = .shutting) (hphase : s.process.phase = .draining)
      (hended : ∀ q ∈ s.process.requests, q.stage.isEnded = true) :
      Moves s (.shutdownReturns false) { s with
        process := { s.process with phase := .exited }, start := .draining }
  | expired (hstart : s.start = .shutting) (hphase : s.process.phase = .draining)
      (hdone : s.process.contexts.Done s.process.now shutdownContext) :
      Moves s (.shutdownReturns true) { s with
        process := { s.process with phase := .exited }, start := .returning (some .deadline) }
  | startReturns {err : Option StartError} {ch : Channel (Option StartError)}
      (hstart : s.start = .returning err) (hch : s.startCh.send err = some ch) :
      Moves s .startReturns { s with startCh := ch, start := .returned err }
  | mainSignalled {y : Option Unit} {ch : Channel Unit} (hmain : s.main = .selecting)
      (hphase : s.process.phase = .serving) (hch : s.sigCh.recv = some (y, ch)) :
      Moves s .mainSignalled { s with
        sigCh := ch
        process := { s.process with
          phase := .signalled, contexts := s.process.contexts.cancel mainContext }
        main := .joining }
  | mainReceives {y : Option (Option StartError)} {ch : Channel (Option StartError)}
      (hch : s.startCh.recv = some (y, ch)) :
      Moves s .mainReceives { s with startCh := ch, main := .exited (exitCode (y.getD none)) }

variable {s s' : Life} {e : LifeEvent}

/-- What a goroutine does is one of the moves. -/
theorem moves_of_move (h : s.move e = some s') : Moves s e s' := by
  cases e with
  | request e =>
      simp only [Life.move, Option.ite_none_right_eq_some, Option.map_eq_some_iff] at h
      obtain ⟨⟨he, -⟩, p, hp, rfl⟩ := h
      exact .request he hp
  | signal =>
      obtain rfl := Option.some.inj h
      exact .signal
  | listenReturns err =>
      simp only [Life.move, Option.ite_none_right_eq_some, Option.some.injEq] at h
      obtain ⟨⟨hlisten, hclosed⟩, rfl⟩ := h
      exact .listenReturns hlisten hclosed
  | listenSends =>
      simp only [Life.move] at h
      split at h
      · next err hlisten =>
          obtain ⟨ch, hch, rfl⟩ := Option.map_eq_some_iff.mp h
          exact .listenSends hlisten hch
      · contradiction
  | listenCloses =>
      simp only [Life.move] at h
      split at h
      · next hlisten =>
          obtain ⟨ch, hch, rfl⟩ := Option.map_eq_some_iff.mp h
          exact .listenCloses (Or.inl ⟨hlisten, rfl⟩) hch
      · next err hlisten =>
          obtain ⟨ch, hch, rfl⟩ := Option.map_eq_some_iff.mp h
          exact .listenCloses (Or.inr ⟨err, hlisten, rfl⟩) hch
      · contradiction
  | startReceives =>
      simp only [Life.move, Option.ite_none_right_eq_some, Option.map_eq_some_iff] at h
      obtain ⟨hstart, ⟨y, ch⟩, hch, rfl⟩ := h
      exact .startReceives hstart hch
  | startCancelled =>
      simp only [Life.move, Process.step, Option.ite_none_right_eq_some, Option.map_eq_some_iff,
        Option.some.injEq] at h
      obtain ⟨hstart, p, ⟨hphase, rfl⟩, rfl⟩ := h
      exact .startCancelled hstart hphase
  | shutdownReturns expired =>
      cases expired with
      | false =>
          simp only [Life.move, Process.step, Option.ite_none_right_eq_some,
            Option.map_eq_some_iff, Option.some.injEq, Bool.false_eq_true, if_false] at h
          obtain ⟨hstart, p, ⟨⟨hphase, hended⟩, rfl⟩, rfl⟩ := h
          exact .drained hstart hphase hended
      | true =>
          simp only [Life.move, Process.step, Option.ite_none_right_eq_some,
            Option.map_eq_some_iff, Option.some.injEq, if_true] at h
          obtain ⟨hstart, p, ⟨⟨hphase, hdone⟩, rfl⟩, rfl⟩ := h
          exact .expired hstart hphase hdone
  | startReturns =>
      simp only [Life.move] at h
      split at h
      · next err hstart =>
          obtain ⟨ch, hch, rfl⟩ := Option.map_eq_some_iff.mp h
          exact .startReturns hstart hch
      · contradiction
  | mainSignalled =>
      simp only [Life.move, Process.step, Option.ite_none_right_eq_some, Option.bind_eq_some_iff,
        Option.map_eq_some_iff, Option.some.injEq] at h
      obtain ⟨hmain, ⟨y, ch⟩, hch, p, ⟨hphase, rfl⟩, rfl⟩ := h
      exact .mainSignalled hmain hphase hch
  | mainReceives =>
      simp only [Life.move, Option.map_eq_some_iff] at h
      obtain ⟨⟨y, ch⟩, hch, rfl⟩ := h
      exact .mainReceives hch

/-- **What a step can do.** -/
theorem step_moves (h : s.step e = some s') : s.exited = false ∧ Moves s e s' := by
  simp only [Life.step, Option.ite_none_left_eq_some, Bool.not_eq_true] at h
  exact ⟨h.1, moves_of_move h.2⟩

end KvRouter.Lifecycle
