import KvRouter.Lifecycle.ExitCode

/-!
# KvRouter.Lifecycle.Progress

The goroutines never block each other: a process that has not exited waits for a
signal, for the end of a handler, or has a goroutine that can move
(`exists_move`).  They make nine steps at most (`remaining_run`), and the wait for
a handler ends at the deadline of `Shutdown` (`exists_expiry`).
-/

namespace KvRouter.Lifecycle

open Shutdown

variable {s s' : Life} {e : LifeEvent}

/-! ## No deadlock -/

/-- A step of a goroutine, or a return that it waits for and that comes. -/
def isGoroutine : LifeEvent → Bool
  | .request _ => false
  | .signal => false
  | _ => true

/-- Nothing has happened to the process: no signal, and no failure of the listener. -/
structure Life.Idle (s : Life) : Prop where
  main : s.main = .selecting
  sigCh : s.sigCh.buffer = []
  start : s.start = .selecting
  listen : s.listen = .serving

/-- `Shutdown` waits for a handler, and its deadline has not passed. -/
structure Life.Waiting (s : Life) : Prop where
  start : s.start = .shutting
  handler : ∃ q ∈ s.process.requests, q.stage.isEnded = false
  deadline : ¬s.process.contexts.Done s.process.now shutdownContext

/-- The listener goroutine moves once `ListenAndServe` has returned. -/
theorem exists_listen_move (hs : s.Consistent) (hserving : s.listen ≠ .serving)
    (hended : s.listen.isEnded = false) : ∃ e, isGoroutine e ∧ (s.move e).isSome := by
  have hch := hs.listenCh
  match hlisten : s.listen with
  | .serving => exact absurd hlisten hserving
  | .returned none =>
      exact ⟨.listenCloses, rfl, by simp [Life.move, hlisten, hch, inListenCh, ListenStage.isEnded]⟩
  | .returned (some err) =>
      exact ⟨.listenSends, rfl,
        by simp [Life.move, hlisten, hch, inListenCh, ListenStage.isEnded, Channel.send]⟩
  | .sent err => exact ⟨.listenCloses, rfl, by simp [Life.move, hlisten, hch, ListenStage.isEnded]⟩
  | .ended err => simp [hlisten, ListenStage.isEnded] at hended

/-- `Start` does not block on the listener goroutine once that has ended. -/
theorem exists_receive (hs : s.Consistent) (hstart : s.start = .selecting ∨ s.start = .draining)
    (hended : s.listen.isEnded = true) : ∃ e, isGoroutine e ∧ (s.move e).isSome := by
  have hnone : s.start.result = none := by
    obtain hstart | hstart := hstart <;> rw [hstart] <;> rfl
  refine ⟨.startReceives, rfl, ?_⟩
  rw [Life.move, if_pos hstart, hs.listenCh, hnone]
  cases hlisten : s.listen with
  | ended err => cases err <;> simp [inListenCh, ListenStage.isEnded]
  | _ => simp [hlisten, ListenStage.isEnded] at hended

/-- `Start` is selecting or draining, and the listener goroutine has something to do or is done. -/
theorem exists_receive_move (hs : s.Consistent)
    (hstart : s.start = .selecting ∨ s.start = .draining)
    (hserving : s.listen ≠ .serving) : ∃ e, isGoroutine e ∧ (s.move e).isSome := by
  cases hended : s.listen.isEnded with
  | false => exact exists_listen_move hs hserving hended
  | true => exact exists_receive hs hstart hended

/-- **No deadlock**: a process that has not exited, is not idle and does not wait for a handler
has a goroutine that can move. -/
theorem exists_move (hs : s.Consistent) (hlive : s.exited = false) (hidle : ¬s.Idle)
    (hwaiting : ¬s.Waiting) : ∃ e, isGoroutine e ∧ (s.move e).isSome := by
  have hphase := hs.phase
  match hstart : s.start with
  | .selecting =>
      rw [hstart] at hphase
      by_cases hserving : s.listen = .serving
      · obtain hphase | hphase := hphase
        · have hmain : s.main = .selecting := hs.selecting.mpr ⟨hphase, hlive⟩
          have hsignal : s.sigCh.buffer ≠ [] :=
            fun hempty => hidle ⟨hmain, hempty, hstart, hserving⟩
          obtain ⟨x, rest, hbuffer⟩ := List.exists_cons_of_ne_nil hsignal
          exact ⟨.mainSignalled, rfl,
            by simp [Life.move, hmain, Channel.recv, hbuffer, Process.step, hphase]⟩
        · exact ⟨.startCancelled, rfl, by simp [Life.move, hstart, Process.step, hphase]⟩
      · exact exists_receive_move hs (Or.inl hstart) hserving
  | .shutting =>
      rw [hstart] at hphase
      have hdraining : s.process.phase = .draining := hphase
      by_cases hended : ∀ q ∈ s.process.requests, q.stage.isEnded = true
      · exact ⟨.shutdownReturns false, rfl,
          by simpa [Life.move, hstart, Process.step, hdraining] using hended⟩
      · have hdone : s.process.contexts.Done s.process.now shutdownContext := by
          by_contra hnot
          exact hwaiting ⟨hstart, by simpa using hended, hnot⟩
        exact ⟨.shutdownReturns true, rfl,
          by simp [Life.move, hstart, Process.step, hdraining, hdone]⟩
  | .draining =>
      rw [hstart] at hphase
      have hexited : s.process.phase = .exited := hphase
      by_cases hserving : s.listen = .serving
      · exact ⟨.listenReturns none, rfl, by simp [Life.move, hserving, hexited]⟩
      · exact exists_receive_move hs (Or.inr hstart) hserving
  | .returning err =>
      refine ⟨.startReturns, rfl, ?_⟩
      simp [Life.move, hstart, hs.startCh, inStartCh_eq_nil, Channel.send]
  | .returned err =>
      have hrun : ∀ code, s.main ≠ .exited code := by
        intro code hcode
        simp [Life.exited, hcode] at hlive
      refine ⟨.mainReceives, rfl, ?_⟩
      simp [Life.move, hs.startCh, hstart, inStartCh_returned hrun]

/-! ## Termination -/

def MainStage.remaining : MainStage → ℕ
  | .selecting => 2
  | .joining => 1
  | .exited _ => 0

def StartStage.remaining : StartStage → ℕ
  | .selecting => 4
  | .shutting => 3
  | .draining => 2
  | .returning _ => 1
  | .returned _ => 0

def ListenStage.remaining : ListenStage → ℕ
  | .serving => 3
  | .returned _ => 2
  | .sent _ => 1
  | .ended _ => 0

/-- A bound on the steps that the goroutines have before them. -/
def Life.remaining (s : Life) : ℕ := s.main.remaining + s.start.remaining + s.listen.remaining

/-- A goroutine has one step less before it after each. -/
theorem remaining_step (h : s.step e = some s') :
    s'.remaining + (if isGoroutine e then 1 else 0) ≤ s.remaining := by
  obtain ⟨hlive, h⟩ := step_moves h
  cases h with
  | request he hp => exact Nat.le_refl _
  | signal => exact Nat.le_refl _
  | listenReturns hlisten hclosed | listenSends hlisten hch =>
      simp only [Life.remaining, isGoroutine, hlisten, ListenStage.remaining, if_true]
      omega
  | listenCloses hlisten hch =>
      obtain ⟨hlisten, rfl⟩ | ⟨x, hlisten, rfl⟩ := hlisten
      all_goals
        simp only [Life.remaining, isGoroutine, hlisten, ListenStage.remaining, if_true]
        omega
  | startReceives hstart hch =>
      obtain hstart | hstart := hstart
      all_goals
        simp only [Life.remaining, isGoroutine, hstart, StartStage.remaining, if_true]
        omega
  | startCancelled hstart hphase | drained hstart hphase hended | expired hstart hphase hdone
  | startReturns hstart hch =>
      simp only [Life.remaining, isGoroutine, hstart, StartStage.remaining, if_true]
      omega
  | mainSignalled hmain hphase hch =>
      simp only [Life.remaining, isGoroutine, hmain, MainStage.remaining, if_true]
      omega
  | mainReceives hch =>
      have hmain : 0 < s.main.remaining := by
        cases hmain : s.main with
        | exited code => simp [Life.exited, hmain] at hlive
        | _ => simp [MainStage.remaining]
      show 0 + s.start.remaining + s.listen.remaining + 1 ≤ _
      rw [Life.remaining]
      omega

/-- A run uses up one of the remaining steps for each of its own. -/
theorem remaining_run {events : List LifeEvent} (h : s.run events = some s') :
    s'.remaining + events.countP isGoroutine ≤ s.remaining := by
  induction events generalizing s with
  | nil =>
      obtain rfl := Option.some.inj h
      exact Nat.le_refl _
  | cons e events ih =>
      obtain ⟨s₁, hstep, hrun⟩ := Option.bind_eq_some_iff.mp h
      have hfirst := remaining_step hstep
      have hrest := ih hrun
      rw [List.countP_cons]
      omega

theorem step_of_move (hlive : s.exited = false) (h : s.move e = some s') : s.step e = some s' := by
  rw [Life.step, hlive, if_neg Bool.false_ne_true, h]

/-- Waiting ends: the clock runs to the deadline, and `Shutdown` returns. -/
theorem exists_expiry {events : List LifeEvent} (hs : s.Consistent) (hrec : Recorded events s)
    (hlive : s.exited = false) (hwaiting : s.Waiting) :
    ∃ (n : ℕ) (s₁ s₂ : Life), s.step (.request (.tick n)) = some s₁ ∧
      s₁.step (.shutdownReturns true) = some s₂ := by
  obtain ⟨t, ht⟩ := hrec.deadline hwaiting.start
  have hphase := hs.phase
  rw [hwaiting.start] at hphase
  have hdraining : s.process.phase = .draining := hphase
  let n := (t - s.process.now).toNat
  let p : Process := { s.process with now := s.process.now + n }
  have hdone : p.contexts.Done p.now shutdownContext :=
    Or.inr ⟨(shutdownContext, t), ht, List.prefix_refl _, by dsimp only [p, n]; omega⟩
  refine ⟨n, { s with process := p }, { s with
    process := { p with phase := .exited }, start := .returning (some .deadline) },
    step_of_move hlive ?_, step_of_move hlive ?_⟩
  · simp [Life.move, isRequest, Life.accepts, Process.step, hdraining, p]
  · have hstep : p.step .expired = some { p with phase := .exited } :=
      if_pos ⟨hdraining, hdone⟩
    simp [Life.move, hwaiting.start, hstep]

/-- The steps that lead to the exit: of the goroutines, and of the clock. -/
def isProgress : LifeEvent → Bool
  | .request (.tick _) => true
  | e => isGoroutine e

/-- A process that is not idle does not become idle again. -/
theorem not_idle_step (hs : s.Consistent) (hidle : ¬s.Idle) (h : s.step e = some s') :
    ¬s'.Idle := by
  obtain ⟨-, h⟩ := step_moves h
  intro hidle'
  obtain ⟨hmain, hsig, hstart, hlisten⟩ := hidle'
  cases h with
  | request he hp => exact hidle ⟨hmain, hsig, hstart, hlisten⟩
  | signal => exact Channel.offer_buffer_ne_nil hs.sigCh.2 (by simp [hs.sigCh.1]) () hsig
  | _ => contradiction

/-- From anything but the idle state the process can be brought to its exit. -/
theorem exists_exit {events : List LifeEvent} (hs : s.Consistent) (hrec : Recorded events s)
    (hidle : ¬s.Idle) : ∃ rest s', (∀ e ∈ rest, isProgress e) ∧ s.run rest = some s' ∧
      s'.exited = true := by
  induction hn : s.remaining using Nat.strong_induction_on generalizing s events with
  | _ n ih =>
    cases hlive : s.exited with
    | true => exact ⟨[], s, by simp, rfl, hlive⟩
    | false =>
        by_cases hwaiting : s.Waiting
        · obtain ⟨m, s₁, s₂, htick, hreturn⟩ := exists_expiry hs hrec hlive hwaiting
          have hs₁ := hs.step htick
          have hlt := remaining_step htick
          have hlt' := remaining_step hreturn
          simp only [isGoroutine] at hlt hlt'
          obtain ⟨rest, s', hrest, hrun, hexit⟩ := ih s₂.remaining (by simp at hlt hlt'; omega)
            (hs₁.step hreturn) (recorded_step hs₁ (recorded_step hs hrec htick) hreturn)
            (not_idle_step hs₁ (not_idle_step hs hidle htick) hreturn) rfl
          refine ⟨.request (.tick m) :: .shutdownReturns true :: rest, s', ?_, ?_, hexit⟩
          · simpa [isProgress, isGoroutine] using hrest
          · simp [Life.run, htick, hreturn, hrun]
        · obtain ⟨e, he, hmove⟩ := exists_move hs hlive hidle hwaiting
          obtain ⟨s₁, hs₁⟩ := Option.isSome_iff_exists.mp hmove
          have hstep := step_of_move hlive hs₁
          have hlt := remaining_step hstep
          rw [he, if_pos rfl] at hlt
          obtain ⟨rest, s', hrest, hrun, hexit⟩ := ih s₁.remaining (by omega) (hs.step hstep)
            (recorded_step hs hrec hstep) (not_idle_step hs hidle hstep) rfl
          refine ⟨e :: rest, s', ?_, by simp [Life.run, hstep, hrun], hexit⟩
          have hprogress : isProgress e = true := by
            cases e with
            | request e => simp [isGoroutine] at he
            | _ => exact he
          simpa [hprogress] using hrest

/-- A run, and how it goes on. -/
structure Completes (events : List LifeEvent) (s : Life) : Prop where
  bounded : events.countP isGoroutine ≤ 9
  /-- if no goroutine can move, it is for want of a signal or of the end of a handler -/
  moves : s.exited = false → ¬s.Idle → ¬s.Waiting → ∃ e s', isGoroutine e ∧ s.step e = some s'
  exits : (.signal ∈ events ∨ ∃ err, .listenReturns (some err) ∈ events) →
    ∃ rest s', (∀ e ∈ rest, isProgress e) ∧ s.run rest = some s' ∧ s'.exited = true

/-- **Shutdown completes**: in no run do the goroutines make more than nine steps or block each
other, and from a signal or a failure of the listener on, the process can be brought to its exit
whatever its handlers do. -/
theorem shutdown_completes {events : List LifeEvent} (h : Life.boot.run events = some s) :
    Completes events s := by
  obtain ⟨hs, hrec⟩ := recorded_run h
  refine ⟨?_, fun hlive hidle hwaiting => ?_, fun hcause => exists_exit hs hrec fun hidle => ?_⟩
  · have hbound := remaining_run h
    have hboot : Life.boot.remaining = 9 := rfl
    omega
  · obtain ⟨e, he, hmove⟩ := exists_move hs hlive hidle hwaiting
    obtain ⟨s', hs'⟩ := Option.isSome_iff_exists.mp hmove
    exact ⟨e, s', he, step_of_move hlive hs'⟩
  · obtain hsignal | ⟨err, hfailed⟩ := hcause
    · have hserving : s.process.phase = .serving := (hs.selecting.mp hidle.main).1
      simpa [hserving, hidle.sigCh] using hrec.pending hsignal
    · have hresult := (hrec.failed err).mp hfailed
      simp [hidle.listen, ListenStage.result] at hresult

/-- The drain, after the signal. -/
theorem shutdown_completes_signalled :
    ∃ s, Life.boot.run [.signal, .mainSignalled, .startCancelled] = some s ∧ s.exited = false ∧
      Completes [.signal, .mainSignalled, .startCancelled] s :=
  ⟨_, rfl, rfl, shutdown_completes rfl⟩

end KvRouter.Lifecycle
