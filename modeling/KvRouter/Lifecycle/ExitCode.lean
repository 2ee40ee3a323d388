import KvRouter.Lifecycle

/-!
# KvRouter.Lifecycle.ExitCode

The stages of the goroutines and the contents of their channels fit together in
every reachable state (`Life.Consistent`), and tell what has happened
(`Recorded`).  So the exit code tells a failed listener or a missed deadline from
a clean drain under every interleaving: no error is lost between the channels.
-/

namespace KvRouter.Lifecycle

open Shutdown

variable {s s' : Life} {e : LifeEvent}

/-! ## The invariant -/

/-- The result of `Start`, from its return on. -/
def StartStage.result : StartStage → Option (Option StartError)
  | .returning err => some err
  | .returned err => some err
  | _ => none

/-- What `ListenAndServe` has returned. -/
def ListenStage.result : ListenStage → Option (Option String)
  | .serving => none
  | .returned err => some err
  | .sent err => some (some err)
  | .ended err => some err

/-- What is in the channel from the listener to `Start`, given the result of `Start`. -/
def inListenCh : ListenStage → Option (Option StartError) → List String
  | .sent err, result => if result = some (some (.listen err)) then [] else [err]
  | .ended (some err), result => if result = some (some (.listen err)) then [] else [err]
  | _, _ => []

/-- What is in the channel from `Start` to `run`. -/
def inStartCh : StartStage → MainStage → List (Option StartError)
  | .returned _, .exited _ => []
  | .returned err, _ => [err]
  | _, _ => []

def ListenStage.isEnded : ListenStage → Bool
  | .ended _ => true
  | _ => false

/-- The result of `Start` is the error that the listener sent, or that of `Shutdown`. -/
def ResultFrom (listen : ListenStage) : Option (Option StartError) → Prop
  | none => True
  | some none => listen = .ended none
  | some (some (.listen err)) => listen = .sent err ∨ listen = .ended (some err)
  | some (some .deadline) => True

/-- How far the process is when `Start` is at a stage. -/
def PhaseAt (phase : Phase) : StartStage → Prop
  | .selecting => phase = .serving ∨ phase = .signalled
  | .shutting => phase = .draining
  | .draining => phase = .exited
  | .returning err => phase ≠ .draining ∧ (err = none → phase = .exited)
  | .returned err => phase ≠ .draining ∧ (err = none → phase = .exited)

/-- The stages of the three goroutines and the contents of their channels fit together. -/
structure Life.Consistent (s : Life) : Prop where
  sigCh : s.sigCh.capacity = 1 ∧ s.sigCh.closed = false
  listenCh : s.listenCh = ⟨1, inListenCh s.listen s.start.result, s.listen.isEnded⟩
  startCh : s.startCh = ⟨1, inStartCh s.start s.main, false⟩
  result : ResultFrom s.listen s.start.result
  exit : ∀ code, s.main = .exited code → ∃ err, s.start = .returned err ∧ code = exitCode err
  selecting : s.main = .selecting ↔ s.process.phase = .serving ∧ s.exited = false
  phase : PhaseAt s.process.phase s.start
  /-- the server is closed only by `Shutdown` -/
  closed : s.listen.result = some none →
    s.process.phase = .draining ∨ s.process.phase = .exited

/-- Before `Start` returns its channel is empty. -/
theorem inStartCh_eq_nil {start : StartStage} (h : ∀ err, start ≠ .returned err)
    (main : MainStage) : inStartCh start main = [] := by
  cases start with
  | returned err => exact absurd rfl (h err)
  | _ => rfl

/-- Until `run` exits, the channel holds what `Start` returned. -/
theorem inStartCh_returned {main : MainStage} (h : ∀ code, main ≠ .exited code)
    (err : Option StartError) : inStartCh (.returned err) main = [err] := by
  cases main with
  | exited code => exact absurd rfl (h code)
  | _ => rfl

theorem inListenCh_deadline (listen : ListenStage) :
    inListenCh listen none = inListenCh listen (some (some .deadline)) := by
  match listen with
  | .serving => rfl
  | .returned err => rfl
  | .sent err => simp [inListenCh]
  | .ended none => rfl
  | .ended (some err) => simp [inListenCh]

theorem consistent_boot : Life.boot.Consistent := by
  constructor <;> simp [Life.boot, Life.exited, Process.start, Channel.make, inListenCh, inStartCh,
    StartStage.result, ListenStage.result, ListenStage.isEnded, ResultFrom, PhaseAt]

/-- A request, a step of its handler and the clock leave the phase of the process as it is. -/
theorem phase_request {p p' : Process} {e : Event} (he : isRequest e) (h : p.step e = some p') :
    p'.phase = p.phase := by
  cases e with
  | accept r =>
      simp only [Process.step, Option.ite_none_right_eq_some, Option.some.injEq] at h
      exact h.2 ▸ rfl
  | route i decision =>
      obtain ⟨-, q, stage, -, -, rfl⟩ := advance_cases h
      rfl
  | serve i =>
      obtain ⟨-, q, stage, -, -, rfl⟩ := advance_cases h
      rfl
  | tick n =>
      simp only [Process.step, Option.ite_none_left_eq_some, Option.some.injEq] at h
      exact h.2 ▸ rfl
  | _ => simp [isRequest] at he

/-- The listener goroutine moves on. -/
theorem ResultFrom.later {l l' : ListenStage} {r : Option (Option StartError)}
    (h : ResultFrom l r) (hsent : ∀ err, l = .sent err → l' = .ended (some err))
    (hended : ∀ err, l ≠ .ended err) : ResultFrom l' r := by
  match r, h with
  | none, _ => trivial
  | some none, h => exact absurd h (hended none)
  | some (some (.listen err)), h => exact Or.inr (hsent err (h.resolve_right (hended _)))
  | some (some .deadline), _ => trivial

/-- What `Start` receives from the listener. -/
theorem recv_listenCh {listen : ListenStage} {y : Option String} {ch : Channel String}
    (h : Channel.recv ⟨1, inListenCh listen none, listen.isEnded⟩ = some (y, ch)) :
    ch = ⟨1, [], listen.isEnded⟩ ∧ (y = none ∧ listen = .ended none ∨
      ∃ err, y = some err ∧ (listen = .sent err ∨ listen = .ended (some err))) := by
  match listen, h with
  | .sent err, h =>
      simp [inListenCh, ListenStage.isEnded] at h
      simp [← h.1, ← h.2, ListenStage.isEnded]
  | .ended (some err), h =>
      simp [inListenCh, ListenStage.isEnded] at h
      simp [← h.1, ← h.2, ListenStage.isEnded]
  | .ended none, h =>
      simp [inListenCh, ListenStage.isEnded] at h
      simp [← h.1, ← h.2, ListenStage.isEnded]
  | .serving, h => simp [inListenCh, ListenStage.isEnded] at h
  | .returned err, h => simp [inListenCh, ListenStage.isEnded] at h

/-- What `run` receives from `Start`. -/
theorem recv_startCh {start : StartStage} {main : MainStage} {y : Option (Option StartError)}
    {ch : Channel (Option StartError)}
    (h : Channel.recv ⟨1, inStartCh start main, false⟩ = some (y, ch)) :
    ∃ err, start = .returned err ∧ y = some err ∧ ch = ⟨1, [], false⟩ := by
  match start, main, h with
  | .returned err, .selecting, h | .returned err, .joining, h =>
      simp [inStartCh] at h
      exact ⟨err, rfl, h.1.symm, h.2.symm⟩
  | .returned err, .exited code, h => simp [inStartCh] at h
  | .selecting, _, h | .shutting, _, h | .draining, _, h | .returning err, _, h =>
      simp [inStartCh] at h

/-- **A step keeps the stages and the channels in agreement.** -/
theorem Life.Consistent.step (hs : s.Consistent) (h : s.step e = some s') : s'.Consistent := by
  obtain ⟨hlive, h⟩ := step_moves h
  obtain ⟨process, main, start, listen, sigCh, startCh, listenCh⟩ := s
  obtain ⟨hsig, hlisten, hstart, hresult, hexit, hselecting, hphase, hclosed⟩ := hs
  dsimp only at *
  subst hlisten hstart
  have hrun : ∀ code, main ≠ .exited code := by
    rintro code rfl
    contradiction
  have hexit' (start' : StartStage) (code : ℕ) (hcode : main = .exited code) :
      ∃ err, start' = .returned err ∧ code = exitCode err := absurd hcode (hrun code)
  cases h with
  | request he hp =>
      have hsame := phase_request he hp
      constructor <;> simp_all [Life.exited]
  | signal => exact ⟨by simpa using hsig, rfl, rfl, hresult, hexit, hselecting, hphase, hclosed⟩
  | listenReturns hserving hguard =>
      obtain rfl := hserving
      refine ⟨hsig, rfl, rfl, hresult.later (by simp) (by simp), hexit, hselecting, hphase, ?_⟩
      simpa [ListenStage.result] using hguard
  | @listenSends err ch hlisten hch =>
      obtain rfl := hlisten
      obtain rfl := Option.some.inj hch
      have hnew : start.result ≠ some (some (.listen err)) :=
        fun heq => by simp [heq, ResultFrom] at hresult
      refine ⟨hsig, ?_, rfl, hresult.later (by simp) (by simp), hexit, hselecting, hphase, ?_⟩
      · simp [inListenCh, hnew, ListenStage.isEnded]
      · simp [ListenStage.result]
  | listenCloses hlisten hch =>
      obtain ⟨rfl, rfl⟩ | ⟨x, rfl, rfl⟩ := hlisten
      · obtain rfl := Option.some.inj hch
        exact ⟨hsig, rfl, rfl, hresult.later (by simp) (by simp), hexit, hselecting, hphase,
          hclosed⟩
      · obtain rfl := Option.some.inj hch
        exact ⟨hsig, rfl, rfl, hresult.later (by simp) (by simp), hexit, hselecting, hphase,
          hclosed⟩
  | startReceives hstart hch =>
      have hnone : start.result = none := by
        obtain rfl | rfl := hstart <;> rfl
      have hempty : inStartCh start main = [] :=
        inStartCh_eq_nil (fun err => by obtain rfl | rfl := hstart <;> simp) main
      have hreturning (err : Option StartError) : inStartCh (.returning err) main = [] :=
        inStartCh_eq_nil (by simp) main
      have hpast : process.phase ≠ .draining := by
        obtain rfl | rfl := hstart <;> simp [PhaseAt] at hphase <;> grind
      rw [hnone] at hch
      obtain ⟨rfl, ⟨rfl, rfl⟩ | ⟨err, rfl, hsent⟩⟩ := recv_listenCh hch
      · exact ⟨hsig, rfl, by simp [hempty, hreturning], rfl, hexit' _, hselecting,
          ⟨hpast, fun _ => (hclosed rfl).resolve_left hpast⟩, hclosed⟩
      · refine ⟨hsig, ?_, by simp [hempty, hreturning], hsent, hexit' _, hselecting,
          ⟨hpast, by simp⟩, hclosed⟩
        obtain rfl | rfl := hsent <;> simp [inListenCh, StartStage.result]
  | startCancelled hstart hsignalled =>
      obtain rfl := hstart
      refine ⟨hsig, rfl, ?_, trivial, hexit' _, ?_, rfl, fun _ => Or.inl rfl⟩
      · rw [inStartCh_eq_nil (by simp), inStartCh_eq_nil (by simp)]
      · dsimp only at hsignalled
        simp [hselecting, hsignalled]
  | drained hstart hdraining hended =>
      obtain rfl := hstart
      refine ⟨hsig, rfl, ?_, trivial, hexit' _, ?_, rfl, fun _ => Or.inr rfl⟩
      · rw [inStartCh_eq_nil (by simp), inStartCh_eq_nil (by simp)]
      · dsimp only at hdraining
        simp [hselecting, hdraining]
  | expired hstart hdraining hdone =>
      obtain rfl := hstart
      refine ⟨hsig, ?_, ?_, trivial, hexit' _, ?_, by simp [PhaseAt], fun _ => Or.inr rfl⟩
      · exact congrArg (Channel.mk 1 · _) (inListenCh_deadline listen)
      · rw [inStartCh_eq_nil (by simp), inStartCh_eq_nil (by simp)]
      · dsimp only at hdraining
        simp [hselecting, hdraining]
  | startReturns hstart hch =>
      obtain rfl := hstart
      rw [inStartCh_eq_nil (by simp)] at hch
      obtain rfl := Option.some.inj hch
      refine ⟨hsig, rfl, ?_, hresult, hexit' _, hselecting, hphase, hclosed⟩
      rw [inStartCh_returned hrun]
      rfl
  | mainSignalled hmain hserving hch =>
      obtain rfl := hmain
      obtain ⟨hcapacity, hopen⟩ := Channel.recv_eq_some hch
      refine ⟨by rwa [hcapacity, hopen], rfl, ?_, hresult, by simp, by simp, ?_, ?_⟩
      · cases start <;> rfl
      · cases start <;> simp_all [PhaseAt]
      · intro hnone
        dsimp only at hserving
        simpa [hserving] using hclosed hnone
  | mainReceives hch =>
      obtain ⟨err, rfl, rfl, rfl⟩ := recv_startCh hch
      refine ⟨hsig, rfl, rfl, hresult, ?_, by simp [Life.exited], hphase, hclosed⟩
      rintro code hcode
      exact ⟨err, rfl, by simpa [eq_comm] using hcode⟩

/-! ## Runs -/

/-- A run goes on from where the first part ends. -/
theorem run_append {events later : List LifeEvent} :
    s.run (events ++ later) = (s.run events).bind fun s' => s'.run later := by
  induction events generalizing s with
  | nil => rfl
  | cons e events ih =>
      rw [List.cons_append, Life.run, Life.run, Option.bind_assoc]
      exact congrArg (Option.bind (s.step e)) (funext fun s' => ih)

/-- **The rule for runs**: what holds at the start, and is kept by each step from a consistent
state, holds after every run. -/
theorem run_induction {P : List LifeEvent → Life → Prop} (hboot : P [] .boot)
    (hstep : ∀ events s e s', s.Consistent → P events s → s.step e = some s' →
      P (events ++ [e]) s')
    {events : List LifeEvent} (h : Life.boot.run events = some s) : s.Consistent ∧ P events s := by
  induction events using List.reverseRecOn generalizing s with
  | nil =>
      obtain rfl := Option.some.inj h
      exact ⟨consistent_boot, hboot⟩
  | append_singleton events e ih =>
      rw [run_append] at h
      obtain ⟨s₁, hrun, hlast⟩ := Option.bind_eq_some_iff.mp h
      obtain ⟨s₂, hs₂, hnil⟩ := Option.bind_eq_some_iff.mp hlast
      obtain rfl := Option.some.inj hnil
      obtain ⟨hconsistent, hP⟩ := ih hrun
      exact ⟨hconsistent.step hs₂, hstep events s₁ e s₂ hconsistent hP hs₂⟩

/-! ## What has happened -/

/-- The errors of a run, and its signals, in the state it has come to. -/
structure Recorded (events : List LifeEvent) (s : Life) : Prop where
  failed : ∀ err, .listenReturns (some err) ∈ events ↔ s.listen.result = some (some err)
  expired : .shutdownReturns true ∈ events ↔ s.start.result = some (some .deadline)
  /-- a cancelled context, or a signal that is not yet received -/
  signalled : s.process.phase ≠ .serving ∨ s.sigCh.buffer ≠ [] → .signal ∈ events
  pending : .signal ∈ events → s.process.phase ≠ .serving ∨ s.sigCh.buffer ≠ []
  /-- `Shutdown` returns without an error when no handler is left, and none comes after it -/
  drained : s.process.phase = .exited → s.start.result ≠ some (some .deadline) →
    ∀ q ∈ s.process.requests, q.stage.isEnded = true
  deadline : s.start = .shutting → ∃ t, (shutdownContext, t) ∈ s.process.contexts.deadlines

theorem recorded_boot : Recorded [] .boot := by
  constructor <;>
    simp [Life.boot, ListenStage.result, StartStage.result, Process.start, Channel.make]

/-- When the process has exited, no request comes and no handler moves. -/
theorem not_request_of_exited {p : Process} {e : Event} (he : isRequest e)
    (hp : p.phase = .exited) : p.step e = none := by
  cases e with
  | accept r => simp [Process.step, hp]
  | route i decision => simp [Process.step, Process.advance, hp]
  | serve i => simp [Process.step, Process.advance, hp]
  | tick n => simp [Process.step, hp]
  | _ => simp [isRequest] at he

/-- A step of a request keeps the contexts. -/
theorem contexts_request {p p' : Process} {e : Event} (he : isRequest e) (h : p.step e = some p') :
    p'.contexts = p.contexts := by
  cases e with
  | accept r =>
      simp only [Process.step, Option.ite_none_right_eq_some, Option.some.injEq] at h
      exact h.2 ▸ rfl
  | route i decision =>
      obtain ⟨-, q, stage, -, -, rfl⟩ := advance_cases h
      rfl
  | serve i =>
      obtain ⟨-, q, stage, -, -, rfl⟩ := advance_cases h
      rfl
  | tick n =>
      simp only [Process.step, Option.ite_none_left_eq_some, Option.some.injEq] at h
      exact h.2 ▸ rfl
  | _ => simp [isRequest] at he

/-- A step adds to what has happened what its event says. -/
theorem recorded_step {events : List LifeEvent} (hs : s.Consistent) (hrec : Recorded events s)
    (h : s.step e = some s') : Recorded (events ++ [e]) s' := by
  obtain ⟨hlive, h⟩ := step_moves h
  obtain ⟨hfailed, hexpired, hsignalled, hpending, hdrained, hdeadline⟩ := hrec
  cases h with
  | @request e p he hp =>
      have hphase := phase_request he hp
      have hcontexts := contexts_request he hp
      have hlive : s.process.phase ≠ .exited :=
        fun hexited => by simp [not_request_of_exited he hexited] at hp
      constructor <;> simp_all
  | signal =>
      have hoffer := Channel.offer_buffer_ne_nil hs.sigCh.2 (by simp [hs.sigCh.1]) ()
      constructor <;> simp_all
  | listenReturns hserving hguard =>
      have hnone : s.listen.result = none := by rw [hserving]; rfl
      refine ⟨fun x => ?_, by simpa using hexpired, by simpa using hsignalled,
        by simpa using hpending, hdrained, hdeadline⟩
      have hnot : .listenReturns (some x) ∉ events := by simp [hfailed, hnone]
      simp [hnot, ListenStage.result, eq_comm]
  | listenSends hlisten hch =>
      constructor <;> simp_all [ListenStage.result]
  | listenCloses hlisten hch =>
      obtain ⟨hreturned, rfl⟩ | ⟨x, hsent, rfl⟩ := hlisten
      · constructor <;> simp_all [ListenStage.result]
      · constructor <;> simp_all [ListenStage.result]
  | @startReceives y ch hstart hch =>
      have hnone : s.start.result = none := by
        obtain hstart | hstart := hstart <;> rw [hstart] <;> rfl
      have hnot : .shutdownReturns true ∉ events := by simp [hexpired, hnone]
      refine ⟨by simpa using hfailed, ?_, by simpa using hsignalled, by simpa using hpending,
        fun hexited _ => hdrained hexited (by simp [hnone]), by simp⟩
      cases y <;> simp [hnot, StartStage.result]
  | startCancelled hstart hphase =>
      constructor <;> simp_all [StartStage.result, Contexts.withDeadline]
  | drained hstart hphase hended =>
      constructor <;> simp_all [StartStage.result]
  | expired hstart hphase hdone =>
      constructor <;> simp_all [StartStage.result]
  | @startReturns err ch hstart hch =>
      have hsame : s.start.result = (StartStage.returned err).result := by rw [hstart]; rfl
      rw [hsame] at hexpired hdrained
      exact ⟨by simpa using hfailed, by simpa using hexpired, by simpa using hsignalled,
        by simpa using hpending, hdrained, by simp⟩
  | mainSignalled hmain hphase hch =>
      have hpast := Channel.buffer_ne_nil_of_recv hs.sigCh.2 hch
      constructor <;> simp_all [Contexts.cancel]
  | mainReceives hch =>
      constructor <;> simp_all

/-- **In every state of a run** the stages agree, and are those that the events tell. -/
theorem recorded_run {events : List LifeEvent} (h : Life.boot.run events = some s) :
    s.Consistent ∧ Recorded events s :=
  run_induction recorded_boot (fun _ _ _ _ hs hrec hstep => recorded_step hs hrec hstep) h

/-! ## The exit code -/

/-- The exit code and what it tells. -/
structure ExitCode (events : List LifeEvent) (code : ℕ) (s : Life) : Prop where
  le_one : code ≤ 1
  /-- no error of the listener or of `Shutdown` is lost, and none is made up -/
  error : code ≠ 0 ↔ (∃ err, .listenReturns (some err) ∈ events) ∨ .shutdownReturns true ∈ events
  clean : code = 0 → .signal ∈ events ∧ ∀ q ∈ s.process.requests, q.stage.isEnded = true

/-- **The exit code** is zero exactly when a signal was received and every handler ended before
the deadline of `Shutdown`, whatever the order in which the goroutines took their steps. -/
theorem exit_code {events : List LifeEvent} (h : Life.boot.run events = some s) {code : ℕ}
    (hcode : s.main = .exited code) : ExitCode events code s := by
  obtain ⟨hs, hrec⟩ := recorded_run h
  obtain ⟨err, hstart, rfl⟩ := hs.exit code hcode
  have hresult := hs.result
  have hphase := hs.phase
  simp only [hstart, StartStage.result] at hresult
  rw [hstart] at hphase
  match err, hresult with
  | none, hended =>
      have hexited : s.process.phase = .exited := hphase.2 rfl
      refine ⟨Nat.zero_le 1, ?_, fun _ => ⟨hrec.signalled (Or.inl (by simp [hexited])),
        hrec.drained hexited (by simp [hstart, StartStage.result])⟩⟩
      have hclosed : s.listen.result = some none := by
        rw [show s.listen = .ended none from hended]
        rfl
      simp [exitCode, hrec.failed, hrec.expired, hstart, StartStage.result, hclosed]
  | some (.listen x), hsent =>
      refine ⟨Nat.le_refl 1, ?_, fun hzero => by contradiction⟩
      have hfailed : s.listen.result = some (some x) := by
        obtain hsent | hsent := hsent <;> rw [hsent] <;> rfl
      simp only [hrec.failed, hfailed]
      simp [exitCode]
  | some .deadline, _ =>
      refine ⟨Nat.le_refl 1, ?_, fun hzero => by contradiction⟩
      simp [exitCode, hrec.expired, hstart, StartStage.result]

/-- A signal and a clean drain. -/
def cleanRun : List LifeEvent := [.signal, .mainSignalled, .startCancelled, .listenReturns none,
  .shutdownReturns false, .listenCloses, .startReceives, .startReturns, .mainReceives]

/-- A port that is taken, while a signal is on its way. -/
def failedRun : List LifeEvent := [.listenReturns (some "address already in use"), .signal,
  .mainSignalled, .startCancelled, .shutdownReturns false, .listenSends, .startReceives,
  .startReturns, .mainReceives]

/-- A run that is ended by a signal, and one whose port is taken. -/
theorem exit_code_runs :
    (∃ s, Life.boot.run cleanRun = some s ∧ ExitCode cleanRun 0 s) ∧
      ∃ s, Life.boot.run failedRun = some s ∧ ExitCode failedRun 1 s :=
  ⟨⟨_, rfl, exit_code rfl rfl⟩, ⟨_, rfl, exit_code rfl rfl⟩⟩

end KvRouter.Lifecycle
