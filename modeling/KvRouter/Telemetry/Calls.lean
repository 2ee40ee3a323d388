import KvRouter.Lib.Interleave
import KvRouter.Telemetry.Ring

/-!
# KvRouter.Telemetry.Calls

Concurrent calls of the recorder.  `Summary` loads four counters one after the
other, beside `Record` calls that add to them, so the actions here are those of
the router and the loads of the counters.

* `Call.prog` — the calls, as threads of a system on the shared state;
* `Disciplined` — what a call may do after what: each of its additions once, to
  the requests before the others, and a write of the event whose ID it drew;
* `counter_run` — a counter is the number of calls that have added to it.
-/

namespace KvRouter.Telemetry

open Interleave Prog

/-! ## Counters -/

/-- The counters that `Summary` loads. -/
inductive Counter
  | requests
  | errors
  | streams
  | cacheHits
deriving DecidableEq

def Recorder.counter (r : Recorder) : Counter → UInt64
  | .requests => r.requests
  | .errors => r.errors
  | .streams => r.streams
  | .cacheHits => r.cacheHits

/-- The actions of the router and the loads of the counters. -/
abbrev CallAct := Act ⊕ Counter

/-- What a load of a counter answers; it changes nothing. -/
def Counter.sem (k : Counter) (w : World) : UInt64 × World := (w.telemetry.counter k, w)

abbrev CallResult : CallAct → Type := Sum.elim Act.Result fun _ => UInt64

/-- What the actions answer and do. -/
abbrev callSem : (a : CallAct) → World → CallResult a × World := both Act.sem Counter.sem

abbrev CallProgram := Prog CallAct CallResult

/-- `Load` of a counter. -/
def Counter.load (k : Counter) : CallProgram UInt64 := .act (.inr k) .ret

/-! ## Calls -/

structure Summary where
  requests : UInt64
  errors : UInt64
  streams : UInt64
  cacheHitRequests : UInt64
deriving DecidableEq

/-- A summary, by counter. -/
def Summary.counter (s : Summary) : Counter → UInt64
  | .requests => s.requests
  | .errors => s.errors
  | .streams => s.streams
  | .cacheHits => s.cacheHitRequests

/-- `Summary`, its operands evaluated from left to right. -/
def summary : CallProgram Summary := do
  let requests ← Counter.requests.load
  let errors ← Counter.errors.load
  let streams ← Counter.streams.load
  let cacheHits ← Counter.cacheHits.load
  return ⟨requests, errors, streams, cacheHits⟩

inductive Call
  | record (event : RouteEvent) (now : ℤ)
  | summary

/-- A call as a thread; a `Summary` ends with its result. -/
def Call.prog : Call → CallProgram (Option Summary)
  | .record event now => (KvRouter.record event now).inl.bind fun _ => .ret none
  | .summary => Telemetry.summary.bind fun s => .ret (some s)

abbrev Calls := Interleave.Config World CallAct CallResult (Option Summary)

/-- Some calls before any of them has taken a step, of a recorder that is `r`. -/
def Calls.start (w : World) (r : Recorder) (calls : List Call) : Calls :=
  ⟨{ w with telemetry := r }, calls.map fun call => .start call.prog⟩

abbrev CallEvent := Event CallResult

abbrev CallLog := List (Entry World CallAct CallResult)

/-! ## Kinds of actions -/

/-- An addition to a counter. -/
def adds : Counter → CallAct → Bool
  | .requests, .inl (.addRequests _) => true
  | .errors, .inl (.addErrors _) => true
  | .streams, .inl (.addStreams _) => true
  | .cacheHits, .inl (.addCacheHits _) => true
  | _, _ => false

/-- The drawing of an ID. -/
def draws : CallAct → Bool
  | .inl (.addSequence _) => true
  | _ => false

/-- The event that an action writes to the ring. -/
def writtenBy : CallAct → Option RouteEvent
  | .inl (.writeRing event) => some event
  | _ => none

/-- A write to the ring. -/
def writes (a : CallAct) : Bool := (writtenBy a).isSome

/-- The addition of one to a counter. -/
def Counter.increment : Counter → Act
  | .requests => .addRequests 1
  | .errors => .addErrors 1
  | .streams => .addStreams 1
  | .cacheHits => .addCacheHits 1

/-! ## What a call does -/

/-- What a call may do after the trace `h`. -/
structure Disciplined (h : List CallEvent) (a : CallAct) : Prop where
  adds : ∀ k, adds k a = true → a = .inl k.increment ∧ (∀ e ∈ h, Telemetry.adds k e.1 = false) ∧
    (k ≠ .requests → ∃ e ∈ h, Telemetry.adds .requests e.1 = true)
  draws : draws a = true → a = .inl (.addSequence 1) ∧ ∀ e ∈ h, Telemetry.draws e.1 = false
  writes : ∀ event, writtenBy a = some event → (∀ e ∈ h, Telemetry.writes e.1 = false) ∧
    (⟨.inl (.addSequence 1), event.id⟩ : CallEvent) ∈ h

/-- `Summary` only loads. -/
theorem obeys_summary {h : List CallEvent} :
    Obeys Disciplined (fun _ _ => True) h (Call.prog .summary) := by
  have hload (k : Counter) (h : List CallEvent) : Disciplined h (.inr k) := by
    refine ⟨fun k' hadds => ?_, nofun, nofun⟩
    cases k' <;> contradiction
  exact ⟨hload _ _, fun _ => ⟨hload _ _, fun _ => ⟨hload _ _, fun _ => ⟨hload _ _,
    fun _ => trivial⟩⟩⟩⟩

theorem adds_increment {k k' : Counter} : adds k' (.inl k.increment) = true ↔ k' = k := by
  cases k <;> cases k' <;> decide

theorem draws_increment (k : Counter) : draws (.inl k.increment) = false := by
  cases k <;> rfl

theorem writtenBy_increment (k : Counter) : writtenBy (.inl k.increment) = none := by
  cases k <;> rfl

/-- The trace of a `Record` that has drawn `id` and counted its request, and has still to come to
the counters `left`. -/
structure Recording (id : UInt64) (left : List Counter) (h : List CallEvent) : Prop where
  drawn : (⟨.inl (.addSequence 1), id⟩ : CallEvent) ∈ h
  counted : ∃ e ∈ h, adds .requests e.1 = true
  left : ∀ k ∈ left, ∀ e ∈ h, adds k e.1 = false
  unwritten : ∀ e ∈ h, writes e.1 = false

theorem Recording.skip {id : UInt64} {k : Counter} {left : List Counter} {h : List CallEvent}
    (hh : Recording id (k :: left) h) : Recording id left h :=
  ⟨hh.drawn, hh.counted, fun k' hk' => hh.left k' (List.mem_cons_of_mem k hk'), hh.unwritten⟩

/-- A counter that is added to is done. -/
theorem Recording.add {id : UInt64} {k : Counter} {left : List Counter} {h : List CallEvent}
    (hh : Recording id (k :: left) h) (hk : k ∉ left) (r : CallResult (.inl k.increment)) :
    Recording id left (h ++ [⟨.inl k.increment, r⟩]) where
  drawn := List.mem_append_left _ hh.drawn
  counted := by
    obtain ⟨e, he, hadds⟩ := hh.counted
    exact ⟨e, List.mem_append_left _ he, hadds⟩
  left k' hk' e he := by
    obtain he | he := List.mem_append.mp he
    · exact hh.left k' (List.mem_cons_of_mem k hk') e he
    · have hne : k' ≠ k := fun heq => hk (heq ▸ hk')
      rw [List.mem_singleton.mp he, ← Bool.not_eq_true, adds_increment]
      exact hne
  unwritten e he := by
    obtain he | he := List.mem_append.mp he
    · exact hh.unwritten e he
    · rw [List.mem_singleton.mp he, writes, writtenBy_increment, Option.isSome_none]

/-- An addition under a condition. -/
theorem obeys_addIf {c : Prop} [Decidable c] {id : UInt64} {k : Counter} {left : List Counter}
    (hk : k ∉ left) {h : List CallEvent} (hh : Recording id (k :: left) h) :
    Obeys Disciplined (fun _ h' => Recording id left h') h (actIf c k.increment).inl := by
  unfold actIf
  split
  · refine ⟨⟨fun k' hadds => ?_, fun hdraws => ?_, fun event hevent => ?_⟩,
      fun r => hh.add hk r⟩
    · obtain rfl := adds_increment.mp hadds
      exact ⟨rfl, hh.left k' (List.mem_cons_self ..), fun _ => hh.counted⟩
    · simp [draws_increment] at hdraws
    · simp [writtenBy_increment] at hevent
  · exact hh.skip

/-- **`Record` is disciplined**: it draws an ID, adds to the counters of its event and writes it. -/
theorem obeys_record (event : RouteEvent) (now : ℤ) :
    Obeys Disciplined (fun _ _ => True) [] (Call.prog (.record event now)) := by
  simp only [Call.prog, record, bind_eq, inl_bind, act, perform, inl, act_bind, ret_bind]
  refine ⟨⟨fun k hadds => ?_, by simp [draws], by simp [writtenBy]⟩, fun id => ?_⟩
  · cases k <;> contradiction
  refine ⟨⟨fun k hadds => ?_, by simp [draws], by simp [writtenBy]⟩, fun n => ?_⟩
  · obtain rfl : k = .requests := by cases k <;> first | rfl | contradiction
    exact ⟨rfl, by simp [adds], by simp⟩
  have hrecording : Recording id [.errors, .streams, .cacheHits]
      ([] ++ [⟨.inl (.addSequence 1), id⟩] ++ [⟨.inl (.addRequests 1), n⟩]) := by
    refine ⟨by simp, ⟨_, List.mem_append_right _ (List.mem_singleton_self _), rfl⟩,
      fun k hk => ?_, by simp [writes, writtenBy]⟩
    cases k <;> simp [adds] at hk ⊢
  -- the three counters, each left alone or added to once
  refine Obeys.bind (Obeys.bind ((obeys_addIf (k := .errors) (by decide) hrecording).mono ?_))
  intro _ h₁ hh₁
  refine Obeys.bind ((obeys_addIf (k := .streams) (by decide) hh₁).mono ?_)
  intro _ h₂ hh₂
  refine Obeys.bind ((obeys_addIf (k := .cacheHits) (by decide) hh₂).mono ?_)
  intro _ h₃ hh₃
  refine ⟨⟨fun k hadds => ?_, by simp [draws], fun written hwritten => ?_⟩, fun _ => trivial⟩
  · cases k <;> contradiction
  · cases hwritten
    exact ⟨hh₃.unwritten, hh₃.drawn⟩

/-! ## Runs -/

section
variable {w : World} {r : Recorder} {calls : List Call} {log : CallLog} {c : Calls}

/-- Every call is disciplined, in every run. -/
theorem disciplined (h : Path callSem (Calls.start w r calls) log c) {earlier later : CallLog}
    {x : Entry World CallAct CallResult} (hlog : log = earlier ++ x :: later) :
    Disciplined (own x.who earlier) x.event.1 := by
  refine h.permitted_all (Q := fun _ _ => True) (fun t ht => ?_) hlog
  obtain ⟨call, -, rfl⟩ := List.mem_map.mp ht
  refine ⟨rfl, ?_⟩
  cases call with
  | record event now => exact obeys_record event now
  | summary => exact obeys_summary

/-- The actions that leave the recorder as it is. -/
structure Idle (a : CallAct) : Prop where
  adds : ∀ k, adds k a = false
  draws : draws a = false
  writtenBy : writtenBy a = none
  same : ∀ w, (callSem a w).2.telemetry = w.telemetry

/-- What an action of a call does to the recorder. -/
theorem telemetry_step {h : List CallEvent} {a : CallAct} (ha : Disciplined h a) :
    (∃ k : Counter, a = .inl k.increment) ∨ a = .inl (.addSequence 1) ∨
      (∃ event, a = .inl (.writeRing event)) ∨ Idle a := by
  cases a with
  | inr load => exact .inr (.inr (.inr ⟨fun k => by cases k <;> rfl, rfl, rfl, fun w => rfl⟩))
  | inl a =>
      cases a with
      | addSequence delta => exact .inr (.inl (ha.draws rfl).1)
      | addRequests delta => exact .inl ⟨.requests, (ha.adds .requests rfl).1⟩
      | addErrors delta => exact .inl ⟨.errors, (ha.adds .errors rfl).1⟩
      | addStreams delta => exact .inl ⟨.streams, (ha.adds .streams rfl).1⟩
      | addCacheHits delta => exact .inl ⟨.cacheHits, (ha.adds .cacheHits rfl).1⟩
      | writeRing event => exact .inr (.inr (.inl ⟨event, rfl⟩))
      | casHealthy id old new =>
          refine .inr (.inr (.inr ⟨fun k => by cases k <;> rfl, rfl, rfl, fun w => ?_⟩))
          simp only [both, Act.sem]
          split <;> rfl
      | casDepth id old new =>
          refine .inr (.inr (.inr ⟨fun k => by cases k <;> rfl, rfl, rfl, fun w => ?_⟩))
          simp only [both, Act.sem]
          split <;> rfl
      | _ => exact .inr (.inr (.inr ⟨fun k => by cases k <;> rfl, rfl, rfl, fun w => rfl⟩))

/-- What an action does to a counter. -/
theorem counter_step {h : List CallEvent} {a : CallAct} (ha : Disciplined h a) (k : Counter)
    (w : World) : (callSem a w).2.telemetry.counter k =
      w.telemetry.counter k + if adds k a then 1 else 0 := by
  obtain ⟨k', rfl⟩ | rfl | ⟨event, rfl⟩ | hidle := telemetry_step ha
  · cases k <;> cases k' <;> simp [adds, Counter.increment, both, Act.sem, Recorder.counter]
  · cases k <;> simp [adds, both, Act.sem, Recorder.counter]
  · cases k <;> simp [adds, both, Act.sem, Recorder.counter, Recorder.writeRing]
  · simp [hidle.adds, hidle.same]

/-- **A counter is the number of calls that have added to it.** -/
theorem counter_run (h : Path callSem (Calls.start w r calls) log c) (k : Counter) :
    c.shared.telemetry.counter k =
      r.counter k + UInt64.ofNat (doers (adds k) log).length :=
  h.counts (f := fun w => w.telemetry.counter k) (adds k)
    fun _ x _ hlog => counter_step (disciplined h hlog) k x.before

/-- A call adds to a counter once, and has counted its request by then. -/
theorem length_adds_le (h : Path callSem (Calls.start w r calls) log c) (k : Counter) :
    (doers (adds k) log).length ≤ (doers (adds .requests) log).length := by
  by_cases hk : k = .requests
  · rw [hk]
  · have hnodup : (doers (adds k) log).Nodup := nodup_doers _ fun earlier x later hlog hx =>
      ((disciplined h hlog).adds k hx).2.1
    have hsubset := doers_subset (adds k) fun earlier x later hlog hx =>
      ((disciplined h hlog).adds k hx).2.2 hk
    exact (List.subperm_of_subset hnodup hsubset).length_le

theorem counter_new {capacity : ℤ} (hnew : new capacity = .ok r) (k : Counter) :
    r.counter k = 0 := by
  obtain ⟨rfl, -⟩ := eq_of_new hnew
  cases k <;> rfl

/-- **A counter is the number of calls that have added to it**, while it does not wrap. -/
theorem toNat_counter (h : Path callSem (Calls.start w r calls) log c) {capacity : ℤ}
    (hnew : new capacity = .ok r) (hfew : (doers (adds .requests) log).length < 2 ^ 64)
    (k : Counter) : (c.shared.telemetry.counter k).toNat = (doers (adds k) log).length := by
  rw [counter_run h k, counter_new hnew, UInt64.zero_add]
  exact UInt64.toNat_ofNat_of_lt' (Nat.lt_of_le_of_lt (length_adds_le h k) hfew)

end

end KvRouter.Telemetry
