import KvRouter.Boot
import KvRouter.Liveness
import KvRouter.Telemetry.Calls

/-!
# KvRouter.Telemetry.Ledger

The telemetry of a running router, when its requests have been answered.  Each
request that a backend has served is booked once: it draws one ID, adds to each
counter once or not at all, and writes one event (`handler_books`).  So nothing
is lost or counted twice, however the requests are interleaved: the counters are
the tallies of the events, and the IDs are those from 1 on, each once.
-/

namespace KvRouter

open Handler Interleave Prog Proxy Telemetry

/-! ## What a trace books -/

/-- The ID that was drawn. -/
def drawnId : Event → Option UInt64
  | ⟨.addSequence _, id⟩ => some id
  | _ => none

/-- The event that was written to the ring. -/
def writtenTo : Event → Option RouteEvent
  | ⟨.writeRing event, _⟩ => some event
  | _ => none

/-- An addition to a counter. -/
def addsTo : Counter → Event → Bool
  | .requests, ⟨.addRequests _, _⟩ => true
  | .errors, ⟨.addErrors _, _⟩ => true
  | .streams, ⟨.addStreams _, _⟩ => true
  | .cacheHits, ⟨.addCacheHits _, _⟩ => true
  | _, _ => false

theorem filterMap_concat {β : Type} (f : Event → Option β) (h : List Event) (e : Event) :
    (h ++ [e]).filterMap f = h.filterMap f ++ (f e).toList := by
  cases he : f e <;> simp [he]

/-- The events that a counter counts. -/
def Telemetry.Counter.counts : Counter → RouteEvent → Bool
  | .requests, _ => true
  | .errors, event => event.statusCode ≥ 400
  | .streams, event => event.stream
  | .cacheHits, event => event.matchedBlocks > 0

/-- The bookkeeping of a trace: the IDs drawn, the events written, and the additions. -/
structure Books (h : List Event) (ids : List UInt64) (events : List RouteEvent)
    (additions : Counter → ℕ) : Prop where
  ids : h.filterMap drawnId = ids
  events : h.filterMap writtenTo = events
  additions : ∀ k, h.countP (addsTo k) = additions k

/-- An action that books nothing. -/
def KeepsBooks (a : Act) : Prop :=
  ∀ r, drawnId ⟨a, r⟩ = none ∧ writtenTo ⟨a, r⟩ = none ∧ ∀ k, addsTo k ⟨a, r⟩ = false

/-- An action that is not entered keeps the books. -/
theorem Books.keep {h : List Event} {ids : List UInt64} {events : List RouteEvent}
    {additions : Counter → ℕ} (hh : Books h ids events additions) {a : Act} (ha : KeepsBooks a)
    (r : a.Result) : Books (h ++ [⟨a, r⟩]) ids events additions := by
  obtain ⟨hid, hevent, hadds⟩ := ha r
  exact ⟨by simp [hid, hh.ids], by simp [hevent, hh.events],
    fun k => by simp [hadds, hh.additions]⟩

/-- The additions of a router are by one. -/
def ByOne : Act → Prop
  | .addSequence delta => delta = 1
  | .addRequests delta => delta = 1
  | .addErrors delta => delta = 1
  | .addStreams delta => delta = 1
  | .addCacheHits delta => delta = 1
  | _ => True

/-- What is not entered adds to no counter. -/
theorem KeepsBooks.byOne {a : Act} (ha : KeepsBooks a) : ByOne a := by
  cases a with
  | addSequence delta => exact absurd (ha 0).1 (Option.some_ne_none _)
  | addRequests delta => exact absurd ((ha 0).2.2 .requests) (by simp [addsTo])
  | addErrors delta => exact absurd ((ha 0).2.2 .errors) (by simp [addsTo])
  | addStreams delta => exact absurd ((ha 0).2.2 .streams) (by simp [addsTo])
  | addCacheHits delta => exact absurd ((ha 0).2.2 .cacheHits) (by simp [addsTo])
  | _ => trivial

/-- What a program that keeps the books does to them. -/
theorem books_of_uses {α : Type} {prog : Program α} (hprog : prog.Uses KeepsBooks)
    {h : List Event} {ids : List UInt64} {events : List RouteEvent} {additions : Counter → ℕ}
    (hh : Books h ids events additions) :
    Obeys (fun _ a => ByOne a) (fun _ h' => Books h' ids events additions) h prog :=
  hprog.obeys (I := fun h' => Books h' ids events additions) (fun _ _ _ ha => ha.byOne)
    (fun _ _ r hh' ha => hh'.keep ha r) hh

/-! ## One record -/

/-- A record under way: it has drawn `id` and passed the counters that are not in `left`. -/
structure Booking (event : RouteEvent) (id : UInt64) (left : List Counter) (h : List Event) :
    Prop where
  books : Books h [id] [] fun k => if k ∉ left ∧ k.counts event = true then 1 else 0

theorem addsTo_increment (k k' : Counter) (r : k'.increment.Result) :
    addsTo k ⟨k'.increment, r⟩ = decide (k = k') := by
  cases k <;> cases k' <;> rfl

/-- A counter is entered where the event counts for it. -/
theorem booking_actIf {event : RouteEvent} {id : UInt64} {k : Counter} {left : List Counter}
    {h : List Event} (hh : Booking event id (k :: left) h) (hk : k ∉ left) {c : Prop} [Decidable c]
    (hc : c ↔ k.counts event = true) :
    Obeys (fun _ a => ByOne a) (fun _ h' => Booking event id left h') h (actIf c k.increment) := by
  obtain ⟨hids, hevents, hadditions⟩ := hh.books
  unfold actIf
  split
  · next hcond =>
      refine ⟨by cases k <;> rfl, fun r => ⟨⟨?_, ?_, fun k' => ?_⟩⟩⟩
      · have hid : drawnId ⟨k.increment, r⟩ = none := by cases k <;> rfl
        simp [hids, hid]
      · have hevent : writtenTo ⟨k.increment, r⟩ = none := by cases k <;> rfl
        simp [hevents, hevent]
      · have hcounts := hc.mp hcond
        rw [List.countP_append, hadditions, List.countP_singleton, addsTo_increment]
        by_cases hkk : k' = k
        · subst hkk
          simp [hk, hcounts]
        · simp [hkk]
  · next hcond =>
      refine ⟨⟨hids, hevents, fun k' => ?_⟩⟩
      rw [hadditions]
      by_cases hkk : k' = k
      · subst hkk
        simp [mt hc.mpr hcond]
      · simp [hkk]

/-- The books of a request that has recorded `event`. -/
def Recorded (h : List Event) (event : RouteEvent) : Prop :=
  ∃ id now, Books h [id] [{ event with id := id, timestamp := now }]
    fun k => if k.counts event = true then 1 else 0

/-- **`Record` books its event once.** -/
theorem record_books {h : List Event} (hh : Books h [] [] fun _ => 0) (event : RouteEvent)
    (now : ℤ) :
    Obeys (fun _ a => ByOne a) (fun _ h' => Recorded h' event) h (record event now) := by
  refine ⟨rfl, fun id => ⟨rfl, fun n => ?_⟩⟩
  have hstart : Booking event id [.errors, .streams, .cacheHits]
      (h ++ [⟨.addSequence 1, id⟩] ++ [⟨.addRequests 1, n⟩]) := by
    refine ⟨⟨by simp [hh.ids, drawnId], by simp [hh.events, writtenTo], fun k => ?_⟩⟩
    have hnone := hh.additions k
    cases k <;> simp [hnone, addsTo, Counter.counts]
  have herrors : event.statusCode ≥ 400 ↔ Counter.errors.counts event = true := by
    simp [Counter.counts]
  have hstreams : event.stream = true ↔ Counter.streams.counts event = true := Iff.rfl
  have hhits : event.matchedBlocks > 0 ↔ Counter.cacheHits.counts event = true := by
    simp [Counter.counts]
  show Obeys _ _ _ ((actIf (event.statusCode ≥ 400) Counter.errors.increment).bind _)
  refine Obeys.bind ((booking_actIf hstart (by decide) herrors).mono fun _ h₁ hh₁ => ?_)
  refine Obeys.bind ((booking_actIf hh₁ (by decide) hstreams).mono fun _ h₂ hh₂ => ?_)
  refine Obeys.bind ((booking_actIf hh₂ (by decide) hhits).mono fun _ h₃ hh₃ => ?_)
  obtain ⟨hids, hevents, hadditions⟩ := hh₃.books
  refine ⟨trivial, fun _ => ⟨id, now, ⟨by simp [hids, drawnId], by simp [hevents, writtenTo],
    fun k => ?_⟩⟩⟩
  have hcount := hadditions k
  cases k <;> simpa [addsTo] using hcount

/-! ## The handler -/

/-- What a request that ended with `out` has booked: nothing, or an event of the backend that
served it. -/
def Booked (out : Outcome) (h : List Event) : Prop :=
  (out.served = none ∧ Books h [] [] fun _ => 0) ∨
    ∃ event, out.served = some event.backendID ∧ Recorded h event

/-- Recording a route enters its event. -/
theorem booked_recordRoute {h : List Event} (hh : Books h [] [] fun _ => 0) (r : Request)
    (d : Dispatch) (status : ℕ) (ttftMillis : ℤ) {out : Outcome}
    (hserved : out.served = some d.state.id) :
    Obeys (fun _ a => ByOne a) (fun out h' => Booked out h') h
      ((recordRoute r d status ttftMillis).bind fun _ => .ret out) :=
  Obeys.bind ((record_books hh _ _).mono fun _ _ hrecorded => Or.inr ⟨_, hserved, hrecorded⟩)

theorem keepsBooks_commit (r : Request) (d : Dispatch) : KeepsBooks (commitCacheObservation r d) :=
  fun _ => ⟨rfl, rfl, fun k => by cases k <;> rfl⟩

/-- **A dispatch enters one event**, or panics before that. -/
theorem dispatch_books {h : List Event} (hh : Books h [] [] fun _ => 0) (r : Request)
    (d : Dispatch) :
    Obeys (fun _ a => ByOne a) (fun out h' => Booked out h') h (dispatch r d) := by
  have hobserve (c : Prop) [Decidable c] : Obeys (fun _ a => ByOne a)
      (fun _ h' => Books h' [] [] fun _ => 0) h (actIf c (commitCacheObservation r d)) :=
    books_of_uses (uses_actIf fun _ => keepsBooks_commit r d) hh
  unfold dispatch dispatchStream dispatchPlain
  split
  · split
    · exact Or.inl ⟨rfl, hh⟩
    · next ttft err w hforward =>
        have hback : w.backend = some d.state.id := forwardStream_backend hforward
        refine Obeys.bind ((hobserve _).mono fun _ h' hh' => ?_)
        cases err with
        | none => exact booked_recordRoute hh' r d 200 _ hback
        | some e => exact booked_recordRoute hh' r d 502 0 hback
  · split
    · exact booked_recordRoute hh r d 502 0 rfl
    · next resp _ =>
        split
        · exact Or.inl ⟨rfl, hh⟩
        · next w hhead =>
            have hback : (ioCopy r.client w resp.body).1.backend = some d.state.id :=
              (ioCopy_backend _ _ _).trans (writeHeader_backend hhead)
            exact Obeys.bind ((hobserve _).mono fun _ h' hh' =>
              booked_recordRoute hh' r d resp.statusCode 0 hback)

/-- Reading is not entered. -/
theorem keepsBooks_of_read {a : Act} (ha : IsRead a) : KeepsBooks a := by
  cases a with
  | loadHealthy | loadDepth | lookup | usage =>
      exact fun _ => ⟨rfl, rfl, fun k => by cases k <;> rfl⟩
  | _ => exact ha.elim

/-- **What a request books**, under every interleaving. -/
theorem handler_books (s : Server) (r : Request) :
    Obeys (fun _ a => ByOne a) (fun out h => Booked out h) [] (handleChatCompletions s r) := by
  have hread (a : Act) (ha : IsRead a) : KeepsBooks a := keepsBooks_of_read ha
  have hswap (id : String) (old new : Int64) : KeepsBooks (.casDepth id old new) :=
    fun _ => ⟨rfl, rfl, fun k => by cases k <;> rfl⟩
  have hnone : Books [] [] [] fun _ => 0 := ⟨rfl, rfl, fun _ => rfl⟩
  unfold handleChatCompletions
  cases hc : prepare s r with
  | error out =>
      refine Or.inl ⟨?_, hnone⟩
      rw [Outcome.served, header_of_prepare hc, ite_self]
  | ok c =>
      refine Obeys.bind ((books_of_uses (uses_healthy hread s.pool r.order) hnone).mono
        fun found h₁ hh₁ => ?_)
      show Obeys _ _ h₁ (ite _ _ _)
      split
      · exact Or.inl ⟨rfl, hh₁⟩
      · refine Obeys.bind ((books_of_uses (uses_statesOf hread c found) hh₁).mono
          fun states h₂ hh₂ => ?_)
        refine Obeys.bind ((books_of_uses (uses_reserveFirst hread hswap s.pool _) hh₂).mono
          fun sel h₃ hh₃ => ?_)
        cases sel with
        | none =>
            refine Or.inl ⟨?_, hh₃⟩
            show Outcome.served (ite _ _ _) = none
            split <;> rfl
        | some x =>
            refine Obeys.bind ((dispatch_books hh₃ r _).mono fun out h₄ hh₄ => ?_)
            refine ⟨trivial, fun n => ?_⟩
            have hrelease : KeepsBooks (.addDepth x.1.id (-1)) :=
              fun _ => ⟨rfl, rfl, fun k => by cases k <;> rfl⟩
            obtain ⟨hserved, hh₄⟩ | ⟨event, hserved, id, now, hh₄⟩ := hh₄
            · exact Or.inl ⟨hserved, hh₄.keep hrelease n⟩
            · exact Or.inr ⟨event, hserved, id, now, hh₄.keep hrelease n⟩

/-! ## The recorder -/

/-- The recorder after the actions `h`: it has drawn the IDs from 1 on, counted the additions, and
its ring holds the newest events written. -/
structure Tallied (h : List Event) (t : Recorder) : Prop where
  sequence : t.sequence = UInt64.ofNat (h.filterMap drawnId).length
  ids : h.filterMap drawnId =
    (List.range (h.filterMap drawnId).length).map fun n => UInt64.ofNat (n + 1)
  counter : ∀ k, t.counter k = UInt64.ofNat (h.countP (addsTo k))
  capacity : t.capacity = 1000
  ring : t.Holds (h.filterMap writtenTo)

/-- An action that draws no ID. -/
theorem Tallied.undrawn {h : List Event} {t t' : Recorder} (hh : Tallied h t) {e : Event}
    (he : drawnId e = none) (hsequence : t'.sequence = t.sequence)
    (hcapacity : t'.capacity = t.capacity)
    (hcounter : ∀ k, t'.counter k = t.counter k + if addsTo k e then 1 else 0)
    (hring : t'.Holds (h.filterMap writtenTo ++ (writtenTo e).toList)) : Tallied (h ++ [e]) t' := by
  have hids : (h ++ [e]).filterMap drawnId = h.filterMap drawnId := by simp [he]
  refine ⟨by rw [hids, hsequence, hh.sequence], by rw [hids, ← hh.ids], fun k => ?_,
    hcapacity.trans hh.capacity, by rwa [filterMap_concat]⟩
  rw [hcounter, hh.counter, List.countP_append, List.countP_singleton]
  split <;> simp [UInt64.ofNat_add]

theorem Tallied.keep {h : List Event} {t : Recorder} (hh : Tallied h t) {a : Act}
    (ha : KeepsBooks a) (r : a.Result) : Tallied (h ++ [⟨a, r⟩]) t := by
  obtain ⟨hid, hevent, hadds⟩ := ha r
  exact hh.undrawn hid rfl rfl (fun k => by simp [hadds]) (by simpa [hevent] using hh.ring)

/-- An ID is drawn in order. -/
theorem Tallied.draw {h : List Event} {t : Recorder} (hh : Tallied h t) :
    Tallied (h ++ [⟨.addSequence 1, t.sequence + 1⟩]) { t with sequence := t.sequence + 1 } := by
  let e : Event := ⟨.addSequence 1, t.sequence + 1⟩
  have hids : (h ++ [e]).filterMap drawnId = h.filterMap drawnId ++ [t.sequence + 1] :=
    filterMap_concat drawnId h e
  have hevents : (h ++ [e]).filterMap writtenTo = h.filterMap writtenTo := by
    rw [filterMap_concat]
    exact List.append_nil _
  have hnext : t.sequence + 1 = UInt64.ofNat ((h.filterMap drawnId).length + 1) := by
    rw [hh.sequence, UInt64.ofNat_add]
    rfl
  refine ⟨?_, ?_, fun k => ?_, hh.capacity, hevents ▸ hh.ring⟩
  · rw [hids, List.length_append, List.length_singleton]
    exact hnext
  · rw [hids, List.length_append, List.length_singleton, List.range_succ, List.map_append, ← hh.ids,
      List.map_singleton, ← hnext]
  · have hcounter := hh.counter k
    cases k <;> simpa [addsTo, Recorder.counter] using hcounter

/-- An addition to a counter, which the recorder keeps beside the others. -/
theorem Tallied.add {h : List Event} {t t' : Recorder} (hh : Tallied h t) {k : Counter}
    (r : k.increment.Result) (hsequence : t'.sequence = t.sequence)
    (hcapacity : t'.capacity = t.capacity) (hring : ∀ events, t.Holds events → t'.Holds events)
    (hcounter : ∀ k', t'.counter k' = t.counter k' + if k' = k then 1 else 0) :
    Tallied (h ++ [⟨k.increment, r⟩]) t' := by
  have hevent : writtenTo ⟨k.increment, r⟩ = none := by cases k <;> rfl
  refine hh.undrawn (by cases k <;> rfl) hsequence hcapacity (fun k' => ?_) (hring _ ?_)
  · simp [hcounter, addsTo_increment]
  · simpa [hevent] using hh.ring

/-- **Every action of a router keeps the tally.** -/
theorem Tallied.step {h : List Event} {w : World} (hh : Tallied h w.telemetry) {a : Act}
    (ha : ByOne a) : Tallied (h ++ [⟨a, (a.sem w).1⟩]) (a.sem w).2.telemetry := by
  have hkeep (hsame : (a.sem w).2.telemetry = w.telemetry) (hbooks : KeepsBooks a) :
      Tallied (h ++ [⟨a, (a.sem w).1⟩]) (a.sem w).2.telemetry := by
    rw [hsame]
    exact hh.keep hbooks _
  cases a with
  | addSequence delta =>
      obtain rfl := ha
      exact hh.draw
  | addRequests delta =>
      obtain rfl := ha
      exact hh.add (k := .requests) _ rfl rfl (fun _ h => h) fun k' => by
        cases k' <;> simp [Act.sem, Recorder.counter]
  | addErrors delta =>
      obtain rfl := ha
      exact hh.add (k := .errors) _ rfl rfl (fun _ h => h) fun k' => by
        cases k' <;> simp [Act.sem, Recorder.counter]
  | addStreams delta =>
      obtain rfl := ha
      exact hh.add (k := .streams) _ rfl rfl (fun _ h => h) fun k' => by
        cases k' <;> simp [Act.sem, Recorder.counter]
  | addCacheHits delta =>
      obtain rfl := ha
      exact hh.add (k := .cacheHits) _ rfl rfl (fun _ h => h) fun k' => by
        cases k' <;> simp [Act.sem, Recorder.counter]
  | writeRing event =>
      exact hh.undrawn rfl rfl rfl (fun k => by
        cases k <;> simp [addsTo, Act.sem, Recorder.counter, Recorder.writeRing])
        (holds_writeRing hh.ring event)
  | casHealthy id old new | casDepth id old new =>
      refine hkeep ?_ fun _ => ⟨rfl, rfl, fun k => by cases k <;> rfl⟩
      simp only [Act.sem]
      split <;> rfl
  | _ => exact hkeep rfl fun _ => ⟨rfl, rfl, fun k => by cases k <;> rfl⟩

/-! ## Finished threads -/

/-- A trace that has drawn an ID for each event it wrote and added the event to each counter that
counts it; the events are of the backends `served`. -/
structure Balanced (h : List Event) (served : List String) : Prop where
  served : (h.filterMap writtenTo).map (·.backendID) = served
  ids : (h.filterMap writtenTo).map (·.id) = h.filterMap drawnId
  additions : ∀ k, h.countP (addsTo k) = (h.filterMap writtenTo).countP k.counts

/-- The books of two parts add up. -/
theorem Balanced.append {h h' : List Event} {served served' : List String}
    (hh : Balanced h served) (hh' : Balanced h' served') :
    Balanced (h ++ h') (served ++ served') :=
  ⟨by simp [hh.served, hh'.served], by simp [hh.ids, hh'.ids],
    fun k => by simp [hh.additions, hh'.additions]⟩

theorem Books.balanced {h : List Event} (hh : Books h [] [] fun _ => 0) : Balanced h [] :=
  ⟨by simp [hh.events], by simp [hh.events, hh.ids], fun k => by simp [hh.events, hh.additions]⟩

/-- The books of one event are balanced. -/
theorem Recorded.balanced {h : List Event} {event : RouteEvent} (hh : Recorded h event) :
    Balanced h [event.backendID] := by
  obtain ⟨id, now, hbooks⟩ := hh
  refine ⟨by simp [hbooks.events], by simp [hbooks.events, hbooks.ids], fun k => ?_⟩
  have hcounts : k.counts { event with id := id, timestamp := now } = k.counts event := by
    cases k <;> rfl
  simp [hbooks.events, hbooks.additions, hcounts]

/-- The backend that has served a thread. -/
def servedBy (t : Thread Act Act.Result Done) : Option String :=
  match t.prog with
  | .ret x => x.served
  | _ => none

/-- The health checks are not entered. -/
theorem keepsBooks_of_onHealth {id : String} {a : Act} (ha : OnHealth id a) : KeepsBooks a := by
  cases a with
  | loadHealthy | casHealthy | storeFails | addFails | storeSuccesses | addSuccesses
  | addHealthyTransitions | addUnhealthyTransitions =>
      exact fun _ => ⟨rfl, rfl, fun k => by cases k <;> rfl⟩
  | _ => exact ha.elim

/-- A goroutine of the health checks books nothing. -/
theorem prog_books (checks : ChecksEnv) (b : Backend) :
    Obeys (fun _ a => ByOne a) (fun x h => Balanced h x.served.toList) [] (checks.prog b) := by
  have hnone : Books [] [] [] fun _ => 0 := ⟨rfl, rfl, fun _ => rfl⟩
  have hhealth : (healthCheck b (checks.env b.id)).Uses KeepsBooks :=
    (onHealth_healthCheck b _).mono fun _ => keepsBooks_of_onHealth
  exact Obeys.bind ((books_of_uses hhealth hnone).mono fun _ _ hh => hh.balanced)

/-- **A request enters one event if it is served**, and none otherwise. -/
theorem request_books (s : Server) (r : Request) :
    Obeys (fun _ a => ByOne a) (fun x h => Balanced h x.served.toList) []
      ((Task.request r).prog s) := by
  refine Obeys.bind ((handler_books s r).mono fun out h hbooked => ?_)
  show Balanced h out.served.toList
  obtain ⟨hserved, hh⟩ | ⟨event, hserved, hh⟩ := hbooked
  · rw [hserved]
    exact hh.balanced
  · rw [hserved]
    exact hh.balanced

section
variable {s : Server} {w : World} {checks : ChecksEnv} {requests : List Request} {log : Log}
  {c : System} {parseURL : String → Option Config.URL} {cfg : KvRouter.Config}
  {hvalid : Config.Valid parseURL cfg}
  {sum64 : Bytes → UInt64} {unmarshal : Bytes → Except String ChatCompletionRequest}

/-- Every thread of a router balances its own books. -/
theorem Router.books : ∀ t ∈ (Router.start s w checks requests).threads,
    t.trace = [] ∧
      Obeys (fun _ a => ByOne a) (fun x h => Balanced h x.served.toList) [] t.prog := by
  intro t ht
  obtain ⟨i, hi⟩ := List.mem_iff_getElem?.mp ht
  obtain ⟨b, -, rfl⟩ | ⟨-, r, -, rfl⟩ := Router.start_thread hi
  · exact ⟨rfl, prog_books checks b⟩
  · exact ⟨rfl, request_books s r⟩

/-- The trace of a thread that has returned is balanced. -/
theorem Router.balanced (h : Steps (Router.start s w checks requests) log c)
    (hall : ∀ t ∈ c.threads, ∃ x, t.prog = .ret x) :
    ∀ t ∈ c.threads, Balanced t.trace (servedBy t).toList := by
  intro t ht
  obtain ⟨i, hi⟩ := List.mem_iff_getElem?.mp ht
  have hlt : i < (Router.start s w checks requests).threads.length :=
    h.length_threads ▸ (List.getElem?_eq_some_iff.mp hi).1
  obtain ⟨hfresh, hbooks⟩ := Router.books _ (List.getElem_mem hlt)
  have hstart := List.getElem?_eq_getElem hlt
  obtain ⟨x, hx⟩ := hall t ht
  obtain ⟨p, hp⟩ := h.thread hstart
  rw [hi, hfresh, List.nil_append, Option.some.injEq] at hp
  have hret : Returns t.prog [] x := hx ▸ .ret x
  have hreturns := h.returns hstart hi hret
  rw [List.append_nil] at hreturns
  have hbalanced : Balanced (own i log) x.served.toList := hbooks.returns hreturns
  rw [hp] at hx
  obtain rfl : p = .ret x := hx
  rw [hp]
  exact hbalanced

/-- The books of all threads are balanced together. -/
theorem balanced_traces {threads : List (Thread Act Act.Result Done)}
    (h : ∀ t ∈ threads, Balanced t.trace (servedBy t).toList) :
    Balanced (threads.flatMap (·.trace)) (threads.filterMap servedBy) := by
  induction threads with
  | nil => exact ⟨rfl, rfl, fun _ => rfl⟩
  | cons t threads ih =>
      obtain ⟨ht, hrest⟩ := List.forall_mem_cons.mp h
      have hserved : (t :: threads).filterMap servedBy =
          (servedBy t).toList ++ threads.filterMap servedBy := by
        cases hs : servedBy t <;> simp [hs]
      rw [List.flatMap_cons, hserved]
      exact ht.append (ih hrest)

/-- The recorder of a router that has started fresh. -/
theorem Router.tallied (h : Steps (Router.start s w checks requests) log c)
    (hfresh : w.telemetry = .new 1000) : Tallied (log.map (·.event)) c.shared.telemetry := by
  have hstart : Tallied [] w.telemetry := by
    rw [hfresh]
    exact ⟨rfl, rfl, fun k => by cases k <;> rfl, rfl, holds_new 1000⟩
  refine h.invariant (I := fun log w => Tallied (log.map (·.event)) w.telemetry) hstart ?_
  intro earlier x later hlog hnow
  have hone : ByOne x.event.1 := h.permitted_all Router.books hlog
  obtain ⟨who, before, a, r⟩ := x
  obtain rfl : r = (a.sem before).1 := h.sound ⟨who, before, a, r⟩ (by simp [hlog])
  simpa using hnow.step hone

/-! ## The books of a router -/

/-- The books of a router at rest: `events` have been written, in this order. -/
structure Ledger (c : System) (events : List RouteEvent) : Prop where
  /-- an event for each request that was served, of the backend that served it -/
  served : (events.map (·.backendID)).Perm (c.threads.filterMap servedBy)
  /-- the IDs from 1 on, each once -/
  ids : (events.map (·.id)).Perm ((List.range events.length).map fun n => UInt64.ofNat (n + 1))
  counter : ∀ k, c.shared.telemetry.counter k = UInt64.ofNat (events.countP k.counts)
  recent : ∀ limit, c.shared.telemetry.recent limit =
    .ok (events.reverse.take (effectiveLimit 1000 limit))

/-- A limit beyond what the ring holds is no limit. -/
theorem take_effectiveLimit (events : List RouteEvent) (limit : ℤ) :
    events.take (min (effectiveLimit 1000 limit) (min events.length 1000)) =
      events.take (effectiveLimit 1000 limit) := by
  have hle : effectiveLimit 1000 limit ≤ 1000 := by
    unfold effectiveLimit
    split <;> omega
  rw [List.take_eq_take_iff]
  omega

/-- **Nothing is lost or counted twice**: once every thread has returned, the telemetry is that of
the requests that were served, in whatever order they were. -/
theorem telemetry_settles (hboot : boot sum64 unmarshal cfg hvalid = .ok (s, w))
    (h : Steps (Router.start s w checks requests) log c)
    (hall : ∀ t ∈ c.threads, ∃ x, t.prog = .ret x) :
    Ledger c ((log.map (·.event)).filterMap writtenTo) := by
  have hfresh : w.telemetry = .new 1000 := by
    obtain ⟨pool, -, -, rfl⟩ := boot_eq_ok_iff.mp hboot
    rfl
  have hperm : (c.threads.flatMap (·.trace)).Perm (log.map (·.event)) :=
    h.perm_traces fun t ht => (Router.books t ht).1
  have hbalanced := balanced_traces (Router.balanced h hall)
  have htallied := Router.tallied h hfresh
  have hevents := hperm.filterMap writtenTo
  have hids : (((log.map (·.event)).filterMap writtenTo).map (·.id)).Perm
      ((log.map (·.event)).filterMap drawnId) := by
    have hdrawn := hperm.filterMap drawnId
    rw [← hbalanced.ids] at hdrawn
    exact (hevents.map _).symm.trans hdrawn
  have hlength := hids.length_eq
  rw [List.length_map] at hlength
  refine ⟨?_, ?_, fun k => ?_, fun limit => ?_⟩
  · rw [← hbalanced.served]
    exact (hevents.map _).symm
  · rw [htallied.ids, ← hlength] at hids
    exact hids
  · rw [htallied.counter, ← hperm.countP_eq, hbalanced.additions, hevents.countP_eq]
  · have hcount := Ring.Holds.count_eq htallied.ring
    rw [Recorder.length_events, htallied.capacity] at hcount
    rw [recent_eq htallied.ring (by rw [htallied.capacity]; decide), hcount, htallied.capacity,
      ← take_effectiveLimit, List.length_reverse]

end

/-- The books of a router that has served a request. -/
theorem telemetry_settles_served :
    let checks := Sample.checks default
    let requests := [Sample.request default fun _ => default]
    ∃ s w log c, boot Sample.sum64 Sample.unmarshal Sample.config Sample.valid_config =
        .ok (s, w) ∧
      Steps (Router.start s w checks requests) log c ∧ Returned s.pool requests c ∧
      ((log.map (·.event)).filterMap writtenTo).map (·.backendID) = ["a"] ∧
      Ledger c ((log.map (·.event)).filterMap writtenTo) := by
  intro checks requests
  let s := Sample.server Sample.pool
  obtain ⟨log, c, hpath, hended⟩ : ∃ log c, Steps (Router.start s Sample.booted checks requests)
      log c ∧ (c.threads.all (·.returned), ((log.map (·.event)).filterMap writtenTo).map
        (·.backendID)) = (true, ["a"]) := by
    refine Path.exists_of_scheduled Sample.schedule
      (fun x => (x.2.threads.all (·.returned),
        ((x.1.map (·.event)).filterMap writtenTo).map (·.backendID))) ?_
    simp only [requests]
    rw [Sample.start_eq rfl, List.map_cons,
      Sample.prog_of_prepare rfl (Sample.prepare_request Sample.pool _ _)]
    decide +kernel
  obtain ⟨hreturned, hwritten⟩ := Prod.mk.inj hended
  have hall : ∀ t ∈ c.threads, ∃ x, t.prog = .ret x :=
    fun t ht => Thread.returned_iff.mp (List.all_eq_true.mp hreturned t ht)
  exact ⟨s, _, log, c, Sample.boot_server, hpath, Router.returned hpath hall, hwritten,
    telemetry_settles Sample.boot_server hpath hall⟩

end KvRouter
