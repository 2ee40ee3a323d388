import KvRouter.Handler.Solo

/-!
# KvRouter.Outcome

Whether the recorded outcome of a request is the delivered one.  The two paths
of the dispatch report to the recorder in different ways: the plain one records
the upstream status, the streaming one only whether `ForwardStream` returned an
error, as 502 or 200.  `reports_iff` says for which exchanges both record what
the client received.
-/

namespace KvRouter

open Handler Proxy Telemetry Prog

/-! ## One event -/

theorem add_one_ne_self (n : UInt64) : n + 1 ≠ n := by
  intro h
  have hone : (1 : UInt64) = 0 := UInt64.add_eq_left.mp h
  contradiction

/-- A recorder that has recorded an event has changed. -/
theorem record_ne (t : Recorder) (event : RouteEvent) (now : ℤ) : t.record event now ≠ t := by
  intro h
  exact add_one_ne_self t.sequence (congrArg Recorder.sequence h)

/-- The recorder shows the event it recorded last. -/
theorem record_inj {t : Recorder} {event event' : RouteEvent} {now : ℤ}
    (h : t.record event now = t.record event' now) : event.statusCode = event'.statusCode := by
  have hlt : t.next < t.events.length := by
    rw [t.length_events]
    exact t.next_lt
  have hevents := congrArg (fun t : Recorder => t.events) h
  simp only [Recorder.record, Recorder.writeRing] at hevents
  have hlast := congrArg (fun l => l[t.next]?) hevents
  simp only [List.getElem?_set_self hlt, Option.some.injEq, RouteEvent.mk.injEq] at hlast
  exact hlast.2.2.2.2.2.2.2.2.1

/-! ## What is reported -/

/-- The dispatch of the same request with the stream flag as given. -/
def Handler.Dispatch.withStream (d : Dispatch) (stream : Bool) : Dispatch :=
  { d with chat := { d.chat with req := { d.chat.req with stream := stream } } }

/-- The proxying of a response completes without error: the whole body is
delivered, and a body that is streamed finds a writer that can flush. -/
def Completes (r : Request) (d : Dispatch) (resp : Response) : Prop :=
  r.client.Delivered 0 resp.body ∧
    (d.chat.req.stream = true → 400 ≤ resp.statusCode ∨ r.client.flusher = true)

/-- A dispatch records exactly one event, with status `status`; if the proxying
completes, that is the upstream status, and the error counter grows by one
exactly when the client received a status from 400 on. -/
def Reports (r : Request) (d : Dispatch) (w : World) (status : ℕ) : Prop :=
  ∃ out w' ttftMillis, exec Act.sem 0 (dispatch r d) w = some (out, w') ∧
    w'.telemetry = w.telemetry.record (routeEvent d status ttftMillis) r.recordTime ∧
    ∀ resp, r.upstream d.backend = .ok resp → Completes r d resp →
      status = resp.statusCode ∧
      w'.telemetry.errors = w.telemetry.errors + if 400 ≤ out.writer.sent then 1 else 0

/-- The recorded outcome of a dispatch is the delivered one, and the same on
both paths. -/
def ReportsDelivered (r : Request) (d : Dispatch) (w : World) : Prop :=
  ∃ status, Reports r (d.withStream true) w status ∧ Reports r (d.withStream false) w status

variable {r : Request} {d : Dispatch} {w : World}

/-- At most one status is reported. -/
theorem Reports.unique {status status' : ℕ} (h : Reports r d w status)
    (h' : Reports r d w status') : status = status' := by
  obtain ⟨out, w₁, ttft, hexec, hrecord, -⟩ := h
  obtain ⟨out', w₁', ttft', hexec', hrecord', -⟩ := h'
  rw [hexec, Option.some.injEq, Prod.mk.injEq] at hexec'
  obtain ⟨rfl, rfl⟩ := hexec'
  exact record_inj (hrecord.symm.trans hrecord')

/-- The error counter after an event. -/
theorem errors_record (t : Recorder) (event : RouteEvent) (now : ℤ) :
    (t.record event now).errors = t.errors + if 400 ≤ event.statusCode then 1 else 0 := by
  show (if event.statusCode ≥ 400 then t.errors + 1 else t.errors) = _
  split
  · rfl
  · exact (UInt64.add_zero t.errors).symm

/-! ## What is recorded -/

/-- The status a dispatch records, none if `WriteHeader` panics before it does. -/
def recordedStatus (r : Request) (d : Dispatch) : Option ℕ :=
  if d.chat.req.stream then
    match forwardStream (r.upstream d.backend) r.client ⟨d.backend.id, r.ttft⟩ d.writer with
    | .error _ => none
    | .ok (_, some _, _) => some 502
    | .ok (_, none, _) => some 200
  else
    match r.upstream d.backend with
    | .error _ => some 502
    | .ok resp =>
        match d.writer.writeHeader resp.statusCode with
        | .error _ => none
        | .ok _ => some resp.statusCode

/-- **The telemetry of a dispatch**: one event with the recorded status, or
nothing; and the client received an error status if the upstream sent one. -/
theorem exec_dispatch_telemetry (r : Request) (d : Dispatch) (w : World) :
    ∃ out w', exec Act.sem 0 (dispatch r d) w = some (out, w') ∧
      match recordedStatus r d with
      | none => w'.telemetry = w.telemetry
      | some status =>
          (∃ ttftMillis, w'.telemetry =
            w.telemetry.record (routeEvent d status ttftMillis) r.recordTime) ∧
          ∀ resp, r.upstream d.backend = .ok resp →
            (400 ≤ out.writer.sent ↔ 400 ≤ resp.statusCode) := by
  unfold dispatch recordedStatus
  split
  · rw [exec_dispatchStream]
    cases hforward :
      forwardStream (r.upstream d.backend) r.client ⟨d.backend.id, r.ttft⟩ d.writer with
    | error e => exact ⟨_, _, rfl, rfl⟩
    | ok x =>
        obtain ⟨ttft, err, writer⟩ := x
        have hsent (resp : Response) (hup : r.upstream d.backend = .ok resp) :
            400 ≤ writer.sent ↔ 400 ≤ resp.statusCode := by
          rw [hup] at hforward
          exact forwardStream_sent rfl hforward
        cases err with
        | none => exact ⟨_, _, rfl, ⟨_, by rw [World.recorded, telemetry_observed]⟩, hsent⟩
        | some e => exact ⟨_, _, rfl, ⟨0, by rw [World.recorded, telemetry_observed]⟩, hsent⟩
  · rw [exec_dispatchPlain]
    cases r.upstream d.backend with
    | error e => exact ⟨_, _, rfl, ⟨0, rfl⟩, fun resp h => by contradiction⟩
    | ok resp =>
        dsimp only
        cases hhead : d.writer.writeHeader resp.statusCode with
        | error e => exact ⟨_, _, rfl, rfl⟩
        | ok writer =>
            refine ⟨_, _, rfl, ⟨0, by rw [World.recorded, telemetry_observed]⟩, fun resp' h => ?_⟩
            obtain rfl := Except.ok.inj h
            dsimp only
            rw [ioCopy_sent]
            exact writeHeader_sent rfl hhead

/-- What is reported is the status that the dispatch records. -/
theorem reports_iff_recordedStatus {status : ℕ} : Reports r d w status ↔
    recordedStatus r d = some status ∧
      ∀ resp, r.upstream d.backend = .ok resp → Completes r d resp → status = resp.statusCode := by
  obtain ⟨out, w', hexec, htelemetry⟩ := exec_dispatch_telemetry r d w
  cases hstatus : recordedStatus r d with
  | none =>
      rw [hstatus] at htelemetry
      constructor
      · intro h
        obtain ⟨out₁, w₁, ttftMillis, hexec₁, hrecord, -⟩ := h
        rw [hexec, Option.some.injEq, Prod.mk.injEq] at hexec₁
        obtain ⟨rfl, rfl⟩ := hexec₁
        exact absurd (hrecord.symm.trans htelemetry) (record_ne _ _ _)
      · intro h
        exact absurd h.1 (Option.some_ne_none status).symm
  | some status' =>
      rw [hstatus] at htelemetry
      obtain ⟨⟨ttftMillis, hrecord⟩, hsent⟩ := htelemetry
      constructor
      · intro h
        obtain ⟨out₁, w₁, ttftMillis₁, hexec₁, hrecord₁, hreport⟩ := h
        rw [hexec, Option.some.injEq, Prod.mk.injEq] at hexec₁
        obtain ⟨rfl, rfl⟩ := hexec₁
        obtain rfl : status' = status := record_inj (hrecord.symm.trans hrecord₁)
        exact ⟨rfl, fun resp hup hdone => (hreport resp hup hdone).1⟩
      · intro h
        obtain rfl : status' = status := Option.some.inj h.1
        refine ⟨out, w', ttftMillis, hexec, hrecord, fun resp hup hdone => ?_⟩
        have hcode := h.2 resp hup hdone
        refine ⟨hcode, ?_⟩
        rw [hrecord, errors_record]
        have hevent : (routeEvent d status' ttftMillis).statusCode = resp.statusCode := hcode
        simp only [hevent, hsent resp hup]

/-! ## When the report is right -/

/-- The exchanges whose outcome is recorded as delivered on both paths. -/
def Reportable (r : Request) (b : Backend) : Prop :=
  match r.upstream b with
  | .error _ => True
  | .ok resp =>
      (resp.statusCode = 200 ∧ r.client.flusher = true ∧ r.client.Delivered 0 resp.body) ∨
      (resp.statusCode = 502 ∧ ¬ r.client.Delivered 0 resp.body)

variable {resp : Response}

/-- A status that `WriteHeader` accepts is recorded. -/
theorem recordedStatus_isSome (hup : r.upstream d.backend = .ok resp) {writer : Writer}
    (hhead : d.writer.writeHeader resp.statusCode = .ok writer) : (recordedStatus r d).isSome := by
  unfold recordedStatus
  rw [hup]
  split
  · simp only [forwardStream, hhead]
    split
    · next h => split_ifs at h
    · rfl
    · rfl
  · simp only [hhead]
    rfl

/-- The plain path records the upstream status. -/
theorem recordedStatus_plain (hup : r.upstream d.backend = .ok resp)
    (hplain : d.chat.req.stream = false) {status : ℕ} (h : recordedStatus r d = some status) :
    status = resp.statusCode := by
  unfold recordedStatus at h
  rw [hplain, hup] at h
  simp only [Bool.false_eq_true, if_false] at h
  split at h
  · contradiction
  · exact (Option.some.inj h).symm

/-- The streaming path records whether the relay completed. -/
theorem recordedStatus_stream (hup : r.upstream d.backend = .ok resp)
    (hstream : d.chat.req.stream = true) {status : ℕ} (h : recordedStatus r d = some status) :
    (status = 200 ∧ Completes r d resp) ∨ (status = 502 ∧ ¬ Completes r d resp) := by
  have hdone {ttft : Option TTFTResult} {err : Option RelayError} {writer : Writer}
      (hforward : forwardStream (r.upstream d.backend) r.client ⟨d.backend.id, r.ttft⟩ d.writer =
        .ok (ttft, err, writer)) : err = none ↔ Completes r d resp := by
    rw [hup] at hforward
    rw [forwardStream_err hforward, Completes, hstream]
    simp [Dispatch.writer, Writer.new]
  unfold recordedStatus at h
  rw [if_pos hstream] at h
  split at h
  · contradiction
  · next hforward =>
      refine Or.inr ⟨(Option.some.inj h).symm, fun hcompletes => ?_⟩
      exact Option.some_ne_none _ ((hdone hforward).mpr hcompletes)
  · next hforward => exact Or.inl ⟨(Option.some.inj h).symm, (hdone hforward).mp rfl⟩

/-- A failed exchange is recorded as 502. -/
theorem recordedStatus_unreachable {e : ForwardError} (hup : r.upstream d.backend = .error e) :
    recordedStatus r d = some 502 := by
  unfold recordedStatus
  rw [hup]
  split <;> rfl

/-- The stream records the upstream status when it relays all of a 200, or part of a 502. -/
theorem recordedStatus_stream_eq_iff (hup : r.upstream d.backend = .ok resp)
    (hstream : d.chat.req.stream = true) {status : ℕ} (h : recordedStatus r d = some status) :
    status = resp.statusCode ↔
      (resp.statusCode = 200 ∧ r.client.flusher = true ∧ r.client.Delivered 0 resp.body) ∨
      (resp.statusCode = 502 ∧ ¬ r.client.Delivered 0 resp.body) := by
  have hcompletes : Completes r d resp ↔ r.client.Delivered 0 resp.body ∧
      (400 ≤ resp.statusCode ∨ r.client.flusher = true) := by
    simp [Completes, hstream]
  obtain ⟨rfl, hdone⟩ | ⟨rfl, hdone⟩ := recordedStatus_stream hup hstream h
  · obtain ⟨hdelivered, hflush⟩ := hcompletes.mp hdone
    constructor
    · intro hcode
      rw [← hcode] at hflush
      exact Or.inl ⟨hcode.symm, hflush.resolve_left (by decide), hdelivered⟩
    · intro hreport
      obtain ⟨hcode, -⟩ | ⟨-, hnot⟩ := hreport
      · exact hcode.symm
      · exact absurd hdelivered hnot
  · rw [hcompletes] at hdone
    constructor
    · intro hcode
      rw [← hcode] at hdone
      exact Or.inr ⟨hcode.symm, fun hdelivered => hdone ⟨hdelivered, Or.inl (by decide)⟩⟩
    · intro hreport
      obtain ⟨-, hflush, hdelivered⟩ | ⟨hcode, -⟩ := hreport
      · exact absurd ⟨hdelivered, Or.inr hflush⟩ hdone
      · exact hcode.symm

/-- The reports are right when both paths record one status. -/
theorem reportsDelivered_iff_agree : ReportsDelivered r d w ↔ ∃ status,
    recordedStatus r (d.withStream true) = some status ∧
      recordedStatus r (d.withStream false) = some status := by
  simp only [ReportsDelivered, reports_iff_recordedStatus]
  constructor
  · intro h
    obtain ⟨status, ⟨hstream, -⟩, hplain, -⟩ := h
    exact ⟨status, hstream, hplain⟩
  · intro h
    obtain ⟨status, hstream, hplain⟩ := h
    have hcode (resp : Response) (hup : r.upstream d.backend = .ok resp) :
        status = resp.statusCode := recordedStatus_plain (d := d.withStream false) hup rfl hplain
    exact ⟨status, ⟨hstream, fun resp hup _ => hcode resp hup⟩, hplain,
      fun resp hup _ => hcode resp hup⟩

/-- **When the recorded outcome is the delivered one**: for every dispatch, every
upstream status and body, and every behaviour of the client. -/
theorem reports_delivered_iff (r : Request) (d : Dispatch) (w : World) :
    ReportsDelivered r d w ↔ Reportable r d.backend := by
  rw [reportsDelivered_iff_agree]
  unfold Reportable
  cases hup : r.upstream d.backend with
  | error e =>
      exact iff_of_true ⟨502, recordedStatus_unreachable hup, recordedStatus_unreachable hup⟩
        trivial
  | ok resp =>
      constructor
      · intro h
        obtain ⟨status, hstream, hplain⟩ := h
        exact (recordedStatus_stream_eq_iff (d := d.withStream true) hup rfl hstream).mp
          (recordedStatus_plain (d := d.withStream false) hup rfl hplain)
      · intro h
        have hhead : ∃ writer, d.writer.writeHeader resp.statusCode = .ok writer := by
          obtain ⟨hcode, -⟩ | ⟨hcode, -⟩ := h <;> rw [hcode] <;> exact ⟨_, rfl⟩
        obtain ⟨writer, hhead⟩ := hhead
        have hrecorded (stream : Bool) : ∃ status, recordedStatus r (d.withStream stream) =
            some status := Option.isSome_iff_exists.mp
          (recordedStatus_isSome (d := d.withStream stream) hup hhead)
        obtain ⟨status, hstream⟩ := hrecorded true
        obtain ⟨status', hplain⟩ := hrecorded false
        obtain rfl := (recordedStatus_stream_eq_iff (d := d.withStream true) hup rfl hstream).mpr h
        obtain rfl := recordedStatus_plain (d := d.withStream false) hup rfl hplain
        exact ⟨_, hstream, hplain⟩

/-- A request to a backend that answers 500 with an empty body. -/
def failing (order : GoMap.RangeOrder String Backend) (evictions : ℕ → CacheIndex.ScanOrder) :
    Request :=
  { Sample.request order evictions with upstream := fun _ => .ok ⟨500, .last [] none⟩ }

/-- The dispatch of the sample chat as a stream. -/
def streamed : Dispatch :=
  ⟨{ Sample.chat with req := { Sample.chat.req with stream := true } }, ⟨"a", "http://a", 1⟩,
    ⟨"a", 0, 0, 1, 0, 10, true⟩, 0, 0⟩

/-- The client of a stream receives 500, and 200 is recorded. -/
theorem stream_failure_recorded_ok :
    let r := failing default fun _ => default
    ∃ out w', exec Act.sem 0 (dispatch r streamed) Sample.world = some (out, w') ∧
      out.writer.status = some 500 ∧
      w'.telemetry = Sample.world.telemetry.record (routeEvent streamed 200 0) r.recordTime ∧
      w'.telemetry.errors = Sample.world.telemetry.errors ∧
      ¬ ReportsDelivered r streamed Sample.world := by
  intro r
  refine ⟨_, _, rfl, rfl, rfl, rfl, fun h => ?_⟩
  obtain ⟨status, hstream, hplain⟩ := h
  have h200 : 200 = status := Option.some.inj (reports_iff_recordedStatus.mp hstream).1
  have h500 : 500 = status := Option.some.inj (reports_iff_recordedStatus.mp hplain).1
  omega

end KvRouter
