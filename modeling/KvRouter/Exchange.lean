import KvRouter.Handler

/-!
# KvRouter.Exchange

The handler of a request, one use of its upstream at a time.  `Stage` is where it
is:

* `routing` — parsing to reserving, which reads no context;
* `calling` — in `client.Do`;
* `relaying`, `writing` — before a read of the response body, and between the
  read and the write of what it returned;
* `finishing` — the relay is over; the commit, the event and the release are
  not.

A call and a read fail once the request's context is done; no other step looks at
it.  `ending` is what the dispatch comes to as a whole, and every stage is headed
for it (`outcome_serve`).
-/

namespace KvRouter.Exchange

open Handler Proxy

/-! ## The end of a dispatch -/

/-- What a handler comes to. -/
structure Ending where
  writer : Writer
  panicked : Bool
  /-- whether the observation is committed -/
  commits : Bool
  /-- the status and the TTFT of the event, if there is one -/
  recorded : Option (ℕ × ℤ)
deriving DecidableEq

/-- An answer of the router itself. -/
def Ending.refused (out : Outcome) : Ending := ⟨out.writer, out.panicked, false, none⟩

/-- The panic of `WriteHeader`. -/
def Ending.panic (d : Dispatch) : Ending := ⟨d.writer, true, false, none⟩

/-- The streaming branch after `ForwardStream`. -/
def Ending.stream (ttft : Option TTFTResult) (err : Option RelayError) (w : Writer) : Ending :=
  ⟨w, false, ttft.isSome,
    some (if err.isSome then (502, 0) else (200, (ttft.map TTFTResult.millis).getD 0))⟩

/-- The other branch after `io.Copy`. -/
def Ending.plain (status : ℕ) (w : Writer) : Ending := ⟨w, false, status < 400, some (status, 0)⟩

/-- Either branch after a failed `Forward`. -/
def Ending.unreachable (d : Dispatch) (err : ForwardError) : Ending :=
  if d.chat.req.stream then .stream none (some (.forward err)) d.writer
  else ⟨writeError d.writer 502 "backend request failed", false, false, some (502, 0)⟩

/-- What a dispatch comes to, given the result of `Forward`. -/
def ending (r : Request) (d : Dispatch) (upstream : Upstream) : Ending :=
  if d.chat.req.stream then
    match forwardStream upstream r.client ⟨d.backend.id, r.ttft⟩ d.writer with
    | .error _ => .panic d
    | .ok x => .stream x.1 x.2.1 x.2.2
  else
    match upstream with
    | .error err => .unreachable d err
    | .ok resp =>
        match d.writer.writeHeader resp.statusCode with
        | .error _ => .panic d
        | .ok w => .plain resp.statusCode (ioCopy r.client w resp.body).1

/-- The commit, the event and the return. -/
def Ending.report (r : Request) (d : Dispatch) (x : Ending) : Program Outcome := do
  actIf (x.commits = true) (commitCacheObservation r d)
  match x.recorded with
  | none => return ⟨x.writer, x.panicked⟩
  | some (status, ttftMillis) => do
      recordRoute r d status ttftMillis
      return ⟨x.writer, x.panicked⟩

theorem actIf_congr {p q : Prop} [Decidable p] [Decidable q] (h : p ↔ q) (a : Act) :
    actIf p a = actIf q a := by
  simp only [actIf, h]

/-- **A dispatch reports what it comes to.** -/
theorem dispatch_eq (r : Request) (d : Dispatch) :
    dispatch r d = (ending r d (r.upstream d.backend)).report r d := by
  unfold dispatch ending
  split
  · unfold dispatchStream
    cases forwardStream (r.upstream d.backend) r.client ⟨d.backend.id, r.ttft⟩ d.writer with
    | error e => rfl
    | ok x =>
        obtain ⟨ttft, err, w⟩ := x
        cases err <;> rfl
  · next hstream =>
      unfold dispatchPlain
      cases r.upstream d.backend with
      | error err =>
          simp only [Ending.unreachable, if_neg hstream]
          rfl
      | ok resp =>
          dsimp only
          cases d.writer.writeHeader resp.statusCode with
          | error e => rfl
          | ok w =>
              rw [actIf_congr (decide_eq_true_iff (p := resp.statusCode < 400)).symm]
              rfl

/-! ## Stages -/

/-- The state of a relay: `ForwardStream`'s loop, or `io.Copy`. -/
structure Relay where
  status : ℕ
  ttft : Option TTFTResult
  writer : Writer
deriving DecidableEq

/-- The relay is the loop of `ForwardStream`, which times the first byte. -/
def Relay.Measured (d : Dispatch) (t : Relay) : Prop := d.chat.req.stream = true ∧ t.status < 400

instance (d : Dispatch) (t : Relay) : Decidable (t.Measured d) :=
  inferInstanceAs (Decidable (_ ∧ _))

def Relay.ended (d : Dispatch) (t : Relay) (err : Option RelayError) : Ending :=
  if d.chat.req.stream then .stream t.ttft err t.writer else .plain t.status t.writer

/-- What a read leaves to be read. -/
inductive Next
  | stop (err : Option ReadError)
  | more (rest : Body)
deriving DecidableEq

inductive Stage
  | routing
  | calling (d : Dispatch)
  | relaying (d : Dispatch) (t : Relay) (body : Body)
  | writing (d : Dispatch) (t : Relay) (bytes : Bytes) (next : Next)
  | finishing (decision : Except Outcome Dispatch) (x : Ending)
  | ended (decision : Except Outcome Dispatch) (x : Ending)
deriving DecidableEq

/-! ## Steps -/

/-- What `Forward` returns, if the context is done or if it is not. -/
def forwarded (done : Bool) (upstream : Upstream) : Upstream :=
  if done then .error .requestFailed else upstream

/-- What can be read of a body, if the context is done or if it is not. -/
def readable (done : Bool) (body : Body) : Body :=
  if done then .last [] (some .failed) else body

/-- What follows the return of `Forward`. -/
def begin (r : Request) (d : Dispatch) : Upstream → Stage
  | .error err => .finishing (.ok d) (.unreachable d err)
  | .ok resp =>
      match d.writer.writeHeader resp.statusCode with
      | .error _ => .finishing (.ok d) (.panic d)
      | .ok w =>
          if Relay.Measured d ⟨resp.statusCode, none, w⟩ ∧ r.client.flusher = false then
            .finishing (.ok d) (.stream none (some .noFlusher) w)
          else .relaying d ⟨resp.statusCode, none, w⟩ resp.body

/-- The return of a read. -/
def Stage.read (d : Dispatch) (t : Relay) : Body → Stage
  | .last bytes err => .writing d t bytes (.stop err)
  | .read bytes rest => .writing d t bytes (.more rest)

/-- The write of what a read returned, and whether it succeeded. -/
def Relay.write (r : Request) (d : Dispatch) (t : Relay) (bytes : Bytes) : Relay × Bool :=
  let x := t.writer.handOver r.client bytes
  ({ t with
      ttft := if t.Measured d then observe ⟨d.backend.id, r.ttft⟩ t.ttft bytes else t.ttft
      writer := x.1 }, x.2)

/-- What follows a write. -/
def Next.after (d : Dispatch) (x : Relay × Bool) : Next → Stage
  | .stop err =>
      .finishing (.ok d) (x.1.ended d (if x.2 then err.map .read else some .write))
  | .more rest =>
      if x.2 then .relaying d x.1 rest else .finishing (.ok d) (x.1.ended d (some .write))

/-- The end of the routing. -/
def Stage.route (decision : Except Outcome Dispatch) : Stage → Option Stage
  | .routing =>
      some (match decision with
        | .error out => .finishing decision (.refused out)
        | .ok d => .calling d)
  | _ => none

/-- Any other step of the handler. -/
def Stage.serve (r : Request) (done : Bool) : Stage → Option Stage
  | .routing => none
  | .calling d => some (begin r d (forwarded done (r.upstream d.backend)))
  | .relaying d t body => some (.read d t (readable done body))
  | .writing d t bytes next => some (next.after d (t.write r d bytes))
  | .finishing decision x => some (.ended decision x)
  | .ended _ _ => none

/-! ## Where a stage is headed -/

/-- The rest of a relay as a whole. -/
def Relay.finish (r : Request) (d : Dispatch) (t : Relay) (body : Body) : Ending :=
  if t.Measured d then
    let x := streamLoop r.client ⟨d.backend.id, r.ttft⟩ t.ttft t.writer body
    Relay.ended d { t with ttft := x.1, writer := x.2.2 } x.2.1
  else
    let x := ioCopy r.client t.writer body
    Relay.ended d { t with writer := x.1 } x.2

/-- What a read and its successors return. -/
def Next.body (done : Bool) (bytes : Bytes) : Next → Body
  | .stop err => .last bytes err
  | .more rest => .read bytes (readable done rest)

/-- What the handler comes to, given the result of the routing. -/
def destined (r : Request) (done : Bool) : Except Outcome Dispatch → Ending
  | .error out => .refused out
  | .ok d => ending r d (forwarded done (r.upstream d.backend))

/-- What a handler comes to from a stage, if its context is done from there on or if it never
is. -/
def Stage.outcome (r : Request) (done : Bool) (decision : Except Outcome Dispatch) :
    Stage → Ending
  | .routing => destined r done decision
  | .calling d => destined r done (.ok d)
  | .relaying d t body => t.finish r d (readable done body)
  | .writing d t bytes next => t.finish r d (next.body done bytes)
  | .finishing _ x => x
  | .ended _ x => x

/-- The result of the routing. -/
def Stage.decision : Stage → Option (Except Outcome Dispatch)
  | .routing => none
  | .calling d => some (.ok d)
  | .relaying d _ _ => some (.ok d)
  | .writing d _ _ _ => some (.ok d)
  | .finishing decision _ => some decision
  | .ended decision _ => some decision

/-- The handler has returned. -/
def Stage.isEnded : Stage → Bool
  | .ended _ _ => true
  | _ => false

/-- A relay that gets the last bytes hands them over and ends. -/
theorem finish_last (r : Request) (d : Dispatch) (t : Relay) (bytes : Bytes)
    (err : Option ReadError) :
    t.finish r d (.last bytes err) =
      (t.write r d bytes).1.ended d
        (if (t.write r d bytes).2 then err.map .read else some .write) := by
  unfold Relay.finish Relay.write
  by_cases hmeasured : t.Measured d
  · rw [if_pos hmeasured]
    simp only [streamLoop, if_pos hmeasured]
    split <;> simp_all
  · rw [if_neg hmeasured]
    simp only [ioCopy, if_neg hmeasured]
    split <;> simp_all

/-- A relay that gets more bytes hands them over, and goes on unless that fails. -/
theorem finish_read (r : Request) (d : Dispatch) (t : Relay) (bytes : Bytes) (rest : Body) :
    t.finish r d (.read bytes rest) =
      if (t.write r d bytes).2 then (t.write r d bytes).1.finish r d rest
      else (t.write r d bytes).1.ended d (some .write) := by
  have hstill : (t.write r d bytes).1.Measured d ↔ t.Measured d := Iff.rfl
  by_cases hmeasured : t.Measured d
  · simp only [Relay.finish, hstill, if_pos hmeasured, streamLoop]
    simp only [Relay.write, if_pos hmeasured]
    split <;> simp_all
  · simp only [Relay.finish, hstill, if_neg hmeasured, ioCopy]
    simp only [Relay.write, if_neg hmeasured]
    split <;> simp_all

/-- A backend that cannot be reached ends the exchange. -/
theorem ending_error (r : Request) (d : Dispatch) (err : ForwardError) :
    ending r d (.error err) = .unreachable d err := by
  unfold ending Ending.unreachable
  split <;> rfl

/-- What follows the return of `Forward` comes to what the dispatch does. -/
theorem outcome_begin (r : Request) (d : Dispatch) (upstream : Upstream)
    (decision : Except Outcome Dispatch) :
    (begin r d upstream).outcome r false decision = ending r d upstream := by
  cases upstream with
  | error err => exact (ending_error r d err).symm
  | ok resp =>
      cases hhead : d.writer.writeHeader resp.statusCode with
      | error e => simp [begin, ending, forwardStream, hhead, Stage.outcome]
      | ok w =>
          simp only [begin, ending, forwardStream, hhead, Relay.Measured]
          by_cases hstream : d.chat.req.stream = true
          · by_cases hcode : resp.statusCode < 400
            · cases hflush : r.client.flusher with
              | false => simp [hstream, hcode, not_le.mpr hcode, Stage.outcome]
              | true =>
                  simp [hstream, hcode, not_le.mpr hcode, Stage.outcome, Relay.finish,
                    Relay.Measured, Relay.ended, readable]
            · simp [hstream, hcode, not_lt.mp hcode, Stage.outcome, Relay.finish,
                Relay.Measured, Relay.ended, readable]
          · simp [hstream, Stage.outcome, Relay.finish, Relay.Measured, Relay.ended, readable]

/-- An exchange begins undecided, with nothing wrong. -/
theorem decision_begin (r : Request) (d : Dispatch) (upstream : Upstream) :
    (begin r d upstream).decision = some (.ok d) := by
  unfold begin
  split
  · rfl
  · split
    · rfl
    · split <;> rfl

/-- The routing decides what the handler comes to. -/
theorem outcome_route {r : Request} {done : Bool} {st st' : Stage}
    {decision : Except Outcome Dispatch} (h : st.route decision = some st') :
    st = .routing ∧ st'.outcome r done decision = destined r done decision ∧
      st'.decision = some decision := by
  cases st with
  | routing =>
      obtain rfl := Option.some.inj h
      cases decision <;> exact ⟨rfl, rfl, rfl⟩
  | calling d => contradiction
  | relaying d t body => contradiction
  | writing d t bytes next => contradiction
  | finishing decision' x => contradiction
  | ended decision' x => contradiction

/-- **A step of the handler keeps what it comes to.** -/
theorem outcome_serve {r : Request} {done : Bool} {st st' : Stage}
    (h : st.serve r done = some st') (decision : Except Outcome Dispatch) :
    st'.outcome r done decision = st.outcome r done decision ∧ st'.decision = st.decision := by
  cases st with
  | routing => contradiction
  | calling d =>
      obtain rfl := Option.some.inj h
      refine ⟨?_, decision_begin r d _⟩
      cases done with
      | true => exact (ending_error r d .requestFailed).symm
      | false => exact outcome_begin r d _ decision
  | relaying d t body =>
      obtain rfl := Option.some.inj h
      cases done with
      | true => exact ⟨rfl, rfl⟩
      | false => cases body <;> exact ⟨rfl, rfl⟩
  | writing d t bytes next =>
      obtain rfl := Option.some.inj h
      cases next with
      | stop err => exact ⟨(finish_last r d t bytes err).symm, rfl⟩
      | more rest =>
          cases hwrite : (t.write r d bytes).2 <;>
            simp [Next.after, Next.body, Stage.outcome, Stage.decision, finish_read, hwrite]
  | finishing decision' x =>
      obtain rfl := Option.some.inj h
      exact ⟨rfl, rfl⟩
  | ended decision' x => contradiction

/-! ## What a failing upstream changes -/

/-- What the client and the directory get to see of an ending. -/
structure Delivery where
  status : ℕ
  writes : List Chunk
  panicked : Bool
  commits : Bool
deriving DecidableEq

def Ending.delivery (x : Ending) : Delivery :=
  ⟨x.writer.sent, x.writer.writes, x.panicked, x.commits⟩

/-- A call that fails makes no difference: it fails by itself, or the response to the stream is an
empty one with status 200. -/
def CallSpared (r : Request) (d : Dispatch) : Prop :=
  ∀ resp, r.upstream d.backend = .ok resp →
    d.chat.req.stream = true ∧
      (resp.statusCode = 200 ∨ 100 ≤ resp.statusCode ∧ resp.statusCode ≤ 199 ∧
        resp.statusCode ≠ 101) ∧
      (r.client.flusher = false ∨ resp.body.bytes = [])

/-- Uses of the upstream that fail from this stage on make no difference. -/
def Stage.Spared (r : Request) (decision : Except Outcome Dispatch) : Stage → Prop
  | .routing => ∀ d, decision = .ok d → CallSpared r d
  | .calling d => CallSpared r d
  | .relaying _ _ body => body.bytes = []
  | .writing _ t bytes next =>
      ∀ rest, next = .more rest → bytes = [] ∨ r.client.accepts t.writer.writes.length = true →
        rest.bytes = []
  | .finishing _ _ => True
  | .ended _ _ => True

/-- The writes of `io.Copy`. -/
theorem writes_ioCopy (client : Client) (w : Writer) (body : Body) :
    ∃ chunks : List Bytes, (ioCopy client w body).1.writes = w.writes ++ chunks.map .bytes ∧
      (chunks = [] ↔ body.bytes = []) := by
  have hhand (w : Writer) (bytes : Bytes) :
      (w.handOver client bytes).1.writes =
        w.writes ++ ((if bytes = [] then [] else [bytes]).map Chunk.bytes) := by
    unfold Writer.handOver Writer.write
    split <;> simp
  induction body generalizing w with
  | last bytes err =>
      refine ⟨if bytes = [] then [] else [bytes], ?_, by simp [Body.bytes]⟩
      rw [← hhand]
      simp only [ioCopy]
      split <;> rfl
  | read bytes rest ih =>
      simp only [ioCopy]
      split
      · next hfail =>
          have hbytes : bytes ≠ [] := by
            rintro rfl
            simp [Writer.handOver] at hfail
          refine ⟨[bytes], ?_, by simp [Body.bytes, hbytes]⟩
          rw [hhand, if_neg hbytes]
      · obtain ⟨chunks, hwrites, hchunks⟩ := ih (w.handOver client bytes).1
        refine ⟨(if bytes = [] then [] else [bytes]) ++ chunks, ?_, ?_⟩
        · rw [hwrites, hhand, List.map_append, List.append_assoc]
        · simp [Body.bytes, hchunks]

/-- A relay of a body without bytes. -/
theorem streamLoop_of_bytes_eq_nil (client : Client) (first : TTFTResult)
    (ttft : Option TTFTResult) (w : Writer) {body : Body} (hbody : body.bytes = []) :
    streamLoop client first ttft w body = (ttft, body.err.map .read, w) := by
  induction body with
  | last bytes err =>
      obtain rfl : bytes = [] := hbody
      simp [streamLoop, Writer.handOver, observe, Body.err]
  | read bytes rest ih =>
      obtain ⟨rfl, hrest⟩ := List.append_eq_nil_iff.mp hbody
      simpa [streamLoop, Writer.handOver, observe, Body.err] using ih hrest

/-- Nothing is copied of a body without bytes. -/
theorem ioCopy_of_bytes_eq_nil (client : Client) (w : Writer) {body : Body}
    (hbody : body.bytes = []) : ioCopy client w body = (w, body.err.map .read) := by
  have hloop := streamLoop_eq_ioCopy client ⟨"", 0⟩ none w body
  rw [streamLoop_of_bytes_eq_nil _ _ _ _ hbody, Prod.mk.injEq] at hloop
  exact Prod.ext hloop.2.symm hloop.1.symm

variable {r : Request} {d : Dispatch} {t : Relay}

/-- How a relay ends makes no difference. -/
theorem delivery_ended (err err' : Option RelayError) :
    (t.ended d err).delivery = (t.ended d err').delivery := by
  unfold Relay.ended
  split <;> rfl

theorem writer_ended (err : Option RelayError) : (t.ended d err).writer = t.writer := by
  unfold Relay.ended
  split <;> rfl

/-- A relay writes what `io.Copy` would. -/
theorem writer_finish (body : Body) :
    (t.finish r d body).writer = (ioCopy r.client t.writer body).1 := by
  unfold Relay.finish
  split
  · rw [writer_ended]
    exact congrArg Prod.snd (streamLoop_eq_ioCopy r.client _ t.ttft t.writer body)
  · rw [writer_ended]

/-- A relay of a body without bytes ends at once. -/
theorem finish_of_bytes_eq_nil {body : Body} (hbody : body.bytes = []) :
    t.finish r d body = t.ended d (body.err.map .read) := by
  unfold Relay.finish
  split
  · rw [streamLoop_of_bytes_eq_nil _ _ _ _ hbody]
  · rw [ioCopy_of_bytes_eq_nil _ _ hbody]

/-- A read that fails makes no difference to a relay with nothing left to read. -/
theorem delivery_finish_iff (body : Body) (err : Option ReadError) :
    (t.finish r d (.last [] err)).delivery = (t.finish r d body).delivery ↔ body.bytes = [] := by
  have hcut : t.finish r d (.last [] err) = t.ended d (err.map .read) := finish_of_bytes_eq_nil rfl
  rw [hcut]
  constructor
  · intro h
    have hwrites := congrArg Delivery.writes h
    obtain ⟨chunks, hcopy, hchunks⟩ := writes_ioCopy r.client t.writer body
    simp only [Ending.delivery, writer_ended, writer_finish, hcopy] at hwrites
    rw [← hchunks]
    simpa using hwrites
  · intro hbody
    rw [finish_of_bytes_eq_nil hbody]
    exact delivery_ended _ _

/-- The status 200 is sent for itself, and for an informational status. -/
theorem sent_writeHeader {w : Writer} {code : ℕ} (h : d.writer.writeHeader code = .ok w) :
    w.sent = 200 ↔ code = 200 ∨ 100 ≤ code ∧ code ≤ 199 ∧ code ≠ 101 := by
  have hfresh : d.writer.status = none := rfl
  unfold Writer.writeHeader at h
  split_ifs at h with hinvalid hsome hinfo
  · rw [hfresh] at hsome
    contradiction
  · obtain rfl := Except.ok.inj h
    rw [Writer.sent, hfresh, Option.getD_none]
    omega
  · obtain rfl := Except.ok.inj h
    rw [Writer.sent, Option.getD_some]
    omega

/-- `WriteHeader` panics only outside of 100 to 999. -/
theorem code_of_writeHeader_error {w : Writer} {code : ℕ} {e : Panic}
    (h : w.writeHeader code = .error e) : code < 100 ∨ 999 < code := by
  unfold Writer.writeHeader at h
  split_ifs at h
  assumption

/-- A stream from a backend that cannot be reached delivers an empty 200. -/
theorem delivery_unreachable (hstream : d.chat.req.stream = true) (err : ForwardError) :
    (Ending.unreachable d err).delivery = ⟨200, [], false, false⟩ := by
  rw [Ending.unreachable, if_pos hstream]
  rfl

/-- The relay of a response that has settled the status. -/
theorem delivery_unreachable_iff {w : Writer} {resp : Response} (hstream : d.chat.req.stream = true)
    (hhead : d.writer.writeHeader resp.statusCode = .ok w) (err : ForwardError) :
    (Ending.unreachable d err).delivery =
        (Relay.finish r d ⟨resp.statusCode, none, w⟩ resp.body).delivery ↔
      w.sent = 200 ∧ resp.body.bytes = [] := by
  have hwrites : w.writes = [] := writeHeader_writes hhead
  have hcut : (Relay.finish r d ⟨resp.statusCode, none, w⟩ (.last [] none)).delivery =
      ⟨w.sent, [], false, false⟩ := by
    rw [finish_of_bytes_eq_nil rfl]
    simp [Relay.ended, hstream, Ending.stream, Ending.delivery, hwrites]
  rw [delivery_unreachable hstream]
  constructor
  · intro h
    have hsent : w.sent = 200 := by
      have hstatus := congrArg Delivery.status h
      simp only [Ending.delivery, writer_finish, ioCopy_sent] at hstatus
      exact hstatus.symm
    rw [hsent] at hcut
    exact ⟨hsent, (delivery_finish_iff resp.body none).mp (hcut.trans h)⟩
  · rintro ⟨hsent, hbody⟩
    rw [← (delivery_finish_iff resp.body none).mpr hbody, hcut, hsent]

/-- A failed call makes a difference to every request that is not a stream. -/
theorem delivery_plain_ne (hstream : ¬d.chat.req.stream = true) (err : ForwardError)
    (resp : Response) :
    (Ending.unreachable d err).delivery ≠ (ending r d (.ok resp)).delivery := by
  intro h
  have hwrites := congrArg Delivery.writes h
  have hpanicked := congrArg Delivery.panicked h
  simp only [Ending.unreachable, ending, if_neg hstream] at hwrites hpanicked
  cases hhead : d.writer.writeHeader resp.statusCode with
  | error e => simp [hhead, Ending.delivery, Ending.panic] at hpanicked
  | ok w =>
      obtain ⟨chunks, hcopy, -⟩ := writes_ioCopy r.client w resp.body
      have hempty : w.writes = [] := writeHeader_writes hhead
      rw [hempty, List.nil_append] at hcopy
      have hjson : (writeError d.writer 502 "backend request failed").writes =
          [.json ⟨"backend request failed", "server_error"⟩] := rfl
      simp only [hhead, Ending.delivery, Ending.plain, hcopy, hjson] at hwrites
      cases chunks with
      | nil => contradiction
      | cons bytes chunks => simp at hwrites

/-- When a failed call makes no difference to a stream. -/
theorem delivery_stream_iff (hstream : d.chat.req.stream = true) (err : ForwardError)
    (resp : Response) :
    (Ending.unreachable d err).delivery = (ending r d (.ok resp)).delivery ↔
      (resp.statusCode = 200 ∨ 100 ≤ resp.statusCode ∧ resp.statusCode ≤ 199 ∧
        resp.statusCode ≠ 101) ∧ (r.client.flusher = false ∨ resp.body.bytes = []) := by
  cases hhead : d.writer.writeHeader resp.statusCode with
  | error e =>
      have hpanic : ending r d (.ok resp) = .panic d := by
        simp [ending, forwardStream, hstream, hhead]
      have hcode := code_of_writeHeader_error hhead
      rw [hpanic, delivery_unreachable hstream]
      refine iff_of_false (fun h => ?_) (by omega)
      have hpanicked := congrArg Delivery.panicked h
      contradiction
  | ok w =>
      rw [← outcome_begin r d (.ok resp) (.ok d)]
      simp only [begin, hhead]
      split
      · next hflush =>
          have hwrites : w.writes = [] := writeHeader_writes hhead
          have hending : (Ending.stream none (some .noFlusher) w).delivery =
              ⟨w.sent, [], false, false⟩ := by rw [← hwrites]; rfl
          rw [delivery_unreachable hstream, Stage.outcome, hending, ← sent_writeHeader hhead]
          simp only [Delivery.mk.injEq, hflush.2, true_or, and_true]
          exact eq_comm
      · next hflush =>
          refine (delivery_unreachable_iff hstream hhead err).trans ?_
          rw [sent_writeHeader hhead]
          simp only [Relay.Measured, hstream, true_and, not_and] at hflush
          grind

/-- When a failed call makes no difference. -/
theorem delivery_call_iff (err : ForwardError) :
    (ending r d (.error err)).delivery = (ending r d (r.upstream d.backend)).delivery ↔
      CallSpared r d := by
  rw [ending_error, CallSpared]
  cases hup : r.upstream d.backend with
  | error err' =>
      have hsame : (Ending.unreachable d err).delivery = (Ending.unreachable d err').delivery := by
        unfold Ending.unreachable
        split <;> rfl
      rw [ending_error]
      simp [hsame]
  | ok resp =>
      simp only [Except.ok.injEq, forall_eq']
      by_cases hstream : d.chat.req.stream = true
      · rw [delivery_stream_iff hstream, and_iff_right hstream]
      · exact iff_of_false (delivery_plain_ne hstream err resp) fun h => hstream h.1

/-- **When a stage is spared.**  A request whose uses of the upstream fail from a stage on comes to
what it would have come to exactly if the stage is spared. -/
theorem delivery_outcome_iff (decision : Except Outcome Dispatch) (st : Stage) :
    (st.outcome r true decision).delivery = (st.outcome r false decision).delivery ↔
      st.Spared r decision := by
  cases st with
  | routing =>
      cases decision with
      | error out => simp [Stage.outcome, destined, Stage.Spared]
      | ok d =>
          simp only [Stage.Spared, Except.ok.injEq, forall_eq']
          exact delivery_call_iff .requestFailed
  | calling d => exact delivery_call_iff .requestFailed
  | relaying d t body => exact delivery_finish_iff body _
  | writing d t bytes next =>
      cases next with
      | stop err => simp [Stage.outcome, Next.body, Stage.Spared]
      | more rest =>
          have hwrite : (t.write r d bytes).2 = true ↔
              bytes = [] ∨ r.client.accepts t.writer.writes.length = true := by
            unfold Relay.write Writer.handOver
            by_cases hbytes : bytes = [] <;> simp [hbytes]
          simp only [Stage.outcome, Next.body, finish_read, Stage.Spared, Next.more.injEq,
            forall_eq', ← hwrite]
          cases (t.write r d bytes).2 with
          | false => simp
          | true =>
              simp only [if_true, forall_const]
              exact delivery_finish_iff rest _
  | finishing decision' x => simp [Stage.outcome, Stage.Spared]
  | ended decision' x => simp [Stage.outcome, Stage.Spared]

end KvRouter.Exchange
