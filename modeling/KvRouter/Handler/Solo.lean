import KvRouter.Handler.Contract

/-!
# KvRouter.Handler.Solo

The handler in a run without interference, in closed form.  When nobody else
moves, the snapshot is a filter of the pool (`exec_healthy`, `exec_statesOf`),
`TryReserve` succeeds in its first round or not at all (`exec_tryReserve`), the
reserve loop selects the first candidate that is free (`exec_reserveFirst`), and
`Record` is one update of the recorder (`exec_record`).
-/

namespace KvRouter

open Handler Telemetry Prog
open Scorer (BackendState rank score)

/-! ## The snapshot -/

/-- The filter of `Healthy` on its own. -/
theorem exec_healthyAmong (n : ℕ) (bs : List Backend) (w : World) :
    exec Act.sem n (healthyAmong bs) w = some (bs.filter fun b => (w.cells b.id).healthy, w) := by
  induction bs with
  | nil => rfl
  | cons b bs ih =>
      show exec Act.sem n ((healthyAmong bs).bind _) w = _
      rw [exec_bind, ih, List.filter_cons]
      rfl

/-- The healthy backends of a pool, by ID. -/
def World.healthy (w : World) (p : Pool) (o : GoMap.RangeOrder String Backend) : List Backend :=
  Sorting.sliceStable (fun a b => a.id < b.id) ((p.visit o).filter fun b => (w.cells b.id).healthy)

/-- `Healthy` returns the healthy backends, in order of their IDs. -/
theorem exec_healthy (n : ℕ) (p : Pool) (o : GoMap.RangeOrder String Backend) (w : World) :
    exec Act.sem n (p.healthy o) w = some (w.healthy p o, w) := by
  unfold Pool.healthy
  rw [bind_eq, exec_bind, exec_healthyAmong]
  rfl

/-- What the handler reads of a backend. -/
def World.stateOf (w : World) (c : Chat) (b : Backend) : BackendState :=
  ⟨b.id, w.cache.lookup b.id c.namespace c.hashes, (w.cells b.id).queueDepth.toInt,
    b.maxConcurrent.toInt, (w.cache.usage b.id).used, (w.cache.usage b.id).capacity, true⟩

/-- The states are all read in one state. -/
theorem exec_statesOf (n : ℕ) (c : Chat) (bs : List Backend) (w : World) :
    exec Act.sem n (statesOf c bs) w = some (bs.map (w.stateOf c), w) := by
  induction bs with
  | nil => rfl
  | cons b bs ih =>
      show exec Act.sem n ((statesOf c bs).bind _) w = _
      rw [exec_bind, ih]
      rfl

/-! ## Reservation -/

/-- The shared state after a slot is taken on backend `id`. -/
def World.reserve (w : World) (id : String) : World :=
  w.updateCells id fun c => { c with queueDepth := c.queueDepth + 1 }

/-- `TryReserve` takes a slot if there is one, in its first round. -/
theorem exec_tryReserve {n : ℕ} {b : Backend} (hb : 0 < b.maxConcurrent) (w : World) :
    exec Act.sem (n + 1) b.tryReserve w =
      if (w.cells b.id).queueDepth < b.maxConcurrent then some (true, w.reserve b.id)
      else some (false, w) := by
  have hround : exec Act.sem (n + 1) b.tryReserveOnce w =
      if (w.cells b.id).queueDepth < b.maxConcurrent then some (some true, w.reserve b.id)
      else some (some false, w) := by
    show exec Act.sem (n + 1)
      (ite (0 < b.maxConcurrent ∧ (w.cells b.id).queueDepth ≥ b.maxConcurrent) _ _) w = _
    by_cases hlt : (w.cells b.id).queueDepth < b.maxConcurrent
    · have hnot : ¬ (0 < b.maxConcurrent ∧ (w.cells b.id).queueDepth ≥ b.maxConcurrent) :=
        fun h => Int64.not_le.mpr hlt h.2
      let cas := Act.casDepth b.id (w.cells b.id).queueDepth ((w.cells b.id).queueDepth + 1)
      have hcas : cas.sem w = (true, w.reserve b.id) := if_pos rfl
      rw [if_pos hlt, if_neg hnot]
      show exec Act.sem (n + 1) (ite ((cas.sem w).1 = true) _ _) (cas.sem w).2 = _
      rw [hcas]
      rfl
    · have hfull : 0 < b.maxConcurrent ∧ (w.cells b.id).queueDepth ≥ b.maxConcurrent :=
        ⟨hb, Int64.not_lt.mp hlt⟩
      rw [if_neg hlt, if_pos hfull]
      rfl
  unfold Backend.tryReserve
  by_cases hlt : (w.cells b.id).queueDepth < b.maxConcurrent
  · rw [if_pos hlt] at hround ⊢
    exact exec_untilSome hround
  · rw [if_neg hlt] at hround ⊢
    exact exec_untilSome hround

/-- The backend of the pool with this ID is healthy and below its limit. -/
def World.free (w : World) (p : Pool) (id : String) : Bool :=
  match p.get id with
  | none => false
  | some b => (w.cells id).healthy && (w.cells id).queueDepth < b.maxConcurrent

/-- The reserve loop selects the first candidate that is free. -/
theorem exec_reserveFirst (n : ℕ) (p : Pool) (ranked : List BackendState) (w : World) :
    exec Act.sem (n + 1) (reserveFirst p ranked) w =
      some (match ranked.find? fun st => w.free p st.id with
        | none => (none, w)
        | some st => ((p.get st.id).map fun b => (b, st), w.reserve st.id)) := by
  induction ranked with
  | nil => rfl
  | cons candidate ranked ih =>
      unfold reserveFirst
      rw [List.find?_cons]
      cases hget : p.get candidate.id with
      | none => simpa [World.free, hget] using ih
      | some b =>
          have hid : b.id = candidate.id := p.keyed candidate.id b hget
          have hpos : 0 < b.maxConcurrent := p.limited candidate.id b hget
          have hfree : w.free p candidate.id =
              ((w.cells b.id).healthy && decide ((w.cells b.id).queueDepth < b.maxConcurrent)) := by
            rw [World.free, hget, hid]
          show exec Act.sem (n + 1) (ite ((!(w.cells b.id).healthy) = true) _ _) w = _
          cases hhealthy : (w.cells b.id).healthy with
          | false =>
              rw [hfree, hhealthy, Bool.false_and]
              exact ih
          | true =>
              show exec Act.sem (n + 1) (b.tryReserve.bind _) w = _
              rw [exec_bind, exec_tryReserve hpos]
              by_cases hlt : (w.cells b.id).queueDepth < b.maxConcurrent
              · rw [if_pos hlt, hfree, hhealthy, Bool.true_and, decide_eq_true hlt, hid]
                simp [hget]
              · rw [if_neg hlt, hfree, hhealthy, Bool.true_and, decide_eq_false hlt]
                exact ih

/-! ## Recording -/

namespace Telemetry

/-- The recorder after `Record`. -/
def Recorder.record (t : Recorder) (event : RouteEvent) (now : ℤ) : Recorder :=
  { t with
    sequence := t.sequence + 1
    requests := t.requests + 1
    errors := if event.statusCode ≥ 400 then t.errors + 1 else t.errors
    streams := if event.stream then t.streams + 1 else t.streams
    cacheHits := if event.matchedBlocks > 0 then t.cacheHits + 1 else t.cacheHits
    : Recorder }.writeRing { event with id := t.sequence + 1, timestamp := now }

end Telemetry

theorem exec_actIf (n : ℕ) (c : Prop) [Decidable c] (a : Act) (w : World) :
    exec Act.sem n (actIf c a) w = some ((), if c then (a.sem w).2 else w) := by
  unfold actIf
  split <;> rfl

/-- `Record` is one update of the recorder. -/
theorem exec_record (n : ℕ) (event : RouteEvent) (now : ℤ) (w : World) :
    exec Act.sem n (record event now) w =
      some ((), { w with telemetry := w.telemetry.record event now }) := by
  unfold Recorder.record
  show exec Act.sem n ((actIf (event.statusCode ≥ 400) _).bind _) _ = _
  rw [exec_bind, exec_actIf]
  show exec Act.sem n ((actIf (event.stream = true) _).bind _) _ = _
  rw [exec_bind, exec_actIf]
  show exec Act.sem n ((actIf (event.matchedBlocks > 0) _).bind _) _ = _
  rw [exec_bind, exec_actIf]
  show some ((), ((Act.writeRing _).sem _).2) = _
  dsimp only [Act.sem]
  split_ifs <;> rfl

/-! ## The dispatch -/

/-- The shared state after `recordRoute`. -/
def World.recorded (w : World) (r : Handler.Request) (d : Dispatch) (status : ℕ)
    (ttftMillis : ℤ) : World :=
  { w with telemetry := w.telemetry.record (routeEvent d status ttftMillis) r.recordTime }

/-- The shared state after the commit of a dispatch, made if `c` holds. -/
def World.observed (w : World) (c : Prop) [Decidable c] (r : Handler.Request) (d : Dispatch) :
    World :=
  if c then ((commitCacheObservation r d).sem w).2 else w

@[simp] theorem telemetry_observed (w : World) (c : Prop) [Decidable c] (r : Handler.Request)
    (d : Dispatch) : (w.observed c r d).telemetry = w.telemetry := by
  unfold World.observed
  split <;> rfl

/-- A recorded dispatch returns its answer. -/
theorem exec_recordRoute (n : ℕ) (r : Handler.Request) (d : Dispatch) (status : ℕ) (ttftMillis : ℤ)
    (out : Outcome) (w : World) :
    exec Act.sem n ((recordRoute r d status ttftMillis).bind fun _ => .ret out) w =
      some (out, w.recorded r d status ttftMillis) := by
  rw [exec_bind, recordRoute, exec_record]
  rfl

/-- A guarded commit on its own. -/
theorem exec_observe (n : ℕ) (c : Prop) [Decidable c] (r : Handler.Request) (d : Dispatch)
    (k : Unit → Program Outcome) (w : World) :
    exec Act.sem n ((actIf c (commitCacheObservation r d)).bind k) w =
      exec Act.sem n (k ()) (w.observed c r d) := by
  rw [exec_bind, exec_actIf]
  rfl

/-- **The plain path in closed form.** -/
theorem exec_dispatchPlain (n : ℕ) (r : Handler.Request) (d : Dispatch) (w : World) :
    exec Act.sem n (dispatchPlain r d) w = some (match r.upstream d.backend with
      | .error _ =>
          (⟨writeError d.writer 502 "backend request failed", false⟩, w.recorded r d 502 0)
      | .ok resp => match d.writer.writeHeader resp.statusCode with
        | .error _ => (⟨d.writer, true⟩, w)
        | .ok writer => (⟨(Proxy.ioCopy r.client writer resp.body).1, false⟩,
            (w.observed (resp.statusCode < 400) r d).recorded r d resp.statusCode 0)) := by
  unfold dispatchPlain
  cases r.upstream d.backend with
  | error e => exact exec_recordRoute n r d 502 0 _ w
  | ok resp =>
      dsimp only
      cases d.writer.writeHeader resp.statusCode with
      | error e => rfl
      | ok writer =>
          dsimp only [bind_eq]
          rw [exec_observe]
          exact exec_recordRoute n r d resp.statusCode 0 _ _

/-- **The streaming path in closed form.** -/
theorem exec_dispatchStream (n : ℕ) (r : Handler.Request) (d : Dispatch) (w : World) :
    exec Act.sem n (dispatchStream r d) w = some (
      match Proxy.forwardStream (r.upstream d.backend) r.client ⟨d.backend.id, r.ttft⟩ d.writer with
      | .error _ => (⟨d.writer, true⟩, w)
      | .ok (ttft, some _, writer) => (⟨writer, false⟩,
          (w.observed (ttft.isSome = true) r d).recorded r d 502 0)
      | .ok (ttft, none, writer) => (⟨writer, false⟩,
          (w.observed (ttft.isSome = true) r d).recorded r d 200
            ((ttft.map Proxy.TTFTResult.millis).getD 0))) := by
  unfold dispatchStream
  cases Proxy.forwardStream (r.upstream d.backend) r.client ⟨d.backend.id, r.ttft⟩ d.writer with
  | error e => rfl
  | ok x =>
      obtain ⟨ttft, err, writer⟩ := x
      dsimp only [bind_eq]
      rw [exec_observe]
      cases err with
      | none => exact exec_recordRoute n r d 200 _ _ _
      | some e => exact exec_recordRoute n r d 502 0 _ _

/-- A dispatch ends, and its answer names the selected backend. -/
theorem exec_dispatch (n : ℕ) (r : Handler.Request) (d : Dispatch) (w : World) :
    ∃ out w', exec Act.sem n (dispatch r d) w = some (out, w') ∧
      out.writer.backend = some d.state.id := by
  unfold dispatch
  split
  · rw [exec_dispatchStream]
    split
    · exact ⟨_, _, rfl, rfl⟩
    · next h => exact ⟨_, _, rfl, Proxy.forwardStream_backend h⟩
    · next h => exact ⟨_, _, rfl, Proxy.forwardStream_backend h⟩
  · rw [exec_dispatchPlain]
    split
    · exact ⟨_, _, rfl, rfl⟩
    · split
      · exact ⟨_, _, rfl, rfl⟩
      · next h =>
          exact ⟨_, _, rfl, (Proxy.ioCopy_backend _ _ _).trans (Proxy.writeHeader_backend h)⟩

/-! ## The handler -/

/-- The states a request ranks. -/
def World.snapshot (w : World) (s : Server) (r : Handler.Request) (c : Chat) : List BackendState :=
  (w.healthy s.pool r.order).map (w.stateOf c)

/-- The states ranked are those of the healthy backends. -/
theorem mem_snapshot {w : World} {s : Server} {r : Handler.Request} {c : Chat} {st : BackendState} :
    st ∈ w.snapshot s r c ↔
    ∃ b, s.pool.get b.id = some b ∧ (w.cells b.id).healthy ∧ w.stateOf c b = st := by
  rw [World.snapshot, World.healthy, List.mem_map]
  simp only [Sorting.mem_sliceStable, List.mem_filter, Pool.mem_visit, and_assoc]

/-- No backend is ranked twice. -/
theorem nodup_ids_snapshot (w : World) (s : Server) (r : Handler.Request) (c : Chat) :
    ((w.snapshot s r c).map (·.id)).Nodup := by
  have hids : (w.snapshot s r c).map (·.id) = (w.healthy s.pool r.order).map (·.id) := by
    rw [World.snapshot, List.map_map]
    rfl
  rw [hids, World.healthy, ((Sorting.perm_sliceStable _ _).map _).nodup_iff]
  exact (s.pool.nodup_ids_visit r.order).sublist (List.filter_sublist.map _)

/-- The candidate a request selects: the first of its ranking that is free. -/
def World.selected (w : World) (s : Server) (r : Handler.Request) (c : Chat) :
    Option BackendState :=
  (rank s.weights c.routeReq (w.snapshot s r c)).find? fun st => w.free s.pool st.id

/-- A free backend is in the pool, healthy and below its limit. -/
theorem get_of_free {w : World} {p : Pool} {id : String} (h : w.free p id) :
    ∃ b, p.get id = some b ∧ (w.cells id).healthy ∧ (w.cells id).queueDepth < b.maxConcurrent := by
  unfold World.free at h
  split at h
  · contradiction
  · next b hget => exact ⟨b, hget, by simpa using h⟩

/-- The dispatch on the selected backend, followed by its release. -/
theorem exec_finish (n : ℕ) (s : Server) (r : Handler.Request) (c : Chat)
    (states ranked : List BackendState) (b : Backend) (st : BackendState) (w : World) :
    ∃ d, d.chat = c ∧ d.backend = b ∧ d.state = st ∧
      exec Act.sem n (finish s r c states ranked (some (b, st))) w =
        (exec Act.sem n (dispatch r d) w).map fun x =>
          (x.1, ((Act.addDepth b.id (-1)).sem x.2).2) := by
  refine ⟨⟨c, b, st, ((matchesByBackend states).lookup st.id).getD 0,
    score s.weights c.routeReq st⟩, rfl, rfl, rfl, ?_⟩
  show exec Act.sem n ((dispatch r _).bind _) w = _
  rw [exec_bind]
  cases exec Act.sem n (dispatch r _) w with
  | none => rfl
  | some x => rfl

/-- The handler after its snapshot: the answer names the candidate selected. -/
theorem exec_selectAndDispatch (n : ℕ) (s : Server) (r : Handler.Request) (c : Chat)
    (states : List BackendState) (w : World) :
    ∃ out w', exec Act.sem (n + 1) (selectAndDispatch s r c states) w = some (out, w') ∧
      out.writer.backend = ((rank s.weights c.routeReq states).find? fun st =>
        w.free s.pool st.id).map (·.id) := by
  unfold selectAndDispatch
  dsimp only [bind_eq]
  rw [exec_bind, exec_reserveFirst]
  cases hsel : (rank s.weights c.routeReq states).find? fun st => w.free s.pool st.id with
  | none =>
      refine ⟨_, w, rfl, ?_⟩
      split <;> rfl
  | some st =>
      have hfree : w.free s.pool st.id = true := by simpa using List.find?_some hsel
      obtain ⟨b, hget, -⟩ := get_of_free hfree
      simp only [hget, Option.map_some, Option.bind_some]
      obtain ⟨d, -, -, hst, hfinish⟩ := exec_finish (n + 1) s r c states
        (rank s.weights c.routeReq states) b st (w.reserve st.id)
      obtain ⟨out, w', hdispatch, hheader⟩ := exec_dispatch (n + 1) r d (w.reserve st.id)
      rw [hfinish, hdispatch]
      exact ⟨out, _, rfl, by rw [hheader, hst]⟩

/-- The backend that the answer to a request names. -/
def World.named (w : World) (s : Server) (r : Handler.Request) : Option String :=
  match prepare s r with
  | .error _ => none
  | .ok c => (w.selected s r c).map (·.id)

/-- **A request on its own** is answered, and the answer names the selected backend. -/
theorem exec_handleChatCompletions (n : ℕ) (s : Server) (r : Handler.Request) (w : World) :
    ∃ out w', exec Act.sem (n + 1) (handleChatCompletions s r) w = some (out, w') ∧
      out.writer.backend = w.named s r := by
  unfold handleChatCompletions World.named
  cases hc : prepare s r with
  | error out => exact ⟨out, w, rfl, header_of_prepare hc⟩
  | ok c =>
      dsimp only [route, bind_eq]
      rw [exec_bind, exec_healthy, Option.bind_some]
      by_cases hnone : (w.healthy s.pool r.order).length = 0
      · have hempty : w.snapshot s r c = [] := by
          rw [World.snapshot, List.eq_nil_of_length_eq_zero hnone, List.map_nil]
        rw [if_pos hnone, World.selected, hempty]
        exact ⟨_, w, rfl, rfl⟩
      · rw [if_neg hnone, exec_bind, exec_statesOf]
        exact exec_selectAndDispatch n s r c (w.snapshot s r c) w

/-! ## A small request -/

namespace Sample

/-- `{"messages":[{}]}`, one empty message, whose text for the hasher is `:`. -/
def body : Bytes := [123, 34, 109, 101, 115, 115, 97, 103, 101, 115, 34, 58, 91, 123, 125, 93, 125]

/-- The digest of `:`, the one block of `body`. -/
def sum64 (_ : Bytes) : UInt64 := 0x787f005495551c49

/-- What `body` decodes to. -/
def unmarshal (_ : Bytes) : Except String ChatCompletionRequest := .ok ⟨"", [⟨[], []⟩], false⟩

/-- A server that is asked for nothing but `body`. -/
def server (pool : Pool) : Server where
  tokenizer := ⟨16, by decide, by decide⟩
  sum64 := sum64
  unmarshal := unmarshal
  weights := Scorer.defaultWeights
  pool := pool

/-- The reading of the clock for a commit. -/
def commitTime : Instant := ⟨3, by decide⟩

def request (order : GoMap.RangeOrder String Backend) (evictions : ℕ → CacheIndex.ScanOrder) :
    Handler.Request where
  body := .last body none
  order := order
  upstream _ := .ok ⟨200, .last [123, 125] none⟩
  client := ⟨true, fun _ => true⟩
  ttft := 0
  commitTime := commitTime
  evictions := evictions
  recordTime := 3

/-- A pool of one backend. -/
def pool : Pool := Pool.empty.add ⟨"a", "http://a", 1⟩

/-- The backend of `pool`. -/
def backend : Backend := ⟨"a", "http://a", 1⟩

/-- Every order of ranging over one backend is the same. -/
theorem visit_pool (order : GoMap.RangeOrder String Backend) : pool.visit order = [backend] := by
  have hvisit := order.coe_visit pool.backends
  have hentries : pool.backends.entries = ({⟨"a", backend⟩} : Multiset (Σ _ : String, Backend)) :=
    rfl
  rw [hentries, ← Multiset.coe_singleton, Multiset.coe_eq_coe, List.perm_singleton] at hvisit
  rw [Pool.visit, hvisit]
  rfl

/-- `Healthy` reads that one backend. -/
theorem healthy_pool (order : GoMap.RangeOrder String Backend) :
    pool.healthy order = (healthyAmong [backend]).bind fun healthy =>
      .ret (Sorting.sliceStable (fun a b => a.id < b.id) healthy) := by
  rw [Pool.healthy, visit_pool]
  rfl

/-- The backend has come up, and the directory knows it. -/
def world : World := ⟨fun _ => ⟨true, 0, 0, 2, 1, 0⟩, CacheIndex.run [.register "a" 10], .new 10⟩

def chat : Chat := ⟨⟨"", [⟨[], []⟩], false⟩, [0x787f005495551c49]⟩

theorem prepare_request (pool : Pool) (order : GoMap.RangeOrder String Backend)
    (evictions : ℕ → CacheIndex.ScanOrder) :
    prepare (server pool) (request order evictions) = .ok chat := rfl

end Sample

/-! ## The turns of a conversation -/

namespace Sample

def ascii (text : String) : Bytes := text.toList.map Char.toUInt8

/-- A user says `hello world`, and the assistant may have replied. -/
def messages (reply : Option String) : List Tokenizer.Message :=
  ⟨ascii "user", ascii "hello world"⟩ ::
    (reply.map fun text => ⟨ascii "assistant", ascii text⟩).toList

/-- The JSON text of a request with these messages. -/
def turnBody (reply : Option String) : Bytes :=
  let role := reply.elim "" fun text =>
    ",\x7b\"role\":\"assistant\",\"content\":\"" ++ text ++ "\"\x7d"
  ascii ("\x7b\"model\":\"m\",\"messages\":[\x7b\"role\":\"user\",\"content\":" ++
    "\"hello world\"\x7d" ++ role ++ "]\x7d")

/-- A decoder that knows the bodies of three turns. -/
def turnUnmarshal (body : Bytes) : Except String ChatCompletionRequest :=
  match [none, some "hi", some "ho"].find? fun reply => turnBody reply = body with
  | none => .error "unexpected end of JSON input"
  | some reply => .ok ⟨"m", messages reply, false⟩

/-- The digests of `user:hello world`, `assistant:hi` and `assistant:ho`, the blocks of these
turns. -/
def turnSum64 (block : Bytes) : UInt64 :=
  if block = ascii "user:hello world" then 0xaec63cef153494df
  else if block = ascii "assistant:hi" then 0x605d5f4f96e2b400
  else 0xf01c6e862efd3aa4

def turnServer (pool : Pool) : Server :=
  { server pool with sum64 := turnSum64, unmarshal := turnUnmarshal }

def turnRequest (reply : Option String) (order : GoMap.RangeOrder String Backend)
    (evictions : ℕ → CacheIndex.ScanOrder) : Handler.Request :=
  { request order evictions with body := .last (turnBody reply) none }

/-- The first turn, of one block. -/
def firstTurn : Chat := ⟨⟨"m", messages none, false⟩, [0xaec63cef153494df]⟩

/-- The turn that goes on with `hi`. -/
def hiTurn : Chat :=
  ⟨⟨"m", messages (some "hi"), false⟩, [0xaec63cef153494df, 0x605d5f4f96e2b400]⟩

/-- The turn that goes on with `ho`. -/
def hoTurn : Chat :=
  ⟨⟨"m", messages (some "ho"), false⟩, [0xaec63cef153494df, 0xf01c6e862efd3aa4]⟩

/-- The blocks of the three turns. -/
theorem prepare_turnRequest (pool : Pool) (order : GoMap.RangeOrder String Backend)
    (evictions : ℕ → CacheIndex.ScanOrder) :
    prepare (turnServer pool) (turnRequest none order evictions) = .ok firstTurn ∧
      prepare (turnServer pool) (turnRequest (some "hi") order evictions) = .ok hiTurn ∧
        prepare (turnServer pool) (turnRequest (some "ho") order evictions) = .ok hoTurn :=
  ⟨rfl, rfl, rfl⟩

end Sample

end KvRouter
