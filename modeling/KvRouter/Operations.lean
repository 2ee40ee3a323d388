import KvRouter.Lib.Silent
import KvRouter.Telemetry.Calls

/-!
# KvRouter.Operations

The operations API: the handlers of `internal/api/server.go` beside the one of
chat completions, and what they call, `All` and `Snapshots` of the pool,
`AllUsage` of the directory, `Summary`, `Prometheus` and `Recent` of the
recorder.  They load what the router keeps, one value after the other, and
change nothing (`Look`).

A JSON response is the value that is handed to the encoder.
-/

namespace KvRouter

open CacheIndex Interleave Prog Telemetry

/-! ## Loads -/

/-- The loads of the operations API that the router itself does not perform. -/
inductive Look
  | healthyTransitions (id : String)
  | unhealthyTransitions (id : String)
  | allUsage (order : GoMap.RangeOrder String BackendCache)
  | counter (k : Counter)
  | recent (limit : ℤ)

@[reducible] def Look.Result : Look → Type
  | .healthyTransitions _ => UInt64
  | .unhealthyTransitions _ => UInt64
  | .allUsage _ => List Stats
  | .counter _ => UInt64
  | .recent _ => Except Panic (List RouteEvent)

/-- `AllUsage`, which holds the lock throughout. -/
def CacheIndex.Index.allUsage (i : Index) (order : GoMap.RangeOrder String BackendCache) :
    List Stats :=
  (order.visit i.backends).map fun x => ⟨x.1, x.2.capacity, totalEntries x.2⟩

/-- What a load answers; it changes nothing. -/
def Look.sem (a : Look) (w : World) : a.Result × World :=
  match a with
  | .healthyTransitions id => ((w.cells id).healthyTransitions, w)
  | .unhealthyTransitions id => ((w.cells id).unhealthyTransitions, w)
  | .allUsage order => (w.cache.allUsage order, w)
  | .counter k => (w.telemetry.counter k, w)
  | .recent limit => (w.telemetry.recent limit, w)

/-- The actions of the router, and the loads of its operations API. -/
abbrev OpsAct := Act ⊕ Look

abbrev OpsResult : OpsAct → Type := Sum.elim Act.Result Look.Result

abbrev opsSem : (a : OpsAct) → World → OpsResult a × World := both Act.sem Look.sem

abbrev OpsProgram := Prog OpsAct OpsResult

def look (a : Look) : OpsProgram a.Result := .act (.inr a) .ret

/-! ## What the handlers call -/

/-- `All`: every backend of the pool, by ID. -/
def Pool.all (p : Pool) (o : GoMap.RangeOrder String Backend) : List Backend :=
  Sorting.sliceStable (fun a b => a.id < b.id) (p.visit o)

/-- `Snapshot` of the pool. -/
structure BackendSnapshot where
  id : String
  url : String
  healthy : Bool
  inflight : Int64
  healthyTransitions : UInt64
  unhealthyTransitions : UInt64
deriving DecidableEq

/-- The body of the loop of `Snapshots`. -/
def Backend.snapshot (b : Backend) : OpsProgram BackendSnapshot := do
  let healthy ← b.isHealthy.inl
  let inflight ← b.queueDepth.inl
  let healthyTransitions ← look (.healthyTransitions b.id)
  let unhealthyTransitions ← look (.unhealthyTransitions b.id)
  return ⟨b.id, b.url, healthy, inflight, healthyTransitions, unhealthyTransitions⟩

def snapshotsOf : List Backend → OpsProgram (List BackendSnapshot)
  | [] => return []
  | b :: bs => do
      let snapshot ← b.snapshot
      let snapshots ← snapshotsOf bs
      return snapshot :: snapshots

/-- `Snapshots`. -/
def Pool.snapshots (p : Pool) (o : GoMap.RangeOrder String Backend) :
    OpsProgram (List BackendSnapshot) :=
  snapshotsOf (p.all o)

/-- `Summary` of the recorder. -/
def summaryOf : OpsProgram Summary := do
  let requests ← look (.counter .requests)
  let errors ← look (.counter .errors)
  let streams ← look (.counter .streams)
  let cacheHits ← look (.counter .cacheHits)
  return ⟨requests, errors, streams, cacheHits⟩

/-- A sample of the text format, after the line with its type. -/
def metric (name : String) (n : UInt64) : String :=
  "# TYPE " ++ name ++ " counter\n" ++ name ++ " " ++ toString n.toNat ++ "\n"

/-- `Prometheus`, given its `Summary`. -/
def Telemetry.Summary.prometheus (s : Summary) : String :=
  metric "kv_router_requests_total" s.requests ++ metric "kv_router_errors_total" s.errors ++
    metric "kv_router_streams_total" s.streams ++
    metric "kv_router_cache_hit_requests_total" s.cacheHitRequests

/-! ## The handlers -/

structure Overview where
  healthy : ℕ
  total : ℕ
  inflight : Int64
  cache : List Stats
  routing : Summary

/-- The body of a response: text, or a value for the JSON encoder. -/
inductive Body
  | text (s : String)
  | overview (o : Overview)
  | backends (snapshots : List BackendSnapshot)
  | cache (usage : List Stats)
  | routes (events : List RouteEvent)

structure Response where
  contentType : String
  status : ℕ
  body : Body

/-- `writeJSON`. -/
def writeJSON (value : Body) : Response := ⟨"application/json", 200, value⟩

/-- The endpoints of the operations API, with the orders in which their handlers range over maps. -/
inductive Endpoint
  | live
  | ready (order : GoMap.RangeOrder String Backend)
  | metrics
  | overview (order : GoMap.RangeOrder String Backend)
      (usage : GoMap.RangeOrder String BackendCache)
  | backends (order : GoMap.RangeOrder String Backend)
  | cache (usage : GoMap.RangeOrder String BackendCache)
  | recentRoutes

def handleLive : OpsProgram Response :=
  return ⟨"application/json", 200, .text "\x7b\"status\":\"live\"\x7d"⟩

def handleReady (p : Pool) (order : GoMap.RangeOrder String Backend) : OpsProgram Response := do
  let healthy ← (p.healthy order).inl
  if healthy.length = 0 then
    return ⟨"application/json", 503,
      .text "\x7b\"status\":\"not_ready\",\"reason\":\"no healthy backends\"\x7d"⟩
  else return ⟨"application/json", 200, .text "\x7b\"status\":\"ready\"\x7d"⟩

def handleMetrics : OpsProgram Response := do
  let s ← summaryOf
  return ⟨"text/plain", 200, .text s.prometheus⟩

def handleOverview (p : Pool) (order : GoMap.RangeOrder String Backend)
    (usage : GoMap.RangeOrder String BackendCache) : OpsProgram Response := do
  let backends ← p.snapshots order
  let cache ← look (.allUsage usage)
  let routing ← summaryOf
  return writeJSON (.overview ⟨backends.countP (·.healthy), backends.length,
    backends.foldl (fun inflight b => inflight + b.inflight) 0, cache, routing⟩)

def handleBackends (p : Pool) (order : GoMap.RangeOrder String Backend) : OpsProgram Response := do
  let snapshots ← p.snapshots order
  return writeJSON (.backends snapshots)

def handleCache (usage : GoMap.RangeOrder String BackendCache) : OpsProgram Response := do
  let stats ← look (.allUsage usage)
  return writeJSON (.cache stats)

/-- `handleRecentRoutes`, which panics when `Recent` does. -/
def handleRecentRoutes : OpsProgram (Except Panic Response) := do
  let events ← look (.recent 100)
  match events with
  | .error e => return .error e
  | .ok events => return .ok (writeJSON (.routes events))

/-- The handler of an endpoint. -/
def Endpoint.handler (p : Pool) : Endpoint → OpsProgram (Except Panic Response)
  | .live => handleLive.bind fun r => .ret (.ok r)
  | .ready order => (handleReady p order).bind fun r => .ret (.ok r)
  | .metrics => handleMetrics.bind fun r => .ret (.ok r)
  | .overview order usage => (handleOverview p order usage).bind fun r => .ret (.ok r)
  | .backends order => (handleBackends p order).bind fun r => .ret (.ok r)
  | .cache usage => (handleCache usage).bind fun r => .ret (.ok r)
  | .recentRoutes => handleRecentRoutes

end KvRouter
