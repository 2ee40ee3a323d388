import KvRouter.Proxy
import KvRouter.Scorer
import KvRouter.Tokenizer
import KvRouter.World

/-!
# KvRouter.Handler

The chat-completion handler, `internal/api/handler.go`, as a program on the
shared state.  What the environment decides about a request is in `Request`: the
reads of its body, the answer of each upstream, the client's writer, the clock
and the enumeration orders of the maps it ranges over.  `encoding/json` is the
parameter `unmarshal` of the server.

The steps of the handler are those of the source: parse and hash, which touch
no shared state; the snapshot of the healthy backends; the reserve loop over the
ranking; and the dispatch, whose deferred `Release` runs on every exit from it,
a panic included.
-/

namespace KvRouter.Handler

open CacheIndex Tokenizer Proxy Scorer Telemetry

/-! ## Requests -/

/-- The fields of the chat request that the handler reads. -/
structure ChatCompletionRequest where
  model : String
  messages : List Message
  stream : Bool
deriving DecidableEq

structure Server where
  tokenizer : BlockHasher
  sum64 : Bytes → UInt64
  unmarshal : Bytes → Except String ChatCompletionRequest
  weights : Weights
  pool : Pool

/-- A request with everything the environment decides about it. -/
structure Request where
  body : Body
  order : GoMap.RangeOrder String Backend
  upstream : Backend → Upstream
  client : Client
  ttft : ℤ
  commitTime : Instant
  evictions : ℕ → ScanOrder
  recordTime : ℤ

/-- How the handler ended: what it sent, and whether it panicked. -/
structure Outcome where
  writer : Writer
  panicked : Bool
deriving DecidableEq

/-- `writeError`; every status it is called with is valid. -/
def writeError (w : Writer) (code : ℕ) (msg : String) : Writer :=
  match w.writeHeader code with
  | .error _ => w
  | .ok w =>
      w.write (.json ⟨msg, if code ≥ 500 then "server_error" else "invalid_request_error"⟩)

/-- An answer of the router itself. -/
def refuse (code : ℕ) (msg : String) : Outcome := ⟨writeError .new code msg, false⟩

def maxRequestBytes : ℕ := 10 <<< 20

/-! ## Parsing and hashing -/

/-- Step 1: the request, or the answer to a bad one. -/
def parse (s : Server) (r : Request) : Except Outcome ChatCompletionRequest :=
  match readAll r.body maxRequestBytes with
  | none => .error (refuse 400 "request body too large or unreadable")
  | some body =>
      match s.unmarshal body with
      | .error msg => .error (refuse 400 msg)
      | .ok req =>
          if req.messages.length = 0 then .error (refuse 400 "messages array must not be empty")
          else .ok req

/-- A parsed request with its block hashes. -/
structure Chat where
  req : ChatCompletionRequest
  hashes : List UInt64
deriving DecidableEq

/-- Steps 1 and 2. -/
def prepare (s : Server) (r : Request) : Except Outcome Chat :=
  match parse s r with
  | .error out => .error out
  | .ok req =>
      match s.tokenizer.hashPrefix s.sum64 req.messages with
      | .error _ => .error ⟨.new, true⟩
      | .ok hashes => .ok ⟨req, hashes⟩

/-- Step 3: the namespace of a request. -/
def Chat.namespace (c : Chat) : String := "chat:" ++ c.req.model

def Chat.routeReq (c : Chat) : Scorer.Request := ⟨c.hashes, c.hashes.length⟩

/-! ## The snapshot -/

/-- The body of the loop of step 4. -/
def stateOf (c : Chat) (b : Backend) : Program BackendState := do
  let matchedBlocks : ℕ ← act (.lookup b.id c.namespace c.hashes)
  let usage : Stats ← act (.usage b.id)
  let depth ← b.queueDepth
  return ⟨b.id, matchedBlocks, depth.toInt, b.maxConcurrent.toInt, usage.used, usage.capacity, true⟩

/-- Step 4: the states of the healthy backends. -/
def statesOf (c : Chat) : List Backend → Program (List BackendState)
  | [] => return []
  | b :: bs => do
      let state ← stateOf c b
      let states ← statesOf c bs
      return state :: states

/-- `matchesByBackend`. -/
def matchesByBackend (states : List BackendState) : GoMap String ℤ :=
  states.foldl (fun found state => found.insert state.id state.matchedBlocks) ∅

/-! ## The reserve loop -/

/-- Step 5: the first ranked backend that is still healthy and reserves. -/
def reserveFirst (p : Pool) : List BackendState → Program (Option (Backend × BackendState))
  | [] => return none
  | candidate :: ranked =>
      match p.get candidate.id with
      | none => reserveFirst p ranked
      | some b => do
          let healthy ← b.isHealthy
          if !healthy then reserveFirst p ranked
          else
            let reserved ← b.tryReserve
            if !reserved then reserveFirst p ranked else return some (b, candidate)

/-! ## The dispatch -/

/-- What the dispatch of a request works with; the ID of `state` is `selectedID`. -/
structure Dispatch where
  chat : Chat
  backend : Backend
  state : BackendState
  matched : ℤ
  score : WithBot ℚ
deriving DecidableEq

/-- The event of `recordRoute`; `Record` fills in ID and timestamp. -/
def routeEvent (d : Dispatch) (status : ℕ) (ttftMillis : ℤ) : RouteEvent where
  id := 0
  timestamp := 0
  model := sanitizeModel d.chat.req.model
  backendID := d.state.id
  matchedBlocks := d.matched
  totalBlocks := d.chat.hashes.length
  score := d.score
  queueDepth := d.state.queueDepth
  statusCode := status
  stream := d.chat.req.stream
  ttftMillis := ttftMillis

/-- `recordRoute`. -/
def recordRoute (r : Request) (d : Dispatch) (status : ℕ) (ttftMillis : ℤ) : Program Unit :=
  record (routeEvent d status ttftMillis) r.recordTime

/-- The action of `commitCacheObservation`. -/
def commitCacheObservation (r : Request) (d : Dispatch) : Act :=
  .commit d.state.id d.chat.namespace d.chat.hashes r.commitTime r.evictions

/-- The response writer as the dispatch finds it. -/
def Dispatch.writer (d : Dispatch) : Writer := { Writer.new with backend := some d.state.id }

/-- The streaming branch of step 6. -/
def dispatchStream (r : Request) (d : Dispatch) : Program Outcome :=
  match forwardStream (r.upstream d.backend) r.client ⟨d.backend.id, r.ttft⟩ d.writer with
  | .error _ => return ⟨d.writer, true⟩
  | .ok (ttft, err, w) => do
      actIf (ttft.isSome = true) (commitCacheObservation r d)
      match err with
      | some _ => do
          recordRoute r d 502 0
          return ⟨w, false⟩
      | none => do
          recordRoute r d 200 ((ttft.map TTFTResult.millis).getD 0)
          return ⟨w, false⟩

/-- The other branch of step 6. -/
def dispatchPlain (r : Request) (d : Dispatch) : Program Outcome :=
  match r.upstream d.backend with
  | .error _ => do
      recordRoute r d 502 0
      return ⟨writeError d.writer 502 "backend request failed", false⟩
  | .ok resp =>
      match d.writer.writeHeader resp.statusCode with
      | .error _ => return ⟨d.writer, true⟩
      | .ok w => do
          let copied := ioCopy r.client w resp.body
          actIf (resp.statusCode < 400) (commitCacheObservation r d)
          recordRoute r d resp.statusCode 0
          return ⟨copied.1, false⟩

/-- Step 6, without the deferred `Release`. -/
def dispatch (r : Request) (d : Dispatch) : Program Outcome :=
  if d.chat.req.stream then dispatchStream r d else dispatchPlain r d

/-! ## The handler -/

/-- The dispatch on the selected backend, or the refusal when there is none. -/
def finish (s : Server) (r : Request) (c : Chat) (states ranked : List BackendState) :
    Option (Backend × BackendState) → Program Outcome
  | none =>
      return if ranked.length = 0 then refuse 503 "scorer could not select a backend"
        else refuse 429 "all backends are at capacity"
  | some (b, state) => do
      let out ← dispatch r ⟨c, b, state, ((matchesByBackend states).lookup state.id).getD 0,
        score s.weights c.routeReq state⟩
      let _ ← b.release
      return out

/-- Step 5 and what follows it, on a snapshot. -/
def selectAndDispatch (s : Server) (r : Request) (c : Chat) (states : List BackendState) :
    Program Outcome := do
  let ranked := rank s.weights c.routeReq states
  let selected ← reserveFirst s.pool ranked
  finish s r c states ranked selected

/-- Step 4 and what follows it. -/
def route (s : Server) (r : Request) (c : Chat) : Program Outcome := do
  let healthyBackends ← s.pool.healthy r.order
  if healthyBackends.length = 0 then return refuse 503 "no healthy backends available"
  else
    let states ← statesOf c healthyBackends
    selectAndDispatch s r c states

/-- `handleChatCompletions`. -/
def handleChatCompletions (s : Server) (r : Request) : Program Outcome :=
  match prepare s r with
  | .error out => return out
  | .ok c => route s r c

end KvRouter.Handler
