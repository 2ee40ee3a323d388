import KvRouter.Backend
import KvRouter.CacheIndex
import KvRouter.Lib.Prog
import KvRouter.Lib.Sorting
import KvRouter.Telemetry
import Mathlib.Logic.Function.Basic

/-!
# KvRouter.World

The state that concurrent requests and probes share, the atomic actions on it
(`Act`), and the source's functions on it as programs of these actions:
`TryReserve`, `Release` and `Healthy` of the pool, `probe`, and `Record`.

Go's atomics are taken as sequentially consistent, and a call of the directory,
which holds its mutex throughout, is one action.
-/

namespace KvRouter

open CacheIndex Telemetry

/-! ## The shared state -/

structure World where
  cells : String → Cells
  cache : Index
  telemetry : Recorder

/-- The atomics of backend `id` updated by `f`. -/
def World.updateCells (w : World) (id : String) (f : Cells → Cells) : World :=
  { w with cells := Function.update w.cells id (f (w.cells id)) }

/-! ## Atomic actions -/

/-- The atomic actions of the router. -/
inductive Act
  | loadHealthy (id : String)
  | casHealthy (id : String) (old new : Bool)
  | loadDepth (id : String)
  | casDepth (id : String) (old new : Int64)
  | addDepth (id : String) (delta : Int64)
  | storeFails (id : String) (n : Int32)
  | addFails (id : String) (delta : Int32)
  | storeSuccesses (id : String) (n : Int32)
  | addSuccesses (id : String) (delta : Int32)
  | addHealthyTransitions (id : String) (delta : UInt64)
  | addUnhealthyTransitions (id : String) (delta : UInt64)
  | lookup (id ns : String) (blocks : List UInt64)
  | usage (id : String)
  | commit (id ns : String) (blocks : List UInt64) (now : Instant) (orders : ℕ → ScanOrder)
  | addSequence (delta : UInt64)
  | addRequests (delta : UInt64)
  | addErrors (delta : UInt64)
  | addStreams (delta : UInt64)
  | addCacheHits (delta : UInt64)
  | writeRing (event : RouteEvent)

/-- The answers of an action. -/
@[reducible] def Act.Result : Act → Type
  | .loadHealthy _ => Bool
  | .casHealthy _ _ _ => Bool
  | .loadDepth _ => Int64
  | .casDepth _ _ _ => Bool
  | .addDepth _ _ => Int64
  | .storeFails _ _ => Unit
  | .addFails _ _ => Int32
  | .storeSuccesses _ _ => Unit
  | .addSuccesses _ _ => Int32
  | .addHealthyTransitions _ _ => UInt64
  | .addUnhealthyTransitions _ _ => UInt64
  | .lookup _ _ _ => ℕ
  | .usage _ => Stats
  | .commit _ _ _ _ _ => Unit
  | .addSequence _ => UInt64
  | .addRequests _ => UInt64
  | .addErrors _ => UInt64
  | .addStreams _ => UInt64
  | .addCacheHits _ => UInt64
  | .writeRing _ => Unit

/-- What an action answers and does; `Add` answers with the new value. -/
def Act.sem (a : Act) (w : World) : a.Result × World :=
  match a with
  | .loadHealthy id => ((w.cells id).healthy, w)
  | .casHealthy id old new =>
      if (w.cells id).healthy = old then
        (true, w.updateCells id fun c => { c with healthy := new })
      else (false, w)
  | .loadDepth id => ((w.cells id).queueDepth, w)
  | .casDepth id old new =>
      if (w.cells id).queueDepth = old then
        (true, w.updateCells id fun c => { c with queueDepth := new })
      else (false, w)
  | .addDepth id delta =>
      ((w.cells id).queueDepth + delta,
        w.updateCells id fun c => { c with queueDepth := c.queueDepth + delta })
  | .storeFails id n => ((), w.updateCells id fun c => { c with consecutiveFails := n })
  | .addFails id delta =>
      ((w.cells id).consecutiveFails + delta,
        w.updateCells id fun c => { c with consecutiveFails := c.consecutiveFails + delta })
  | .storeSuccesses id n => ((), w.updateCells id fun c => { c with consecutiveSuccesses := n })
  | .addSuccesses id delta =>
      ((w.cells id).consecutiveSuccesses + delta,
        w.updateCells id fun c => { c with consecutiveSuccesses := c.consecutiveSuccesses + delta })
  | .addHealthyTransitions id delta =>
      ((w.cells id).healthyTransitions + delta,
        w.updateCells id fun c => { c with healthyTransitions := c.healthyTransitions + delta })
  | .addUnhealthyTransitions id delta =>
      ((w.cells id).unhealthyTransitions + delta,
        w.updateCells id fun c => { c with unhealthyTransitions := c.unhealthyTransitions + delta })
  | .lookup id ns blocks => (w.cache.lookup id ns blocks, w)
  | .usage id => (w.cache.usage id, w)
  | .commit id ns blocks now orders =>
      ((), { w with cache := w.cache.commit id ns blocks now orders })
  | .addSequence delta =>
      (w.telemetry.sequence + delta,
        { w with telemetry := { w.telemetry with sequence := w.telemetry.sequence + delta } })
  | .addRequests delta =>
      (w.telemetry.requests + delta,
        { w with telemetry := { w.telemetry with requests := w.telemetry.requests + delta } })
  | .addErrors delta =>
      (w.telemetry.errors + delta,
        { w with telemetry := { w.telemetry with errors := w.telemetry.errors + delta } })
  | .addStreams delta =>
      (w.telemetry.streams + delta,
        { w with telemetry := { w.telemetry with streams := w.telemetry.streams + delta } })
  | .addCacheHits delta =>
      (w.telemetry.cacheHits + delta,
        { w with telemetry := { w.telemetry with cacheHits := w.telemetry.cacheHits + delta } })
  | .writeRing event => ((), { w with telemetry := w.telemetry.writeRing event })

/-- An action that only reads the state of a backend. -/
def IsRead : Act → Prop
  | .loadHealthy _ => True
  | .loadDepth _ => True
  | .lookup _ _ _ => True
  | .usage _ => True
  | _ => False

/-- A program on the shared state. -/
abbrev Program := Prog Act Act.Result

def act (a : Act) : Program a.Result := Prog.perform a

/-! ## The pool -/

/-- `IsHealthy`. -/
def Backend.isHealthy (b : Backend) : Program Bool := act (.loadHealthy b.id)

/-- `QueueDepth`. -/
def Backend.queueDepth (b : Backend) : Program Int64 := act (.loadDepth b.id)

/-- The body of the loop of `TryReserve`. -/
def Backend.tryReserveOnce (b : Backend) : Program (Option Bool) := do
  let current : Int64 ← act (.loadDepth b.id)
  if 0 < b.maxConcurrent ∧ current ≥ b.maxConcurrent then return some false
  else
    let swapped : Bool ← act (.casDepth b.id current (current + 1))
    if swapped then return some true else return none

/-- `TryReserve`. -/
def Backend.tryReserve (b : Backend) : Program Bool := Prog.untilSome b.tryReserveOnce

/-- `Release`. -/
def Backend.release (b : Backend) : Program Int64 := act (.addDepth b.id (-1))

/-- The loop of `Healthy`. -/
def healthyAmong : List Backend → Program (List Backend)
  | [] => return []
  | b :: bs => do
      let healthy ← b.isHealthy
      let rest ← healthyAmong bs
      return if healthy then b :: rest else rest

/-- `Healthy`: the backends that are healthy when the loop comes to them, by ID. -/
def Pool.healthy (p : Pool) (o : GoMap.RangeOrder String Backend) : Program (List Backend) := do
  let healthy ← healthyAmong (p.visit o)
  return Sorting.sliceStable (fun a b => a.id < b.id) healthy

/-! ## Probes -/

/-- `probe`, given whether `pingOnce` succeeds. -/
def probe (b : Backend) (ping : Bool) : Program Unit :=
  if !ping then do
    act (.storeSuccesses b.id 0)
    let n : Int32 ← act (.addFails b.id 1)
    if n ≥ unhealthyAfter then
      let swapped : Bool ← act (.casHealthy b.id true false)
      if swapped then
        let _ ← act (.addUnhealthyTransitions b.id 1)
        return
      else return
    else return
  else do
    act (.storeFails b.id 0)
    let n : Int32 ← act (.addSuccesses b.id 1)
    if n ≥ healthyAfter then
      let swapped : Bool ← act (.casHealthy b.id false true)
      if swapped then
        let _ ← act (.addHealthyTransitions b.id 1)
        return
      else return
    else return

/-! ## Telemetry -/

/-- An action performed under a condition. -/
def actIf (p : Prop) [Decidable p] (a : Act) : Program Unit :=
  if p then do
    let _ ← act a
    return
  else return

/-- `Record`, with its reading of the clock. -/
def record (event : RouteEvent) (now : ℤ) : Program Unit := do
  let id : UInt64 ← act (.addSequence 1)
  let _ ← act (.addRequests 1)
  actIf (event.statusCode ≥ 400) (.addErrors 1)
  actIf (event.stream = true) (.addStreams 1)
  actIf (event.matchedBlocks > 0) (.addCacheHits 1)
  act (.writeRing { event with id := id, timestamp := now })

end KvRouter
