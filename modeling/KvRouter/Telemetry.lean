import Mathlib.Algebra.Order.Field.Rat
import Mathlib.Order.WithBot
import Mathlib.Tactic.Common

/-!
# KvRouter.Telemetry

The recorder, `internal/telemetry/recorder.go`: five counters and a ring of
the newest events.  `Record` is not atomic: it assigns the ID, updates the
counters one after another and then writes the ring under the lock.  The parts
are separate here (`RouteEvent`, `writeRing`), and the program that performs
them in order is `record` of `KvRouter.World`.

The ring keeps its length and its indices in range by construction.
-/

namespace KvRouter.Telemetry

/-! ## Events -/

structure RouteEvent where
  id : UInt64
  timestamp : ℤ
  model : String
  backendID : String
  matchedBlocks : ℤ
  totalBlocks : ℤ
  score : WithBot ℚ
  queueDepth : ℤ
  statusCode : ℕ
  stream : Bool
  ttftMillis : ℤ
deriving DecidableEq

/-- The zero `RouteEvent`. -/
def RouteEvent.zero : RouteEvent := ⟨0, 0, "", "", 0, 0, 0, 0, 0, false, 0⟩

/-- `unicode.IsSpace`. -/
def isSpace (c : Char) : Bool :=
  c ∈ ['\t', '\n', '\x0b', '\x0c', '\x0d', ' ', '\u0085', '\u00a0', '\u1680', '\u2028', '\u2029',
    '\u202f', '\u205f', '\u3000'] ∨ ('\u2000' ≤ c ∧ c ≤ '\u200a')

/-- `SanitizeModel`, that is `strings.TrimSpace`. -/
def sanitizeModel (model : String) : String :=
  String.ofList (((model.toList.dropWhile isSpace).reverse.dropWhile isSpace).reverse)

/-! ## The recorder -/

structure Recorder where
  capacity : ℕ
  events : List RouteEvent
  next : ℕ
  count : ℕ
  sequence : UInt64
  requests : UInt64
  errors : UInt64
  streams : UInt64
  cacheHits : UInt64
  capacity_pos : 0 < capacity
  length_events : events.length = capacity
  next_lt : next < capacity
  count_le : count ≤ capacity

/-- `New`; a capacity that is not positive becomes 1000. -/
def Recorder.new (capacity : ℤ) : Recorder :=
  let size := if capacity ≤ 0 then 1000 else capacity.toNat
  have hsize : 0 < size := by
    show 0 < if capacity ≤ 0 then 1000 else capacity.toNat
    split <;> omega
  ⟨size, List.replicate size .zero, 0, 0, 0, 0, 0, 0, 0, hsize, List.length_replicate, hsize,
    Nat.zero_le _⟩

/-- The locked part of `Record`. -/
def Recorder.writeRing (r : Recorder) (event : RouteEvent) : Recorder where
  capacity := r.capacity
  events := r.events.set r.next event
  next := (r.next + 1) % r.capacity
  count := if r.count < r.capacity then r.count + 1 else r.count
  sequence := r.sequence
  requests := r.requests
  errors := r.errors
  streams := r.streams
  cacheHits := r.cacheHits
  capacity_pos := r.capacity_pos
  length_events := by rw [List.length_set, r.length_events]
  next_lt := Nat.mod_lt _ r.capacity_pos
  count_le := by
    have hcount := r.count_le
    split <;> omega

end KvRouter.Telemetry
