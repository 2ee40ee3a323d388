import KvRouter.Go
import KvRouter.Lib.GoMap
import KvRouter.Lib.Sorting
import Mathlib.Algebra.Order.Field.Rat
import Mathlib.Data.Prod.Lex
import Mathlib.Order.WithBot
import Mathlib.Data.String.Basic

/-!
# KvRouter.Scorer

The scorer, `internal/scorer/scorer.go`, with its `float64` arithmetic taken
over exact rationals and `math.Inf(-1)` as `⊥`.

`rank` orders the healthy backends for selection: by score when any of them has
a match, and by queue depth otherwise.  Both comparisons break ties by ID, so on
states with distinct IDs each is the order of a key (`scoreKey`, `depthKey`).
`route` is the same policy as a single pass.
-/

namespace KvRouter.Scorer

/-! ## States and weights -/

/-- An incoming routing request with the block hashes it needs. -/
structure Request where
  blockHashes : List UInt64
  totalBlocks : ℤ
deriving DecidableEq

/-- The state of a backend as the handler saw it. -/
structure BackendState where
  id : String
  matchedBlocks : ℤ
  queueDepth : ℤ
  maxQueueDepth : ℤ
  usedBlocks : ℤ
  totalCapacity : ℤ
  healthy : Bool
deriving DecidableEq

structure Weights where
  cacheHit : ℚ
  queueDepth : ℚ
  evictionRisk : ℚ

/-- `DefaultWeights`. -/
def defaultWeights : Weights := ⟨1, 1 / 2, 3 / 10⟩

/-- The divisor of the match ratio, never `0`. -/
def divisor (req : Request) : ℚ :=
  let totalBlocks : ℚ := req.totalBlocks
  let totalBlocks := if totalBlocks = 0 then (req.blockHashes.length : ℚ) else totalBlocks
  if totalBlocks = 0 then 1 else totalBlocks

/-- The score of a single backend for a request. -/
def score (w : Weights) (req : Request) (b : BackendState) : WithBot ℚ :=
  if !b.healthy then ⊥
  else
    let cacheHitRatio := (b.matchedBlocks : ℚ) / divisor req
    let queuePressure : ℚ :=
      if b.maxQueueDepth > 0 then (b.queueDepth : ℚ) / b.maxQueueDepth else 0
    let evictionRisk : ℚ :=
      if b.totalCapacity > 0 then
        let blocksRemaining := (b.totalCapacity - b.usedBlocks : ℤ)
        1 - (blocksRemaining : ℚ) / b.totalCapacity
      else 0
    ((cacheHitRatio * w.cacheHit - queuePressure * w.queueDepth -
      evictionRisk * w.evictionRisk : ℚ) : WithBot ℚ)

/-! ## Rank -/

/-- The `scores` map of `Rank`, filled in list order. -/
def scoresOf (w : Weights) (req : Request) (healthy : List BackendState) :
    GoMap String (WithBot ℚ) :=
  healthy.foldl (fun scores b => scores.insert b.id (score w req b)) ∅

/-- The comparison of the score mode, on the looked-up scores. -/
def lessByScore (scores : GoMap String (WithBot ℚ)) (a b : BackendState) : Bool :=
  let scoreA := (scores.lookup a.id).getD 0
  let scoreB := (scores.lookup b.id).getD 0
  if scoreA = scoreB then a.id < b.id else scoreA > scoreB

/-- The comparison of the pure load-balancing mode. -/
def lessByDepth (a b : BackendState) : Bool :=
  if a.queueDepth = b.queueDepth then a.id < b.id else a.queueDepth < b.queueDepth

/-- `Rank`: the healthy backends in the order in which the handler tries them. -/
def rank (w : Weights) (req : Request) (backends : List BackendState) : List BackendState :=
  let healthy := backends.filter (·.healthy)
  let anyCacheHit := healthy.any (·.matchedBlocks > 0)
  if anyCacheHit then Sorting.sliceStable (lessByScore (scoresOf w req healthy)) healthy
  else Sorting.sliceStable lessByDepth healthy

/-! ## Route -/

/-- The loop of `Route` and of `leastLoaded`: the ID of the first healthy backend whose key is
better than all before it and than the sentinel the loop starts from. -/
def bestID {κ : Type} (better : κ → κ → Bool) (key : BackendState → κ) (sentinel : κ)
    (backends : List BackendState) : String :=
  (backends.foldl (fun best b =>
    if !b.healthy then best
    else if better (key b) best.2 then (b.id, key b) else best) ("", sentinel)).1

/-- `leastLoaded`. -/
def leastLoaded (backends : List BackendState) : String :=
  bestID (fun depth bestDepth => depth < bestDepth) (·.queueDepth) maxInt backends

/-- `Route`: the best backend in a single pass, `""` when there is none. -/
def route (w : Weights) (req : Request) (backends : List BackendState) : String :=
  if backends.length = 0 then ""
  else
    let anyCacheHit := backends.any fun b => b.healthy && b.matchedBlocks > 0
    if !anyCacheHit then leastLoaded backends
    else bestID (fun score bestScore => score > bestScore) (score w req) ⊥ backends

/-! ## Both modes as orders -/

/-- A ranking has the healthy states, each once. -/
theorem perm_rank (w : Weights) (req : Request) (backends : List BackendState) :
    (rank w req backends).Perm (backends.filter (·.healthy)) := by
  unfold rank
  dsimp only
  split
  · exact Sorting.perm_sliceStable _ _
  · exact Sorting.perm_sliceStable _ _

/-- The states as the score mode orders them: higher scores first, then by ID. -/
def scoreKey (f : BackendState → WithBot ℚ) (b : BackendState) : (WithBot ℚ)ᵒᵈ ×ₗ String :=
  toLex (OrderDual.toDual (f b), b.id)

/-- The states as the other mode orders them: smaller depths first, then by ID. -/
def depthKey (b : BackendState) : ℤ ×ₗ String := toLex (b.queueDepth, b.id)

/-- The comparison by score is that of the keys. -/
theorem lessByScore_iff (scores : GoMap String (WithBot ℚ)) (a b : BackendState) :
    lessByScore scores a b ↔ scoreKey (fun c => (scores.lookup c.id).getD 0) a <
      scoreKey (fun c => (scores.lookup c.id).getD 0) b := by
  simp only [lessByScore, scoreKey, Prod.Lex.toLex_lt_toLex, OrderDual.toDual_lt_toDual,
    EmbeddingLike.apply_eq_iff_eq]
  split
  · next h => simp [h]
  · next h => simp [h]

/-- The comparison by depth is that of the keys. -/
theorem lessByDepth_iff (a b : BackendState) : lessByDepth a b ↔ depthKey a < depthKey b := by
  simp only [lessByDepth, depthKey, Prod.Lex.toLex_lt_toLex]
  split
  · next h => simp [h]
  · next h => simp [h]

/-- With distinct IDs the map gives each state its own score. -/
theorem lookup_scoresOf {w : Weights} {req : Request} {healthy : List BackendState}
    (hids : (healthy.map (·.id)).Nodup) {b : BackendState} (hb : b ∈ healthy) :
    (scoresOf w req healthy).lookup b.id = some (score w req b) :=
  GoMap.lookup_foldl_insert hids hb

end KvRouter.Scorer
