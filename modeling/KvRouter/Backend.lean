import KvRouter.Go
import KvRouter.Lib.GoMap
import Mathlib.Data.String.Basic

/-!
# KvRouter.Backend

The backend pool, `internal/backend/pool.go`.  A `Backend` of the source keeps
its configuration and its atomics in one struct; here the configuration, which
never changes after `newPool`, is `Backend`, and the atomics are `Cells`.

A `Pool` carries what `newPool` establishes: every backend is stored under its
own ID and has a positive limit.  `url.Parse` is not modelled, so `ValidURL` is
a parameter of `newPool`.
-/

namespace KvRouter

/-! ## Backends -/

/-- `DefaultMaxConcurrent`. -/
def defaultMaxConcurrent : Int64 := 64

/-- Consecutive failed probes that mark a healthy backend unhealthy. -/
def unhealthyAfter : Int32 := 3

/-- Consecutive successful probes that readmit an unhealthy backend. -/
def healthyAfter : Int32 := 2

/-- The static configuration of a backend, as far as `NewPool` reads it. -/
structure BackendConfig where
  id : String
  url : String
  maxConcurrent : Int64
deriving DecidableEq

/-- The fields of a backend that do not change. -/
structure Backend where
  id : String
  url : String
  maxConcurrent : Int64
deriving DecidableEq

/-- The atomics of a backend. -/
structure Cells where
  healthy : Bool
  queueDepth : Int64
  consecutiveFails : Int32
  consecutiveSuccesses : Int32
  healthyTransitions : UInt64
  unhealthyTransitions : UInt64
deriving DecidableEq

/-- The atomics of a backend fresh from `NewPool`. -/
def Cells.fresh : Cells := ⟨false, 0, 0, 0, 0, 0⟩

/-! ## Pools -/

/-- A pool of backends, keyed by ID. -/
structure Pool where
  backends : GoMap String Backend
  keyed : ∀ id b, backends.lookup id = some b → b.id = id
  limited : ∀ id b, backends.lookup id = some b → 0 < b.maxConcurrent

def Pool.empty : Pool :=
  ⟨∅, fun id b h => by simp [Finmap.lookup_empty] at h,
    fun id b h => by simp [Finmap.lookup_empty] at h⟩

/-- The errors of `NewPool`. -/
inductive ConfigError
  | idRequired (i : ℕ)
  | duplicateID (id : String)
  | badURL (id url : String)
deriving DecidableEq

/-- The backend `NewPool` builds for a configuration; a limit that is not
positive becomes the default. -/
def newBackend (cfg : BackendConfig) : Backend :=
  let maxConcurrent := if cfg.maxConcurrent ≤ 0 then defaultMaxConcurrent else cfg.maxConcurrent
  ⟨cfg.id, cfg.url, maxConcurrent⟩

/-- Every backend has a limit: one that is not positive is replaced by the default. -/
theorem newBackend_limited (cfg : BackendConfig) : 0 < (newBackend cfg).maxConcurrent := by
  simp only [newBackend]
  split
  · decide
  · next h => exact Int64.not_le.mp h

/-- `backends[cfg.ID] = b`. -/
def Pool.add (p : Pool) (cfg : BackendConfig) : Pool where
  backends := p.backends.insert cfg.id (newBackend cfg)
  keyed id b h := by
    rw [GoMap.lookup_insert_eq] at h
    split at h
    · next hid =>
        rw [Option.some.injEq] at h
        rw [← h, hid, newBackend]
    · exact p.keyed id b h
  limited id b h := by
    rw [GoMap.lookup_insert_eq] at h
    split at h
    · rw [Option.some.injEq] at h
      rw [← h]
      exact newBackend_limited cfg
    · exact p.limited id b h

/-- The loop of `NewPool` from index `i`. -/
def newPoolFrom (validURL : String → Bool) : ℕ → List BackendConfig → Pool → Except ConfigError Pool
  | _, [], pool => .ok pool
  | i, cfg :: cfgs, pool =>
      if cfg.id = "" then .error (.idRequired i)
      else if (pool.backends.lookup cfg.id).isSome then .error (.duplicateID cfg.id)
      else if !validURL cfg.url then .error (.badURL cfg.id cfg.url)
      else newPoolFrom validURL (i + 1) cfgs (pool.add cfg)

/-- `NewPool`; every atomic of the pool it returns is fresh. -/
def newPool (validURL : String → Bool) (configs : List BackendConfig) : Except ConfigError Pool :=
  newPoolFrom validURL 0 configs .empty

/-- `Get`. -/
def Pool.get (p : Pool) (id : String) : Option Backend := p.backends.lookup id

/-- The backends in the order in which `range` visits them. -/
def Pool.visit (p : Pool) (o : GoMap.RangeOrder String Backend) : List Backend :=
  (o.visit p.backends).map Sigma.snd

/-- Ranging over the pool visits its backends. -/
theorem Pool.mem_visit {p : Pool} {o : GoMap.RangeOrder String Backend} {b : Backend} :
    b ∈ p.visit o ↔ p.get b.id = some b := by
  rw [Pool.visit, List.mem_map, Pool.get]
  constructor
  · rintro ⟨⟨id, b'⟩, hmem, rfl⟩
    have hlookup := o.mem_visit.mp hmem
    rw [p.keyed id b' hlookup]
    exact hlookup
  · intro h
    exact ⟨⟨b.id, b⟩, o.mem_visit.mpr h, rfl⟩

/-- No backend is visited twice. -/
theorem Pool.nodup_ids_visit (p : Pool) (o : GoMap.RangeOrder String Backend) :
    ((p.visit o).map (·.id)).Nodup := by
  have hids : (p.visit o).map (·.id) = (o.visit p.backends).map Sigma.fst := by
    rw [Pool.visit, List.map_map]
    apply List.map_congr_left
    intro x hx
    exact p.keyed x.1 x.2 (o.mem_visit.mp hx)
  rw [hids]
  exact o.nodup_keys_visit p.backends

end KvRouter
