import KvRouter.Lib.GoMap
import Mathlib.Algebra.Order.Field.Rat
import Mathlib.Algebra.BigOperators.Group.List.Basic

/-!
# KvRouter.Eviction

The eviction model, `internal/eviction/lru.go`: for each backend the prefixes
that are thought to be resident, least recently used first.

* `recordInsert` evicts from the front until the new entry fits (`makeRoom`),
  and then appends it whether it fits or not;
* `recordAccess` moves the first entry that shares a hash to the back
  (`promote`);
* `evictedSince` reads the log of evicted entries, whose `lastAccess` is
  overwritten with the time of the eviction.

The model's mutex makes every call atomic, so a history of it is a list of calls
(`Op`), each with the clock reading it takes.  The entries are values here: the
code allocates one for each insertion and never shares it.
-/

namespace KvRouter.Eviction

/-! ## Entries -/

/-- A cached prefix on a single backend. -/
structure Entry where
  hashes : List UInt64
  insertedAt : ℤ
  lastAccess : ℤ
  sizeBlocks : ℤ
deriving DecidableEq

structure BackendCache where
  /-- Least recently used first. -/
  entries : List Entry
  /-- Total blocks this backend can hold. -/
  capacity : ℤ
  used : ℤ
  evicted : List Entry
deriving DecidableEq

abbrev Model := GoMap String BackendCache

/-- `NewModel`. -/
def Model.new : Model := ∅

def Model.register (m : Model) (backendID : String) (capacity : ℤ) : Model :=
  m.insert backendID ⟨[], capacity, 0, []⟩

/-! ## Hash sets -/

def makeHashSet (hashes : List UInt64) : GoMap UInt64 Unit :=
  hashes.foldl (fun s h => s.insert h ()) ∅

def matchesHashes (entryHashes : List UInt64) (querySet : GoMap UInt64 Unit) : Bool :=
  entryHashes.any fun h => (querySet.lookup h).isSome

/-- The set of a query has its hashes. -/
theorem isSome_lookup_makeHashSet (hashes : List UInt64) (h : UInt64) :
    ((makeHashSet hashes).lookup h).isSome = decide (h ∈ hashes) := by
  induction hashes using List.reverseRecOn with
  | nil => rfl
  | append_singleton hashes h' ih =>
      have hconcat : makeHashSet (hashes ++ [h']) = (makeHashSet hashes).insert h' () := by
        simp [makeHashSet]
      rw [hconcat, GoMap.lookup_insert_eq]
      by_cases heq : h = h'
      · simp [heq]
      · simp [heq, ih]

/-- An entry matches a query with which it shares a hash. -/
theorem matchesHashes_iff {entryHashes hashes : List UInt64} :
    matchesHashes entryHashes (makeHashSet hashes) = true ↔ ∃ h ∈ entryHashes, h ∈ hashes := by
  simp [matchesHashes, isSome_lookup_makeHashSet]

/-! ## Insertions and accesses -/

/-- The eviction loop of `RecordInsert` for an entry of `size` blocks: the entries, the blocks
used, the evicted entries and the hashes to return. -/
def makeRoom (size now capacity : ℤ) :
    List Entry → ℤ → List Entry → List (List UInt64) → BackendCache × List (List UInt64)
  | [], used, evicted, evictedHashes => (⟨[], capacity, used, evicted⟩, evictedHashes)
  | victim :: entries, used, evicted, evictedHashes =>
      if used + size > capacity then
        -- mark eviction time for EvictedSince
        makeRoom size now capacity entries (used - victim.sizeBlocks)
          (evicted ++ [{ victim with lastAccess := now }]) (evictedHashes ++ [victim.hashes])
      else (⟨victim :: entries, capacity, used, evicted⟩, evictedHashes)

/-- `RecordInsert` on the cache of a registered backend. -/
def BackendCache.recordInsert (bc : BackendCache) (hashes : List UInt64) (now : ℤ) :
    BackendCache × List (List UInt64) :=
  let entry : Entry := ⟨hashes, now, now, hashes.length⟩
  let (bc, evictedHashes) :=
    makeRoom entry.sizeBlocks now bc.capacity bc.entries bc.used bc.evicted []
  ({ bc with entries := bc.entries ++ [entry], used := bc.used + entry.sizeBlocks }, evictedHashes)

/-- `RecordInsert`: the model after the call and the hashes it returns. -/
def Model.recordInsert (m : Model) (backendID : String) (hashes : List UInt64) (now : ℤ) :
    Model × List (List UInt64) :=
  match m.lookup backendID with
  | none => (m, [])
  | some bc =>
      let (bc, evictedHashes) := bc.recordInsert hashes now
      (m.insert backendID bc, evictedHashes)

/-- The loop of `RecordAccess`, with the entries `front` before the ones still to be looked at:
the first match moves to the end of the slice. -/
def promote (hashSet : GoMap UInt64 Unit) (now : ℤ) (front : List Entry) :
    List Entry → List Entry
  | [] => front
  | e :: back =>
      if matchesHashes e.hashes hashSet then front ++ back ++ [{ e with lastAccess := now }]
      else promote hashSet now (front ++ [e]) back

/-- `RecordAccess` on the cache of a registered backend. -/
def BackendCache.recordAccess (bc : BackendCache) (hashes : List UInt64) (now : ℤ) :
    BackendCache :=
  { bc with entries := promote (makeHashSet hashes) now [] bc.entries }

def Model.recordAccess (m : Model) (backendID : String) (hashes : List UInt64) (now : ℤ) : Model :=
  match m.lookup backendID with
  | none => m
  | some bc => m.insert backendID (bc.recordAccess hashes now)

/-! ## Queries -/

/-- `used / capacity`, and `0` for a backend that is not registered. -/
def Model.usageRatio (m : Model) (backendID : String) : ℚ :=
  match m.lookup backendID with
  | none => 0
  | some bc => if bc.capacity = 0 then 0 else bc.used / bc.capacity

def Model.evictedSince (m : Model) (backendID : String) (since : ℤ) : List (List UInt64) :=
  match m.lookup backendID with
  | none => []
  | some bc =>
      (bc.evicted.filter fun e => e.lastAccess > since || e.lastAccess = since).map (·.hashes)

/-- The pressure factor of a confidence: 1 for an empty cache, 1/2 for a full one. -/
def pressureScore (bc : BackendCache) : ℚ :=
  if bc.capacity = 0 then 0
  else
    let ratio : ℚ := bc.used / bc.capacity
    1 - 1 / 2 * ratio

/-! ## Runs -/

/-- A call of the model, with the reading of the clock it takes. -/
inductive Op where
  | register (backendID : String) (capacity : ℤ)
  | recordInsert (backendID : String) (hashes : List UInt64) (now : ℤ)
  | recordAccess (backendID : String) (hashes : List UInt64) (now : ℤ)

def Model.apply (m : Model) : Op → Model
  | .register backendID capacity => m.register backendID capacity
  | .recordInsert backendID hashes now => (m.recordInsert backendID hashes now).1
  | .recordAccess backendID hashes now => m.recordAccess backendID hashes now

/-- The state after a sequence of calls on a new model. -/
def run (ops : List Op) : Model := ops.foldl Model.apply Model.new

def Op.reading : Op → Option ℤ
  | .register _ _ => none
  | .recordInsert _ _ now => some now
  | .recordAccess _ _ now => some now

/-- The successive readings of the clock. -/
def readings (ops : List Op) : List ℤ := ops.filterMap Op.reading

/-- A call of `RecordInsert`: when it was made, for which prefix, and what it returned. -/
structure InsertCall where
  time : ℤ
  hashes : List UInt64
  returned : List (List UInt64)

/-- The `RecordInsert` calls for `id` since its last `Register`, after one more call on `m`. -/
def Op.log (m : Model) (id : String) (calls : List InsertCall) : Op → List InsertCall
  | .register backendID _ => if backendID = id then [] else calls
  | .recordInsert backendID hashes now =>
      if backendID = id then
        calls ++ [⟨now, hashes, (m.recordInsert backendID hashes now).2⟩]
      else calls
  | .recordAccess _ _ _ => calls

/-- The `RecordInsert` calls for `id` since its last `Register`. -/
def calls (id : String) (ops : List Op) : List InsertCall :=
  (ops.foldl (fun s op => (s.1.apply op, op.log s.1 id s.2)) (Model.new, [])).2

/-! ## One more call -/

theorem run_concat (ops : List Op) (op : Op) : run (ops ++ [op]) = (run ops).apply op := by
  simp [run]

/-- The log of a cache grows by what its last call adds. -/
theorem calls_concat (id : String) (ops : List Op) (op : Op) :
    calls id (ops ++ [op]) = op.log (run ops) id (calls id ops) := by
  have hfst (s : Model × List InsertCall) :
      (ops.foldl (fun s op => (s.1.apply op, op.log s.1 id s.2)) s).1 =
        ops.foldl Model.apply s.1 := by
    induction ops generalizing s with
    | nil => rfl
    | cons op ops ih => rw [List.foldl_cons, List.foldl_cons, ih]
  simp only [calls, List.foldl_append, List.foldl_cons, List.foldl_nil, hfst, run]

theorem readings_concat (ops : List Op) (op : Op) :
    readings (ops ++ [op]) = readings ops ++ op.reading.toList := by
  simp only [readings, List.filterMap_append, List.filterMap_cons, List.filterMap_nil]
  cases op.reading <;> rfl

end KvRouter.Eviction
