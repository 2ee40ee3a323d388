import KvRouter.Go
import KvRouter.Lib.GoMap

/-!
# KvRouter.CacheIndex

The residency directory, `internal/cacheindex/index.go`: for each backend a
bounded set of cumulative prefix keys, grouped by namespace.

* `commit` touches every cumulative key of a block list in list order and then
  evicts the oldest entries until the capacity holds again;
* `evictOldest` finds its victim by a scan over two nested maps, in whatever
  order the runtime enumerates them (`ScanOrder`);
* `lookup` walks the cumulative keys of a query and stops at the first one
  that is missing.

The directory's mutex makes every call atomic, so a history of the directory is
a list of calls (`Op`).
-/

namespace KvRouter.CacheIndex

/-! ## Cumulative keys -/

/-- `binary.LittleEndian.PutUint64`. -/
def putUint64 (x : UInt64) : Bytes :=
  (List.range 8).map fun n => (x >>> (8 * n).toUInt64).toUInt8

/-- The initial state of `fnv.New64a`. -/
def fnvOffset64 : UInt64 := 14695981039346656037

def fnvPrime64 : UInt64 := 1099511628211

/-- `Write` of the 64-bit FNV-1a hash. -/
def fnvWrite (h : UInt64) (bytes : Bytes) : UInt64 :=
  bytes.foldl (fun h c => (h ^^^ c.toUInt64) * fnvPrime64) h

/-- The loop of `cumulativeKeys` from hash state `h`. -/
def cumulativeKeysFrom (h : UInt64) : List UInt64 → List UInt64
  | [] => []
  | block :: blocks =>
      let h := fnvWrite h (putUint64 block)
      h :: cumulativeKeysFrom h blocks

/-- One FNV-1a key for each non-empty prefix of `blocks`. -/
def cumulativeKeys (blocks : List UInt64) : List UInt64 := cumulativeKeysFrom fnvOffset64 blocks

/-! ## The directory -/

structure Entry where
  lastSeen : Instant
  sequence : UInt64
deriving DecidableEq

/-- The entries of one namespace, by cumulative key. -/
abbrev Bucket := GoMap UInt64 Entry

structure BackendCache where
  capacity : ℤ
  entries : GoMap String Bucket

structure Index where
  backends : GoMap String BackendCache
  sequence : UInt64

structure Stats where
  backendID : String
  capacity : ℤ
  used : ℕ
deriving DecidableEq

def Index.new : Index := ⟨∅, 0⟩

def Index.register (i : Index) (backendID : String) (capacity : ℤ) : Index :=
  { i with backends := i.backends.insert backendID ⟨capacity, ∅⟩ }

def totalEntries (b : BackendCache) : ℕ := (b.entries.entries.map fun s => GoMap.len s.2).sum

/-- The loop of `lookup`: how many leading keys are present, `matched` before them. -/
def matchKeys (entries : Bucket) (matched : ℕ) : List UInt64 → ℕ
  | [] => matched
  | key :: keys =>
      if (entries.lookup key).isSome then matchKeys entries (matched + 1) keys else matched

/-- The longest known prefix for a namespace on a backend. -/
def Index.lookup (i : Index) (backendID ns : String) (blocks : List UInt64) : ℕ :=
  match i.backends.lookup backendID with
  | none => 0
  | some b => matchKeys ((b.entries.lookup ns).getD ∅) 0 (cumulativeKeys blocks)

def Index.usage (i : Index) (backendID : String) : Stats :=
  match i.backends.lookup backendID with
  | none => ⟨backendID, 0, 0⟩
  | some b => ⟨backendID, b.capacity, totalEntries b⟩

/-! ## Eviction -/

/-- The enumeration orders of one call of `evictOldest`: of the namespaces, and
of the keys of each namespace. -/
structure ScanOrder where
  namespaces : GoMap.RangeOrder String Bucket
  keys : String → GoMap.RangeOrder UInt64 Entry

noncomputable instance : Inhabited ScanOrder := ⟨⟨default, fun _ => default⟩⟩

/-- The variables of the scan: the oldest entry seen so far, none while `oldest`
is the zero Time. -/
structure Victim where
  oldNS : String
  oldKey : UInt64
  oldest : ℤ
  sequence : UInt64

/-- The body of the scan, at key `key` of namespace `ns`. -/
def scanEntry (ns : String) (v : Victim) (x : Σ _ : UInt64, Entry) : Victim :=
  if v.oldest = 0 ∨ x.2.lastSeen.time < v.oldest ∨
      (x.2.lastSeen.time = v.oldest ∧ x.2.sequence < v.sequence) then
    ⟨ns, x.1, x.2.lastSeen.time, x.2.sequence⟩
  else v

/-- The two nested loops of `evictOldest`. -/
def scan (o : ScanOrder) (b : BackendCache) : Victim :=
  (o.namespaces.visit b.entries).foldl
    (fun v s => ((o.keys s.1).visit s.2).foldl (scanEntry s.1) v) ⟨"", 0, 0, 0⟩

/-- Delete a key, and its namespace with it when no key is left. -/
def deleteKey (b : BackendCache) (ns : String) (key : UInt64) : BackendCache :=
  let bucket := ((b.entries.lookup ns).getD ∅).erase key
  if GoMap.len bucket = 0 then { b with entries := b.entries.erase ns }
  else { b with entries := b.entries.insert ns bucket }

def evictOldest (o : ScanOrder) (b : BackendCache) : BackendCache :=
  let v := scan o b
  if v.oldest = 0 then b else deleteKey b v.oldNS v.oldKey

/-- The eviction loop of `commit`, for at most `fuel` rounds; `orders n` is the
enumeration of its `n`-th round.  Returns the number of evictions. -/
def evictLoop (orders : ℕ → ScanOrder) : ℕ → BackendCache → ℕ × BackendCache
  | 0, b => (0, b)
  | fuel + 1, b =>
      if b.capacity < totalEntries b then
        let r := evictLoop (fun n => orders (n + 1)) fuel (evictOldest (orders 0) b)
        (r.1 + 1, r.2)
      else (0, b)

/-! ## Commit -/

/-- The body of the key loop of `commit`, on the bucket and the sequence counter. -/
def touchKey (now : Instant) (s : Bucket × UInt64) (key : UInt64) : Bucket × UInt64 :=
  let sequence := s.2 + 1
  match s.1.lookup key with
  | some e => (s.1.insert key { e with lastSeen := now, sequence := sequence }, sequence)
  | none => (s.1.insert key ⟨now, sequence⟩, sequence)

/-- The part of `commit` before the eviction loop: the cache with every key
touched, and the new sequence counter. -/
def touchKeys (b : BackendCache) (sequence : UInt64) (ns : String) (now : Instant)
    (keys : List UInt64) : BackendCache × UInt64 :=
  let s := keys.foldl (touchKey now) ((b.entries.lookup ns).getD ∅, sequence)
  ({ b with entries := b.entries.insert ns s.1 }, s.2)

/-- `Commit`, with its reading of the clock and the enumeration orders of its
evictions.  Every round of the eviction loop removes an entry, so `totalEntries`
rounds are enough (`evictLoop_done`). -/
def Index.commit (i : Index) (backendID ns : String) (blocks : List UInt64)
    (now : Instant) (orders : ℕ → ScanOrder) : Index :=
  match i.backends.lookup backendID with
  | none => i
  | some b =>
      if b.capacity ≤ 0 then i
      else
        let s := touchKeys b i.sequence ns now (cumulativeKeys blocks)
        ⟨i.backends.insert backendID (evictLoop orders (totalEntries s.1) s.1).2, s.2⟩

/-! ## Runs -/

/-- A call that changes the directory. -/
inductive Op
  | register (backendID : String) (capacity : ℤ)
  | commit (backendID ns : String) (blocks : List UInt64) (now : Instant)
      (orders : ℕ → ScanOrder)

def Index.apply (i : Index) : Op → Index
  | .register id capacity => i.register id capacity
  | .commit id ns blocks now orders => i.commit id ns blocks now orders

/-- The directory after a run of calls on a new one. -/
def run (ops : List Op) : Index := ops.foldl Index.apply Index.new

theorem run_concat (ops : List Op) (op : Op) : run (ops ++ [op]) = (run ops).apply op := by
  simp [run]

end KvRouter.CacheIndex
