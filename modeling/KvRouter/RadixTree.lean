import KvRouter.Lib.GoMap
import KvRouter.Lib.Sorting
import KvRouter.RadixTree.Node

/-!
# KvRouter.RadixTree

The prefix tree, `internal/radixtree/tree.go`: a path of block hashes leads to a
node, whose entries name the backends that have cached that prefix.  Its mutex
makes every call atomic, so a history of the tree is a list of calls (`Op`),
each with its reading of the clock and with the orders in which it ranges over
maps.

`Evict` collects a reference for every entry of a backend, sorts the references
by age, and groups the oldest by node before it removes them.  A tree carries
the proof that it is well formed, so there is no other kind.
-/

namespace KvRouter.RadixTree

/-! ## The tree -/

structure Tree where
  root : Node
  nodeCount : Int64
  entryCount : Int64
  wellFormed : root.WellFormed

/-- `New`. -/
def Tree.new : Tree := ⟨newNode, 1, 0, wellFormed_newNode⟩

/-! ## Insert and Touch -/

/-- The loop that refreshes the entry of a backend, if there is one. -/
def refresh (backendID : String) (now : ℤ) : List CacheEntry → Option (List CacheEntry)
  | [] => none
  | e :: entries =>
      if e.backendID = backendID then
        some ({ e with lastAccess := now, hitCount := e.hitCount + 1 } :: entries)
      else (refresh backendID now entries).map (e :: ·)

/-- A refresh keeps the backends of the entries and their order. -/
theorem backendIDs_refresh {backendID : String} {now : ℤ} {entries entries' : List CacheEntry}
    (h : refresh backendID now entries = some entries') :
    entries'.map (·.backendID) = entries.map (·.backendID) := by
  induction entries generalizing entries' with
  | nil => contradiction
  | cons e entries ih =>
      rw [refresh] at h
      split at h
      · rw [Option.some.injEq] at h
        subst h
        rfl
      · obtain ⟨rest, hrest, rfl⟩ := Option.map_eq_some_iff.mp h
        simp [ih hrest]

/-- A refresh finds nothing exactly when the backend has no entry. -/
theorem refresh_eq_none_iff {backendID : String} {now : ℤ} {entries : List CacheEntry} :
    refresh backendID now entries = none ↔ backendID ∉ entries.map (·.backendID) := by
  induction entries with
  | nil => simp [refresh]
  | cons e entries ih =>
      rw [refresh]
      split
      · next heq => simp [heq]
      · next hne =>
          rw [Option.map_eq_none_iff, ih, List.map_cons, List.mem_cons, not_or,
            and_iff_right (Ne.symm hne)]

def Tree.insert (t : Tree) (hashes : List UInt64) (backendID : String) (now : ℤ) : Tree :=
  let root := (t.root.ensure hashes).1
  let nodeCount := t.nodeCount + Int64.ofNat (t.root.ensure hashes).2
  have hroot : root.WellFormed := t.wellFormed.ensure hashes
  match h : refresh backendID now (root.entriesAt hashes) with
  | some entries =>
      ⟨root.setEntries entries hashes, nodeCount, t.entryCount,
        hroot.setEntries (backendIDs_refresh h ▸ hroot.nodup_entriesAt hashes) hashes⟩
  | none =>
      ⟨root.setEntries (root.entriesAt hashes ++ [⟨backendID, now, now, 1⟩]) hashes, nodeCount,
        t.entryCount + 1, hroot.setEntries (by
          rw [List.map_append, List.nodup_append]
          refine ⟨hroot.nodup_entriesAt hashes, by simp, ?_⟩
          have hnew := refresh_eq_none_iff.mp h
          grind) hashes⟩

def Tree.touch (t : Tree) (hashes : List UInt64) (backendID : String) (now : ℤ) : Tree :=
  match t.root.find hashes with
  | none => t
  | some _ =>
      match h : refresh backendID now (t.root.entriesAt hashes) with
      | none => t
      | some entries =>
          { t with
            root := t.root.setEntries entries hashes
            wellFormed := t.wellFormed.setEntries
              (backendIDs_refresh h ▸ t.wellFormed.nodup_entriesAt hashes) hashes }

/-! ## Lookup -/

/-- The body of the inner loop: the longest prefix is kept for each backend. -/
def collect (depth : ℤ) (result : GoMap String ℤ) (e : CacheEntry) : GoMap String ℤ :=
  match result.lookup e.backendID with
  | none => result.insert e.backendID depth
  | some current => if depth > current then result.insert e.backendID depth else result

/-- The outer loop, at a node that `depth` edges lead to. -/
def lookupFrom (node : Node) (depth : ℤ) (result : GoMap String ℤ) :
    List UInt64 → GoMap String ℤ
  | [] => result
  | h :: hashes =>
      match node.children.lookup h with
      | none => result
      | some child =>
          lookupFrom child (depth + 1) (child.entries.foldl (collect (depth + 1)) result) hashes

def Tree.lookup (t : Tree) (hashes : List UInt64) : GoMap String ℤ :=
  lookupFrom t.root 0
    (t.root.entries.foldl (fun result e => result.insert e.backendID 0) ∅) hashes

/-! ## Evict -/

/-- An `entryRef`; the path stands for the node. -/
structure Ref where
  path : List UInt64
  index : ℕ
  entry : CacheEntry
deriving DecidableEq

/-- The order in which a walk visits the children of each node. -/
structure WalkOrder where
  visit : List UInt64 → List UInt64 → List UInt64
  perm : ∀ path keys, (visit path keys).Perm keys

/-- The order in which the children are stored. -/
def WalkOrder.stored : WalkOrder := ⟨fun _ keys => keys, fun _ _ => .refl _⟩

/-- The references that a walk collects at one node. -/
def ownRefs (keep : CacheEntry → Bool) (path : List UInt64) (entries : List CacheEntry) :
    List Ref :=
  (entries.zipIdx.filter fun x => keep x.1).map fun x => ⟨path, x.2, x.1⟩

mutual

/-- `walk`, for the entries to be kept. -/
def Node.walk (keep : CacheEntry → Bool) (o : WalkOrder) (path : List UInt64) : Node → List Ref
  | .mk children entries =>
      ownRefs keep path entries ++ (o.visit path children.keys).flatMap fun key =>
        ((children.walk keep o path).lookup key).getD []

/-- The references of each child. -/
def Children.walk (keep : CacheEntry → Bool) (o : WalkOrder) (path : List UInt64) :
    Children → List (UInt64 × List Ref)
  | .nil => []
  | .cons key child rest => (key, child.walk keep o (path ++ [key])) :: rest.walk keep o path

end

/-- `refs`: every entry of the backend. -/
def Tree.refs (t : Tree) (backendID : String) (walkOrder : WalkOrder) : List Ref :=
  t.root.walk (fun e => e.backendID = backendID) walkOrder []

/-- The references with the oldest first. -/
def sortByAge (refs : List Ref) : List Ref :=
  Sorting.insertionSort (fun a b => a.entry.lastAccess < b.entry.lastAccess) refs

/-- Sorting by age keeps the entries. -/
theorem perm_sortByAge (refs : List Ref) : (sortByAge refs).Perm refs :=
  Sorting.perm_insertionSort _ refs

/-- `removals`: the indices to remove, by node. -/
def groupByNode (refs : List Ref) : GoMap (List UInt64) (List ℕ) :=
  refs.foldl (fun removals ref =>
    removals.insert ref.path ((removals.lookup ref.path).getD [] ++ [ref.index])) ∅

/-- The removals at one node, the highest index first. -/
def removeIndices (indices : List ℕ) (entries : List CacheEntry) : List CacheEntry :=
  (Sorting.insertionSort (fun a b => a > b) indices).foldl List.eraseIdx entries

/-- The loop over the removals. -/
def removeAll (root : Node) (removals : List (Σ _ : List UInt64, List ℕ)) : Node :=
  removals.foldl (fun root x => root.setEntries (removeIndices x.2 (root.entriesAt x.1)) x.1) root

/-- Removing indices keeps the other entries in order. -/
theorem sublist_removeIndices (indices : List ℕ) (entries : List CacheEntry) :
    (removeIndices indices entries).Sublist entries := by
  unfold removeIndices
  induction Sorting.insertionSort (fun a b => decide (a > b)) indices generalizing entries with
  | nil => exact .refl _
  | cons i rest ih => exact (ih _).trans (List.eraseIdx_sublist entries i)

/-- Removals keep the tree well-formed. -/
theorem wellFormed_removeAll {root : Node} (h : root.WellFormed)
    (removals : List (Σ _ : List UInt64, List ℕ)) : (removeAll root removals).WellFormed := by
  unfold removeAll
  induction removals generalizing root with
  | nil => exact h
  | cons x removals ih =>
      refine ih (h.setEntries ?_ x.1)
      exact (h.nodup_entriesAt x.1).sublist ((sublist_removeIndices _ _).map _)

def Tree.evict (t : Tree) (backendID : String) (count : ℤ) (walkOrder : WalkOrder)
    (removalOrder : GoMap.RangeOrder (List UInt64) (List ℕ)) : Tree :=
  if count ≤ 0 then t
  else
    let refs := t.refs backendID walkOrder
    if refs.length = 0 then t
    else
      let sorted := sortByAge refs
      let toEvict := if count > refs.length then (refs.length : ℤ) else count
      let removals := groupByNode (sorted.take toEvict.toNat)
      { t with
        root := removeAll t.root (removalOrder.visit removals)
        entryCount := t.entryCount + -Int64.ofInt toEvict
        wellFormed := wellFormed_removeAll t.wellFormed _ }

/-! ## Histories -/

/-- A call that changes the tree. -/
inductive Op
  | insert (hashes : List UInt64) (backendID : String) (now : ℤ)
  | touch (hashes : List UInt64) (backendID : String) (now : ℤ)
  | evict (backendID : String) (count : ℤ) (walkOrder : WalkOrder)
      (removalOrder : GoMap.RangeOrder (List UInt64) (List ℕ))

def Tree.apply (t : Tree) : Op → Tree
  | .insert hashes backendID now => t.insert hashes backendID now
  | .touch hashes backendID now => t.touch hashes backendID now
  | .evict backendID count walkOrder removalOrder => t.evict backendID count walkOrder removalOrder

/-- The tree after a history of calls. -/
def run (ops : List Op) : Tree := ops.foldl Tree.apply .new

@[simp] theorem run_concat (ops : List Op) (op : Op) : run (ops ++ [op]) = (run ops).apply op := by
  simp [run]

end KvRouter.RadixTree
