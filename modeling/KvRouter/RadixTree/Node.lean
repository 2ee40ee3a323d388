import Mathlib.Data.Int.Notation
import Mathlib.Data.List.Nodup
import Mathlib.Tactic.Common

/-!
# KvRouter.RadixTree.Node

The nodes of the prefix tree, `internal/radixtree/tree.go`.  A `*Node` that is
not shared is given by the path that leads to it from the root, so the functions
here take paths where the source holds pointers:

* `find` — the descent along a path;
* `ensure` — the descent of `Insert`, which creates the nodes it misses;
* `setEntries` — an assignment to the entries of a node.

What they do to each other is stated through `entriesAt`, the entries at a path.
A `WellFormed` node has no key twice, and no node in it has two entries of one
backend.
-/

namespace KvRouter.RadixTree

/-- A `CacheEntry`. -/
structure CacheEntry where
  backendID : String
  insertedAt : ℤ
  lastAccess : ℤ
  hitCount : Int64
deriving DecidableEq

mutual

inductive Node
  | mk (children : Children) (entries : List CacheEntry)

/-- A `map[uint64]*Node`. -/
inductive Children
  | nil
  | cons (key : UInt64) (child : Node) (rest : Children)

end

def Node.children : Node → Children
  | .mk children _ => children

def Node.entries : Node → List CacheEntry
  | .mk _ entries => entries

@[simp] theorem Node.mk_children (cs : Children) (es : List CacheEntry) :
    (Node.mk cs es).children = cs := rfl

@[simp] theorem Node.mk_entries (cs : Children) (es : List CacheEntry) :
    (Node.mk cs es).entries = es := rfl

def newNode : Node := .mk .nil []

/-! ## Maps of children -/

def Children.lookup : Children → UInt64 → Option Node
  | .nil, _ => none
  | .cons key child rest, h => if key = h then some child else rest.lookup h

/-- `children[h] = n`. -/
def Children.set : Children → UInt64 → Node → Children
  | .nil, h, n => .cons h n .nil
  | .cons key child rest, h, n =>
      if key = h then .cons key n rest else .cons key child (rest.set h n)

def Children.keys : Children → List UInt64
  | .nil => []
  | .cons key _ rest => key :: rest.keys

/-- Setting a child changes that child and no other. -/
theorem lookup_set (h h' : UInt64) (n : Node) : (cs : Children) →
    (cs.set h n).lookup h' = if h' = h then some n else cs.lookup h'
  | .nil => by simp [Children.set, Children.lookup, eq_comm]
  | .cons key child rest => by
      by_cases hkey : key = h
      · subst hkey
        simp only [Children.set, if_true, Children.lookup]
        grind
      · simp only [Children.set, if_neg hkey, Children.lookup, lookup_set h h' n rest]
        grind

/-- Setting a child adds its key. -/
theorem mem_keys_set (h h' : UInt64) (n : Node) : (cs : Children) →
    (h' ∈ (cs.set h n).keys ↔ h' = h ∨ h' ∈ cs.keys)
  | .nil => by simp [Children.set, Children.keys]
  | .cons key child rest => by
      by_cases hkey : key = h
      · simp [Children.set, hkey, Children.keys]
      · simp only [Children.set, if_neg hkey, Children.keys, List.mem_cons,
          mem_keys_set h h' n rest]
        grind

/-- The keys are those of the children. -/
theorem mem_keys_iff (h : UInt64) : (cs : Children) → (h ∈ cs.keys ↔ (cs.lookup h).isSome)
  | .nil => by simp [Children.keys, Children.lookup]
  | .cons key child rest => by
      simp only [Children.keys, Children.lookup, List.mem_cons, mem_keys_iff h rest]
      grind

/-! ## Induction -/

mutual

/-- Induction on a tree, with the hypothesis for every child of a node. -/
theorem Node.induction {P : Node → Prop}
    (h : ∀ n : Node, (∀ key child, n.children.lookup key = some child → P child) → P n) :
    (n : Node) → P n
  | .mk children _ => h _ (Children.induction h children)

/-- What holds of a node when it holds of its children holds of every child. -/
theorem Children.induction {P : Node → Prop}
    (h : ∀ n : Node, (∀ key child, n.children.lookup key = some child → P child) → P n) :
    (cs : Children) → ∀ key child, cs.lookup key = some child → P child
  | .nil => by simp [Children.lookup]
  | .cons key' child' rest => by
      intro key child hlookup
      simp only [Children.lookup] at hlookup
      split at hlookup
      · rw [Option.some.injEq] at hlookup
        exact hlookup ▸ Node.induction h child'
      · exact Children.induction h rest key child hlookup

end

/-! ## Paths -/

/-- The node at a path. -/
def Node.find : Node → List UInt64 → Option Node
  | n, [] => some n
  | n, h :: hashes =>
      match n.children.lookup h with
      | none => none
      | some child => child.find hashes

/-- The descent of `Insert`, with the number of nodes it created. -/
def Node.ensure : Node → List UInt64 → Node × ℕ
  | n, [] => (n, 0)
  | n, h :: hashes =>
      match n.children.lookup h with
      | none =>
          let (child, created) := newNode.ensure hashes
          (.mk (n.children.set h child) n.entries, created + 1)
      | some child =>
          let (child, created) := child.ensure hashes
          (.mk (n.children.set h child) n.entries, created)

/-- `node.Entries = entries` at the node of a path. -/
def Node.setEntries (entries : List CacheEntry) : Node → List UInt64 → Node
  | n, [] => .mk n.children entries
  | n, h :: hashes =>
      match n.children.lookup h with
      | none => n
      | some child => .mk (n.children.set h (child.setEntries entries hashes)) n.entries

/-- The entries at a path, none where there is no node. -/
def Node.entriesAt (n : Node) (path : List UInt64) : List CacheEntry :=
  ((n.find path).map Node.entries).getD []

/-- A path is followed child after child. -/
theorem find_cons (n : Node) (h : UInt64) (hashes : List UInt64) :
    n.find (h :: hashes) = (n.children.lookup h).bind fun child => child.find hashes := by
  rw [Node.find]
  cases n.children.lookup h <;> rfl

/-- A path below a node whose child at a key is replaced. -/
theorem find_set_cons (n child : Node) (h h' : UInt64) (hashes : List UInt64) :
    (Node.mk (n.children.set h child) n.entries).find (h' :: hashes) =
      if h' = h then child.find hashes else n.find (h' :: hashes) := by
  rw [find_cons, find_cons, Node.mk_children, lookup_set]
  split <;> rfl

@[simp] theorem entriesAt_nil (n : Node) : n.entriesAt [] = n.entries := rfl

/-- The entries at a path are those of the child, from there. -/
theorem entriesAt_cons (n : Node) (h : UInt64) (hashes : List UInt64) :
    n.entriesAt (h :: hashes) =
      ((n.children.lookup h).map fun child => child.entriesAt hashes).getD [] := by
  rw [Node.entriesAt, find_cons]
  cases n.children.lookup h <;> rfl

/-- Setting a child changes the entries below it. -/
theorem entriesAt_set_cons (n child : Node) (h h' : UInt64) (hashes : List UInt64) :
    (Node.mk (n.children.set h child) n.entries).entriesAt (h' :: hashes) =
      if h' = h then child.entriesAt hashes else n.entriesAt (h' :: hashes) := by
  rw [Node.entriesAt, find_set_cons]
  split <;> rfl

@[simp] theorem entriesAt_newNode (path : List UInt64) : newNode.entriesAt path = [] := by
  cases path with
  | nil => rfl
  | cons h hashes => rfl

/-- Creating nodes changes no entries. -/
theorem entriesAt_ensure (n : Node) (path path' : List UInt64) :
    (n.ensure path).1.entriesAt path' = n.entriesAt path' := by
  induction path generalizing n path' with
  | nil => rfl
  | cons h hashes ih =>
      unfold Node.ensure
      cases path' with
      | nil => split <;> rfl
      | cons h' hashes' =>
          split
          · next hnone =>
              rw [entriesAt_set_cons]
              split
              · next heq => simp [heq, entriesAt_cons, hnone, ih]
              · rfl
          · next child hchild =>
              rw [entriesAt_set_cons]
              split
              · next heq => simp [heq, entriesAt_cons, hchild, ih]
              · rfl

/-- Ensuring a path makes its node. -/
theorem find_ensure (n : Node) (path : List UInt64) : ((n.ensure path).1.find path).isSome := by
  induction path generalizing n with
  | nil => rfl
  | cons h hashes ih =>
      unfold Node.ensure
      split
      · simpa [find_set_cons] using ih newNode
      · next child hchild => simpa [find_set_cons] using ih child

/-- An assignment changes the entries of its node, and no others. -/
theorem entriesAt_setEntries {n : Node} {path : List UInt64} (hpath : (n.find path).isSome)
    (entries : List CacheEntry) (path' : List UInt64) :
    (n.setEntries entries path).entriesAt path' =
      if path' = path then entries else n.entriesAt path' := by
  induction path generalizing n path' with
  | nil =>
      cases path' with
      | nil => rfl
      | cons h' hashes' => rfl
  | cons h hashes ih =>
      cases hchild : n.children.lookup h with
      | none => simp [Node.find, hchild] at hpath
      | some child =>
          have hfind : (child.find hashes).isSome := by simpa [Node.find, hchild] using hpath
          simp only [Node.setEntries, hchild]
          cases path' with
          | nil => rfl
          | cons h' hashes' =>
              rw [entriesAt_set_cons]
              by_cases heq : h' = h
              · subst heq
                simp [ih hfind, entriesAt_cons, hchild]
              · simp [heq]

/-! ## Well-formed nodes -/

mutual

def Node.WellFormed : Node → Prop
  | .mk children entries => children.WellFormed ∧ (entries.map (·.backendID)).Nodup

def Children.WellFormed : Children → Prop
  | .nil => True
  | .cons key child rest => key ∉ rest.keys ∧ child.WellFormed ∧ rest.WellFormed

end

/-- A node is well-formed if its children are and no backend has two entries. -/
theorem Node.wellFormed_iff {n : Node} :
    n.WellFormed ↔ n.children.WellFormed ∧ (n.entries.map (·.backendID)).Nodup := by
  cases n
  rw [Node.WellFormed, Node.mk_children, Node.mk_entries]

/-- No two children have one key. -/
theorem Children.WellFormed.nodup_keys : {cs : Children} → cs.WellFormed → cs.keys.Nodup
  | .nil, _ => List.nodup_nil
  | .cons _ _ _, h => by
      rw [Children.WellFormed] at h
      exact List.nodup_cons.mpr ⟨h.1, h.2.2.nodup_keys⟩

/-- A child of well-formed children is well-formed. -/
theorem Children.WellFormed.lookup {key : UInt64} {child : Node} :
    {cs : Children} → cs.WellFormed → cs.lookup key = some child → child.WellFormed
  | .nil, _, hlookup => by simp [Children.lookup] at hlookup
  | .cons _ _ _, h, hlookup => by
      rw [Children.WellFormed] at h
      simp only [Children.lookup] at hlookup
      split at hlookup
      · rw [Option.some.injEq] at hlookup
        exact hlookup ▸ h.2.1
      · exact h.2.2.lookup hlookup

/-- Setting a well-formed child keeps them well-formed. -/
theorem Children.WellFormed.set {h : UInt64} {n : Node} (hn : n.WellFormed) :
    {cs : Children} → cs.WellFormed → (cs.set h n).WellFormed
  | .nil, _ => by simp [Children.set, Children.WellFormed, Children.keys, hn]
  | .cons key child rest, hcs => by
      rw [Children.WellFormed] at hcs
      rw [Children.set]
      split
      · exact ⟨hcs.1, hn, hcs.2.2⟩
      · next hkey =>
          refine ⟨?_, hcs.2.1, hcs.2.2.set hn⟩
          rw [mem_keys_set, not_or]
          exact ⟨hkey, hcs.1⟩

theorem wellFormed_newNode : newNode.WellFormed := ⟨trivial, List.nodup_nil⟩

/-- Every node of a well-formed tree is well-formed. -/
theorem Node.WellFormed.find {n : Node} (h : n.WellFormed) {path : List UInt64} {node : Node}
    (hfind : n.find path = some node) : node.WellFormed := by
  induction path generalizing n with
  | nil =>
      rw [Node.find, Option.some.injEq] at hfind
      exact hfind ▸ h
  | cons key hashes ih =>
      rw [Node.find] at hfind
      split at hfind
      · contradiction
      · next child hchild => exact ih ((Node.wellFormed_iff.mp h).1.lookup hchild) hfind

/-- No backend has two entries at a path. -/
theorem Node.WellFormed.nodup_entriesAt {n : Node} (h : n.WellFormed) (path : List UInt64) :
    ((n.entriesAt path).map (·.backendID)).Nodup := by
  unfold Node.entriesAt
  cases hfind : n.find path with
  | none => exact List.nodup_nil
  | some node => exact (Node.wellFormed_iff.mp (h.find hfind)).2

/-- A node whose child at a key is replaced. -/
theorem Node.WellFormed.set {n : Node} (h : n.WellFormed) (key : UInt64) {child : Node}
    (hchild : child.WellFormed) : (Node.mk (n.children.set key child) n.entries).WellFormed := by
  rw [Node.wellFormed_iff] at h
  exact ⟨h.1.set hchild, h.2⟩

/-- Ensuring a path keeps the tree well-formed. -/
theorem Node.WellFormed.ensure {n : Node} (h : n.WellFormed) (path : List UInt64) :
    (n.ensure path).1.WellFormed := by
  induction path generalizing n with
  | nil => exact h
  | cons key hashes ih =>
      unfold Node.ensure
      split
      · exact h.set key (ih wellFormed_newNode)
      · next child hchild => exact h.set key (ih ((Node.wellFormed_iff.mp h).1.lookup hchild))

/-- So does setting entries of distinct backends. -/
theorem Node.WellFormed.setEntries {n : Node} (h : n.WellFormed) {entries : List CacheEntry}
    (hentries : (entries.map (·.backendID)).Nodup) (path : List UInt64) :
    (n.setEntries entries path).WellFormed := by
  induction path generalizing n with
  | nil => exact ⟨(Node.wellFormed_iff.mp h).1, hentries⟩
  | cons key hashes ih =>
      unfold Node.setEntries
      split
      · exact h
      · next child hchild => exact h.set key (ih ((Node.wellFormed_iff.mp h).1.lookup hchild))

end KvRouter.RadixTree
