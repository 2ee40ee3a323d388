import KvRouter.RadixTree
import Mathlib.Data.List.Nodup

/-!
# KvRouter.RadixTree.Walk

What the walk of a tree collects: a reference to every entry that is kept, each
once, in whatever order the children are visited.
-/

namespace KvRouter.RadixTree

variable {keep : CacheEntry → Bool} {o : WalkOrder}

/-- What a reference refers to. -/
def Ref.key (r : Ref) : List UInt64 × String := (r.path, r.entry.backendID)

/-! ## One node -/

/-- The references at a node are its entries that are kept. -/
theorem mem_ownRefs {path : List UInt64} {entries : List CacheEntry} {r : Ref} :
    r ∈ ownRefs keep path entries ↔
      r.path = path ∧ entries[r.index]? = some r.entry ∧ keep r.entry = true := by
  obtain ⟨path', index, entry⟩ := r
  simp only [ownRefs, List.mem_map, List.mem_filter, Prod.exists, List.mem_zipIdx_iff_getElem?,
    Ref.mk.injEq]
  grind

/-- Their keys have the path of the node. -/
theorem keys_ownRefs (path : List UInt64) (entries : List CacheEntry) :
    (ownRefs keep path entries).map Ref.key =
      (entries.filter keep).map fun e => (path, e.backendID) := by
  have hkept : (entries.zipIdx.filter fun x => keep x.1).map Prod.fst = entries.filter keep := by
    conv_rhs => rw [← List.zipIdx_map_fst 0 entries, List.filter_map]
    rfl
  rw [← hkept, ownRefs, List.map_map, List.map_map]
  rfl

/-- The walk of the children goes into each of them. -/
theorem lookup_walk (path : List UInt64) (key : UInt64) (cs : Children) :
    (cs.walk keep o path).lookup key =
      (cs.lookup key).map fun child => child.walk keep o (path ++ [key]) := by
  cases cs with
  | nil => rfl
  | cons key' child rest =>
      rw [Children.walk, List.lookup_cons, Children.lookup, lookup_walk path key rest]
      by_cases hkey : key' = key
      · subst hkey
        simp
      · have hne : (key == key') = false := beq_eq_false_iff_ne.mpr (Ne.symm hkey)
        simp [hkey, hne]

/-- The walk of a node, by the children that lookups find. -/
theorem walk_eq (n : Node) (path : List UInt64) :
    n.walk keep o path = ownRefs keep path n.entries ++
      (o.visit path n.children.keys).flatMap fun key =>
        ((n.children.lookup key).map fun child => child.walk keep o (path ++ [key])).getD [] := by
  cases n
  simp only [Node.walk, lookup_walk, Node.mk_children, Node.mk_entries]

/-! ## The whole tree -/

/-- **A walk collects exactly the entries that are kept.** -/
theorem mem_walk {n : Node} {path : List UInt64} {r : Ref} :
    r ∈ n.walk keep o path ↔ ∃ rest, r.path = path ++ rest ∧
      (n.entriesAt rest)[r.index]? = some r.entry ∧ keep r.entry = true := by
  induction n using Node.induction generalizing path with
  | h n ih =>
      rw [walk_eq, List.mem_append, mem_ownRefs, List.mem_flatMap]
      constructor
      · rintro (⟨hpath, hentry⟩ | ⟨key, -, hmem⟩)
        · exact ⟨[], by rw [hpath, List.append_nil], hentry⟩
        · cases hchild : n.children.lookup key with
          | none => simp [hchild] at hmem
          | some child =>
              simp only [hchild, Option.map_some, Option.getD_some] at hmem
              obtain ⟨rest, hpath, hentry⟩ := (ih key child hchild).mp hmem
              refine ⟨key :: rest, by rw [hpath, List.append_assoc, List.singleton_append], ?_⟩
              simpa [entriesAt_cons, hchild] using hentry
      · rintro ⟨rest, hpath, hentry⟩
        cases rest with
        | nil => exact Or.inl ⟨by rw [hpath, List.append_nil], hentry⟩
        | cons key rest =>
            rw [entriesAt_cons] at hentry
            cases hchild : n.children.lookup key with
            | none => simp [hchild] at hentry
            | some child =>
                simp only [hchild, Option.map_some, Option.getD_some] at hentry
                have hkey : key ∈ n.children.keys := by
                  rw [mem_keys_iff, hchild, Option.isSome_some]
                refine Or.inr ⟨key, (o.perm path _).mem_iff.mpr hkey, ?_⟩
                rw [hchild, Option.map_some, Option.getD_some, ih key child hchild]
                exact ⟨rest, by rw [hpath, List.append_assoc, List.singleton_append], hentry⟩

/-- The references of a child lie below its key. -/
theorem path_of_mem_child {n : Node} {path : List UInt64} {key : UInt64} {x : List UInt64 × String}
    (hx : x ∈ (((n.children.lookup key).map fun child =>
      child.walk keep o (path ++ [key])).getD []).map Ref.key) :
    ∃ rest, x.1 = path ++ key :: rest := by
  obtain ⟨r, hr, rfl⟩ := List.mem_map.mp hx
  cases hchild : n.children.lookup key with
  | none => simp [hchild] at hr
  | some child =>
      simp only [hchild, Option.map_some, Option.getD_some] at hr
      obtain ⟨rest, hpath, -⟩ := mem_walk.mp hr
      exact ⟨rest, by rw [Ref.key, hpath, List.append_assoc, List.singleton_append]⟩

/-- **A walk collects no entry twice.** -/
theorem nodup_walk {n : Node} (hn : n.WellFormed) (path : List UInt64) :
    ((n.walk keep o path).map Ref.key).Nodup := by
  induction n using Node.induction generalizing path with
  | h n ih =>
      obtain ⟨hchildren, hentries⟩ := Node.wellFormed_iff.mp hn
      rw [walk_eq, List.map_append, List.map_flatMap, List.nodup_append, keys_ownRefs]
      refine ⟨?_, List.nodup_flatMap.mpr ⟨fun key _ => ?_, ?_⟩, ?_⟩
      · -- the backends of one node
        have hkept := hentries.sublist ((List.filter_sublist (p := keep)).map (·.backendID))
        have hpairs := hkept.map (f := fun id => (path, id)) fun a b h => (Prod.mk.inj h).2
        rwa [List.map_map] at hpairs
      · cases hchild : n.children.lookup key with
        | none => exact List.nodup_nil
        | some child => exact ih key child hchild (hchildren.lookup hchild) _
      · -- different children
        have hkeys : (o.visit path n.children.keys).Nodup :=
          (o.perm path _).nodup_iff.mpr hchildren.nodup_keys
        refine hkeys.imp fun {key key'} hne => ?_
        intro x hx hx'
        obtain ⟨rest, hpath⟩ := path_of_mem_child hx
        obtain ⟨rest', hpath'⟩ := path_of_mem_child hx'
        rw [hpath, List.append_cancel_left_eq, List.cons.injEq] at hpath'
        exact hne hpath'.1
      · -- a node and its children
        intro x hx y hy heq
        obtain ⟨key, -, hy⟩ := List.mem_flatMap.mp hy
        obtain ⟨rest, hpath⟩ := path_of_mem_child hy
        obtain ⟨e, -, rfl⟩ := List.mem_map.mp hx
        rw [← heq] at hpath
        simp at hpath

end KvRouter.RadixTree
