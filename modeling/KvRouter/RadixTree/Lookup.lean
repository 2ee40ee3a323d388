import KvRouter.RadixTree.FlatMap
import Mathlib.Data.Int.Cast.Lemmas
import Mathlib.Data.Set.Insert
import Mathlib.Order.Bounds.Basic

/-!
# KvRouter.RadixTree.Lookup

A lookup follows the query from the root and remembers the depth of the last
node that had an entry of each backend.  Nodes whose entries are gone are passed
like any other, and where the path ends no longer prefix is bound.
-/

namespace KvRouter.RadixTree

/-! ## The prefixes of a query -/

/-- The root is at depth zero. -/
theorem FlatMap.depths_nil (m : FlatMap) (id : String) :
    m.depths [] id = if (m.lookup ([], id)).isSome then {0} else ∅ := by
  ext k
  simp only [FlatMap.depths, List.length_nil, Nat.le_zero, Set.mem_ofPred_eq]
  rw [List.take_nil]
  split <;> simp_all

/-- One prefix more. -/
theorem FlatMap.depths_concat (m : FlatMap) (q : List UInt64) (h : UInt64) (id : String) :
    m.depths (q ++ [h]) id =
      if (m.lookup (q ++ [h], id)).isSome then insert (q.length + 1) (m.depths q id)
      else m.depths q id := by
  have hshort {k : ℕ} (hk : k ≤ q.length) : (q ++ [h]).take k = q.take k :=
    List.take_append_of_le_length hk
  have hwhole : (q ++ [h]).take (q.length + 1) = q ++ [h] := List.take_of_length_le (by simp)
  ext k
  simp only [FlatMap.depths, List.length_append, List.length_singleton, Set.mem_ofPred_eq]
  obtain hk | rfl | hk := lt_trichotomy k (q.length + 1)
  · have hle : k ≤ q.length := Nat.lt_succ_iff.mp hk
    rw [hshort hle]
    split <;> simp [hle, hk.ne, hk.le]
  · rw [hwhole]
    split <;> simp_all
  · have hnot : ¬k ≤ q.length := by omega
    split <;> simp [hnot, hk.ne', hk.not_ge]

/-- A node where no backend is bound. -/
theorem FlatMap.LooksUp.extend {m : FlatMap} {q : List UInt64} {result : GoMap String ℤ}
    (hresult : m.LooksUp q result) {rest : List UInt64}
    (hnone : ∀ k, q.length < k → ∀ id, m.lookup ((q ++ rest).take k, id) = none) :
    m.LooksUp (q ++ rest) result := by
  have hdepths (id : String) : m.depths (q ++ rest) id = m.depths q id := by
    ext k
    simp only [FlatMap.depths, List.length_append, Set.mem_ofPred_eq]
    by_cases hk : k ≤ q.length
    · rw [List.take_append_of_le_length hk]
      simp [hk, Nat.le_add_right_of_le hk]
    · rw [hnone k (not_le.mp hk)]
      simp [hk]
  exact ⟨fun id k => hdepths id ▸ hresult.greatest id k, fun id => hdepths id ▸ hresult.absent id⟩

/-- One node more, at which the backends in `ids` are bound. -/
theorem FlatMap.LooksUp.concat {m : FlatMap} {q : List UInt64} {result result' : GoMap String ℤ}
    (hresult : m.LooksUp q result) {h : UInt64}
    (hresult' : ∀ id, result'.lookup id =
      if (m.lookup (q ++ [h], id)).isSome then some (q.length + 1 : ℤ) else result.lookup id) :
    m.LooksUp (q ++ [h]) result' := by
  constructor
  case greatest =>
    intro id k
    rw [hresult', FlatMap.depths_concat]
    split
    · have hgreatest : IsGreatest (insert (q.length + 1) (m.depths q id)) (q.length + 1) :=
        ⟨Set.mem_insert _ _, fun n hn => hn.elim le_of_eq fun hn => Nat.le_succ_of_le hn.1⟩
      constructor
      · intro hk
        rw [Option.some.injEq] at hk
        exact ⟨q.length + 1, by rw [← hk]; rfl, hgreatest⟩
      · rintro ⟨n, rfl, hn⟩
        rw [hn.unique hgreatest]
        rfl
    · exact hresult.greatest id k
  case absent =>
    intro id
    rw [hresult', FlatMap.depths_concat]
    split
    · exact iff_of_false (Option.some_ne_none _) (Set.insert_nonempty _ _).ne_empty
    · exact hresult.absent id

/-! ## The loops -/

/-- An entry that is collected sets its backend to the depth. -/
theorem lookup_collect (depth : ℤ) (result : GoMap String ℤ) (e : CacheEntry) (id : String)
    (hlt : ∀ k, result.lookup id = some k → k ≤ depth) :
    (collect depth result e).lookup id =
      if e.backendID = id then some depth else result.lookup id := by
  unfold collect
  cases hcurrent : result.lookup e.backendID with
  | none => grind [GoMap.lookup_insert_eq]
  | some current => grind [GoMap.lookup_insert_eq]

/-- The loop over the entries of a node. -/
theorem lookup_foldl_collect (depth : ℤ) (entries : List CacheEntry) {result : GoMap String ℤ}
    {id : String} (hlt : ∀ k, result.lookup id = some k → k ≤ depth) :
    (entries.foldl (collect depth) result).lookup id =
      if (binding entries id).isSome then some depth else result.lookup id := by
  induction entries generalizing result with
  | nil => simp
  | cons e entries ih =>
      have hstep := lookup_collect depth result e id hlt
      rw [List.foldl_cons, ih (by grind), hstep, binding_cons]
      grind

/-- The entries of the root set their backends to zero. -/
theorem lookup_foldl_root (entries : List CacheEntry) (result : GoMap String ℤ) (id : String) :
    (entries.foldl (fun result e => result.insert e.backendID 0) result).lookup id =
      if (binding entries id).isSome then some 0 else result.lookup id := by
  induction entries generalizing result with
  | nil => simp
  | cons e entries ih =>
      rw [List.foldl_cons, ih, GoMap.lookup_insert_eq, binding_cons]
      grind

/-! ## The descent -/

/-- A path is followed part after part. -/
theorem find_append (n : Node) (path path' : List UInt64) :
    n.find (path ++ path') = (n.find path).bind fun node => node.find path' := by
  induction path generalizing n with
  | nil => rfl
  | cons h hashes ih =>
      rw [List.cons_append, Node.find, Node.find]
      cases n.children.lookup h with
      | none => rfl
      | some child => exact ih child

/-- The descent from a node, when the result is right for the path to it. -/
theorem looksUp_lookupFrom (t : Tree) {node : Node} {q hashes : List UInt64}
    {result : GoMap String ℤ} (hnode : t.root.find q = some node)
    (hresult : t.flat.LooksUp q result) :
    t.flat.LooksUp (q ++ hashes) (lookupFrom node q.length result hashes) := by
  induction hashes generalizing node q result with
  | nil => rwa [List.append_nil]
  | cons h hashes ih =>
      have hstep (rest : List UInt64) : t.root.find (q ++ h :: rest) =
          (node.children.lookup h).bind fun child => child.find rest := by
        rw [find_append, hnode, Option.bind_some, Node.find]
        cases node.children.lookup h <;> rfl
      unfold lookupFrom
      split
      · next hnone =>
          -- every longer prefix lies below the missing child
          refine hresult.extend fun k hk id => ?_
          obtain ⟨j, rfl⟩ := Nat.exists_eq_add_of_lt hk
          have hprefix : (q ++ h :: hashes).take (q.length + j + 1) = q ++ h :: hashes.take j := by
            rw [Nat.add_assoc, List.take_length_add_append, List.take_succ_cons]
          rw [lookup_flat, hprefix, Node.entriesAt, hstep, hnone]
          rfl
      · next child hchild =>
          have hfind : t.root.find (q ++ [h]) = some child := by
            rw [hstep, hchild]
            rfl
          have hle : ∀ id k, result.lookup id = some k → k ≤ (q.length + 1 : ℤ) := by
            intro id k hk
            obtain ⟨n, rfl, hn, -⟩ := (hresult.greatest id k).mp hk
            have hlen := hn.1
            omega
          have hnext := hresult.concat (h := h) fun id => by
            rw [lookup_foldl_collect _ child.entries (hle id), lookup_flat, Node.entriesAt, hfind,
              Option.map_some, Option.getD_some]
          have hrest := ih hfind hnext
          rwa [List.append_assoc, List.singleton_append, List.length_append,
            List.length_singleton, Nat.cast_add, Nat.cast_one] at hrest

/-- **A lookup finds the longest bound prefix for each backend.** -/
theorem looksUp_lookup (t : Tree) (q : List UInt64) : t.flat.LooksUp q (t.lookup q) := by
  have hroot (id : String) :
      (t.root.entries.foldl (fun result e => result.insert e.backendID 0)
        (∅ : GoMap String ℤ)).lookup id =
        if (t.flat.lookup ([], id)).isSome then some 0 else none := by
    rw [lookup_foldl_root, lookup_flat, entriesAt_nil, Finmap.lookup_empty]
  have hnode : t.root.find [] = some t.root := rfl
  refine looksUp_lookupFrom t hnode ⟨fun id k => ?_, fun id => ?_⟩
  · rw [hroot, FlatMap.depths_nil]
    split
    · have hzero (n : ℕ) : IsGreatest {0} n ↔ n = 0 :=
        ⟨fun hn => hn.1, fun hn => hn ▸ isGreatest_singleton⟩
      simp [hzero, eq_comm]
    · simp [IsGreatest]
  · rw [hroot, FlatMap.depths_nil]
    split <;> simp

end KvRouter.RadixTree
