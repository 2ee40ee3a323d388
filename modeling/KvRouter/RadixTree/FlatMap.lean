import KvRouter.RadixTree.Walk

/-!
# KvRouter.RadixTree.FlatMap

What the prefix tree is for: a finite map from a prefix and a backend to the
time of its last access and its number of hits.  `Step` says what each call may
do to the map, and `LooksUp` what a lookup finds in it; neither knows of nodes.

`Tree.flat` is the map of the entries of a tree.
-/

namespace KvRouter.RadixTree

/-! ## The map -/

/-- The bindings of prefixes to backends, with `LastAccess` and `HitCount`. -/
abbrev FlatMap := GoMap (List UInt64 × String) (ℤ × Int64)

/-- Create a binding, or refresh it. -/
def FlatMap.record (m : FlatMap) (hashes : List UInt64) (backendID : String) (now : ℤ) : FlatMap :=
  m.insert (hashes, backendID)
    (now, ((m.lookup (hashes, backendID)).map fun x => x.2 + 1).getD 1)

/-- Refresh a binding, if there is one. -/
def FlatMap.refresh (m : FlatMap) (hashes : List UInt64) (backendID : String) (now : ℤ) :
    FlatMap :=
  match m.lookup (hashes, backendID) with
  | none => m
  | some x => m.insert (hashes, backendID) (now, x.2 + 1)

/-- The keys of the bindings of a backend. -/
def FlatMap.bindings (m : FlatMap) (backendID : String) : Finset (List UInt64 × String) :=
  m.keys.filter fun key => key.2 = backendID

/-- An eviction of `n` bindings of a backend removes those at the prefixes in `removed`. -/
structure FlatMap.Evicts (m : FlatMap) (backendID : String) (n : ℕ)
    (removed : Finset (List UInt64)) (m' : FlatMap) : Prop where
  bound : ∀ p ∈ removed, (m.lookup (p, backendID)).isSome
  card : removed.card = min n (m.bindings backendID).card
  /-- No removed binding was accessed later than one that is kept. -/
  oldest : ∀ p ∈ removed, ∀ q, q ∉ removed → ∀ x y, m.lookup (p, backendID) = some x →
    m.lookup (q, backendID) = some y → x.1 ≤ y.1
  lookup : ∀ p id, m'.lookup (p, id) =
    if id = backendID ∧ p ∈ removed then none else m.lookup (p, id)

/-- What a call may make of the map. -/
def FlatMap.Step (m : FlatMap) : Op → FlatMap → Prop
  | .insert hashes backendID now, m' => m' = m.record hashes backendID now
  | .touch hashes backendID now, m' => m' = m.refresh hashes backendID now
  | .evict backendID count _ _, m' =>
      if count ≤ 0 then m' = m else ∃ removed, m.Evicts backendID count.toNat removed m'

/-- The lengths of the prefixes of `q` to which a backend is bound. -/
def FlatMap.depths (m : FlatMap) (q : List UInt64) (backendID : String) : Set ℕ :=
  {k | k ≤ q.length ∧ (m.lookup (q.take k, backendID)).isSome}

/-- The result of a lookup: the greatest depth of each backend that has one. -/
structure FlatMap.LooksUp (m : FlatMap) (q : List UInt64) (result : GoMap String ℤ) : Prop where
  greatest : ∀ id k, result.lookup id = some k ↔ ∃ n : ℕ, k = n ∧ IsGreatest (m.depths q id) n
  absent : ∀ id, result.lookup id = none ↔ m.depths q id = ∅

/-! ## The map of a tree -/

def CacheEntry.value (e : CacheEntry) : ℤ × Int64 := (e.lastAccess, e.hitCount)

/-- The bindings of a tree, one for each of its entries. -/
def Tree.flat (t : Tree) : FlatMap :=
  ((t.root.walk (fun _ => true) .stored []).map fun r =>
    (⟨r.key, r.entry.value⟩ : Σ _ : List UInt64 × String, ℤ × Int64)).toFinmap

/-- What the entries of a node bind a backend to. -/
def binding (entries : List CacheEntry) (backendID : String) : Option (ℤ × Int64) :=
  (entries.find? fun e => e.backendID = backendID).map CacheEntry.value

@[simp] theorem binding_nil (backendID : String) : binding [] backendID = none := rfl

theorem binding_cons (e : CacheEntry) (entries : List CacheEntry) (backendID : String) :
    binding (e :: entries) backendID =
      if e.backendID = backendID then some e.value else binding entries backendID := by
  by_cases h : e.backendID = backendID <;> simp [binding, h]

/-- A backend is bound to the value of its entry. -/
theorem binding_eq_some_iff {entries : List CacheEntry}
    (hentries : (entries.map (·.backendID)).Nodup) {backendID : String} {x : ℤ × Int64} :
    binding entries backendID = some x ↔
      ∃ e ∈ entries, e.backendID = backendID ∧ e.value = x := by
  induction entries with
  | nil => simp
  | cons e entries ih =>
      rw [List.map_cons, List.nodup_cons] at hentries
      rw [binding_cons, List.exists_mem_cons_iff]
      split
      · next heq =>
          subst heq
          have hrest : ¬∃ e' ∈ entries, e'.backendID = e.backendID ∧ e'.value = x :=
            fun ⟨e', hmem, hid, _⟩ => hentries.1 (hid ▸ List.mem_map_of_mem hmem)
          rw [or_iff_left hrest, Option.some.injEq, and_iff_right rfl]
      · next hne => rw [ih hentries.2, or_iff_right fun h => hne h.1]

/-- A backend is bound where it has an entry. -/
theorem isSome_binding {entries : List CacheEntry} {backendID : String} :
    (binding entries backendID).isSome ↔ backendID ∈ entries.map (·.backendID) := by
  induction entries with
  | nil => simp
  | cons e entries ih => grind [binding_cons]

/-- A refreshed entry has a new time and one more hit. -/
theorem binding_refresh {backendID : String} {now : ℤ} {entries entries' : List CacheEntry}
    (h : refresh backendID now entries = some entries') (id : String) :
    binding entries' id =
      if id = backendID then (binding entries id).map fun x => (now, x.2 + 1)
      else binding entries id := by
  induction entries generalizing entries' with
  | nil => contradiction
  | cons e entries ih =>
      rw [refresh] at h
      split at h
      · next heq =>
          rw [Option.some.injEq] at h
          subst h
          grind [binding_cons, CacheEntry.value]
      · next hne =>
          obtain ⟨rest, hrest, rfl⟩ := Option.map_eq_some_iff.mp h
          grind [binding_cons]

/-- An appended entry is found if its backend had none. -/
theorem binding_concat (entries : List CacheEntry) (e : CacheEntry) (id : String) :
    binding (entries ++ [e]) id =
      (binding entries id).or (if e.backendID = id then some e.value else none) := by
  induction entries with
  | nil => simp [binding_cons]
  | cons e' entries ih => grind [binding_cons]

/-- Removing an entry by its index removes the binding of its backend. -/
theorem binding_eraseIdx {entries : List CacheEntry}
    (hentries : (entries.map (·.backendID)).Nodup) {i : ℕ} {e : CacheEntry}
    (he : entries[i]? = some e) (id : String) :
    binding (entries.eraseIdx i) id = if id = e.backendID then none else binding entries id := by
  induction entries generalizing i with
  | nil => simp at he
  | cons e' entries ih =>
      rw [List.map_cons, List.nodup_cons] at hentries
      cases i with
      | zero =>
          rw [List.getElem?_cons_zero, Option.some.injEq] at he
          subst he
          have hrest : binding entries e'.backendID = none := by
            rw [← Option.not_isSome_iff_eq_none, isSome_binding]
            exact hentries.1
          rw [List.eraseIdx_cons_zero, binding_cons]
          grind
      | succ i =>
          rw [List.getElem?_cons_succ] at he
          have hmem : e.backendID ∈ entries.map (·.backendID) :=
            List.mem_map_of_mem (List.mem_of_getElem? he)
          rw [List.eraseIdx_cons_succ, binding_cons, binding_cons, ih hentries.2 he]
          grind

/-- **The map of a tree has the entries of its nodes.** -/
theorem lookup_flat (t : Tree) (path : List UInt64) (backendID : String) :
    t.flat.lookup (path, backendID) = binding (t.root.entriesAt path) backendID := by
  have hkeys : (((t.root.walk (fun _ => true) .stored []).map fun r =>
      (⟨r.key, r.entry.value⟩ : Σ _ : List UInt64 × String, ℤ × Int64))).NodupKeys := by
    rw [List.NodupKeys, List.keys, List.map_map]
    exact nodup_walk t.wellFormed []
  ext x
  rw [Tree.flat, Finmap.dlookup_list_toFinmap, ← Option.mem_def, List.mem_dlookup_iff hkeys,
    binding_eq_some_iff (t.wellFormed.nodup_entriesAt path), List.mem_map]
  constructor
  · rintro ⟨r, hr, heq⟩
    obtain ⟨rest, hpath, hentry, -⟩ := mem_walk.mp hr
    simp only [Sigma.mk.injEq, Ref.key, Prod.mk.injEq, heq_eq_eq] at heq
    obtain ⟨⟨hpath', hid⟩, hvalue⟩ := heq
    rw [List.nil_append, hpath'] at hpath
    subst hpath
    exact ⟨r.entry, List.mem_of_getElem? hentry, hid, hvalue⟩
  · rintro ⟨e, he, hid, hvalue⟩
    obtain ⟨i, hi⟩ := List.mem_iff_getElem?.mp he
    refine ⟨⟨path, i, e⟩, mem_walk.mpr ⟨path, rfl, hi, rfl⟩, ?_⟩
    rw [Ref.key, hid, hvalue]

end KvRouter.RadixTree
