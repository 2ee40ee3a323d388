import KvRouter.CacheIndex
import Mathlib.Data.Multiset.Bind

/-!
# KvRouter.CacheIndex.Evict

The two-level map of a backend read as one map from (namespace, key) pairs:
`find` is its lookup and `residents` its domain, of `totalEntries` many pairs.
Each operation is described by what it does to `find`:

* `find_insert` — storing a namespace, as touching a key does (`find_touchKey` in
  `KvRouter.CacheIndex.Lru`);
* `find_deleteKey` — deleting one, with or without its namespace;
* `evictOldest_spec` — one eviction deletes a resident pair whose stamp is
  least, whatever order the two maps are enumerated in;
* `evictLoop_done` — the eviction loop ends, with the capacity respected.
-/

namespace KvRouter.CacheIndex

/-! ## Entries by pair -/

/-- A key within its namespace. -/
abbrev Pair := String × UInt64

def find (b : BackendCache) (p : Pair) : Option Entry :=
  (b.entries.lookup p.1).bind fun entries => entries.lookup p.2

/-- The pairs retained for a backend. -/
def Retained (b : BackendCache) (p : Pair) : Prop := (find b p).isSome

instance (b : BackendCache) (p : Pair) : Decidable (Retained b p) :=
  inferInstanceAs (Decidable (_ = true))

theorem find_eq_some_iff {b : BackendCache} {ns : String} {key : UInt64} {e : Entry} :
    find b (ns, key) = some e ↔
      ∃ entries, b.entries.lookup ns = some entries ∧ entries.lookup key = some e := by
  simp [find, Option.bind_eq_some_iff]

/-- Storing a bucket replaces the entries of its namespace. -/
theorem find_insert (b : BackendCache) (ns : String) (entries : Bucket) (p : Pair) :
    find { b with entries := b.entries.insert ns entries } p =
      if p.1 = ns then entries.lookup p.2 else find b p := by
  simp only [find, GoMap.lookup_insert_eq]
  split <;> rfl

theorem lookup_getD_eq_find (b : BackendCache) (ns : String) (key : UInt64) :
    ((b.entries.lookup ns).getD ∅).lookup key = find b (ns, key) := by
  cases h : b.entries.lookup ns with
  | none => simp [find, h, Finmap.lookup_empty]
  | some entries => simp [find, h]

/-- All retained pairs; `totalEntries` counts them. -/
def residents (b : BackendCache) : Multiset Pair :=
  b.entries.entries.bind fun s => s.2.entries.map fun t => (s.1, t.1)

/-- There are as many resident pairs as entries. -/
theorem card_residents (b : BackendCache) : Multiset.card (residents b) = totalEntries b := by
  simp [residents, totalEntries, GoMap.len, Multiset.card_bind]

/-- The resident pairs are those retained. -/
theorem mem_residents {b : BackendCache} {p : Pair} : p ∈ residents b ↔ Retained b p := by
  obtain ⟨ns, key⟩ := p
  simp only [residents, Multiset.mem_bind, Multiset.mem_map, Retained, Option.isSome_iff_exists,
    find_eq_some_iff]
  constructor
  · rintro ⟨⟨ns', entries⟩, hs, ⟨key', e⟩, ht, heq⟩
    obtain ⟨rfl, rfl⟩ := Prod.mk.inj heq
    exact ⟨e, entries, Finmap.lookup_eq_some_iff.mpr hs, Finmap.lookup_eq_some_iff.mpr ht⟩
  · rintro ⟨e, entries, hs, ht⟩
    exact ⟨⟨ns, entries⟩, Finmap.lookup_eq_some_iff.mp hs, ⟨key, e⟩,
      Finmap.lookup_eq_some_iff.mp ht, rfl⟩

/-- No pair is resident twice. -/
theorem nodup_residents (b : BackendCache) : (residents b).Nodup := by
  have hinner (s : Σ _ : String, Bucket) : (s.2.entries.map fun t => (s.1, t.1)).Nodup := by
    have hkeys : (s.2.entries.map Sigma.fst).Nodup := Multiset.nodup_keys.mpr s.2.nodupKeys
    have hmap := Multiset.Nodup.map (Prod.mk_right_injective s.1) hkeys
    rwa [Multiset.map_map] at hmap
  have houter := (default : GoMap.RangeOrder String Bucket).nodup_keys_visit b.entries
  rw [residents, Multiset.nodup_bind]
  refine ⟨fun s _ => hinner s, _, (GoMap.RangeOrder.coe_visit default b.entries).symm, ?_⟩
  refine (List.pairwise_map.mp houter).imp fun {s t} hst => ?_
  rw [Function.onFun, Multiset.disjoint_left]
  intro p hs ht
  obtain ⟨x, -, rfl⟩ := Multiset.mem_map.mp hs
  obtain ⟨y, -, hy⟩ := Multiset.mem_map.mp ht
  exact hst (congrArg Prod.fst hy).symm

/-- A duplicate-free list of the retained pairs has `totalEntries` elements. -/
theorem totalEntries_eq_length {b : BackendCache} {L : List Pair} (hnodup : L.Nodup)
    (hmem : ∀ p, p ∈ L ↔ Retained b p) : totalEntries b = L.length := by
  have hL : (L : Multiset Pair) = residents b := by
    refine (Multiset.Nodup.ext (Multiset.coe_nodup.mpr hnodup) (nodup_residents b)).mpr ?_
    intro p
    rw [Multiset.mem_coe, hmem, mem_residents]
  rw [← card_residents, ← hL, Multiset.coe_card]

theorem totalEntries_pos_iff {b : BackendCache} : 0 < totalEntries b ↔ ∃ p, Retained b p := by
  rw [← card_residents, Multiset.card_pos_iff_exists_mem]
  exact exists_congr fun p => mem_residents

/-! ## Deleting a key -/

/-- **Deleting a key** removes that pair and no other. -/
theorem find_deleteKey (b : BackendCache) (ns : String) (key : UInt64) (p : Pair) :
    find (deleteKey b ns key) p = if p = (ns, key) then none else find b p := by
  obtain ⟨ns', key'⟩ := p
  simp only [deleteKey, Prod.mk.injEq]
  split
  · next hlen =>
      have hnone := GoMap.len_eq_zero_iff.mp hlen key'
      rw [GoMap.lookup_erase_eq, lookup_getD_eq_find] at hnone
      simp only [find, GoMap.lookup_erase_eq]
      by_cases hns : ns' = ns
      · subst hns
        by_cases hkey : key' = key
        · simp [hkey]
        · rw [if_neg hkey] at hnone
          simpa [hkey, find] using hnone.symm
      · simp [hns]
  · simp only [find_insert, GoMap.lookup_erase_eq, lookup_getD_eq_find]
    by_cases hns : ns' = ns
    · subst hns
      simp
    · simp [hns]

theorem capacity_deleteKey (b : BackendCache) (ns : String) (key : UInt64) :
    (deleteKey b ns key).capacity = b.capacity := by
  simp only [deleteKey]
  split <;> rfl

/-- Deleting a retained pair leaves one entry less. -/
theorem totalEntries_deleteKey {b : BackendCache} {ns : String} {key : UInt64}
    (h : Retained b (ns, key)) : totalEntries (deleteKey b ns key) + 1 = totalEntries b := by
  have hres : residents (deleteKey b ns key) = (residents b).erase (ns, key) := by
    refine (Multiset.Nodup.ext (nodup_residents _) ((nodup_residents b).erase _)).mpr ?_
    intro p
    rw [mem_residents, (nodup_residents b).mem_erase_iff, mem_residents, Retained, Retained,
      find_deleteKey]
    by_cases hp : p = (ns, key) <;> simp [hp]
  rw [← card_residents, ← card_residents, hres,
    Multiset.card_erase_add_one (mem_residents.mpr h)]

/-! ## The scan for the oldest entry -/

/-- No later than `f` in the order of the scan: by `lastSeen`, then by `sequence`. -/
def Entry.NoLater (e f : Entry) : Prop :=
  e.lastSeen.time < f.lastSeen.time ∨
    (e.lastSeen.time = f.lastSeen.time ∧ e.sequence ≤ f.sequence)

/-- Being no later is transitive. -/
theorem Entry.NoLater.trans {e f g : Entry} (hef : e.NoLater f) (hfg : f.NoLater g) :
    e.NoLater g := by
  unfold Entry.NoLater at *
  rw [UInt64.le_iff_toNat_le] at *
  omega

/-- The scan variables hold the entry `e` at pair `p`. -/
def Victim.Is (v : Victim) (p : Pair) (e : Entry) : Prop :=
  v.oldNS = p.1 ∧ v.oldKey = p.2 ∧ v.oldest = e.lastSeen.time ∧ v.sequence = e.sequence

/-- The entries the nested loops visit, in order. -/
def visited (o : ScanOrder) (b : BackendCache) : List (Pair × Entry) :=
  (o.namespaces.visit b.entries).flatMap fun s =>
    ((o.keys s.1).visit s.2).map fun x => ((s.1, x.1), x.2)

/-- The scan visits the retained pairs with their entries. -/
theorem mem_visited {o : ScanOrder} {b : BackendCache} {p : Pair} {e : Entry} :
    (p, e) ∈ visited o b ↔ find b p = some e := by
  obtain ⟨ns, key⟩ := p
  simp only [visited, List.mem_flatMap, List.mem_map, find_eq_some_iff]
  constructor
  · rintro ⟨⟨ns', entries⟩, hs, ⟨key', e'⟩, ht, heq⟩
    obtain ⟨hp, rfl⟩ := Prod.mk.inj heq
    obtain ⟨rfl, rfl⟩ := Prod.mk.inj hp
    exact ⟨entries, o.namespaces.mem_visit.mp hs, (o.keys ns').mem_visit.mp ht⟩
  · rintro ⟨entries, hs, ht⟩
    exact ⟨⟨ns, entries⟩, o.namespaces.mem_visit.mpr hs, ⟨key, e⟩,
      (o.keys ns).mem_visit.mpr ht, rfl⟩

/-- The two nested loops of the scan are one loop over the pairs visited. -/
theorem scan_eq_foldl (o : ScanOrder) (b : BackendCache) :
    scan o b = (visited o b).foldl (fun v x => scanEntry x.1.1 v ⟨x.1.2, x.2⟩) ⟨"", 0, 0, 0⟩ := by
  simp [scan, visited, List.foldl_flatMap, List.foldl_map]

/-- One step of the scan keeps the older of the two entries. -/
theorem scanEntry_is {v : Victim} {p : Pair} {e : Entry} (hv : v.Is p e) (q : Pair) (f : Entry) :
    ((scanEntry q.1 v ⟨q.2, f⟩).Is q f ∧ f.NoLater e) ∨
      (scanEntry q.1 v ⟨q.2, f⟩ = v ∧ e.NoLater f) := by
  obtain ⟨-, -, htime, hseq⟩ := hv
  unfold scanEntry Entry.NoLater
  rw [htime, hseq, UInt64.le_iff_toNat_le, UInt64.le_iff_toNat_le]
  have hne := e.lastSeen.ne_zero
  split
  · next h =>
      refine Or.inl ⟨⟨rfl, rfl, rfl, rfl⟩, ?_⟩
      simp only [UInt64.lt_iff_toNat_lt] at h
      omega
  · next h =>
      refine Or.inr ⟨rfl, ?_⟩
      simp only [UInt64.lt_iff_toNat_lt] at h
      omega

/-- The scan from an entry ends at one no later than all it started from or visited. -/
theorem foldl_scanEntry (xs : List (Pair × Entry)) {v : Victim} {p : Pair} {e : Entry}
    (hv : v.Is p e) :
    ∃ q f, (q, f) ∈ (p, e) :: xs ∧ (∀ x ∈ (p, e) :: xs, f.NoLater x.2) ∧
      (xs.foldl (fun v x => scanEntry x.1.1 v ⟨x.1.2, x.2⟩) v).Is q f := by
  induction xs generalizing v p e with
  | nil =>
      refine ⟨p, e, List.mem_cons_self, ?_, hv⟩
      intro x hx
      rw [List.mem_singleton] at hx
      subst hx
      exact Or.inr ⟨rfl, UInt64.le_refl _⟩
  | cons y ys ih =>
      rw [List.foldl_cons]
      obtain ⟨hy, hle⟩ | ⟨hy, hle⟩ := scanEntry_is hv y.1 y.2
      · obtain ⟨q, f, hmem, hmin, hq⟩ := ih hy
        refine ⟨q, f, List.mem_cons_of_mem _ hmem, ?_, hq⟩
        rw [List.forall_mem_cons]
        exact ⟨(hmin _ List.mem_cons_self).trans hle, hmin⟩
      · rw [hy]
        obtain ⟨q, f, hmem, hmin, hq⟩ := ih hv
        rw [List.forall_mem_cons] at hmin
        refine ⟨q, f, ?_, ?_, hq⟩
        · rw [List.mem_cons] at hmem ⊢
          exact hmem.imp_right (List.mem_cons_of_mem _)
        · simp only [List.forall_mem_cons]
          exact ⟨hmin.1, hmin.1.trans hle, hmin.2⟩

/-- **One eviction**: from a non-empty backend, whatever the enumeration order,
exactly one retained pair is deleted, and its entry is no later than any other. -/
theorem evictOldest_spec (o : ScanOrder) {b : BackendCache} (hpos : 0 < totalEntries b) :
    ∃ p e, find b p = some e ∧ (∀ q f, find b q = some f → e.NoLater f) ∧
      evictOldest o b = deleteKey b p.1 p.2 := by
  obtain ⟨r, hr⟩ := totalEntries_pos_iff.mp hpos
  obtain ⟨g, hg⟩ := Option.isSome_iff_exists.mp hr
  have hne : visited o b ≠ [] := List.ne_nil_of_mem (mem_visited.mpr hg)
  obtain ⟨⟨p₀, e₀⟩, xs, hxs⟩ := List.exists_cons_of_ne_nil hne
  have hfirst : (scanEntry p₀.1 ⟨"", 0, 0, 0⟩ ⟨p₀.2, e₀⟩).Is p₀ e₀ := by
    simp [scanEntry, Victim.Is]
  obtain ⟨p, e, hmem, hmin, hns, hkey, htime, -⟩ := foldl_scanEntry xs hfirst
  rw [← hxs] at hmem hmin
  refine ⟨p, e, mem_visited.mp hmem, fun q f hq => hmin (q, f) (mem_visited.mpr hq), ?_⟩
  have hscan : scan o b = xs.foldl (fun v x => scanEntry x.1.1 v ⟨x.1.2, x.2⟩)
      (scanEntry p₀.1 ⟨"", 0, 0, 0⟩ ⟨p₀.2, e₀⟩) := by
    rw [scan_eq_foldl, hxs, List.foldl_cons]
  have hzero : (scan o b).oldest ≠ 0 := by
    rw [hscan, htime]
    exact e.lastSeen.ne_zero
  rw [evictOldest]
  simp only [if_neg hzero]
  rw [hscan, hns, hkey]

/-! ## The eviction loop -/

theorem capacity_evictOldest (o : ScanOrder) (b : BackendCache) :
    (evictOldest o b).capacity = b.capacity := by
  unfold evictOldest
  simp only []
  split
  · rfl
  · exact capacity_deleteKey _ _ _

/-- An eviction leaves one entry less. -/
theorem totalEntries_evictOldest (o : ScanOrder) {b : BackendCache} (hpos : 0 < totalEntries b) :
    totalEntries (evictOldest o b) + 1 = totalEntries b := by
  obtain ⟨p, e, hp, -, heq⟩ := evictOldest_spec o hpos
  rw [heq]
  exact totalEntries_deleteKey (Option.isSome_iff_exists.mpr ⟨e, hp⟩)

/-- An eviction adds nothing. -/
theorem retained_of_evictOldest {o : ScanOrder} {b : BackendCache} {p : Pair}
    (h : Retained (evictOldest o b) p) : Retained b p := by
  unfold evictOldest at h
  simp only [] at h
  split at h
  · exact h
  · rw [Retained, find_deleteKey] at h
    split at h
    · simp at h
    · exact h

theorem capacity_evictLoop (orders : ℕ → ScanOrder) (fuel : ℕ) (b : BackendCache) :
    (evictLoop orders fuel b).2.capacity = b.capacity := by
  induction fuel generalizing orders b with
  | zero => rfl
  | succ fuel ih =>
      simp only [evictLoop]
      split
      · rw [ih, capacity_evictOldest]
      · rfl

/-- The eviction loop adds nothing. -/
theorem retained_of_evictLoop {orders : ℕ → ScanOrder} {fuel : ℕ} {b : BackendCache} {p : Pair}
    (h : Retained (evictLoop orders fuel b).2 p) : Retained b p := by
  induction fuel generalizing orders b with
  | zero => exact h
  | succ fuel ih =>
      simp only [evictLoop] at h
      split at h
      · exact retained_of_evictOldest (ih h)
      · exact h

/-- **The eviction loop ends**: with a non-negative capacity, enough fuel for
the surplus makes exactly one eviction for each entry above the capacity. -/
theorem evictLoop_done (orders : ℕ → ScanOrder) {fuel : ℕ} {b : BackendCache}
    (hcap : 0 ≤ b.capacity) (hfuel : totalEntries b - b.capacity.toNat ≤ fuel) :
    (evictLoop orders fuel b).1 = totalEntries b - b.capacity.toNat ∧
      totalEntries (evictLoop orders fuel b).2 = min (totalEntries b) b.capacity.toNat := by
  induction fuel generalizing orders b with
  | zero =>
      simp only [evictLoop]
      omega
  | succ fuel ih =>
      simp only [evictLoop]
      split
      · next hlt =>
          have hstep := totalEntries_evictOldest (orders 0) (b := b) (by omega)
          have hcap' := capacity_evictOldest (orders 0) b
          have hrest := ih (fun n => orders (n + 1)) (b := evictOldest (orders 0) b)
            (by rw [hcap']; exact hcap) (by rw [hcap']; omega)
          rw [hcap'] at hrest
          dsimp only
          omega
      · dsimp only
        omega

/-- Fuel beyond the surplus changes nothing. -/
theorem evictLoop_fuel (orders : ℕ → ScanOrder) {fuel : ℕ} {b : BackendCache}
    (hcap : 0 ≤ b.capacity) (hfuel : totalEntries b - b.capacity.toNat ≤ fuel) :
    evictLoop orders fuel b = evictLoop orders (totalEntries b - b.capacity.toNat) b := by
  induction fuel generalizing orders b with
  | zero => rw [Nat.le_zero.mp hfuel]
  | succ fuel ih =>
      by_cases hlt : b.capacity < totalEntries b
      · have hstep := totalEntries_evictOldest (orders 0) (b := b) (by omega)
        have hcap' := capacity_evictOldest (orders 0) b
        have hrest := ih (fun n => orders (n + 1)) (b := evictOldest (orders 0) b)
          (by rw [hcap']; exact hcap) (by rw [hcap']; omega)
        have hsurplus : totalEntries b - b.capacity.toNat =
            totalEntries (evictOldest (orders 0) b) - b.capacity.toNat + 1 := by omega
        rw [hcap'] at hrest
        rw [hsurplus]
        simp only [evictLoop, if_pos hlt]
        rw [hrest]
      · have hsurplus : totalEntries b - b.capacity.toNat = 0 := by omega
        rw [hsurplus]
        simp only [evictLoop, if_neg hlt]

/-- What fits stays. -/
theorem evictLoop_of_le (orders : ℕ → ScanOrder) (fuel : ℕ) {b : BackendCache}
    (h : (totalEntries b : ℤ) ≤ b.capacity) : evictLoop orders fuel b = (0, b) := by
  cases fuel with
  | zero => rfl
  | succ fuel => simp only [evictLoop, if_neg (Int.not_lt.mpr h)]

end KvRouter.CacheIndex
