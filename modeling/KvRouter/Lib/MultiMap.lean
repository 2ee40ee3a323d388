import KvRouter.Lib.GoMap
import KvRouter.Lib.Sorting

/-!
# Maps with several values for a key

A Go map of slices, filled pair by pair and read key by key.

* `pairs_addAll` — the pairs of such a map, in the order of its keys;
* `addAll_pairs` — they fill the same map again.
-/

namespace GoMap

variable {α β : Type*} [DecidableEq α]

/-- The values of a key, none without it. -/
def values (m : GoMap α (List β)) (k : α) : List β := (m.lookup k).getD []

/-- `m[k] = append(m[k], x)`. -/
def add (m : GoMap α (List β)) (k : α) (x : β) : GoMap α (List β) := m.insert k (values m k ++ [x])

def addAll (m : GoMap α (List β)) (l : List (α × β)) : GoMap α (List β) :=
  l.foldl (fun m p => add m p.1 p.2) m

/-- The pairs of some keys. -/
def pairs (m : GoMap α (List β)) (ks : List α) : List (α × β) :=
  ks.flatMap fun k => (values m k).map (k, ·)

theorem lookup_add (m : GoMap α (List β)) (k k' : α) (x : β) :
    (add m k x).lookup k' = if k' = k then some (values m k ++ [x]) else m.lookup k' :=
  lookup_insert_eq m k k' _

/-- The values that some pairs have for a key. -/
def valuesOf (l : List (α × β)) (k : α) : List β := (l.filter (·.1 = k)).map (·.2)

/-- Adding a list appends to each key its values. -/
theorem lookup_addAll (m : GoMap α (List β)) (l : List (α × β)) (k : α) :
    (addAll m l).lookup k =
      if valuesOf l k = [] then m.lookup k else some (values m k ++ valuesOf l k) := by
  induction l generalizing m with
  | nil => rfl
  | cons p l ih =>
      have hrest := ih (add m p.1 p.2)
      have hstep : addAll m (p :: l) = addAll (add m p.1 p.2) l := rfl
      rw [hstep, hrest, lookup_add]
      by_cases hk : k = p.1
      · subst hk
        have hcons : valuesOf (p :: l) p.1 = p.2 :: valuesOf l p.1 := by simp [valuesOf]
        have hvalues : values (add m p.1 p.2) p.1 = values m p.1 ++ [p.2] := by
          simp [values, lookup_add]
        cases hl : valuesOf l p.1 <;> simp [hcons, hl, hvalues]
      · have hcons : valuesOf (p :: l) k = valuesOf l k := by simp [valuesOf, Ne.symm hk]
        have hvalues : values (add m p.1 p.2) k = values m k := by simp [values, lookup_add, hk]
        simp [hcons, hvalues, hk]

@[simp] theorem values_addAll (l : List (α × β)) (k : α) :
    values (addAll ∅ l) k = valuesOf l k := by
  rw [values, lookup_addAll]
  split
  · next hnil => simp [hnil]
  · simp [values]

/-- The order of the pairs matters for each key alone. -/
theorem addAll_congr {l l' : List (α × β)} (h : ∀ k, valuesOf l k = valuesOf l' k) :
    addAll ∅ l = addAll ∅ l' :=
  Finmap.ext_lookup fun k => by rw [lookup_addAll, lookup_addAll, h]

/-- The pairs of a map made from a list, key after key. -/
theorem pairs_addAll (l : List (α × β)) (ks : List α) :
    pairs (addAll ∅ l) ks = ks.flatMap fun k => l.filter (·.1 = k) := by
  refine List.flatMap_congr fun k _ => ?_
  rw [values_addAll, valuesOf, List.map_map]
  refine (List.map_congr_left fun p hp => ?_).trans (List.map_id _)
  have hk : p.1 = k := by simpa using List.of_mem_filter hp
  simp [← hk]

/-- The pairs of a map, as many as it was filled with. -/
theorem perm_pairs {l : List (α × β)} {ks : List α} (hks : ks.Nodup) (hl : ∀ p ∈ l, p.1 ∈ ks) :
    (pairs (addAll ∅ l) ks).Perm l := by
  rw [pairs_addAll]
  exact Sorting.perm_flatMap_filter hks hl

/-- **The pairs of a map fill the same map again.** -/
theorem addAll_pairs {l : List (α × β)} {ks : List α} (hks : ks.Nodup) (hl : ∀ p ∈ l, p.1 ∈ ks) :
    addAll ∅ (pairs (addAll ∅ l) ks) = addAll ∅ l := by
  refine addAll_congr fun k => ?_
  rw [pairs_addAll]
  simp only [valuesOf, List.filter_flatMap, List.filter_filter]
  congr 1
  by_cases hk : k ∈ ks
  · obtain ⟨before, after, rfl⟩ := List.append_of_mem hk
    rw [List.nodup_middle, List.nodup_cons, List.mem_append, not_or] at hks
    have hother (ks' : List α) (hks' : k ∉ ks') :
        (ks'.flatMap fun k' => l.filter fun p => decide (p.1 = k) && decide (p.1 = k')) = [] := by
      refine List.flatMap_eq_nil_iff.mpr fun k' hk' => List.filter_eq_nil_iff.mpr fun p _ => ?_
      grind
    simp [hother before hks.1.1, hother after hks.1.2]
  · have hother : ∀ p ∈ l, p.1 ≠ k := fun p hp heq => hk (heq ▸ hl p hp)
    have hnone : l.filter (·.1 = k) = [] := by simpa using hother
    rw [hnone]
    refine List.flatMap_eq_nil_iff.mpr fun k' _ => List.filter_eq_nil_iff.mpr fun p hp => ?_
    simp [hother p hp]

/-- A filled map has the keys of its pairs. -/
theorem lookup_addAll_ne_none {l : List (α × β)} {p : α × β} (hp : p ∈ l) :
    (addAll ∅ l).lookup p.1 ≠ none := by
  have hne : valuesOf l p.1 ≠ [] := by
    have hmem : p ∈ l.filter (·.1 = p.1) := by simpa using hp
    simpa [valuesOf] using List.ne_nil_of_mem hmem
  rw [lookup_addAll, if_neg hne]
  exact Option.some_ne_none _

end GoMap
