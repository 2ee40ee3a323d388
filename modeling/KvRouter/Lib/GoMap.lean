import Mathlib.Data.Finmap
import Mathlib.Tactic.Common

/-!
# Go maps

A Go `map[α]β` is a finite map with no order of its own: Mathlib's `Finmap` at
a constant family.  `range` visits the bindings in an order the program cannot
choose, so every place that ranges over a map takes a `RangeOrder`: a choice of
one enumeration for each map.  A result proved for an arbitrary `RangeOrder`
holds for every order the runtime may pick.
-/

/-- A Go `map[α]β`. -/
abbrev GoMap (α β : Type*) := Finmap (fun _ : α => β)

namespace GoMap

variable {α β : Type*}

/-! ## Size and enumeration -/

/-- `len(m)`. -/
def len (m : GoMap α β) : ℕ := Multiset.card m.entries

/-- The order in which `range` visits the bindings of each map. -/
structure RangeOrder (α β : Type*) where
  visit : GoMap α β → List (Σ _ : α, β)
  coe_visit : ∀ m, (visit m : Multiset (Σ _ : α, β)) = m.entries

/-- Some enumeration of every map exists. -/
noncomputable instance : Inhabited (RangeOrder α β) :=
  ⟨⟨fun m => m.entries.toList, fun m => Multiset.coe_toList m.entries⟩⟩

variable [DecidableEq α]

/-- Ranging over a map visits its entries. -/
theorem RangeOrder.mem_visit (o : RangeOrder α β) {m : GoMap α β} {k : α} {v : β} :
    (⟨k, v⟩ : Σ _ : α, β) ∈ o.visit m ↔ m.lookup k = some v := by
  rw [← Multiset.mem_coe, o.coe_visit]
  exact Finmap.lookup_eq_some_iff.symm

omit [DecidableEq α] in
/-- No key is visited twice. -/
theorem RangeOrder.nodup_keys_visit (o : RangeOrder α β) (m : GoMap α β) :
    ((o.visit m).map Sigma.fst).Nodup := by
  have h : (o.visit m : Multiset (Σ _ : α, β)).NodupKeys := by
    rw [o.coe_visit]
    exact m.nodupKeys
  exact Multiset.coe_nodupKeys.mp h

/-- What is visited under a key is what the map has. -/
theorem RangeOrder.dlookup_visit (o : RangeOrder α β) (m : GoMap α β) (k : α) :
    (o.visit m).dlookup k = m.lookup k := by
  have hkeys : (o.visit m).NodupKeys := o.nodup_keys_visit m
  ext v
  rw [← Option.mem_def, List.mem_dlookup_iff hkeys, o.mem_visit]

/-! ## Lookups -/

/-- Setting a key changes that key and no other. -/
theorem lookup_insert_eq (m : GoMap α β) (k k' : α) (v : β) :
    (m.insert k v).lookup k' = if k' = k then some v else m.lookup k' := by
  by_cases h : k' = k
  · rw [if_pos h, h, Finmap.lookup_insert]
  · rw [if_neg h, Finmap.lookup_insert_of_ne m h]

/-- Deleting a key removes that key and no other. -/
theorem lookup_erase_eq (m : GoMap α β) (k k' : α) :
    (m.erase k).lookup k' = if k' = k then none else m.lookup k' := by
  by_cases h : k' = k
  · rw [if_pos h, h, Finmap.lookup_erase]
  · rw [if_neg h, Finmap.lookup_erase_ne h]

/-- A map filled in list order, under distinct keys. -/
theorem lookup_foldl_insert {γ : Type*} {key : γ → α} {value : γ → β} {l : List γ}
    (hkeys : (l.map key).Nodup) {x : γ} (hx : x ∈ l) :
    (l.foldl (fun m y => m.insert (key y) (value y)) (∅ : GoMap α β)).lookup (key x) =
      some (value x) := by
  induction l using List.reverseRecOn with
  | nil => simp at hx
  | append_singleton l y ih =>
      rw [List.map_append, List.nodup_append] at hkeys
      rw [List.foldl_append, List.foldl_cons, List.foldl_nil, lookup_insert_eq]
      rw [List.mem_append, List.mem_singleton] at hx
      obtain hx | rfl := hx
      · have hne : key x ≠ key y := hkeys.2.2 (key x) (List.mem_map_of_mem hx) (key y) (by simp)
        rw [if_neg hne]
        exact ih hkeys.1 hx
      · rw [if_pos rfl]

/-- A map without entries has no key. -/
theorem len_eq_zero_iff {m : GoMap α β} : len m = 0 ↔ ∀ k, m.lookup k = none := by
  rw [len, Multiset.card_eq_zero]
  constructor
  · intro h k
    rw [Finmap.lookup_eq_none, Finmap.mem_def, h]
    simp
  · intro h
    have hm : m = ∅ := Finmap.ext_lookup fun k => by rw [h k, Finmap.lookup_empty]
    rw [hm]
    rfl

end GoMap
