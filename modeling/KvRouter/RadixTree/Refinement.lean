import KvRouter.RadixTree.Evict
import KvRouter.RadixTree.Lookup

/-!
# KvRouter.RadixTree.Refinement

The prefix tree refines the flat map: after any history, every call makes of the
bindings what `FlatMap.Step` says, and a lookup finds what `FlatMap.LooksUp`
says.
-/

namespace KvRouter.RadixTree

/-! ## Insert and Touch -/

/-- An insertion ensures its path and refreshes its entry there, or adds it. -/
theorem root_insert (t : Tree) (hashes : List UInt64) (backendID : String) (now : ℤ) :
    (t.insert hashes backendID now).root =
      (t.root.ensure hashes).1.setEntries
        ((refresh backendID now (t.root.entriesAt hashes)).getD
          (t.root.entriesAt hashes ++ [⟨backendID, now, now, 1⟩])) hashes := by
  rw [← entriesAt_ensure t.root hashes hashes]
  simp only [Tree.insert]
  split
  · next entries h => simp only [h, Option.getD_some]
  · next h => simp only [h, Option.getD_none]

/-- A touch refreshes the entries at its path only. -/
theorem entriesAt_touch (t : Tree) (hashes : List UInt64) (backendID : String) (now : ℤ)
    (path : List UInt64) :
    (t.touch hashes backendID now).root.entriesAt path =
      if path = hashes then
        (refresh backendID now (t.root.entriesAt hashes)).getD (t.root.entriesAt hashes)
      else t.root.entriesAt path := by
  unfold Tree.touch
  split
  · next hnone =>
      have hempty : t.root.entriesAt hashes = [] := by simp [Node.entriesAt, hnone]
      rw [hempty]
      grind [refresh]
  · next node hfind =>
      split
      · next h => grind
      · next entries h =>
          simp only [h, Option.getD_some]
          exact entriesAt_setEntries (by rw [hfind, Option.isSome_some]) entries path

theorem binding_of_refresh_eq_none {backendID : String} {now : ℤ} {entries : List CacheEntry}
    (h : refresh backendID now entries = none) : binding entries backendID = none := by
  rw [← Option.not_isSome_iff_eq_none, isSome_binding]
  exact refresh_eq_none_iff.mp h

/-- Where an entry is refreshed it was bound. -/
theorem isSome_of_refresh_eq_some {backendID : String} {now : ℤ}
    {entries entries' : List CacheEntry} (h : refresh backendID now entries = some entries') :
    (binding entries backendID).isSome := by
  rw [isSome_binding]
  by_contra hnone
  rw [refresh_eq_none_iff.mpr hnone] at h
  contradiction

/-- The entries of the node of an insertion. -/
theorem binding_insert (entries : List CacheEntry) (backendID : String) (now : ℤ) (id : String) :
    binding ((refresh backendID now entries).getD
        (entries ++ [⟨backendID, now, now, 1⟩])) id =
      if id = backendID then
        some (now, ((binding entries backendID).map fun x => x.2 + 1).getD 1)
      else binding entries id := by
  cases h : refresh backendID now entries with
  | some entries' =>
      obtain ⟨x, hx⟩ := Option.isSome_iff_exists.mp (isSome_of_refresh_eq_some h)
      rw [Option.getD_some, binding_refresh h]
      grind
  | none =>
      rw [Option.getD_none, binding_concat]
      grind [binding_of_refresh_eq_none, CacheEntry.value]

/-- **An insertion** records its key. -/
theorem step_insert (t : Tree) (hashes : List UInt64) (backendID : String) (now : ℤ) :
    t.flat.Step (.insert hashes backendID now) (t.insert hashes backendID now).flat := by
  refine Finmap.ext_lookup fun key => ?_
  obtain ⟨path, id⟩ := key
  rw [FlatMap.record, GoMap.lookup_insert_eq, lookup_flat, lookup_flat, lookup_flat, root_insert,
    entriesAt_setEntries (find_ensure t.root hashes), entriesAt_ensure]
  simp only [Prod.mk.injEq]
  by_cases hpath : path = hashes
  · subst hpath
    rw [if_pos rfl, binding_insert]
    grind
  · rw [if_neg hpath, if_neg fun h => hpath h.1]

/-- **A touch** refreshes its key. -/
theorem step_touch (t : Tree) (hashes : List UInt64) (backendID : String) (now : ℤ) :
    t.flat.Step (.touch hashes backendID now) (t.touch hashes backendID now).flat := by
  refine Finmap.ext_lookup fun key => ?_
  obtain ⟨path, id⟩ := key
  rw [lookup_flat, entriesAt_touch, FlatMap.refresh]
  cases h : refresh backendID now (t.root.entriesAt hashes) with
  | none =>
      rw [lookup_flat t hashes, binding_of_refresh_eq_none h, lookup_flat]
      grind
  | some entries =>
      obtain ⟨x, hx⟩ := Option.isSome_iff_exists.mp (isSome_of_refresh_eq_some h)
      rw [lookup_flat t hashes, hx]
      simp only [GoMap.lookup_insert_eq, lookup_flat, Prod.mk.injEq, Option.getD_some]
      by_cases hpath : path = hashes
      · subst hpath
        rw [if_pos rfl, binding_refresh h]
        grind
      · rw [if_neg hpath, if_neg fun h => hpath h.1]

/-- **Every call makes of the bindings what it should.** -/
theorem step_apply (t : Tree) : (op : Op) → t.flat.Step op (t.apply op).flat
  | .insert hashes backendID now => step_insert t hashes backendID now
  | .touch hashes backendID now => step_touch t hashes backendID now
  | .evict backendID count walkOrder removalOrder =>
      step_evict t backendID count walkOrder removalOrder

/-! ## Histories -/

theorem flat_new : Tree.new.flat = ∅ := rfl

/-- **The prefix tree simulates a flat map.**  The entries at its nodes are the bindings of the
map, one each; every call after any history does to the bindings what it should, and every lookup
finds the longest bound prefix for each backend. -/
theorem radix_simulates (ops : List Op) :
    (run []).flat = ∅ ∧
    (∀ path, ((run ops).root.entriesAt path).map (·.backendID) |>.Nodup) ∧
    (∀ path id x, (run ops).flat.lookup (path, id) = some x ↔
      ∃ e ∈ (run ops).root.entriesAt path, e.backendID = id ∧ (e.lastAccess, e.hitCount) = x) ∧
    (∀ op, (run ops).flat.Step op (run (ops ++ [op])).flat) ∧
    ∀ q, (run ops).flat.LooksUp q ((run ops).lookup q) := by
  refine ⟨flat_new, (run ops).wellFormed.nodup_entriesAt, fun path id x => ?_, fun op => ?_,
    looksUp_lookup (run ops)⟩
  · rw [lookup_flat]
    exact binding_eq_some_iff ((run ops).wellFormed.nodup_entriesAt path)
  · rw [run_concat]
    exact step_apply (run ops) op

end KvRouter.RadixTree
