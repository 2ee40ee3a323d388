import KvRouter.CacheIndex.Lookup

/-!
# KvRouter.CacheIndex.Interference

What the traffic of others can do to a lookup.  `Lighter id ns` compares two
runs as namespace `ns` of backend `id` sees them: the lighter one registers the
backend with at least the capacity, makes the same commits to `ns`, some of the
commits to the other namespaces, and anything at all on other backends.  Clock
readings and enumeration orders may differ.

The pairs touched in the lighter run are a thinner history, so by
`Recency.mem_newest_of_thinned` it retains every pair of `ns` that the heavier
one does, and no lookup gets shorter.  For capacities alone this says that the
directory has no anomaly: more room never loses a prefix.
-/

namespace KvRouter.CacheIndex

open Recency

/-- `light` is `heavy` with more room and less traffic, for namespace `ns` of backend `id`. -/
inductive Lighter (id ns : String) : (heavy light : List Op) → Prop
  | nil : Lighter id ns [] []
  | register {heavy light : List Op} (h : Lighter id ns heavy light) {capacity capacity' : ℤ}
      (hle : capacity ≤ capacity') :
      Lighter id ns (heavy ++ [.register id capacity]) (light ++ [.register id capacity'])
  | commit {heavy light : List Op} (h : Lighter id ns heavy light) (ns' : String)
      (blocks : List UInt64) (now now' : Instant) (orders orders' : ℕ → ScanOrder) :
      Lighter id ns (heavy ++ [.commit id ns' blocks now orders])
        (light ++ [.commit id ns' blocks now' orders'])
  /-- A commit to another namespace that the lighter run does not make. -/
  | spared {heavy light : List Op} (h : Lighter id ns heavy light) {ns' : String} (hns : ns' ≠ ns)
      (blocks : List UInt64) (now : Instant) (orders : ℕ → ScanOrder) :
      Lighter id ns (heavy ++ [.commit id ns' blocks now orders]) light
  | elsewhere {heavy light : List Op} (h : Lighter id ns heavy light) {op : Op}
      (hop : op.backend ≠ id) : Lighter id ns (heavy ++ [op]) light
  | elsewhere' {heavy light : List Op} (h : Lighter id ns heavy light) {op : Op}
      (hop : op.backend ≠ id) : Lighter id ns heavy (light ++ [op])

variable {id ns : String} {heavy light : List Op}

/-! ## Histories -/

/-- A commit to another namespace touches nothing of this one. -/
theorem filter_pairsOf_of_ne {ns' : String} (hns : ns' ≠ ns) (blocks : List UInt64) :
    (pairsOf ns' blocks).filter (fun p => p.1 = ns) = [] := by
  simp [pairsOf, hns]

/-- The history of the lighter run is thinner, with the touches of the namespace all kept. -/
theorem Lighter.thinned (h : Lighter id ns heavy light) :
    (touched id light).Sublist (touched id heavy) ∧
      (touched id light).filter (fun p => p.1 = ns) =
        (touched id heavy).filter (fun p => p.1 = ns) := by
  induction h with
  | nil => exact ⟨.refl _, rfl⟩
  | register h hle ih => simp [touched_register]
  | commit h ns' blocks now now' orders orders' ih =>
      simp only [touched_commit, if_true, List.filter_append]
      exact ⟨ih.1.append (.refl _), by rw [ih.2]⟩
  | spared h hns blocks now orders ih =>
      simp only [touched_commit, if_true, List.filter_append, filter_pairsOf_of_ne hns,
        List.append_nil]
      exact ⟨ih.1.trans (List.sublist_append_left _ _), ih.2⟩
  | elsewhere h hop ih => rwa [touched_of_ne _ hop]
  | elsewhere' h hop ih => rwa [touched_of_ne _ hop]

/-! ## Capacities -/

/-- A backend that a call did not register was there before, with its capacity. -/
theorem exists_lookup_of_apply {i : Index} {op : Op} {b : BackendCache}
    (hop : ∀ capacity, op ≠ .register id capacity)
    (hb : (i.apply op).backends.lookup id = some b) :
    ∃ b', i.backends.lookup id = some b' ∧ b'.capacity = b.capacity := by
  cases becomes_apply hb with
  | register capacity => exact absurd rfl (hop capacity)
  | @commit b' hb' hcap ns blocks now orders =>
      exact ⟨b', hb', by rw [capacity_trim, capacity_touchKeys]⟩
  | idle hb' hcap => exact ⟨b, hb', rfl⟩
  | other hne hb' => exact ⟨b, hb', rfl⟩

/-- The lighter run has the backend too, with at least the capacity. -/
theorem Lighter.roomier (h : Lighter id ns heavy light) {b : BackendCache}
    (hb : (run heavy).backends.lookup id = some b) :
    ∃ b', (run light).backends.lookup id = some b' ∧ b.capacity ≤ b'.capacity := by
  induction h generalizing b with
  | nil => simp [run, Index.new, Finmap.lookup_empty] at hb
  | @register _ _ h capacity capacity' hle ih =>
      rw [run_concat, Index.apply, lookup_register, if_pos rfl, Option.some.injEq] at hb
      subst hb
      refine ⟨⟨capacity', ∅⟩, ?_, hle⟩
      rw [run_concat, Index.apply, lookup_register, if_pos rfl]
  | commit h ns' blocks now now' orders orders' ih =>
      rw [run_concat] at hb ⊢
      obtain ⟨b₀, hb₀, hcap₀⟩ := exists_lookup_of_apply (by simp) hb
      obtain ⟨b₁, hb₁, hle⟩ := ih hb₀
      have hop (capacity : ℤ) : Op.commit id ns' blocks now' orders' ≠ .register id capacity := by
        simp
      obtain ⟨b₂, hb₂, hcap₂⟩ := lookup_apply_some hb₁ hop
      exact ⟨b₂, hb₂, by omega⟩
  | spared h hns blocks now orders ih =>
      rw [run_concat] at hb
      obtain ⟨b₀, hb₀, hcap₀⟩ := exists_lookup_of_apply (by simp) hb
      rw [← hcap₀]
      exact ih hb₀
  | elsewhere h hop ih =>
      rw [run_concat, lookup_apply_of_ne _ _ hop] at hb
      exact ih hb
  | elsewhere' h hop ih =>
      rw [run_concat, lookup_apply_of_ne _ _ hop]
      exact ih hb

/-! ## Lookups -/

/-- What the heavier run retains of the namespace, the lighter one does. -/
theorem Lighter.retained (h : Lighter id ns heavy light)
    (hclock : (readings heavy).Pairwise (· ≤ ·)) (hclock' : (readings light).Pairwise (· ≤ ·))
    (htouch : totalTouches heavy < 2 ^ 64) (htouch' : totalTouches light < 2 ^ 64)
    {b b' : BackendCache} (hb : (run heavy).backends.lookup id = some b)
    (hb' : (run light).backends.lookup id = some b') (hle : b.capacity ≤ b'.capacity)
    {key : UInt64} (hkey : Retained b (ns, key)) : Retained b' (ns, key) := by
  have hcap : 0 < b.capacity := capacity_pos_of_retained heavy hb hkey
  have htracks := run_tracks heavy hclock htouch hb hcap
  have htracks' := run_tracks light hclock' htouch' hb' (hcap.trans_le hle)
  obtain ⟨hsub, hkept⟩ := h.thinned
  have hmem : (ns, key) ∈ mostRecent b.capacity.toNat (touched id heavy) :=
    (htracks.mem_iff _).mpr hkey
  refine (htracks'.mem_iff _).mp (mem_newest_of_thinned ?_ hsub hkept ?_ hmem)
  · omega
  · simp

/-- **More room and less traffic never shorten a lookup.**  The longest known
prefix of a query on a backend and in a namespace is no shorter in a run that
registers the backend with at least the capacity and leaves out some commits to
the other namespaces, whatever happens to the other backends. -/
theorem lighter_lookup (h : Lighter id ns heavy light)
    (hclock : (readings heavy).Pairwise (· ≤ ·)) (hclock' : (readings light).Pairwise (· ≤ ·))
    (htouch : totalTouches heavy < 2 ^ 64) (htouch' : totalTouches light < 2 ^ 64)
    (q : List UInt64) : (run heavy).lookup id ns q ≤ (run light).lookup id ns q := by
  cases hb : (run heavy).backends.lookup id with
  | none =>
      rw [lookup_unregistered hb]
      exact Nat.zero_le _
  | some b =>
      obtain ⟨b', hb', hle⟩ := h.roomier hb
      have hlen := lookup_le_length (run heavy) id ns q
      have hheavy := (le_lookup_iff hb ns hlen).mp (Nat.le_refl _)
      rw [le_lookup_iff hb' ns hlen]
      intro p hp
      exact h.retained hclock hclock' htouch htouch' hb hb' hle (hheavy p hp)

/-- Another tenant fills a backend of capacity one; with room for two and without that tenant the
first conversation is no less known. -/
theorem lighter_lookup_two :
    (run [.register "a" 1, .commit "a" "chat:m" [1] ⟨5, by decide⟩ (fun _ => default),
      .commit "a" "chat:n" [2] ⟨6, by decide⟩ (fun _ => default)]).lookup "a" "chat:m" [1, 3] ≤
    (run [.register "a" 2,
      .commit "a" "chat:m" [1] ⟨5, by decide⟩ (fun _ => default)]).lookup "a" "chat:m" [1, 3] :=
  lighter_lookup
    (.spared (.commit (.register .nil (by decide)) "chat:m" [1] _ _ _ _) (by decide) [2] _ _)
    (by decide) (by decide) (Nat.lt_of_le_of_lt (totalTouches_le _) (by decide))
    (Nat.lt_of_le_of_lt (totalTouches_le _) (by decide)) [1, 3]

end KvRouter.CacheIndex
