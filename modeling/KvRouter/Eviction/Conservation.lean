import KvRouter.Eviction

/-!
# KvRouter.Eviction.Conservation

No entry of the eviction model is lost or invented.  An insertion moves the
shortest prefix of the entries that makes room (`ShortestPrefix`) to the log of
evicted ones, an access moves one entry to the back (`promote_spec`), and
nothing else moves.

* `cache_induction` — a property of a backend's cache and of the calls so far
  holds in every run if each kind of call for that backend keeps it;
* `run_ledger`, `run_ordered` — the two invariants of a run;
* `eviction_conserves` — what they say about the calls.
-/

namespace KvRouter.Eviction

/-- The number of blocks of a list of entries. -/
def sizes (entries : List Entry) : ℤ := (entries.map (·.sizeBlocks)).sum

@[simp] theorem sizes_nil : sizes [] = 0 := rfl

@[simp] theorem sizes_cons (e : Entry) (entries : List Entry) :
    sizes (e :: entries) = e.sizeBlocks + sizes entries := by
  simp [sizes]

@[simp] theorem sizes_append (entries entries' : List Entry) :
    sizes (entries ++ entries') = sizes entries + sizes entries' := by
  simp [sizes]

/-! ## What a call does to a cache -/

/-- `n` is the length of the shortest prefix of `entries` whose removal makes room for `size`
blocks; the whole list is removed when no prefix does. -/
structure ShortestPrefix (entries : List Entry) (size capacity : ℤ) (n : ℕ) : Prop where
  le : n ≤ entries.length
  full : ∀ m < n, capacity < sizes (entries.drop m) + size
  fits : n < entries.length → sizes (entries.drop n) + size ≤ capacity

/-- An entry with the time of its eviction marked. -/
def Entry.mark (now : ℤ) (e : Entry) : Entry := { e with lastAccess := now }

/-- **The eviction loop** takes the shortest prefix that makes room, and reports it. -/
theorem makeRoom_spec (size now capacity : ℤ) (entries evicted : List Entry)
    (evictedHashes : List (List UInt64)) :
    ∃ n, ShortestPrefix entries size capacity n ∧
      makeRoom size now capacity entries (sizes entries) evicted evictedHashes =
        (⟨entries.drop n, capacity, sizes (entries.drop n),
          evicted ++ (entries.take n).map (Entry.mark now)⟩,
          evictedHashes ++ (entries.take n).map (·.hashes)) := by
  induction entries generalizing evicted evictedHashes with
  | nil => exact ⟨0, ⟨Nat.le_refl _, by simp, by simp⟩, by simp [makeRoom]⟩
  | cons victim entries ih =>
      rw [makeRoom]
      split
      · next hfull =>
          have hused : sizes (victim :: entries) - victim.sizeBlocks = sizes entries := by simp
          rw [hused]
          obtain ⟨n, hn, heq⟩ :=
            ih (evicted ++ [victim.mark now]) (evictedHashes ++ [victim.hashes])
          refine ⟨n + 1, ⟨Nat.succ_le_succ hn.le, ?_, ?_⟩, ?_⟩
          · intro m hm
            cases m with
            | zero => exact hfull
            | succ m => exact hn.full m (by omega)
          · intro hlt
            exact hn.fits (by simpa using hlt)
          · rw [show ({ victim with lastAccess := now } : Entry) = victim.mark now from rfl, heq]
            simp
      · next hroom =>
          exact ⟨0, ⟨Nat.zero_le _, by simp, fun _ => Int.not_lt.mp hroom⟩, by simp⟩

/-- The cache of an insertion that evicts `n` entries. -/
def BackendCache.inserted (bc : BackendCache) (hashes : List UInt64) (now : ℤ) (n : ℕ) :
    BackendCache where
  entries := bc.entries.drop n ++ [⟨hashes, now, now, hashes.length⟩]
  capacity := bc.capacity
  used := sizes (bc.entries.drop n) + hashes.length
  evicted := bc.evicted ++ (bc.entries.take n).map (Entry.mark now)

/-- **An insertion** makes room and appends its entry. -/
theorem recordInsert_spec {bc : BackendCache} (hused : bc.used = sizes bc.entries)
    (hashes : List UInt64) (now : ℤ) :
    ∃ n, ShortestPrefix bc.entries hashes.length bc.capacity n ∧
      bc.recordInsert hashes now =
        (bc.inserted hashes now n, (bc.entries.take n).map (·.hashes)) := by
  obtain ⟨n, hn, heq⟩ :=
    makeRoom_spec hashes.length now bc.capacity bc.entries bc.evicted []
  refine ⟨n, hn, ?_⟩
  simp [BackendCache.recordInsert, hused, heq, BackendCache.inserted]

/-- An access changes nothing, or moves one entry to the back. -/
theorem promote_spec (hashSet : GoMap UInt64 Unit) (now : ℤ) (front entries : List Entry) :
    promote hashSet now front entries = front ++ entries ∨
      ∃ skipped e back, entries = skipped ++ e :: back ∧
        promote hashSet now front entries = front ++ skipped ++ back ++ [e.mark now] := by
  induction entries generalizing front with
  | nil => exact .inl (by simp [promote])
  | cons e back ih =>
      rw [promote]
      split
      · exact .inr ⟨[], e, back, rfl, by simp [Entry.mark]⟩
      · obtain heq | ⟨skipped, e', back', rfl, heq⟩ := ih (front ++ [e])
        · exact .inl (by simp [heq])
        · exact .inr ⟨e :: skipped, e', back', rfl, by simp [heq]⟩

/-! ## Induction over runs -/

/-- The backend a call is about. -/
def Op.backend : Op → String
  | .register id _ => id
  | .recordInsert id _ _ => id
  | .recordAccess id _ _ => id

/-- What a call does to the cache of its backend. -/
def Op.act (cache : Option BackendCache) : Op → Option BackendCache
  | .register _ capacity => some ⟨[], capacity, 0, []⟩
  | .recordInsert _ hashes now => cache.map fun bc => (bc.recordInsert hashes now).1
  | .recordAccess _ hashes now => cache.map fun bc => bc.recordAccess hashes now

/-- A call acts on the cache of its backend and leaves the others alone. -/
theorem lookup_apply (m : Model) (op : Op) (id : String) :
    (m.apply op).lookup id = if id = op.backend then op.act (m.lookup id) else m.lookup id := by
  cases op with
  | register id' capacity => exact GoMap.lookup_insert_eq m id' id _
  | recordInsert id' hashes now =>
      cases hbc : m.lookup id' with
      | none => grind [Model.apply, Model.recordInsert, Op.backend, Op.act]
      | some bc =>
          grind [Model.apply, Model.recordInsert, Op.backend, Op.act, GoMap.lookup_insert_eq]
  | recordAccess id' hashes now =>
      cases hbc : m.lookup id' with
      | none => grind [Model.apply, Model.recordAccess, Op.backend, Op.act]
      | some bc =>
          grind [Model.apply, Model.recordAccess, Op.backend, Op.act, GoMap.lookup_insert_eq]

/-- A call to insert is made on the model of its backend. -/
theorem lookup_recordInsert {ops : List Op} {id : String} {bc : BackendCache}
    (hbc : (run ops).lookup id = some bc) (hashes : List UInt64) (now : ℤ) :
    (run (ops ++ [.recordInsert id hashes now])).lookup id =
      some (bc.recordInsert hashes now).1 := by
  simp [run_concat, lookup_apply, Op.backend, Op.act, hbc]

/-- So is a call to mark an access. -/
theorem lookup_recordAccess {ops : List Op} {id : String} {bc : BackendCache}
    (hbc : (run ops).lookup id = some bc) (hashes : List UInt64) (now : ℤ) :
    (run (ops ++ [.recordAccess id hashes now])).lookup id =
      some (bc.recordAccess hashes now) := by
  simp [run_concat, lookup_apply, Op.backend, Op.act, hbc]

/-- The model's answer to an insertion is that of the backend's cache. -/
theorem recordInsert_returned {m : Model} {id : String} {bc : BackendCache}
    (hbc : m.lookup id = some bc) (hashes : List UInt64) (now : ℤ) :
    (m.recordInsert id hashes now).2 = (bc.recordInsert hashes now).2 := by
  simp [Model.recordInsert, hbc]

/-- **A property of a cache and of the calls so far** holds of every registered backend in every
run, if a `Register` establishes it and each call keeps it. -/
theorem cache_induction {id : String} {P : List Op → BackendCache → Prop}
    (register : ∀ ops capacity, P (ops ++ [.register id capacity]) ⟨[], capacity, 0, []⟩)
    (recordInsert : ∀ ops bc hashes now, (run ops).lookup id = some bc → P ops bc →
      P (ops ++ [.recordInsert id hashes now]) (bc.recordInsert hashes now).1)
    (recordAccess : ∀ ops bc hashes now, (run ops).lookup id = some bc → P ops bc →
      P (ops ++ [.recordAccess id hashes now]) (bc.recordAccess hashes now))
    (other : ∀ ops op bc, id ≠ op.backend → P ops bc → P (ops ++ [op]) bc)
    (ops : List Op) (bc : BackendCache) (hbc : (run ops).lookup id = some bc) : P ops bc := by
  induction ops using List.reverseRecOn generalizing bc with
  | nil => simp [run, Model.new] at hbc
  | append_singleton ops op ih =>
      rw [run_concat, lookup_apply] at hbc
      split at hbc
      · next hid =>
          cases op with
          | register id' capacity =>
              obtain rfl : id = id' := hid
              obtain rfl := Option.some.inj hbc
              exact register ops capacity
          | recordInsert id' hashes now =>
              obtain rfl : id = id' := hid
              obtain ⟨bc', hbc', rfl⟩ := Option.map_eq_some_iff.mp hbc
              exact recordInsert ops bc' hashes now hbc' (ih bc' hbc')
          | recordAccess id' hashes now =>
              obtain rfl : id = id' := hid
              obtain ⟨bc', hbc', rfl⟩ := Option.map_eq_some_iff.mp hbc
              exact recordAccess ops bc' hashes now hbc' (ih bc' hbc')
      · next hid => exact other ops op bc hid (ih bc hbc)

/-! ## The ledger of a cache -/

/-- A cache accounts for the insertions since its registration. -/
structure Ledger (calls : List InsertCall) (bc : BackendCache) : Prop where
  sized : ∀ e ∈ bc.entries, e.sizeBlocks = e.hashes.length
  used : bc.used = sizes bc.entries
  conserved : (calls.map (·.hashes)).Perm
    (bc.entries.map (·.hashes) ++ bc.evicted.map (·.hashes))
  /-- The log of evictions is what the calls returned, with their times. -/
  logged : bc.evicted.map (fun e => (e.lastAccess, e.hashes)) =
    calls.flatMap fun c => c.returned.map (Prod.mk c.time)

/-- An insertion keeps the books: its entry comes in, and what it reports goes out. -/
theorem ledger_recordInsert {calls : List InsertCall} {bc : BackendCache} (h : Ledger calls bc)
    (hashes : List UInt64) (now : ℤ) :
    Ledger (calls ++ [⟨now, hashes, (bc.recordInsert hashes now).2⟩])
      (bc.recordInsert hashes now).1 := by
  obtain ⟨n, -, heq⟩ := recordInsert_spec h.used hashes now
  rw [heq]
  have hsplit : bc.entries.map (·.hashes) =
      (bc.entries.take n).map (·.hashes) ++ (bc.entries.drop n).map (·.hashes) := by
    rw [← List.map_append, List.take_append_drop]
  have hmarked : ((bc.entries.take n).map (Entry.mark now)).map (·.hashes) =
      (bc.entries.take n).map (·.hashes) := by
    rw [List.map_map]
    rfl
  refine ⟨?_, ?_, ?_, ?_⟩
  · intro e he
    obtain he | he := List.mem_append.mp he
    · exact h.sized e (List.mem_of_mem_drop he)
    · rw [List.mem_singleton.mp he]
  · simp [BackendCache.inserted]
  · have hconserved := h.conserved
    rw [hsplit] at hconserved
    simp only [BackendCache.inserted, List.map_append, List.map_cons, List.map_nil, hmarked]
    refine (hconserved.append_right [hashes]).trans ?_
    grind
  · simp [BackendCache.inserted, h.logged, Entry.mark, Function.comp_def]

/-- An access moves an entry and keeps the books. -/
theorem ledger_recordAccess {calls : List InsertCall} {bc : BackendCache} (h : Ledger calls bc)
    (hashes : List UInt64) (now : ℤ) : Ledger calls (bc.recordAccess hashes now) := by
  obtain heq | ⟨skipped, e, back, hentries, heq⟩ :=
    promote_spec (makeHashSet hashes) now [] bc.entries
  · rwa [BackendCache.recordAccess, heq]
  · rw [BackendCache.recordAccess, heq]
    have hsized := h.sized
    have hused := h.used
    have hconserved := h.conserved
    rw [hentries] at hsized hused hconserved
    refine ⟨?_, ?_, ?_, h.logged⟩
    · intro e' he'
      simp only [List.nil_append, List.mem_append, List.mem_singleton] at he'
      obtain (he' | he') | rfl := he'
      · exact hsized e' (by simp [he'])
      · exact hsized e' (by simp [he'])
      · exact hsized e (by simp)
    · simp [hused, Entry.mark, add_comm]
    · refine hconserved.trans (List.Perm.append_right _ ?_)
      simp only [List.map_append, List.map_cons, List.map_nil, List.nil_append, Entry.mark]
      grind

/-- **Every cache accounts for the insertions** since its registration, in every run. -/
theorem run_ledger (id : String) (ops : List Op) (bc : BackendCache)
    (hbc : (run ops).lookup id = some bc) : Ledger (calls id ops) bc := by
  refine cache_induction (P := fun ops bc => Ledger (calls id ops) bc)
    (fun ops capacity => ?_) (fun ops bc hashes now hbc h => ?_)
    (fun ops bc hashes now _ h => ?_) (fun ops op bc hid h => ?_) ops bc hbc
  · rw [calls_concat, Op.log, if_pos rfl]
    exact ⟨by simp, rfl, by simp, rfl⟩
  · rw [calls_concat, Op.log, if_pos rfl, recordInsert_returned hbc]
    exact ledger_recordInsert h hashes now
  · rw [calls_concat]
    exact ledger_recordAccess h hashes now
  · have hlog : calls id (ops ++ [op]) = calls id ops := by
      rw [calls_concat]
      cases op with
      | register id' capacity => exact if_neg (Ne.symm hid)
      | recordInsert id' hashes now => exact if_neg (Ne.symm hid)
      | recordAccess id' hashes now => rfl
    rwa [hlog]

/-! ## The order of a cache -/

/-- The entries of a cache ascend by their last access, which is a reading of the clock. -/
structure Ordered (readings : List ℤ) (bc : BackendCache) : Prop where
  ascending : bc.entries.Pairwise fun a b => a.lastAccess ≤ b.lastAccess
  read : ∀ e ∈ bc.entries, e.lastAccess ∈ readings

/-- An entry accessed at the latest reading belongs at the back. -/
theorem Ordered.concat {times : List ℤ} {bc bc' : BackendCache} {entries : List Entry} {e : Entry}
    {now : ℤ} (h : Ordered times bc) (hsub : entries.Sublist bc.entries)
    (heq : bc'.entries = entries ++ [e]) (hnow : e.lastAccess = now)
    (hclock : ∀ t ∈ times, t ≤ now) : Ordered (times ++ [now]) bc' := by
  subst hnow
  constructor
  · rw [heq, List.pairwise_append]
    refine ⟨h.ascending.sublist hsub, List.pairwise_singleton _ _, ?_⟩
    intro a ha b hb
    rw [List.mem_singleton.mp hb]
    exact hclock _ (h.read a (hsub.subset ha))
  · rw [heq]
    intro a ha
    obtain ha | ha := List.mem_append.mp ha
    · exact List.mem_append_left _ (h.read a (hsub.subset ha))
    · simp [List.mem_singleton.mp ha]

theorem Ordered.mono {times later : List ℤ} {bc : BackendCache} (h : Ordered times bc) :
    Ordered (times ++ later) bc :=
  ⟨h.ascending, fun e he => List.mem_append_left _ (h.read e he)⟩

/-- **Every cache is in the order of its accesses**, in every run on a clock that never goes
back. -/
theorem run_ordered (id : String) (ops : List Op) (bc : BackendCache)
    (hbc : (run ops).lookup id = some bc) (hclock : (readings ops).Pairwise (· ≤ ·)) :
    Ordered (readings ops) bc := by
  refine cache_induction
    (P := fun ops bc => (readings ops).Pairwise (· ≤ ·) → Ordered (readings ops) bc)
    (fun ops capacity _ => ⟨List.Pairwise.nil, by simp⟩) (fun ops bc hashes now hbc ih hclock => ?_)
    (fun ops bc hashes now _ ih hclock => ?_) (fun ops op bc _ ih hclock => ?_) ops bc hbc hclock
  · rw [readings_concat] at hclock ⊢
    obtain ⟨hearlier, -, hlast⟩ := List.pairwise_append.mp hclock
    obtain ⟨n, -, heq⟩ := recordInsert_spec (run_ledger id ops bc hbc).used hashes now
    rw [heq]
    exact (ih hearlier).concat (List.drop_sublist n _) rfl rfl
      fun t ht => hlast t ht now (by simp [Op.reading])
  · rw [readings_concat] at hclock ⊢
    obtain ⟨hearlier, -, hlast⟩ := List.pairwise_append.mp hclock
    rw [BackendCache.recordAccess]
    obtain heq | ⟨skipped, e, back, hentries, heq⟩ :=
      promote_spec (makeHashSet hashes) now [] bc.entries
    · rw [heq]
      exact (ih hearlier).mono
    · have hsub : (skipped ++ back).Sublist bc.entries := by
        rw [hentries]
        exact (List.sublist_cons_self e back).append_left skipped
      rw [heq]
      exact (ih hearlier).concat hsub rfl rfl fun t ht => hlast t ht now (by simp [Op.reading])
  · rw [readings_concat] at hclock ⊢
    exact (ih (List.pairwise_append.mp hclock).1).mono

/-! ## Conservation -/

/-- What a run says about the entries of a backend. -/
structure Conserves (ops : List Op) (id : String) : Prop where
  /-- The prefixes inserted since the last `Register` are the resident ones and the evicted ones. -/
  conserved : ∀ bc, (run ops).lookup id = some bc →
    ((calls id ops).map (·.hashes)).Perm
      (bc.entries.map (·.hashes) ++ (calls id ops).flatMap (·.returned))
  ascending : ∀ bc, (run ops).lookup id = some bc →
    bc.entries.Pairwise fun a b => a.lastAccess ≤ b.lastAccess
  used : ∀ bc, (run ops).lookup id = some bc → bc.used = (bc.entries.map (·.sizeBlocks)).sum
  /-- An insertion returns the shortest prefix that makes room, in the order of the entries, and
  leaves the rest and the new entry. -/
  shortest : ∀ bc, (run ops).lookup id = some bc → ∀ hashes now,
    ∃ n, ShortestPrefix bc.entries hashes.length bc.capacity n ∧
      ((run ops).recordInsert id hashes now).2 = (bc.entries.take n).map (·.hashes) ∧
      ∃ bc', ((run ops).recordInsert id hashes now).1.lookup id = some bc' ∧
        bc'.entries = bc.entries.drop n ++ [⟨hashes, now, now, hashes.length⟩]
  evictedSince : ∀ since, (run ops).evictedSince id since =
    ((calls id ops).filter (since ≤ ·.time)).flatMap (·.returned)

/-- A backend that is not registered has returned nothing. -/
theorem returned_eq_nil {id : String} {ops : List Op} (hnone : (run ops).lookup id = none) :
    ∀ c ∈ calls id ops, c.returned = [] := by
  induction ops using List.reverseRecOn with
  | nil => simp [calls]
  | append_singleton ops op ih =>
      rw [run_concat, lookup_apply] at hnone
      rw [calls_concat]
      cases op with
      | register id' capacity => grind [Op.act, Op.backend, Op.log]
      | recordInsert id' hashes now =>
          grind [Op.act, Op.backend, Op.log, Model.recordInsert]
      | recordAccess id' hashes now =>
          grind [Op.act, Op.backend, Op.log, Option.map_eq_none_iff]

/-- Reading the log of evictions from a time on reads the calls from that time on. -/
theorem filter_logged {evicted : List Entry} {calls : List InsertCall}
    (hlogged : evicted.map (fun e => (e.lastAccess, e.hashes)) =
      calls.flatMap fun c => c.returned.map (Prod.mk c.time)) (since : ℤ) :
    (evicted.filter fun e => e.lastAccess > since || e.lastAccess = since).map (·.hashes) =
      (calls.filter (since ≤ ·.time)).flatMap (·.returned) := by
  have hlhs : (evicted.filter fun e =>
        e.lastAccess > since || e.lastAccess = since).map (·.hashes) =
      ((evicted.map fun e => (e.lastAccess, e.hashes)).filter (since ≤ ·.1)).map Prod.snd := by
    rw [List.filter_map, List.map_map]
    refine congrArg _ (List.filter_congr fun e _ => ?_)
    grind
  rw [hlhs, hlogged]
  clear hlhs hlogged
  induction calls with
  | nil => rfl
  | cons c calls ih =>
      rw [List.flatMap_cons, List.filter_append, List.map_append, ih, List.filter_cons,
        List.filter_map]
      by_cases htime : since ≤ c.time
      · simp [htime, Function.comp_def]
      · simp [htime, Function.comp_def]

/-- **The eviction model conserves entries.** -/
theorem eviction_conserves (ops : List Op) (hclock : (readings ops).Pairwise (· ≤ ·))
    (id : String) : Conserves ops id where
  conserved := by
    intro bc hbc
    have h := run_ledger id ops bc hbc
    have hevicted : bc.evicted.map (·.hashes) = (calls id ops).flatMap (·.returned) := by
      have hlogged := congrArg (List.map Prod.snd) h.logged
      simpa [List.map_flatMap, Function.comp_def] using hlogged
    rw [← hevicted]
    exact h.conserved
  ascending := fun bc hbc => (run_ordered id ops bc hbc hclock).ascending
  used := fun bc hbc => (run_ledger id ops bc hbc).used
  shortest := by
    intro bc hbc hashes now
    obtain ⟨n, hn, heq⟩ := recordInsert_spec (run_ledger id ops bc hbc).used hashes now
    refine ⟨n, hn, ?_, bc.inserted hashes now n, ?_, rfl⟩
    · rw [recordInsert_returned hbc, heq]
    · simp [Model.recordInsert, hbc, heq]
  evictedSince := by
    intro since
    rw [Model.evictedSince]
    split
    · next hnone =>
        symm
        rw [List.flatMap_eq_nil_iff]
        exact fun c hc => returned_eq_nil hnone c (List.mem_of_mem_filter hc)
    · next bc hbc => exact filter_logged (run_ledger id ops bc hbc).logged since

/-- Two prefixes, an access to the older one, and a third prefix that evicts the other. -/
theorem eviction_conserves_sample :
    let ops : List Op := [.register "b" 4, .recordInsert "b" [1, 2] 10, .recordInsert "b" [3, 4] 20,
      .recordAccess "b" [1] 30, .recordInsert "b" [5] 40]
    (readings ops).Pairwise (· ≤ ·) ∧ Conserves ops "b" :=
  ⟨by decide, eviction_conserves _ (by decide) "b"⟩

end KvRouter.Eviction
