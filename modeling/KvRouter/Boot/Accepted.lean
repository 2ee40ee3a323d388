import KvRouter.Boot

/-!
# KvRouter.Boot.Accepted

What the process is built of, from its configuration.  `NewPool` accepts a list
of backends exactly when each has an ID, a URL and an ID of its own, and then
holds these backends and no others (`newPoolFrom_eq_ok_iff`).  So the checks of
`LoadConfig` leave `NewPool` nothing to reject, and the pool and the directory
know the same backends.
-/

namespace KvRouter

open CacheIndex Config Handler

/-! ## The pool -/

section
variable {validURL : String → Bool}

/-- Adding a backend sets its ID and no other. -/
theorem Pool.get_add (p : Pool) (cfg : BackendConfig) (id : String) :
    (p.add cfg).get id = if id = cfg.id then some (newBackend cfg) else p.get id :=
  GoMap.lookup_insert_eq _ _ _ _

/-- **What `NewPool` accepts, and what it builds.** -/
theorem newPoolFrom_eq_ok_iff {i : ℕ} {cfgs : List BackendConfig} {pool pool' : Pool} :
    newPoolFrom validURL i cfgs pool = .ok pool' ↔
      (∀ cfg ∈ cfgs, cfg.id ≠ "" ∧ pool.get cfg.id = none ∧ validURL cfg.url = true) ∧
        (cfgs.map (·.id)).Nodup ∧ cfgs.foldl Pool.add pool = pool' := by
  induction cfgs generalizing i pool with
  | nil => simp [newPoolFrom]
  | cons cfg cfgs ih =>
      rw [newPoolFrom, List.map_cons, List.nodup_cons, List.foldl_cons]
      split
      · next hid => simp [hid]
      · next hid =>
          split
          · next hseen =>
              have hsome : pool.get cfg.id ≠ none := Option.isSome_iff_ne_none.mp hseen
              simp [hsome]
          · next hnew =>
              have hnone : pool.get cfg.id = none := by simpa [Pool.get] using hnew
              split
              · next hurl => simp_all
              · next hurl =>
                  simp only [ih, Pool.get_add, List.forall_mem_cons]
                  grind

/-- The backends that are added. -/
theorem get_foldl_add {cfgs : List BackendConfig} (hids : (cfgs.map (·.id)).Nodup) (pool : Pool)
    {id : String} {b : Backend} : (cfgs.foldl Pool.add pool).get id = some b ↔
      (∃ cfg ∈ cfgs, cfg.id = id ∧ b = newBackend cfg) ∨
        id ∉ cfgs.map (·.id) ∧ pool.get id = some b := by
  induction cfgs generalizing pool with
  | nil => simp
  | cons cfg cfgs ih =>
      rw [List.map_cons, List.nodup_cons] at hids
      rw [List.foldl_cons, ih hids.2, Pool.get_add]
      by_cases hid : id = cfg.id
      · subst hid
        simp [hids.1, eq_comm]
        grind
      · grind

end

/-! ## The process -/

section
variable {parseURL : String → Option URL} {sum64 : Bytes → UInt64}
  {unmarshal : Bytes → Except String ChatCompletionRequest} {c : Config}
  {hvalid : Valid parseURL c} {s : Server} {w : World}

/-- The pool of a process that has started. -/
theorem get_boot (hboot : boot sum64 unmarshal c hvalid = .ok (s, w)) {id : String} {b : Backend} :
    s.pool.get id = some b ↔
      ∃ cfg ∈ c.backends, cfg.id = id ∧ b = newBackend (poolConfig cfg) := by
  obtain ⟨pool, hpool, rfl, -⟩ := boot_eq_ok_iff.mp hboot
  obtain ⟨-, hids, rfl⟩ := newPoolFrom_eq_ok_iff.mp hpool
  have hempty : Pool.empty.get id = none := Finmap.lookup_empty id
  rw [get_foldl_add hids, hempty]
  simp [poolConfig]

/-- What a configuration that `LoadConfig` accepts starts. -/
structure Started (c : Config) (s : Server) (w : World) : Prop where
  /-- The pool holds the configured backends and no others, each with the limit configured, or
  the default. -/
  pool : ∀ id b, s.pool.get id = some b ↔ ∃ cfg ∈ c.backends, cfg.id = id ∧ b.id = id ∧
    b.url = cfg.url ∧ b.maxConcurrent = if cfg.maxConcurrent = 0 then 64 else cfg.maxConcurrent
  /-- So does the directory, with room for the blocks of each, and still empty. -/
  directory : ∀ id cache, w.cache.backends.lookup id = some cache ↔ ∃ cfg ∈ c.backends,
    cfg.id = id ∧ cache.capacity = cfg.cacheCapacityBlocks.toInt ∧ cache.entries = ∅
  /-- No backend is routable before its checks. -/
  unhealthy : ∀ id, (w.cells id).healthy = false ∧ (w.cells id).queueDepth = 0
  blockSize : s.tokenizer.blockSize = c.blockSize.toInt
  nonneg : 0 ≤ s.weights.cacheHit ∧ 0 ≤ s.weights.queueDepth ∧ 0 ≤ s.weights.evictionRisk
  /-- The scores are not all zero. -/
  weighted : 0 < s.weights.cacheHit ∨ 0 < s.weights.queueDepth ∨ 0 < s.weights.evictionRisk

/-- An accepted weight is zero exactly when it is not positive. -/
theorem Config.Float64.Accepted.isZero_iff {weight : Float64} (h : weight.Accepted) :
    weight.isZero = true ↔ ¬0 < weight.value := by
  obtain ⟨x, hx, rfl⟩ := h
  simp only [Float64.isZero, Float64.value, decide_eq_true_eq, not_lt]
  exact ⟨fun h => h.le, fun h => le_antisymm h hx⟩

/-- The weights are the default ones exactly when all three are zero. -/
theorem scorer_withDefaults (c : Config) : (withDefaults c).scorer =
    if c.scorer.cacheHitWeight.isZero && c.scorer.queueDepthWeight.isZero &&
      c.scorer.evictionRiskWeight.isZero then defaultScorer else c.scorer := by
  dsimp only [withDefaults]
  split_ifs <;> simp_all

/-- `LoadConfig` leaves some weight that is not zero. -/
theorem weighted_withDefaults (c : Config) :
    ¬((withDefaults c).scorer.cacheHitWeight.isZero = true ∧
      (withDefaults c).scorer.queueDepthWeight.isZero = true ∧
      (withDefaults c).scorer.evictionRiskWeight.isZero = true) := by
  rw [scorer_withDefaults]
  split
  · simp [defaultScorer, Float64.isZero]
  · next hzero =>
      rintro ⟨hcache, hqueue, hrisk⟩
      simp [hcache, hqueue, hrisk] at hzero

/-- What `LoadConfig` returns has its defaults filled in. -/
theorem exists_withDefaults {order : GoMap.RangeOrder String Float64} {path : String}
    {file : Except String Bytes} {decode : Bytes → Except String Config}
    (h : loadConfig parseURL order path file decode = .ok c) : ∃ c₀, c = withDefaults c₀ := by
  unfold loadConfig at h
  split at h
  · contradiction
  · split at h
    · contradiction
    · next c₀ _ =>
        split at h
        · contradiction
        · exact ⟨c₀, (Except.ok.inj h).symm⟩

/-- **What `LoadConfig` accepts starts**: `NewPool` finds nothing to reject, and the process knows
the configured backends and no others. -/
theorem accepted_starts (sum64 : Bytes → UInt64)
    (unmarshal : Bytes → Except String ChatCompletionRequest)
    {order : GoMap.RangeOrder String Float64} {path : String} {file : Except String Bytes}
    {decode : Bytes → Except String Config}
    (h : loadConfig parseURL order path file decode = .ok c) :
    ∃ s w, boot sum64 unmarshal c (valid_of_loadConfig h) = .ok (s, w) ∧ Started c s w := by
  have hvalid := valid_of_loadConfig h
  obtain ⟨s, w, hboot⟩ := boot_ok sum64 unmarshal hvalid
  obtain ⟨pool, -, rfl, rfl⟩ := boot_eq_ok_iff.mp hboot
  refine ⟨_, _, hboot, fun id b => (get_boot hboot).trans ?_, fun id cache => ?_,
    fun id => ⟨rfl, rfl⟩, rfl, ⟨hvalid.cacheHit.value_nonneg, hvalid.queueDepth.value_nonneg,
      hvalid.evictionRisk.value_nonneg⟩, ?_⟩
  · refine exists_congr fun cfg => and_congr_right fun hcfg => and_congr_right fun hid => ?_
    have hnonneg := (hvalid.each cfg hcfg).maxConcurrent
    have hzero : cfg.maxConcurrent ≤ 0 ↔ cfg.maxConcurrent = 0 :=
      ⟨fun h => Int64.le_antisymm h hnonneg, fun h => h ▸ Int64.le_refl _⟩
    obtain ⟨id', url, limit⟩ := b
    simp only [newBackend, poolConfig, hzero, defaultMaxConcurrent, Backend.mk.injEq, hid]
  · show (registerAll c.backends).backends.lookup id = some cache ↔ _
    rw [lookup_registerAll hvalid.ids]
    obtain ⟨capacity, entries⟩ := cache
    simp
  · have hweighted : ¬(c.scorer.cacheHitWeight.isZero = true ∧
        c.scorer.queueDepthWeight.isZero = true ∧ c.scorer.evictionRiskWeight.isZero = true) := by
      obtain ⟨c₀, rfl⟩ := exists_withDefaults h
      exact weighted_withDefaults c₀
    rw [hvalid.cacheHit.isZero_iff, hvalid.queueDepth.isZero_iff, hvalid.evictionRisk.isZero_iff]
      at hweighted
    by_contra hnone
    obtain ⟨hcache, hrest⟩ := not_or.mp hnone
    exact hweighted ⟨hcache, not_or.mp hrest⟩

end

namespace Sample

/-- A file that leaves the block size and the weights to their defaults. -/
def file : Bytes := ascii ("listen_addr: \":8080\"\nbackends:\n  - id: a\n    url: http://a\n" ++
  "    cache_capacity_blocks: 10\n    max_concurrent: 1\n")

/-- A decoder that knows this file. -/
def decode (data : Bytes) : Except String Config :=
  if data = file then
    .ok { config with blockSize := 0, scorer := ⟨.finite 0, .finite 0, .finite 0⟩ }
  else .error "EOF"

end Sample

/-- The router that a file of one backend starts. -/
theorem accepted_starts_file :
    ∃ (order : GoMap.RangeOrder String Float64) (c : Config)
      (h : loadConfig Sample.parse order "config.yaml" (.ok Sample.file) Sample.decode = .ok c)
      (s : Server) (w : World),
      boot Sample.sum64 Sample.unmarshal c (valid_of_loadConfig h) = .ok (s, w) ∧
        c.blockSize = 64 ∧ c.scorer = defaultScorer ∧ Started c s w := by
  let c := { Sample.config with blockSize := 64 }
  have hvalid : Valid Sample.parse c := ⟨Sample.valid_config.listenAddr,
    Sample.valid_config.backends, by decide, Sample.valid_config.each, Sample.valid_config.ids,
    Sample.valid_config.cacheHit, Sample.valid_config.queueDepth, Sample.valid_config.evictionRisk⟩
  have hload : loadConfig Sample.parse default "config.yaml" (.ok Sample.file) Sample.decode =
      .ok c := by
    have haccepted : validate Sample.parse default c = .ok () := validate_iff.mpr hvalid
    have hdefaults : withDefaults { Sample.config with
        blockSize := 0, scorer := ⟨.finite 0, .finite 0, .finite 0⟩ } = c := rfl
    simp only [loadConfig, Sample.decode, if_true, hdefaults, haccepted]
  obtain ⟨s, w, hboot, hstarted⟩ := accepted_starts Sample.sum64 Sample.unmarshal hload
  exact ⟨default, c, hload, s, w, hboot, rfl, rfl, hstarted⟩

end KvRouter
