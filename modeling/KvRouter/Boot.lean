import KvRouter.CacheIndex.Bounded
import KvRouter.Config
import KvRouter.Handler.Solo

/-!
# KvRouter.Boot

The start of the process, `run` of `cmd/kv-router/main.go`, as far as it builds
the state that requests work on: every backend of the configuration is
registered with the directory and added to the pool, and the recorder keeps 1000
events.  A server that starts has a configuration that passed `validate`, which
is a hypothesis of `boot`.
-/

namespace KvRouter

open CacheIndex Config Handler

variable {parseURL : String → Option URL} {sum64 : Bytes → UInt64}
  {unmarshal : Bytes → Except String ChatCompletionRequest} {c : Config}

/-! ## The parts -/

theorem toInt_pos {x : Int64} (h : 0 < x) : 0 < x.toInt := by
  have hlt := Int64.lt_iff_toInt_lt.mp h
  rwa [Int64.toInt_zero] at hlt

/-- The `tokenizer.BlockHasher` of a valid configuration. -/
def blockHasher (c : Config) (hvalid : Valid parseURL c) : Tokenizer.BlockHasher where
  blockSize := c.blockSize.toInt
  pos := toInt_pos hvalid.blockSize
  le_maxInt := Int.le_of_lt_add_one c.blockSize.toInt_lt

/-- An element of `poolConfigs`. -/
def poolConfig (b : Config.BackendConfig) : KvRouter.BackendConfig := ⟨b.id, b.url, b.maxConcurrent⟩

/-- The loop that registers the backends with the directory. -/
def registerAll (backends : List Config.BackendConfig) : Index :=
  backends.foldl (fun cacheDirectory b => cacheDirectory.register b.id b.cacheCapacityBlocks.toInt)
    Index.new

def weights (c : Config) : Scorer.Weights where
  cacheHit := c.scorer.cacheHitWeight.value
  queueDepth := c.scorer.queueDepthWeight.value
  evictionRisk := c.scorer.evictionRiskWeight.value

/-- The server and the state it starts from, or the error of `NewPool`. -/
def boot (sum64 : Bytes → UInt64) (unmarshal : Bytes → Except String ChatCompletionRequest)
    (c : Config) (hvalid : Valid parseURL c) : Except KvRouter.ConfigError (Server × World) :=
  match newPool (validURL parseURL) (c.backends.map poolConfig) with
  | .error e => .error e
  | .ok pool =>
      .ok (⟨blockHasher c hvalid, sum64, unmarshal, weights c, pool⟩,
        ⟨fun _ => .fresh, registerAll c.backends, .new 1000⟩)

/-! ## What it builds -/

/-- A valid configuration passes the checks of `NewPool`. -/
theorem newPoolFrom_ok {bs : List Config.BackendConfig}
    (heach : ∀ b ∈ bs, ValidBackend parseURL b) (hids : (bs.map (·.id)).Nodup) (i : ℕ) {pool : Pool}
    (hnew : ∀ b ∈ bs, pool.backends.lookup b.id = none) :
    ∃ pool', newPoolFrom (validURL parseURL) i (bs.map poolConfig) pool = .ok pool' := by
  induction bs generalizing i pool with
  | nil => exact ⟨pool, rfl⟩
  | cons b bs ih =>
      rw [List.forall_mem_cons] at heach hnew
      rw [List.map_cons, List.nodup_cons] at hids
      have hrest : ∀ b' ∈ bs, (pool.add (poolConfig b)).backends.lookup b'.id = none := by
        intro b' hb'
        have hne : b'.id ≠ b.id := fun heq => hids.1 (heq ▸ List.mem_map_of_mem hb')
        exact (GoMap.lookup_insert_eq _ _ _ _).trans ((if_neg hne).trans (hnew.2 b' hb'))
      obtain ⟨pool', hpool'⟩ := ih heach.2 hids.2 (i + 1) hrest
      refine ⟨pool', ?_⟩
      rw [List.map_cons, newPoolFrom]
      simp [poolConfig, heach.1.id, heach.1.url.2, hnew.1]
      exact hpool'

/-- What `boot` returns when it succeeds. -/
theorem boot_eq_ok_iff {hvalid : Valid parseURL c} {s : Server} {w : World} :
    boot sum64 unmarshal c hvalid = .ok (s, w) ↔
      ∃ pool, newPool (validURL parseURL) (c.backends.map poolConfig) = .ok pool ∧
        s = ⟨blockHasher c hvalid, sum64, unmarshal, weights c, pool⟩ ∧
        w = ⟨fun _ => .fresh, registerAll c.backends, .new 1000⟩ := by
  unfold boot
  split
  · next e he => simp [he]
  · next pool hpool =>
      simp only [hpool, Except.ok.injEq, Prod.mk.injEq]
      constructor
      · rintro ⟨rfl, rfl⟩
        exact ⟨pool, rfl, rfl, rfl⟩
      · rintro ⟨pool', rfl, rfl, rfl⟩
        exact ⟨rfl, rfl⟩

/-- **A valid configuration starts.** -/
theorem boot_ok (sum64 : Bytes → UInt64)
    (unmarshal : Bytes → Except String ChatCompletionRequest) (hvalid : Valid parseURL c) :
    ∃ s w, boot sum64 unmarshal c hvalid = .ok (s, w) := by
  have hnew : ∀ b ∈ c.backends, Pool.empty.backends.lookup b.id = none :=
    fun b _ => Finmap.lookup_empty b.id
  obtain ⟨pool, hpool⟩ := newPoolFrom_ok hvalid.each hvalid.ids 0 hnew
  exact ⟨_, _, boot_eq_ok_iff.mpr ⟨pool, hpool, rfl, rfl⟩⟩

/-- The directory starts with an empty cache for each backend, and no other. -/
theorem lookup_registerAll {bs : List Config.BackendConfig} (hids : (bs.map (·.id)).Nodup)
    {id : String} {b : CacheIndex.BackendCache} :
    (registerAll bs).backends.lookup id = some b ↔
      ∃ cfg ∈ bs, cfg.id = id ∧ b = ⟨cfg.cacheCapacityBlocks.toInt, ∅⟩ := by
  unfold registerAll
  induction bs using List.reverseRecOn with
  | nil => simp [Index.new]
  | append_singleton bs cfg ih =>
      rw [List.map_append, List.nodup_append] at hids
      rw [List.foldl_append, List.foldl_cons, List.foldl_nil, lookup_register]
      by_cases hid : id = cfg.id
      · subst hid
        have hother : ∀ cfg' ∈ bs, cfg'.id ≠ cfg.id := fun cfg' hcfg' =>
          hids.2.2 cfg'.id (List.mem_map_of_mem hcfg') cfg.id (by simp)
        rw [if_pos rfl]
        grind
      · rw [if_neg hid, ih hids.1]
        grind

namespace Sample

def parse (_ : String) : Option URL := some ⟨"http", "a"⟩

/-- A configuration of one backend that holds ten blocks. -/
def config : Config := ⟨":8080", [⟨"a", "http://a", 10, 0, 1⟩], 16, defaultScorer⟩

/-- The sample configuration passes validation. -/
theorem valid_config : Valid parse config where
  listenAddr := by decide
  backends := by decide
  blockSize := by decide
  each b hb := by
    obtain rfl := List.mem_singleton.mp hb
    exact ⟨by decide, by decide, by decide, by decide, by decide⟩
  ids := by decide
  cacheHit := defaults_accepted.2.1
  queueDepth := defaults_accepted.2.2.1
  evictionRisk := defaults_accepted.2.2.2

/-- The state that a process with this configuration starts from. -/
def booted : World := ⟨fun _ => .fresh, registerAll config.backends, .new 1000⟩

/-- Booting from the sample configuration gives the sample server, in its first state. -/
theorem boot_server :
    boot Sample.sum64 Sample.unmarshal config valid_config = .ok (server pool, booted) := rfl

/-- So does booting with the hash and the decoder of a conversation. -/
theorem boot_turnServer :
    boot turnSum64 turnUnmarshal config valid_config = .ok (turnServer pool, booted) := rfl

end Sample

end KvRouter
