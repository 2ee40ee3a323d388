import KvRouter.Backend
import Mathlib.Algebra.Order.Field.Rat
import Mathlib.Tactic.NormNum

/-!
# KvRouter.Config

Configuration loading and validation, `internal/config/config.go`.  Reading the
file, the YAML decoder and `url.Parse` are parameters; `loadConfig` fills in the
defaults for what the file leaves out, and `validate` stops at the first check
that fails, with an error that names the field.

`validate_iff` says what is accepted (`Valid`).  A `float64` is `NaN`, an
infinity or a finite number, taken as an exact rational.
-/

namespace KvRouter

namespace Config

/-! ## Configurations -/

inductive Float64
  | nan
  | inf (negative : Bool)
  | finite (x : ℚ)
deriving DecidableEq

/-- `math.IsNaN`. -/
def Float64.isNaN : Float64 → Bool
  | .nan => true
  | _ => false

/-- `math.IsInf`, of either sign. -/
def Float64.isInf : Float64 → Bool
  | .inf _ => true
  | _ => false

/-- `w < 0`. -/
def Float64.isNegative : Float64 → Bool
  | .nan => false
  | .inf negative => negative
  | .finite x => x < 0

/-- `w == 0`. -/
def Float64.isZero : Float64 → Bool
  | .finite x => x = 0
  | _ => false

/-- The value of a finite number. -/
def Float64.value : Float64 → ℚ
  | .finite x => x
  | _ => 0

/-- A single upstream backend, as configured. -/
structure BackendConfig where
  id : String
  url : String
  cacheCapacityBlocks : Int64
  healthCheckInterval : Int64
  maxConcurrent : Int64
deriving DecidableEq

structure ScorerConfig where
  queueDepthWeight : Float64
  evictionRiskWeight : Float64
  cacheHitWeight : Float64
deriving DecidableEq

end Config

structure Config where
  listenAddr : String
  backends : List Config.BackendConfig
  blockSize : Int64
  scorer : Config.ScorerConfig
deriving DecidableEq

namespace Config

/-- The parts of a parsed `url.URL` that are checked. -/
structure URL where
  scheme : String
  host : String

/-- Whether the URL is an absolute http(s) URL: `ValidURL` of the pool, and the same check of
`validate`. -/
def validURL (parseURL : String → Option URL) (raw : String) : Bool :=
  match parseURL raw with
  | none => false
  | some u => (u.scheme = "http" || u.scheme = "https") && u.host ≠ ""

/-! ## Errors -/

inductive ConfigError
  | readFile (path err : String)
  | parseYAML (err : String)
  | listenAddr
  | noBackends
  | blockSize
  | idRequired (i : ℕ)
  | urlRequired (i : ℕ) (id : String)
  | url (i : ℕ) (id : String)
  | duplicateID (id : String)
  | cacheCapacityBlocks (i : ℕ) (id : String)
  | healthCheckInterval (i : ℕ) (id : String)
  | maxConcurrent (i : ℕ) (id : String)
  | weight (name : String)
deriving DecidableEq

/-- The text of an error; `quote` is the verb `%q`. -/
def ConfigError.text (quote : String → String) : ConfigError → String
  | .readFile path err => "config: read file " ++ quote path ++ ": " ++ err
  | .parseYAML err => "config: parse yaml: " ++ err
  | .listenAddr => "config: listen_addr is required"
  | .noBackends => "config: at least one backend is required"
  | .blockSize => "config: block_size must be positive"
  | .idRequired i => "config: backend[" ++ toString i ++ "]: id is required"
  | .urlRequired i id => "config: backend[" ++ toString i ++ "] (" ++ id ++ "): url is required"
  | .url i id =>
      "config: backend[" ++ toString i ++ "] (" ++ id ++ "): url must be an absolute http(s) URL"
  | .duplicateID id => "config: duplicate backend id " ++ quote id
  | .cacheCapacityBlocks i id =>
      "config: backend[" ++ toString i ++ "] (" ++ id ++ "): cache_capacity_blocks must be positive"
  | .healthCheckInterval i id =>
      "config: backend[" ++ toString i ++ "] (" ++ id ++
        "): health_check_interval must not be negative"
  | .maxConcurrent i id =>
      "config: backend[" ++ toString i ++ "] (" ++ id ++ "): max_concurrent must not be negative"
  | .weight name => "config: scorer." ++ name ++ " must be a finite non-negative number"

/-! ## Validation -/

variable (parseURL : String → Option URL)

/-- The checks of backend `i`, and the IDs seen after it. -/
def validateBackend (i : ℕ) (b : BackendConfig) (seenIDs : GoMap String Unit) :
    Except ConfigError (GoMap String Unit) :=
  if b.id = "" then .error (.idRequired i)
  else if b.url = "" then .error (.urlRequired i b.id)
  else if !validURL parseURL b.url then .error (.url i b.id)
  else if (seenIDs.lookup b.id).isSome then .error (.duplicateID b.id)
  else if b.cacheCapacityBlocks ≤ 0 then .error (.cacheCapacityBlocks i b.id)
  else if b.healthCheckInterval < 0 then .error (.healthCheckInterval i b.id)
  else if b.maxConcurrent < 0 then .error (.maxConcurrent i b.id)
  else .ok (seenIDs.insert b.id ())

/-- The loop over the backends from index `i`. -/
def validateBackends : ℕ → List BackendConfig → GoMap String Unit → Except ConfigError Unit
  | _, [], _ => .ok ()
  | i, b :: bs, seenIDs =>
      match validateBackend parseURL i b seenIDs with
      | .error e => .error e
      | .ok seenIDs => validateBackends (i + 1) bs seenIDs

/-- The map of the weights by name. -/
def ScorerConfig.weights (s : ScorerConfig) : GoMap String Float64 :=
  (((∅ : GoMap String Float64).insert "cache_hit_weight" s.cacheHitWeight).insert
    "queue_depth_weight" s.queueDepthWeight).insert "eviction_risk_weight" s.evictionRiskWeight

def Float64.rejected (weight : Float64) : Bool :=
  weight.isNaN || weight.isInf || weight.isNegative

/-- The loop over the weights, in the order in which `range` visits them. -/
def validateWeights (order : GoMap.RangeOrder String Float64) (s : ScorerConfig) :
    Except ConfigError Unit :=
  match (order.visit s.weights).find? fun w => w.2.rejected with
  | some w => .error (.weight w.1)
  | none => .ok ()

/-- `validate`. -/
def validate (order : GoMap.RangeOrder String Float64) (c : Config) : Except ConfigError Unit :=
  if c.listenAddr = "" then .error .listenAddr
  else if c.backends.length = 0 then .error .noBackends
  else if c.blockSize ≤ 0 then .error .blockSize
  else
    match validateBackends parseURL 0 c.backends ∅ with
    | .error e => .error e
    | .ok () => validateWeights order c.scorer

/-! ## Loading -/

def defaultBlockSize : Int64 := 64

def defaultScorer : ScorerConfig where
  cacheHitWeight := .finite 1
  queueDepthWeight := .finite (1 / 2)
  evictionRiskWeight := .finite (3 / 10)

/-- The defaults of `LoadConfig`: a block size, and weights when all three are zero. -/
def withDefaults (c : Config) : Config :=
  let c := if c.blockSize = 0 then { c with blockSize := defaultBlockSize } else c
  if c.scorer.cacheHitWeight.isZero && c.scorer.queueDepthWeight.isZero &&
      c.scorer.evictionRiskWeight.isZero then { c with scorer := defaultScorer }
  else c

/-- `LoadConfig`, with the outcome of `os.ReadFile` and of the YAML decoder. -/
def loadConfig (order : GoMap.RangeOrder String Float64) (path : String)
    (file : Except String Bytes) (decode : Bytes → Except String Config) :
    Except ConfigError Config :=
  match file with
  | .error err => .error (.readFile path err)
  | .ok data =>
      match decode data with
      | .error err => .error (.parseYAML err)
      | .ok c =>
          match validate parseURL order (withDefaults c) with
          | .error e => .error e
          | .ok () => .ok (withDefaults c)

/-! ## What is accepted -/

/-- A weight that is a finite non-negative number. -/
def Float64.Accepted (weight : Float64) : Prop := ∃ x : ℚ, 0 ≤ x ∧ weight = .finite x

/-- The backend passes every check but that of its ID against the others. -/
structure ValidBackend (b : BackendConfig) : Prop where
  id : b.id ≠ ""
  url : b.url ≠ "" ∧ validURL parseURL b.url = true
  cacheCapacityBlocks : 0 < b.cacheCapacityBlocks
  healthCheckInterval : 0 ≤ b.healthCheckInterval
  maxConcurrent : 0 ≤ b.maxConcurrent

structure Valid (c : Config) : Prop where
  listenAddr : c.listenAddr ≠ ""
  backends : c.backends ≠ []
  blockSize : 0 < c.blockSize
  each : ∀ b ∈ c.backends, ValidBackend parseURL b
  ids : (c.backends.map (·.id)).Nodup
  cacheHit : c.scorer.cacheHitWeight.Accepted
  queueDepth : c.scorer.queueDepthWeight.Accepted
  evictionRisk : c.scorer.evictionRiskWeight.Accepted

variable {parseURL}

/-- The test of a weight rejects what is not a non-negative number. -/
theorem Float64.rejected_iff {weight : Float64} : weight.rejected = false ↔ weight.Accepted := by
  cases weight with
  | nan => simp [Float64.rejected, Float64.isNaN, Float64.Accepted]
  | inf negative => simp [Float64.rejected, Float64.isNaN, Float64.isInf, Float64.Accepted]
  | finite x =>
      simp [Float64.rejected, Float64.isNaN, Float64.isInf, Float64.isNegative, Float64.Accepted]

theorem Float64.Accepted.value_nonneg {weight : Float64} (h : weight.Accepted) :
    0 ≤ weight.value := by
  obtain ⟨x, hx, rfl⟩ := h
  exact hx

/-- The checks of a backend pass iff it is valid and its ID is new. -/
theorem validateBackend_iff {i : ℕ} {b : BackendConfig} {seenIDs seenIDs' : GoMap String Unit} :
    validateBackend parseURL i b seenIDs = .ok seenIDs' ↔
      ValidBackend parseURL b ∧ seenIDs.lookup b.id = none ∧ seenIDs.insert b.id () = seenIDs' := by
  unfold validateBackend
  constructor
  · intro h
    split_ifs at h with hid hurl hvalid hseen hcap hinterval hmax
    rw [Except.ok.injEq] at h
    simp only [Bool.not_eq_true', Bool.not_eq_false] at hvalid
    rw [Bool.not_eq_true, Option.isSome_eq_false_iff, Option.isNone_iff_eq_none] at hseen
    exact ⟨⟨hid, ⟨hurl, hvalid⟩, Int64.not_le.mp hcap, Int64.not_lt.mp hinterval,
      Int64.not_lt.mp hmax⟩, hseen, h⟩
  · rintro ⟨hb, hseen, rfl⟩
    simp [hb.id, hb.url.1, hb.url.2, hseen, Int64.not_le.mpr hb.cacheCapacityBlocks,
      Int64.not_lt.mpr hb.healthCheckInterval, Int64.not_lt.mpr hb.maxConcurrent]

/-- The loop over the backends checks each, and its ID against those seen before. -/
theorem validateBackends_iff {i : ℕ} {bs : List BackendConfig} {seenIDs : GoMap String Unit} :
    validateBackends parseURL i bs seenIDs = .ok () ↔
      (∀ b ∈ bs, ValidBackend parseURL b) ∧ (bs.map (·.id)).Nodup ∧
        ∀ b ∈ bs, seenIDs.lookup b.id = none := by
  induction bs generalizing i seenIDs with
  | nil => simp [validateBackends]
  | cons b bs ih =>
      rw [validateBackends, List.map_cons, List.nodup_cons]
      simp only [List.forall_mem_cons]
      cases hb : validateBackend parseURL i b seenIDs with
      | error e =>
          have hnot : ¬ (ValidBackend parseURL b ∧ seenIDs.lookup b.id = none) := by
            rintro ⟨hvalid, hnone⟩
            rw [validateBackend_iff.mpr ⟨hvalid, hnone, rfl⟩] at hb
            contradiction
          simp only [reduceCtorEq, false_iff]
          exact fun h => hnot ⟨h.1.1, h.2.2.1⟩
      | ok seenIDs' =>
          obtain ⟨hvalid, hnone, rfl⟩ := validateBackend_iff.mp hb
          simp only [ih, GoMap.lookup_insert_eq]
          grind

/-- The map of the weights has one entry for each. -/
theorem lookup_weights {s : ScorerConfig} {name : String} {weight : Float64} :
    s.weights.lookup name = some weight ↔
      name = "eviction_risk_weight" ∧ weight = s.evictionRiskWeight ∨
      name = "queue_depth_weight" ∧ weight = s.queueDepthWeight ∨
      name = "cache_hit_weight" ∧ weight = s.cacheHitWeight := by
  simp only [ScorerConfig.weights, GoMap.lookup_insert_eq, Finmap.lookup_empty]
  grind

/-- Every visiting order finds the same verdict on the weights. -/
theorem validateWeights_iff {order : GoMap.RangeOrder String Float64} {s : ScorerConfig} :
    validateWeights order s = .ok () ↔ s.cacheHitWeight.Accepted ∧
      s.queueDepthWeight.Accepted ∧ s.evictionRiskWeight.Accepted := by
  have hnone : validateWeights order s = .ok () ↔
      ∀ name weight, s.weights.lookup name = some weight → weight.rejected = false := by
    unfold validateWeights
    split
    · next w hfind =>
        have hmem := order.mem_visit.mp (List.mem_of_find?_eq_some hfind)
        have hrejected := List.find?_some hfind
        simp only [reduceCtorEq, false_iff]
        intro hall
        rw [hall _ _ hmem] at hrejected
        contradiction
    · next hfind =>
        rw [List.find?_eq_none] at hfind
        simp only [true_iff]
        intro name weight hlookup
        simpa using hfind ⟨name, weight⟩ (order.mem_visit.mpr hlookup)
  rw [hnone, ← Float64.rejected_iff, ← Float64.rejected_iff, ← Float64.rejected_iff]
  simp only [lookup_weights]
  constructor
  · intro h
    exact ⟨h _ _ (.inr (.inr ⟨rfl, rfl⟩)), h _ _ (.inr (.inl ⟨rfl, rfl⟩)), h _ _ (.inl ⟨rfl, rfl⟩)⟩
  · rintro ⟨hcache, hqueue, hrisk⟩ name weight (⟨-, rfl⟩ | ⟨-, rfl⟩ | ⟨-, rfl⟩)
    · exact hrisk
    · exact hqueue
    · exact hcache

/-- **What `validate` accepts.** -/
theorem validate_iff {order : GoMap.RangeOrder String Float64} {c : Config} :
    validate parseURL order c = .ok () ↔ Valid parseURL c := by
  unfold validate
  constructor
  · intro h
    split_ifs at h with haddr hbackends hblock
    split at h
    · contradiction
    · next hall =>
        obtain ⟨heach, hids, -⟩ := validateBackends_iff.mp hall
        obtain ⟨hcache, hqueue, hrisk⟩ := validateWeights_iff.mp h
        have hne : c.backends ≠ [] := fun hnil => hbackends (by rw [hnil]; rfl)
        exact ⟨haddr, hne, Int64.not_le.mp hblock, heach, hids,
          hcache, hqueue, hrisk⟩
  · intro h
    have hall : validateBackends parseURL 0 c.backends ∅ = .ok () :=
      validateBackends_iff.mpr ⟨h.each, h.ids, fun b _ => Finmap.lookup_empty b.id⟩
    rw [if_neg h.listenAddr, if_neg (by simpa using h.backends),
      if_neg (Int64.not_le.mpr h.blockSize), hall]
    exact validateWeights_iff.mpr ⟨h.cacheHit, h.queueDepth, h.evictionRisk⟩

/-- A loaded configuration is valid. -/
theorem valid_of_loadConfig {order : GoMap.RangeOrder String Float64} {path : String}
    {file : Except String Bytes} {decode : Bytes → Except String Config} {c : Config}
    (h : loadConfig parseURL order path file decode = .ok c) : Valid parseURL c := by
  unfold loadConfig at h
  split at h
  · contradiction
  · split at h
    · contradiction
    · split at h
      · contradiction
      · next hvalid =>
          rw [Except.ok.injEq] at h
          exact h ▸ validate_iff.mp hvalid

/-- The defaults pass the checks of the fields they fill. -/
theorem defaults_accepted : 0 < defaultBlockSize ∧ defaultScorer.cacheHitWeight.Accepted ∧
    defaultScorer.queueDepthWeight.Accepted ∧ defaultScorer.evictionRiskWeight.Accepted :=
  ⟨by decide, ⟨1, by norm_num, rfl⟩, ⟨1 / 2, by norm_num, rfl⟩, ⟨3 / 10, by norm_num, rfl⟩⟩

end Config

end KvRouter
