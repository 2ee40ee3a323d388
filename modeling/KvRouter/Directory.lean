import KvRouter.Boot
import KvRouter.System

/-!
# KvRouter.Directory

The memory of the directory is bounded by the configuration, whatever models the
clients name.  A handler only commits the hashes of a prompt it has parsed,
which are never none (`uses_filledCommit`), so every action keeps the directory
within its bounds (`Configured`), and so does every run from the start of the
process.
-/

namespace KvRouter

open CacheIndex Config Handler Interleave

/-! ## The commits of a run -/

/-- A commit carries at least one block. -/
def FilledCommit : Act → Prop
  | .commit _ _ blocks _ _ => blocks ≠ []
  | _ => True

theorem filledCommit_of_quiet {a : Act} (ha : Quiet a) : FilledCommit a := by
  cases a with
  | commit id ns blocks now orders => exact absurd (ha ()) (Option.some_ne_none _)
  | _ => trivial

/-- The handler refuses a request without messages, and the rest have blocks. -/
theorem hashes_ne_nil {s : Server} {r : Request} {c : Chat} (h : prepare s r = .ok c) :
    c.hashes ≠ [] := by
  unfold prepare at h
  split at h
  · contradiction
  · next req hparse =>
      have hmessages : req.messages ≠ [] := by
        unfold parse at hparse
        split at hparse
        · contradiction
        · split at hparse
          · contradiction
          · split at hparse
            · contradiction
            · next hlen =>
                rw [Except.ok.injEq] at hparse
                subst hparse
                exact fun hnil => hlen (by rw [hnil]; rfl)
      split at h
      · contradiction
      · next hashes hhash =>
          rw [Except.ok.injEq] at h
          subst h
          exact Tokenizer.hashPrefix_ne_nil hmessages hhash

/-- Every task commits at least one block, or none at all. -/
theorem uses_filledCommit (s : Server) (t : Task) : (t.prog s).Uses FilledCommit := by
  cases t with
  | request r =>
      have hhandler : (handleChatCompletions s r).Uses FilledCommit :=
        uses_handleChatCompletions (fun _ => filledCommit_of_quiet) (fun _ _ _ => trivial)
          (fun _ _ => trivial) fun c hc _ => hashes_ne_nil hc
      exact hhandler.bind fun _ => trivial
  | probe b ping =>
      have hprobe : (KvRouter.probe b ping).Uses FilledCommit :=
        (quiet_probe b ping).mono fun _ => filledCommit_of_quiet
      exact hprobe.bind fun _ => trivial

/-- Every commit in the log of a run carries at least one block. -/
theorem filledCommit_run {s : Server} {w : World} {tasks : List Task} {log : Log} {c : System}
    (h : Steps (System.start s w tasks) log c) : ∀ x ∈ log, FilledCommit x.event.1 := by
  refine h.performs fun t ht => ?_
  obtain ⟨task, -, rfl⟩ := List.mem_map.mp ht
  exact uses_filledCommit s task

/-! ## The directory of a running server -/

/-- The directory holds the configured backends, each with its capacity and within its bounds,
and no others. -/
structure Configured (backends : List Config.BackendConfig) (i : Index) : Prop where
  only : ∀ id b, i.backends.lookup id = some b → ∃ cfg ∈ backends, cfg.id = id ∧
    b.capacity = cfg.cacheCapacityBlocks.toInt ∧ Bounded b
  every : ∀ cfg ∈ backends, ∃ b, i.backends.lookup cfg.id = some b

/-- Every action but a commit leaves the directory alone. -/
theorem cache_sem (a : Act) (w : World) :
    (a.sem w).2.cache = match a with
      | .commit id ns blocks now orders => w.cache.commit id ns blocks now orders
      | _ => w.cache := by
  cases a with
  | casHealthy id old new | casDepth id old new =>
      simp only [Act.sem]
      split <;> rfl
  | _ => rfl

/-- A commit keeps the configured backends, each within its capacity. -/
theorem Configured.commit {backends : List Config.BackendConfig} {i : Index}
    (h : Configured backends i) (id ns : String) {blocks : List UInt64} (hblocks : blocks ≠ [])
    (now : Instant) (orders : ℕ → ScanOrder) :
    Configured backends (i.commit id ns blocks now orders) where
  only id' b hb := by
    have hbounded : ∀ b', i.backends.lookup id' = some b' → Bounded b' := by
      intro b' hb'
      obtain ⟨cfg, -, -, -, hbound⟩ := h.only id' b' hb'
      exact hbound
    obtain ⟨hbound, b', hb', hcap⟩ := Bounded.commit hblocks now orders hbounded hb
    obtain ⟨cfg, hcfg, hid, hcap', -⟩ := h.only id' b' hb'
    exact ⟨cfg, hcfg, hid, hcap.trans hcap', hbound⟩
  every cfg hcfg := by
    obtain ⟨b, hb⟩ := h.every cfg hcfg
    have hop : ∀ capacity, Op.commit id ns blocks now orders ≠ .register cfg.id capacity :=
      fun _ => Op.noConfusion
    obtain ⟨b', hb', -⟩ := lookup_apply_some hb hop
    exact ⟨b', hb'⟩

/-- **Every action keeps the directory as configured.** -/
theorem Configured.sem {backends : List Config.BackendConfig} {w : World}
    (h : Configured backends w.cache) {a : Act} (ha : FilledCommit a) :
    Configured backends (a.sem w).2.cache := by
  rw [cache_sem]
  split
  · exact h.commit _ _ ha _ _
  · exact h

section
variable {parseURL : String → Option URL} {sum64 : Bytes → UInt64}
  {unmarshal : Bytes → Except String ChatCompletionRequest} {cfg : Config}
  {hvalid : Valid parseURL cfg} {s : Server} {w : World}

/-- The directory starts with the configured backends, all empty. -/
theorem configured_boot (hboot : boot sum64 unmarshal cfg hvalid = .ok (s, w)) :
    Configured cfg.backends w.cache := by
  obtain ⟨pool, -, -, rfl⟩ := boot_eq_ok_iff.mp hboot
  constructor
  · intro id b hb
    obtain ⟨b', hb', hid, rfl⟩ := (lookup_registerAll hvalid.ids).mp hb
    have hcap := toInt_pos (hvalid.each b' hb').cacheCapacityBlocks
    exact ⟨b', hb', hid, rfl, bounded_empty hcap.le⟩
  · intro b hb
    exact ⟨_, (lookup_registerAll hvalid.ids).mpr ⟨b, hb, rfl, rfl⟩⟩

/-- In every run from the start of the process, the directory is as configured whenever an action
takes effect, and at the end. -/
theorem configured_run (hboot : boot sum64 unmarshal cfg hvalid = .ok (s, w)) {tasks : List Task}
    {log : Log} {c : System} (h : Steps (System.start s w tasks) log c) :
    (∀ x ∈ log, Configured cfg.backends x.before.cache) ∧
      Configured cfg.backends c.shared.cache :=
  h.keeps (I := fun w => Configured cfg.backends w.cache) (configured_boot hboot)
    fun x hx hnow => hnow.sem (filledCommit_run h x hx)

/-- The bounds of the directory under a configuration. -/
structure MemoryBound (backends : List Config.BackendConfig) (i : Index) : Prop where
  /-- For each configured backend: buckets ≤ entries ≤ capacity. -/
  bounded : ∀ b ∈ backends, ∃ cache, i.backends.lookup b.id = some cache ∧
    GoMap.len cache.entries ≤ totalEntries cache ∧
    (totalEntries cache : ℤ) ≤ b.cacheCapacityBlocks.toInt
  /-- No bucket is empty. -/
  filled : ∀ id cache, i.backends.lookup id = some cache →
    ∀ ns entries, cache.entries.lookup ns = some entries → GoMap.len entries ≠ 0
  /-- There are no caches but those of the configured backends. -/
  configured : ∀ id, (i.backends.lookup id).isSome → ∃ b ∈ backends, b.id = id

/-- **Directory memory is bounded** by the configuration, in every state that any number of
requests and probes reach from the start of the process, under every interleaving. -/
theorem directory_bounded (hboot : boot sum64 unmarshal cfg hvalid = .ok (s, w))
    (tasks : List Task) {log : Log} {c : System} (h : Steps (System.start s w tasks) log c) :
    MemoryBound cfg.backends c.shared.cache where
  bounded b hb := by
    have hnow := (configured_run hboot h).2
    obtain ⟨cache, hcache⟩ := hnow.every b hb
    obtain ⟨b', hb', hid, hcap, hbound⟩ := hnow.only b.id cache hcache
    obtain rfl : b' = b := List.inj_on_of_nodup_map hvalid.ids hb' hb hid
    exact ⟨cache, hcache, hbound.filled.buckets_le, hcap ▸ hbound.within⟩
  filled id cache hcache ns entries hentries := by
    obtain ⟨b, -, -, -, hbound⟩ := (configured_run hboot h).2.only id cache hcache
    exact (hbound.filled ns entries hentries).ne'
  configured id hid := by
    obtain ⟨cache, hcache⟩ := Option.isSome_iff_exists.mp hid
    obtain ⟨b, hb, hb', -⟩ := (configured_run hboot h).2.only id cache hcache
    exact ⟨b, hb, hb'⟩

end

namespace Sample

/-- Two probes that admit the backend, and two requests with the same prompt. -/
def tasks (r : Request) : List Task :=
  [.probe backend true, .probe backend true, .request r, .request r]

/-- The second request finds the prompt in the directory, and leaves it there. -/
theorem exists_served_twice :
    let tasks := tasks (request default fun _ => default)
    ∃ log c, Steps (System.start (server pool) booted tasks) log c ∧
      c.shared.telemetry.requests = 2 ∧ c.shared.telemetry.cacheHits = 1 ∧
      (c.shared.cache.backends.lookup "a").map totalEntries = some 1 := by
  intro tasks
  obtain ⟨log, c, hsteps, hended⟩ : ∃ log c, Steps (System.start (server pool) booted tasks) log c ∧
      (c.shared.telemetry.requests, c.shared.telemetry.cacheHits,
        (c.shared.cache.backends.lookup "a").map totalEntries) = (2, 1, some 1) := by
    refine Path.exists_of_scheduled
      ([0, 0, 1, 1, 1, 1] ++ List.replicate 13 2 ++ List.replicate 14 3)
      (fun x : Log × System => (x.2.shared.telemetry.requests, x.2.shared.telemetry.cacheHits,
        (x.2.shared.cache.backends.lookup "a").map totalEntries)) ?_
    simp only [System.start, tasks, Sample.tasks, List.map_cons, List.map_nil]
    rw [prog_of_prepare rfl (prepare_request pool _ _)]
    decide +kernel
  simp only [Prod.mk.injEq] at hended
  exact ⟨log, c, hsteps, hended⟩

end Sample

/-- Two requests with one prompt, at a backend that two probes have admitted. -/
theorem directory_bounded_run :
    let tasks := Sample.tasks (Sample.request default fun _ => default)
    ∃ s w log c, boot Sample.sum64 Sample.unmarshal Sample.config Sample.valid_config =
        .ok (s, w) ∧
      Steps (System.start s w tasks) log c ∧ c.shared.telemetry.requests = 2 ∧
      MemoryBound Sample.config.backends c.shared.cache := by
  intro tasks
  obtain ⟨log, c, hsteps, hrequests, -⟩ := Sample.exists_served_twice
  exact ⟨_, _, log, c, Sample.boot_server, hsteps, hrequests,
    directory_bounded Sample.boot_server tasks hsteps⟩

end KvRouter
