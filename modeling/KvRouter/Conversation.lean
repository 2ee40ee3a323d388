import KvRouter.Affinity
import KvRouter.Boot.Accepted
import KvRouter.Directory
import KvRouter.Handler.Reads
import KvRouter.Liveness

/-!
# KvRouter.Conversation

What the router is for, end to end: the next turn of a conversation finds the
blocks that an earlier turn has left on a backend, whatever other requests and
health checks the two are interleaved with.

* `cache_history` — the directory of a running router is that of a sequential
  history: the registrations of the configuration, then the commits of the log
  in the order in which they took effect;
* `totalTouches_history_le` — its key touches are bounded by the requests;
* `handler_records_match` — the match that a handler records is one that it has
  looked up;
* `turn_remembered` — with these, turn-to-turn affinity (`sticky_of_retained`)
  holds of the running router.
-/

namespace KvRouter

open CacheIndex Handler Interleave Prog Telemetry

/-! ## The directory of a run -/

/-- The call of the directory that an action makes. -/
def Act.call : Act → Option CacheIndex.Op
  | .commit id ns blocks now orders => some (.commit id ns blocks now orders)
  | _ => none

/-- The calls of the directory in a log, in the order in which they took effect. -/
def calls (log : Log) : List CacheIndex.Op := log.filterMap fun x => x.event.1.call

/-- The calls that `run` of `main` makes before it starts the server. -/
def registrations (backends : List Config.BackendConfig) : List CacheIndex.Op :=
  backends.map fun b => .register b.id b.cacheCapacityBlocks.toInt

/-- The calls of the directory since the start of the process. -/
def history (backends : List Config.BackendConfig) (log : Log) : List CacheIndex.Op :=
  registrations backends ++ calls log

@[simp] theorem calls_nil : calls [] = [] := rfl

@[simp] theorem calls_append (log later : Log) : calls (log ++ later) = calls log ++ calls later :=
  List.filterMap_append

theorem calls_cons (x : Entry World Act Act.Result) (log : Log) :
    calls (x :: log) = x.event.1.call.toList ++ calls log := by
  cases hx : x.event.1.call <;> simp [calls, hx]

@[simp] theorem history_append (backends : List Config.BackendConfig) (log later : Log) :
    history backends (log ++ later) = history backends log ++ calls later := by
  simp [history]

/-- The router registers no backend again. -/
theorem keeps_calls (id : String) (log : Log) : Keeps id (calls log) := by
  intro op hop capacity
  obtain ⟨x, -, hx⟩ := List.mem_filterMap.mp hop
  cases ha : x.event.1 with
  | commit =>
      simp only [ha, Act.call, Option.some.injEq] at hx
      simp [← hx]
  | _ => simp [ha, Act.call] at hx

/-- The calls before the start leave the directory of their own history. -/
theorem registerAll_eq (backends : List Config.BackendConfig) :
    registerAll backends = CacheIndex.run (registrations backends) := by
  rw [registerAll, CacheIndex.run, registrations, List.foldl_map]
  rfl

/-- An action changes the directory by its call. -/
theorem cache_sem_call (a : Act) (w : World) :
    (a.sem w).2.cache = a.call.toList.foldl Index.apply w.cache := by
  rw [cache_sem]
  cases a <;> rfl

section
variable {s : Server} {w : World} {checks : ChecksEnv} {requests : List Request} {log : Log}
  {c c' : System} {parseURL : String → Option Config.URL} {cfg : KvRouter.Config}
  {hvalid : Config.Valid parseURL cfg} {sum64 : Bytes → UInt64}
  {unmarshal : Bytes → Except String ChatCompletionRequest}

/-- **The directory of a running router** is that of the calls since the start, one after another
in the order in which they took effect. -/
theorem cache_history (hboot : boot sum64 unmarshal cfg hvalid = .ok (s, w))
    (hw : c.shared = w) (h : Steps c log c') :
    c'.shared.cache = CacheIndex.run (history cfg.backends log) := by
  obtain ⟨pool, -, -, rfl⟩ := boot_eq_ok_iff.mp hboot
  refine h.invariant (I := fun log w => w.cache = CacheIndex.run (history cfg.backends log)) ?_ ?_
  · simp [hw, history, registerAll_eq]
  · intro earlier x later hlog hnow
    rw [cache_sem_call, hnow, history_append, calls_cons, calls_nil, List.append_nil]
    simp [CacheIndex.run]

end

/-! ## The touches of a run -/

/-- How many blocks an event commits. -/
def blocksCommitted (e : Event) : ℕ := (e.1.call.map CacheIndex.Op.size).getD 0

def Handler.Effect.size : Effect → ℕ
  | .committed _ _ blocks _ _ => blocks.length
  | _ => 0

/-- The number of blocks of the prompt of a request. -/
def promptBlocks (s : Server) (r : Request) : ℕ :=
  match prepare s r with
  | .ok c => c.hashes.length
  | .error _ => 0

/-- The blocks of the calls are those of the events. -/
theorem sum_size_calls (log : Log) :
    ((calls log).map CacheIndex.Op.size).sum = ((log.map (·.event)).map blocksCommitted).sum := by
  induction log with
  | nil => rfl
  | cons x log ih =>
      rw [calls_cons, List.map_append, List.sum_append, ih, List.map_cons, List.map_cons,
        List.sum_cons, blocksCommitted]
      cases x.event.1.call <;> simp

/-- What an event commits is what its effect commits. -/
theorem blocksCommitted_eq (e : Event) :
    blocksCommitted e = ((effectOf e).map Effect.size).getD 0 := by
  obtain ⟨a, r⟩ := e
  cases a with
  | casDepth => cases r <;> rfl
  | _ => rfl

/-- The blocks committed in a trace are those of its effects. -/
theorem sum_blocksCommitted (h : List Event) :
    (h.map blocksCommitted).sum = ((effects h).map Effect.size).sum := by
  induction h with
  | nil => rfl
  | cons e h ih =>
      rw [List.map_cons, List.sum_cons, ih, blocksCommitted_eq, effects, effects]
      cases he : effectOf e <;> simp [he]

/-- A handler commits its prompt at most once. -/
theorem Handler.HandlerEffects.size_le {s : Server} {r : Request} {out : Outcome}
    {es : List Effect} (h : HandlerEffects s r out es) :
    (es.map Effect.size).sum ≤ promptBlocks s r := by
  obtain ⟨-, rfl⟩ | ⟨c, b, hc, -, -, rfl⟩ := h
  · exact Nat.zero_le _
  · simp only [promptBlocks, hc]
    split <;> simp [Effect.size, observation]

/-- A bound on the blocks that each thread of the router commits. -/
def Router.commits (s : Server) (checks : ChecksEnv) (requests : List Request) : List ℕ :=
  (s.pool.startHealthChecks checks).map (fun _ => 0) ++ requests.map (promptBlocks s)

section
variable {s : Server} {w : World} {checks : ChecksEnv} {requests : List Request} {log : Log}
  {c : System}

theorem Router.length_commits : (Router.commits s checks requests).length =
    (Router.start s w checks requests).threads.length := by
  simp [Router.commits, Router.start]

theorem Router.sum_commits (s : Server) (checks : ChecksEnv) (requests : List Request) :
    (Router.commits s checks requests).sum = (requests.map (promptBlocks s)).sum := by
  simp [Router.commits]

/-- Every thread keeps to its bound. -/
theorem Router.within_commits {i : ℕ} (hi : i < (Router.commits s checks requests).length) :
    ∃ p, (Router.start s w checks requests).threads[i]? = some (.start p) ∧
      ObeysEffects s.pool
        (fun _ es => (es.map Effect.size).sum ≤ (Router.commits s checks requests)[i]) [] p := by
  obtain ⟨t, ht⟩ : ∃ t, (Router.start s w checks requests).threads[i]? = some t :=
    ⟨_, List.getElem?_eq_getElem (by rwa [← Router.length_commits])⟩
  obtain ⟨b, hb, rfl⟩ | ⟨hnone, -⟩ := Router.start_thread ht
  · refine ⟨_, ht, (obeys_of_quiet ?_).mono fun _ h hh => ?_⟩
    · exact (onHealth_prog checks b).mono fun _ => quiet_of_onHealth
    · rw [hh]
      exact Nat.zero_le _
  · have hle : s.pool.size ≤ i := by
      rwa [List.getElem?_eq_none_iff, s.pool.length_visit] at hnone
    obtain ⟨j, rfl⟩ := Nat.exists_eq_add_of_le hle
    have hj : j < requests.length := by
      simp only [Router.commits, List.length_append, List.length_map,
        length_startHealthChecks] at hi
      omega
    refine ⟨(Task.request requests[j]).prog s, ?_, ?_⟩
    · simp [Router.start, length_startHealthChecks, hj]
    · have hbound : (Router.commits s checks requests)[s.pool.size + j] =
          promptBlocks s requests[j] := by
        simp [Router.commits, length_startHealthChecks]
      rw [hbound]
      exact Obeys.bind ((handler_contract s requests[j]).mono fun _ _ hout => hout.size_le)

/-- Once every thread has returned, the blocks committed are no more than the prompts had. -/
theorem Router.blocks_le (h : Steps (Router.start s w checks requests) log c)
    (hall : ∀ t ∈ c.threads, ∃ x, t.prog = .ret x) :
    ((calls log).map CacheIndex.Op.size).sum ≤ (requests.map (promptBlocks s)).sum := by
  rw [sum_size_calls, ← Router.sum_commits s checks requests]
  have hlog : ∀ x ∈ log, x.who < (Router.commits s checks requests).length := by
    rw [Router.length_commits (w := w)]
    exact h.who_lt
  refine sum_log_le blocksCommitted hlog fun i hi => ?_
  obtain ⟨p, hp, hobeys⟩ := Router.within_commits (w := w) hi
  have hlt : i < c.threads.length := by rwa [h.length_threads, ← Router.length_commits]
  obtain ⟨x, hx⟩ := hall _ (List.getElem_mem hlt)
  rw [sum_blocksCommitted]
  exact h.finished hp hobeys (List.getElem?_eq_getElem hlt) hx

/-- **The key touches of a run** are at most the blocks of the prompts of its requests. -/
theorem totalTouches_history_le (backends : List Config.BackendConfig)
    (h : Steps (Router.start s w checks requests) log c) :
    totalTouches (history backends log) ≤ (requests.map (promptBlocks s)).sum := by
  -- the run can be brought to its end
  obtain ⟨schedule, hschedule⟩ := h.exists_schedule
  obtain ⟨rest, log', c', hrest, hreturned⟩ := Router.completes hschedule
  have hend := Router.blocks_le (h.scheduled hrest) hreturned.all
  have hregistrations : ((registrations backends).map CacheIndex.Op.size).sum = 0 := by
    simp [registrations, Function.comp_def, CacheIndex.Op.size]
  refine (totalTouches_le _).trans (le_trans ?_ hend)
  rw [history, List.map_append, List.sum_append, hregistrations, calls_append, List.map_append,
    List.sum_append]
  omega

end

/-! ## The match of a record -/

/-- The event of a route carries a match that the handler has looked up. -/
def MatchRead (s : Server) (r : Request) (h : List Event) : Act → Prop
  | .writeRing event => ∃ (c : Chat) (m : ℕ), prepare s r = .ok c ∧ event.matchedBlocks = m ∧
      (⟨.lookup event.backendID c.namespace c.hashes, m⟩ : Event) ∈ h
  | _ => True

/-- The contract restricts only what is recorded. -/
theorem matchRead_of_ne {s : Server} {r : Request} (h : List Event) {a : Act}
    (ha : ∀ event, a ≠ .writeRing event) : MatchRead s r h a := by
  cases a with
  | writeRing event => exact absurd rfl (ha event)
  | _ => trivial

/-- The match kept for a backend is that of one of its states. -/
theorem exists_match {states : List Scorer.BackendState} {st : Scorer.BackendState}
    (hst : st ∈ states) : ∃ st' ∈ states, st'.id = st.id ∧
      (matchesByBackend states).lookup st.id = some st'.matchedBlocks := by
  induction states using List.reverseRecOn with
  | nil => contradiction
  | append_singleton states last ih =>
      rw [matchesByBackend, List.foldl_append, List.foldl_cons, List.foldl_nil,
        GoMap.lookup_insert_eq]
      by_cases hid : st.id = last.id
      · exact ⟨last, by simp, hid.symm, if_pos hid⟩
      · have hmem : st ∈ states := by
          rw [List.mem_append, List.mem_singleton] at hst
          exact hst.resolve_right fun heq => hid (by rw [heq])
        obtain ⟨st', hst', hid', hlookup⟩ := ih hmem
        exact ⟨st', List.mem_append_left _ hst', hid', (if_neg hid).trans hlookup⟩

/-- The match that a request dispatches with was looked up. -/
theorem Snapshot.looked_up {p : Pool} {c : Chat} {h : List Event}
    {states : List Scorer.BackendState} (hsnap : Snapshot p c h states)
    {st : Scorer.BackendState} (hst : st ∈ states) :
    ∃ m : ℕ, ((matchesByBackend states).lookup st.id).getD 0 = m ∧
      (⟨.lookup st.id c.namespace c.hashes, m⟩ : Event) ∈ h := by
  obtain ⟨st', hst', hid, hlookup⟩ := exists_match hst
  obtain ⟨b, -, -, m, u, v, hm, -, -, rfl⟩ := hsnap.read st' hst'
  exact ⟨m, by rw [hlookup]; rfl, hid ▸ hm⟩

/-- **The match that a handler records** is one that it has looked up on the backend that it
records, under every interleaving. -/
theorem handler_records_match (s : Server) (r : Request) :
    Obeys (MatchRead s r) (fun _ _ => True) [] (handleChatCompletions s r) := by
  have hread (h : List Event) (a : Act) (ha : IsRead a) : MatchRead s r h a := by
    refine matchRead_of_ne h fun event heq => ?_
    subst heq
    exact ha
  refine obeys_of_snapshot hread (fun _ _ => trivial) (fun _ _ _ _ => trivial)
    fun c states h hc hsnap => ?_
  refine Obeys.bind ((reserveFirst_selects hread (fun _ _ _ _ => trivial) s.pool _).mono
    fun sel h' hsel => ?_)
  cases sel with
  | none => trivial
  | some x =>
      obtain ⟨b, state⟩ := x
      obtain ⟨hsub, hsel⟩ := hsel
      have hstate : state ∈ states :=
        (List.mem_filter.mp ((Scorer.perm_rank _ _ _).mem_iff.mp (hsel b state rfl).1)).1
      obtain ⟨m, hm, hlookup⟩ := hsnap.looked_up hstate
      have hdispatch : (dispatch r ⟨c, b, state,
          ((matchesByBackend states).lookup state.id).getD 0,
          Scorer.score s.weights c.routeReq state⟩).Uses fun a => ∀ event, a = .writeRing event →
            event.backendID = state.id ∧ event.matchedBlocks = (m : ℤ) :=
        uses_dispatch (fun a _ hne event heq => absurd heq (hne event))
          (fun event heq => by simp [commitCacheObservation] at heq)
          fun status ttftMillis id event heq => by
            cases heq
            exact ⟨rfl, hm⟩
      refine Obeys.bind ((hdispatch.obeys
        (I := fun h'' => (⟨.lookup state.id c.namespace c.hashes, m⟩ : Event) ∈ h'') ?_ ?_
        (hsub hlookup)).mono fun out h'' _ => ⟨trivial, fun _ => trivial⟩)
      · intro h'' a hh'' ha
        cases a with
        | writeRing event =>
            obtain ⟨hid, hmatch⟩ := ha event rfl
            exact ⟨c, m, hc, hmatch, hid ▸ hh''⟩
        | _ => trivial
      · exact fun h'' a x hh'' _ => List.mem_append_left _ hh''

/-! ## The next turn -/

/-- What a lookup for the turn `turn ++ E` is to find, after `turn` was committed: every whole
block of `turn`, and all of its blocks if nothing was said since. -/
structure Known (s : Server) (turn : Chat) (E : List Tokenizer.Message) (m : ℕ) : Prop where
  grown : (Tokenizer.flat turn.req.messages).length / s.tokenizer.blockSize.toNat ≤ m
  same : E = [] → m = turn.hashes.length

/-- What thread `j` finds of `turn` on backend `id` in the part `after` of a log `earlier ++ after`,
if its request continues `turn` by `E`. -/
structure Remembered (s : Server) (turn next : Chat) (E : List Tokenizer.Message) (id : String)
    (j : ℕ) (earlier after : Log) : Prop where
  /-- Every lookup of the longer prompt finds the turn. -/
  found : ∀ y ∈ after, ∀ m : ℕ, y.event = ⟨.lookup id next.namespace next.hashes, m⟩ →
    Known s turn E m
  /-- If the backend serves the request, the event that is recorded shows it. -/
  recorded : own j earlier = [] → ∀ y ∈ after, y.who = j → ∀ event, y.event.1 = .writeRing event →
    event.backendID = id → ∃ m : ℕ, event.matchedBlocks = m ∧ Known s turn E m

/-- The hashes of a prepared request are those of its messages. -/
theorem hashPrefix_of_prepare {s : Server} {r : Request} {c : Chat} (h : prepare s r = .ok c) :
    s.tokenizer.hashPrefix s.sum64 c.req.messages = .ok c.hashes := by
  unfold prepare at h
  split at h
  · contradiction
  · split at h
    · contradiction
    · next hhash =>
        obtain rfl := Except.ok.inj h
        exact hhash

section
variable {s : Server} {w : World} {checks : ChecksEnv} {requests : List Request} {log : Log}
  {c : System} {parseURL : String → Option Config.URL} {cfg : KvRouter.Config}
  {hvalid : Config.Valid parseURL cfg} {sum64 : Bytes → UInt64}
  {unmarshal : Bytes → Except String ChatCompletionRequest}

/-- **What a turn has committed stays** while the other pairs committed to the backend since then
fit beside it. -/
theorem Router.retained (hvalid : Config.Valid parseURL cfg)
    (h : Steps (Router.start s w checks requests) log c)
    (hclock : (CacheIndex.readings (calls log)).Pairwise (· ≤ ·))
    (htouch : (requests.map (promptBlocks s)).sum < 2 ^ 64) {earlier after : Log}
    {x : Entry World Act Act.Result} (hlog : log = earlier ++ x :: after)
    {b : Config.BackendConfig} (hb : b ∈ cfg.backends) {ns : String} {hashes : List UInt64}
    {now : Instant} {orders : ℕ → ScanOrder} (hx : x.event.1 = .commit b.id ns hashes now orders)
    (hroom : (((touched b.id (calls after)).filter (· ∉ pairsOf ns hashes)).dedup.length : ℤ) +
      hashes.length ≤ b.cacheCapacityBlocks.toInt) :
    ∃ cache, (CacheIndex.run (history cfg.backends log)).backends.lookup b.id = some cache ∧
      ∀ p ∈ pairsOf ns hashes, Retained cache p := by
  have hhistory : history cfg.backends log =
      history cfg.backends earlier ++ .commit b.id ns hashes now orders :: calls after := by
    rw [hlog, history_append, calls_cons, hx]
    rfl
  obtain ⟨cache, hcache, hcap⟩ : ∃ cache,
      (CacheIndex.run (history cfg.backends log)).backends.lookup b.id = some cache ∧
        cache.capacity = b.cacheCapacityBlocks.toInt := by
    have hregistered : (CacheIndex.run (registrations cfg.backends)).backends.lookup b.id =
        some ⟨b.cacheCapacityBlocks.toInt, ∅⟩ := by
      rw [← registerAll_eq]
      exact (lookup_registerAll hvalid.ids).mpr ⟨b, hb, rfl, rfl⟩
    exact lookup_run_append hregistered (keeps_calls b.id log)
  have hpos : 0 < cache.capacity := hcap ▸ toInt_pos (hvalid.each b hb).cacheCapacityBlocks
  have hreadings : CacheIndex.readings (history cfg.backends log) =
      CacheIndex.readings (calls log) := by
    have hnone : CacheIndex.readings (registrations cfg.backends) = [] := by
      simp [CacheIndex.readings, registrations, List.filterMap_map, CacheIndex.Op.reading]
    rw [history, CacheIndex.readings, List.filterMap_append]
    exact congrArg (· ++ _) hnone
  have htotal := totalTouches_history_le cfg.backends h
  refine ⟨cache, hcache, ?_⟩
  rw [hhistory] at hcache htotal hreadings
  exact retained_of_recent (hreadings ▸ hclock) (by omega) (keeps_calls b.id after) hcache hpos
    (by omega)

/-- A shorter log has fewer readings, in the same order. -/
theorem pairwise_readings_of_append {log later : Log}
    (hclock : (CacheIndex.readings (calls (log ++ later))).Pairwise (· ≤ ·)) :
    (CacheIndex.readings (calls log)).Pairwise (· ≤ ·) := by
  rw [calls_append, CacheIndex.readings, List.filterMap_append] at hclock
  exact (List.pairwise_append.mp hclock).1

/-- A shorter log touches fewer other pairs. -/
theorem length_others_le (id : String) (P : List Pair) (log later : Log) :
    ((touched id (calls log)).filter (· ∉ P)).dedup.length ≤
      ((touched id (calls (log ++ later))).filter (· ∉ P)).dedup.length := by
  rw [calls_append, touched_append _ (keeps_calls id later), List.filter_append]
  exact Recency.length_dedup_le_of_subset (List.subset_append_left _ _)

/-- **The next turn finds the last one**: in every run from the start of the process, once a turn of
a conversation is committed to a backend, the requests that continue it find it there, whatever
happens in between, as long as what is committed to the backend meanwhile fits beside it. -/
theorem turn_remembered (hboot : boot sum64 unmarshal cfg hvalid = .ok (s, w))
    (h : Steps (Router.start s w checks requests) log c)
    (hclock : (CacheIndex.readings (calls log)).Pairwise (· ≤ ·))
    (htouch : (requests.map (promptBlocks s)).sum < 2 ^ 64) {first second : Request}
    {turn next : Chat} (hfirst : prepare s first = .ok turn) (hsecond : prepare s second = .ok next)
    (hmodel : next.req.model = turn.req.model) {E : List Tokenizer.Message}
    (hmessages : next.req.messages = turn.req.messages ++ E)
    {earlier after : Log} {x : Entry World Act Act.Result} (hlog : log = earlier ++ x :: after)
    {b : Config.BackendConfig} (hb : b ∈ cfg.backends) {now : Instant} {orders : ℕ → ScanOrder}
    (hx : x.event.1 = .commit b.id turn.namespace turn.hashes now orders)
    (hroom : (((touched b.id (calls after)).filter
      (· ∉ pairsOf turn.namespace turn.hashes)).dedup.length : ℤ) + turn.hashes.length ≤
        b.cacheCapacityBlocks.toInt)
    {j : ℕ} (hj : (Router.start s w checks requests).threads[j]? =
      some (.start ((Task.request second).prog s))) :
    Remembered s turn next E b.id j (earlier ++ [x]) after := by
  have hturn := hashPrefix_of_prepare hfirst
  have hnext := hashPrefix_of_prepare hsecond
  have hnamespace : next.namespace = turn.namespace := by
    rw [Chat.namespace, hmodel, Chat.namespace]
  have hfound : ∀ y ∈ after, ∀ m : ℕ, y.event = ⟨.lookup b.id next.namespace next.hashes, m⟩ →
      Known s turn E m := by
    intro y hy m hevent
    obtain ⟨mid, rest, rfl⟩ := List.append_of_mem hy
    have hsplit : log = (earlier ++ x :: mid) ++ y :: rest := by simp [hlog]
    obtain ⟨threads, hpath⟩ := h.before hsplit
    obtain ⟨cache, hcache, hretained⟩ := Router.retained hvalid hpath
      (pairwise_readings_of_append (hsplit ▸ hclock)) htouch rfl hb hx (by
        have hfewer := length_others_le b.id (pairsOf turn.namespace turn.hashes) mid (y :: rest)
        omega)
    have hsticky := sticky_of_retained hcache hturn (hmessages ▸ hnext) hretained
    have hanswer : m = y.before.cache.lookup b.id next.namespace next.hashes := by
      have hsound := h.sound y (by simp [hsplit])
      rw [hevent] at hsound
      exact hsound
    have hdirectory : y.before.cache =
        CacheIndex.run (history cfg.backends (earlier ++ x :: mid)) :=
      cache_history hboot rfl hpath
    rw [hdirectory, hnamespace] at hanswer
    refine ⟨hanswer ▸ hsticky.grown, ?_⟩
    rintro rfl
    rw [List.append_nil] at hmessages
    rw [hmessages, hturn, Except.ok.injEq] at hnext
    rw [hanswer, ← hnext, hsticky.same]
  refine ⟨hfound, fun hstart y hy hwho event hevent hid => ?_⟩
  obtain ⟨mid, rest, rfl⟩ := List.append_of_mem hy
  have hsplit : log = (earlier ++ [x] ++ mid) ++ y :: rest := by simp [hlog]
  have hrecords : Obeys (MatchRead s second) (fun _ _ => True) [] ((Task.request second).prog s) :=
    Obeys.bind ((handler_records_match s second).mono fun _ _ _ => trivial)
  have hmatch := h.permitted hj hrecords hsplit hwho
  rw [hevent] at hmatch
  obtain ⟨c', m, hprepare, hm, hlookup⟩ := hmatch
  obtain rfl : c' = next := Except.ok.inj (hprepare.symm.trans hsecond)
  rw [Thread.start, List.nil_append, own_append, hstart, List.nil_append, hid] at hlookup
  obtain ⟨z, hz, -, hz'⟩ := mem_own.mp hlookup
  exact ⟨m, hm, hfound z (List.mem_append_left _ hz) m hz'⟩

end

/-! ## A turn and its reply -/

namespace Sample

/-- What a commit leaves on which backend. -/
def commitOf : Act → Option (String × String × List UInt64 × Instant)
  | .commit id ns blocks now _ => some (id, ns, blocks, now)
  | _ => none

/-- Only a commit leaves anything. -/
theorem eq_commit_of_commitOf {a : Act} {id ns : String} {blocks : List UInt64} {now : Instant}
    (h : commitOf a = some (id, ns, blocks, now)) :
    ∃ orders, a = .commit id ns blocks now orders := by
  cases a with
  | commit id' ns' blocks' now' orders =>
      cases h
      exact ⟨orders, rfl⟩
  | _ => cases h

/-- The backend comes up and serves the first turn, and while that is recorded the second turn
looks it up. -/
def turns : List ℕ :=
  List.replicate 8 0 ++ List.replicate 9 1 ++ [2, 1, 2, 1, 2, 1, 2, 1] ++ List.replicate 10 2

/-- What the turns come to: entry 15 of the log is the commit of the first, which is a match for the
second, and the second touches one more block. -/
def Replied (x : Log × System) : Prop :=
  (x.1[15]?.bind fun y => commitOf y.event.1) =
      some ("a", firstTurn.namespace, firstTurn.hashes, commitTime) ∧
    (x.2.result 2).bind Done.served = some "a" ∧ x.2.shared.telemetry.cacheHits = 1 ∧
    CacheIndex.readings (calls x.1) = [3, 3] ∧
    ((touched "a" (calls (x.1.drop 16))).filter
      (· ∉ pairsOf firstTurn.namespace firstTurn.hashes)).dedup.length = 1

instance : DecidablePred Replied := fun _ => inferInstanceAs (Decidable (_ ∧ _ ∧ _ ∧ _ ∧ _))

/-- The second turn finds the block of the first, on the backend that the first has left it on. -/
theorem exists_reply :
    let first := turnRequest none default fun _ => default
    let second := turnRequest (some "hi") default fun _ => default
    ∃ earlier x after c,
      Steps (Router.start (turnServer pool) booted (checks default) [first, second])
        (earlier ++ x :: after) c ∧
      (∃ orders, x.event.1 =
        .commit "a" firstTurn.namespace firstTurn.hashes first.commitTime orders) ∧
      (c.result 2).bind Done.served = some "a" ∧ c.shared.telemetry.cacheHits = 1 ∧
      (CacheIndex.readings (calls (earlier ++ x :: after))).Pairwise (· ≤ ·) ∧
      ((touched "a" (calls after)).filter
        (· ∉ pairsOf firstTurn.namespace firstTurn.hashes)).dedup.length = 1 := by
  intro first second
  obtain ⟨log, c, hpath, hreplied⟩ : ∃ log c,
      Steps (Router.start (turnServer pool) booted (checks default) [first, second]) log c ∧
        decide (Replied (log, c)) = true := by
    refine Path.exists_of_scheduled turns (fun x => decide (Replied x)) ?_
    obtain ⟨hfirst, hsecond, -⟩ := prepare_turnRequest pool default fun _ => default
    rw [start_eq rfl, List.map_cons, List.map_cons, prog_of_prepare rfl hfirst,
      prog_of_prepare rfl hsecond]
    decide +kernel
  obtain ⟨hcommit, hserved, hhits, hreadings, hothers⟩ := of_decide_eq_true hreplied
  obtain ⟨x, hx, hcommit⟩ := Option.bind_eq_some_iff.mp hcommit
  obtain ⟨hlt, rfl⟩ := List.getElem?_eq_some_iff.mp hx
  have hsplit : log.take 15 ++ log[15] :: log.drop 16 = log := by
    rw [← List.drop_eq_getElem_cons hlt, List.take_append_drop]
  refine ⟨log.take 15, log[15], log.drop 16, c, by rwa [hsplit], eq_commit_of_commitOf hcommit,
    hserved, hhits, ?_, hothers⟩
  rw [hsplit, hreadings]
  decide

end Sample

/-- A turn and the next one, which adds the reply, at a router whose backend comes up. -/
theorem turn_remembered_reply :
    let first := Sample.turnRequest none default fun _ => default
    let second := Sample.turnRequest (some "hi") default fun _ => default
    ∃ s w earlier x after c,
      boot Sample.turnSum64 Sample.turnUnmarshal Sample.config Sample.valid_config = .ok (s, w) ∧
      Steps (Router.start s w (Sample.checks default) [first, second]) (earlier ++ x :: after) c ∧
      (∃ orders, x.event.1 = .commit "a" Sample.firstTurn.namespace Sample.firstTurn.hashes
        first.commitTime orders) ∧
      (c.result 2).bind Done.served = some "a" ∧ c.shared.telemetry.cacheHits = 1 ∧
      Remembered s Sample.firstTurn Sample.hiTurn
        [⟨Sample.ascii "assistant", Sample.ascii "hi"⟩] "a" 2 (earlier ++ [x]) after := by
  intro first second
  obtain ⟨earlier, x, after, c, hpath, ⟨orders, hx⟩, hserved, hhits, hclock, hothers⟩ :=
    Sample.exists_reply
  obtain ⟨hfirst, hsecond, -⟩ := Sample.prepare_turnRequest Sample.pool default fun _ => default
  have htouch :
      ([first, second].map (promptBlocks (Sample.turnServer Sample.pool))).sum < 2 ^ 64 := by
    simp [first, second, promptBlocks, hfirst, hsecond, Sample.firstTurn, Sample.hiTurn]
  refine ⟨_, _, earlier, x, after, c, Sample.boot_turnServer, hpath, ⟨orders, hx⟩, hserved, hhits,
    turn_remembered Sample.boot_turnServer hpath hclock htouch hfirst hsecond rfl rfl rfl
      (List.mem_singleton_self _) hx ?_ ?_⟩
  · rw [hothers]
    decide
  · rw [Sample.start_eq rfl]
    rfl

end KvRouter
