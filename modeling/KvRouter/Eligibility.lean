import KvRouter.Handler.Solo

/-!
# KvRouter.Eligibility

Which backend a request selects when nobody else moves, and what a full backend
has to do with it.  The reserve loop skips a full backend, but `Rank` still sees
it: if it is the only one with a match, the others are ordered by score, where
without it they would be ordered by queue depth.

* `selected_first` — the selected backend is the first of the free ones in the
  order of the mode `Rank` is in;
* `chosen_without_iff` — exactly when removing a full backend changes nothing.
-/

namespace KvRouter

open Handler Prog
open Scorer (BackendState Weights rank score scoreKey depthKey)

/-! ## Removing a backend -/

/-- The backend whose ID the answer to a request carries. -/
def chosen (s : Server) (r : Handler.Request) (w : World) : Option String :=
  (exec Act.sem 1 (handleChatCompletions s r) w).bind fun x => x.1.writer.backend

/-- The chosen backend is the one that the answer names. -/
theorem chosen_eq (s : Server) (r : Handler.Request) (w : World) : chosen s r w = w.named s r := by
  obtain ⟨out, w', hexec, hheader⟩ := exec_handleChatCompletions 0 s r w
  rw [chosen, hexec, Option.bind_some, hheader]

/-- The pool with a backend removed. -/
def Pool.without (p : Pool) (id : String) : Pool where
  backends := p.backends.erase id
  keyed id' b h := by
    rw [GoMap.lookup_erase_eq] at h
    split at h
    · contradiction
    · exact p.keyed id' b h
  limited id' b h := by
    rw [GoMap.lookup_erase_eq] at h
    split at h
    · contradiction
    · exact p.limited id' b h

theorem Pool.get_without (p : Pool) (id id' : String) :
    (p.without id).get id' = if id' = id then none else p.get id' :=
  GoMap.lookup_erase_eq p.backends id id'

/-- The same router with a backend removed from its pool. -/
def Handler.Server.without (s : Server) (id : String) : Server :=
  { s with pool := s.pool.without id }

/-! ## The selected backend -/

/-- The prefix a backend is known to hold. -/
def World.matched (w : World) (c : Chat) (b : Backend) : ℕ :=
  w.cache.lookup b.id c.namespace c.hashes

/-- A healthy backend of the pool has a match. -/
def World.AnyMatch (w : World) (p : Pool) (c : Chat) : Prop :=
  ∃ b, p.get b.id = some b ∧ (w.cells b.id).healthy ∧ 0 < w.matched c b

/-- `a` does not come after `b` in the score mode of `Rank`, or in the other one. -/
def World.Ahead (w : World) (weights : Weights) (c : Chat) (byScore : Bool) (a b : Backend) :
    Prop :=
  if byScore then
    scoreKey (score weights c.routeReq) (w.stateOf c a) ≤
      scoreKey (score weights c.routeReq) (w.stateOf c b)
  else depthKey (w.stateOf c a) ≤ depthKey (w.stateOf c b)

/-- `b` is the first of the free backends. -/
structure First (w : World) (p : Pool) (weights : Weights) (c : Chat) (byScore : Bool)
    (b : Backend) : Prop where
  get : p.get b.id = some b
  free : w.free p b.id
  ahead : ∀ b', p.get b'.id = some b' → w.free p b'.id → w.Ahead weights c byScore b b'

variable {w : World} {s : Server} {r : Handler.Request} {c : Chat}

/-- At most one backend comes first. -/
theorem First.unique {p : Pool} {weights : Weights} {byScore : Bool} {a b : Backend}
    (ha : First w p weights c byScore a) (hb : First w p weights c byScore b) : a = b := by
  have hab := ha.ahead b hb.get hb.free
  have hba := hb.ahead a ha.get ha.free
  have hid : a.id = b.id := by
    cases byScore with
    | true =>
        have hkey := le_antisymm hab hba
        simp only [scoreKey, EmbeddingLike.apply_eq_iff_eq, Prod.mk.injEq] at hkey
        exact hkey.2
    | false =>
        have hkey := le_antisymm hab hba
        simp only [depthKey, EmbeddingLike.apply_eq_iff_eq, Prod.mk.injEq] at hkey
        exact hkey.2
  have hget := ha.get
  rw [hid, hb.get] at hget
  exact (Option.some.inj hget).symm

/-- The first backends of two modes are the same if the modes are, or if one
backend is first in both. -/
theorem First.id_eq_iff {p : Pool} {weights : Weights} {m m' : Bool} {a b : Backend}
    (ha : First w p weights c m a) (hb : First w p weights c m' b) :
    a.id = b.id ↔ m = m' ∨ ∃ b, First w p weights c true b ∧ First w p weights c false b := by
  constructor
  · intro hid
    have hget := ha.get
    rw [hid, hb.get] at hget
    obtain rfl : b = a := Option.some.inj hget
    cases m with
    | true =>
        cases m' with
        | true => exact Or.inl rfl
        | false => exact Or.inr ⟨b, ha, hb⟩
    | false =>
        cases m' with
        | true => exact Or.inr ⟨b, hb, ha⟩
        | false => exact Or.inl rfl
  · intro hcase
    obtain rfl | ⟨b₀, hscore, hdepth⟩ := hcase
    · rw [ha.unique hb]
    · have hboth (byScore : Bool) : First w p weights c byScore b₀ := by
        cases byScore with
        | true => exact hscore
        | false => exact hdepth
      rw [ha.unique (hboth m), hb.unique (hboth m')]

/-- The states of the free backends of the snapshot. -/
theorem mem_snapshot_of_free {b : Backend} (hget : s.pool.get b.id = some b)
    (hfree : w.free s.pool b.id) : w.stateOf c b ∈ w.snapshot s r c := by
  obtain ⟨_, -, hhealthy, -⟩ := get_of_free hfree
  exact mem_snapshot.mpr ⟨b, hget, hhealthy, rfl⟩

/-- The first candidate with a property, by the order of a mode. -/
theorem find_rank {weights : Weights} {req : Scorer.Request} {states : List BackendState}
    (hhealthy : ∀ st ∈ states, st.healthy = true) (hids : (states.map (·.id)).Nodup)
    {q : BackendState → Bool} {st : BackendState}
    (h : (rank weights req states).find? q = some st) :
    st ∈ states ∧ q st ∧
      if states.any (·.matchedBlocks > 0) then
        ∀ st' ∈ states, q st' → scoreKey (score weights req) st ≤ scoreKey (score weights req) st'
      else ∀ st' ∈ states, q st' → depthKey st ≤ depthKey st' := by
  have hfilter : states.filter (·.healthy) = states := List.filter_eq_self.mpr hhealthy
  unfold rank at h
  rw [hfilter] at h
  dsimp only at h
  split at h
  · next hany =>
      rw [if_pos hany]
      obtain ⟨hmem, hq, hleast⟩ := Sorting.find_sliceStable (Scorer.lessByScore_iff _) h
      refine ⟨hmem, hq, fun st' hst' hq' => ?_⟩
      have hle := hleast st' hst' hq'
      simp only [scoreKey, Scorer.lookup_scoresOf hids hmem, Scorer.lookup_scoresOf hids hst',
        Option.getD_some] at hle ⊢
      exact hle
  · next hany =>
      rw [if_neg hany]
      exact Sorting.find_sliceStable Scorer.lessByDepth_iff h

/-- **The selected backend** is the first of the free ones, in score mode if any
healthy backend has a match. -/
theorem selected_first {st : BackendState} (h : w.selected s r c = some st) :
    ∃ byScore b, (byScore = true ↔ w.AnyMatch s.pool c) ∧ First w s.pool s.weights c byScore b ∧
      st = w.stateOf c b := by
  have hhealthy : ∀ st ∈ w.snapshot s r c, st.healthy = true := by
    intro st hst
    obtain ⟨b, -, -, rfl⟩ := mem_snapshot.mp hst
    rfl
  obtain ⟨hmem, hfree, hleast⟩ := find_rank hhealthy (nodup_ids_snapshot w s r c) h
  obtain ⟨b, hget, -, rfl⟩ := mem_snapshot.mp hmem
  refine ⟨(w.snapshot s r c).any (·.matchedBlocks > 0), b, ?_, ⟨hget, hfree, ?_⟩, rfl⟩
  · rw [List.any_eq_true]
    constructor
    · intro hany
      obtain ⟨st, hst, hmatch⟩ := hany
      obtain ⟨b', hget', hhealthy', rfl⟩ := mem_snapshot.mp hst
      exact ⟨b', hget', hhealthy', by simpa [World.stateOf, World.matched] using hmatch⟩
    · intro hany
      obtain ⟨b', hget', hhealthy', hmatch⟩ := hany
      exact ⟨_, mem_snapshot.mpr ⟨b', hget', hhealthy', rfl⟩,
        by simpa [World.stateOf, World.matched] using hmatch⟩
  · intro b' hget' hfree'
    have hst' := mem_snapshot_of_free (r := r) (c := c) hget' hfree'
    unfold World.Ahead
    split at hleast
    · next hany =>
        rw [if_pos hany]
        exact hleast _ hst' hfree'
    · next hany =>
        rw [if_neg hany]
        exact hleast _ hst' hfree'

/-- A request selects a backend if one is free. -/
theorem selected_isSome {id : String} (h : w.free s.pool id) : (w.selected s r c).isSome := by
  obtain ⟨b, hget, hhealthy, -⟩ := get_of_free h
  have hid : b.id = id := s.pool.keyed id b hget
  subst hid
  rw [World.selected, List.find?_isSome]
  refine ⟨w.stateOf c b, ?_, h⟩
  rw [(Scorer.perm_rank _ _ _).mem_iff, List.mem_filter]
  exact ⟨mem_snapshot_of_free hget h, rfl⟩

/-- The answer to a request, given the first backend of the mode it is routed in. -/
theorem chosen_of_first (hc : prepare s r = .ok c) {byScore : Bool}
    (hmode : byScore = true ↔ w.AnyMatch s.pool c) {b : Backend}
    (hb : First w s.pool s.weights c byScore b) : chosen s r w = some b.id := by
  obtain ⟨st, hst⟩ := Option.isSome_iff_exists.mp (selected_isSome (r := r) (c := c) hb.free)
  obtain ⟨byScore', b', hmode', hb', rfl⟩ := selected_first hst
  obtain rfl : byScore = byScore' := Bool.eq_iff_iff.mpr (hmode.trans hmode'.symm)
  rw [hb.unique hb', chosen_eq, World.named, hc]
  simp only [hst]
  rfl

/-! ## A full backend -/

/-- Whether a full backend is invisible to a request: it has no match, or it is
not the only healthy backend with one, or both modes put the same free backend
first. -/
def Invisible (s : Server) (r : Handler.Request) (w : World) (x : Backend) : Prop :=
  ∀ c, prepare s r = .ok c → w.matched c x = 0 ∨
    (∃ b, s.pool.get b.id = some b ∧ b.id ≠ x.id ∧ (w.cells b.id).healthy ∧ 0 < w.matched c b) ∨
    ∃ b, First w s.pool s.weights c true b ∧ First w s.pool s.weights c false b

/-- The free backends are the same without a full one. -/
theorem free_without {x : Backend} (hx : s.pool.get x.id = some x)
    (hfull : x.maxConcurrent ≤ (w.cells x.id).queueDepth) (id : String) :
    w.free (s.pool.without x.id) id = w.free s.pool id := by
  unfold World.free
  rw [Pool.get_without]
  by_cases hid : id = x.id
  · rw [if_pos hid, hid, hx]
    simp [Int64.not_lt.mpr hfull]
  · rw [if_neg hid]

/-- A full backend that is taken away does not change who comes first among the free ones. -/
theorem first_without {x : Backend} (hx : s.pool.get x.id = some x)
    (hfull : x.maxConcurrent ≤ (w.cells x.id).queueDepth) {byScore : Bool} {b : Backend} :
    First w (s.pool.without x.id) s.weights c byScore b ↔ First w s.pool s.weights c byScore b := by
  have hfree := free_without (w := w) hx hfull
  have hget {b : Backend} (hb : w.free s.pool b.id) :
      (s.pool.without x.id).get b.id = some b ↔ s.pool.get b.id = some b := by
    have hne : b.id ≠ x.id := by
      intro hid
      obtain ⟨b', hb', -, hlt⟩ := get_of_free hb
      rw [hid] at hb' hlt
      obtain rfl : x = b' := Option.some.inj (hx.symm.trans hb')
      exact Int64.not_le.mpr hlt hfull
    rw [Pool.get_without, if_neg hne]
  constructor
  · intro hb
    have hb' : w.free s.pool b.id := by rw [← hfree]; exact hb.free
    exact ⟨(hget hb').mp hb.get, hb', fun b₁ hb₁ hf₁ =>
      hb.ahead b₁ ((hget hf₁).mpr hb₁) (by rw [hfree]; exact hf₁)⟩
  · intro hb
    exact ⟨(hget hb.free).mpr hb.get, by rw [hfree]; exact hb.free, fun b₁ hb₁ hf₁ =>
      have hf : w.free s.pool b₁.id := by rw [← hfree]; exact hf₁
      hb.ahead b₁ ((hget hf).mp hb₁) hf⟩

/-- A match remains without `x` if another healthy backend has one. -/
theorem anyMatch_without {x : Backend} : w.AnyMatch (s.pool.without x.id) c ↔
    ∃ b, s.pool.get b.id = some b ∧ b.id ≠ x.id ∧ (w.cells b.id).healthy ∧ 0 < w.matched c b := by
  constructor
  · intro hany
    obtain ⟨b, hget, hhealthy, hmatch⟩ := hany
    rw [Pool.get_without] at hget
    split at hget
    · contradiction
    · next hne => exact ⟨b, hget, hne, hhealthy, hmatch⟩
  · intro hany
    obtain ⟨b, hget, hne, hhealthy, hmatch⟩ := hany
    exact ⟨b, by rw [Pool.get_without, if_neg hne, hget], hhealthy, hmatch⟩

/-- Some healthy backend has a match: this one, or another. -/
theorem anyMatch_iff {x : Backend} (hx : s.pool.get x.id = some x)
    (hhealthy : (w.cells x.id).healthy) :
    w.AnyMatch s.pool c ↔ 0 < w.matched c x ∨
      ∃ b, s.pool.get b.id = some b ∧ b.id ≠ x.id ∧ (w.cells b.id).healthy ∧ 0 < w.matched c b := by
  constructor
  · intro hany
    obtain ⟨b, hget, hb, hmatch⟩ := hany
    by_cases hid : b.id = x.id
    · rw [hid, hx, Option.some.injEq] at hget
      subst hget
      exact Or.inl hmatch
    · exact Or.inr ⟨b, hget, hid, hb, hmatch⟩
  · intro hany
    obtain hmatch | ⟨b, hget, -, hb, hmatch⟩ := hany
    · exact ⟨x, hx, hhealthy, hmatch⟩
    · exact ⟨b, hget, hb, hmatch⟩

/-- Some mode of `Rank` puts a free backend first. -/
theorem exists_first {id : String} (s : Server) (r : Handler.Request) (c : Chat)
    (h : w.free s.pool id) : ∃ byScore b, (byScore = true ↔ w.AnyMatch s.pool c) ∧
      First w s.pool s.weights c byScore b := by
  obtain ⟨st, hst⟩ := Option.isSome_iff_exists.mp (selected_isSome (r := r) (c := c) h)
  obtain ⟨byScore, b, hmode, hb, -⟩ := selected_first hst
  exact ⟨byScore, b, hmode, hb⟩

/-- **When a full backend does not influence the choice**: for every request,
weights, directory and pool, while another backend is free. -/
theorem chosen_without_iff {x : Backend} (hx : s.pool.get x.id = some x)
    (hhealthy : (w.cells x.id).healthy) (hfull : x.maxConcurrent ≤ (w.cells x.id).queueDepth)
    {id : String} (hfree : w.free s.pool id) :
    chosen s r w = chosen (s.without x.id) r w ↔ Invisible s r w x := by
  cases hc : prepare s r with
  | error out =>
      have hc' : prepare (s.without x.id) r = .error out := hc
      rw [chosen_eq, chosen_eq, World.named, World.named, hc, hc']
      simp [Invisible, hc]
  | ok c =>
      have hc' : prepare (s.without x.id) r = .ok c := hc
      have hfree' : w.free (s.without x.id).pool id := by
        rw [Server.without, free_without hx hfull]
        exact hfree
      obtain ⟨m, b, hm, hb⟩ := exists_first s r c hfree
      obtain ⟨m', b', hm', hb'⟩ := exists_first (s.without x.id) r c hfree'
      have hchosen := chosen_of_first hc hm hb
      have hchosen' := chosen_of_first hc' hm' hb'
      replace hb' : First w s.pool s.weights c m' b' := (first_without hx hfull).mp hb'
      replace hm' := hm'.trans (anyMatch_without (s := s) (x := x))
      have hmode : m = m' ↔ w.matched c x = 0 ∨ ∃ b, s.pool.get b.id = some b ∧ b.id ≠ x.id ∧
          (w.cells b.id).healthy ∧ 0 < w.matched c b := by
        rw [Bool.eq_iff_iff, hm, hm', anyMatch_iff hx hhealthy, or_iff_right_iff_imp,
          Nat.pos_iff_ne_zero]
        exact or_iff_not_imp_left.symm
      rw [hchosen, hchosen', Option.some.injEq, hb.id_eq_iff hb', hmode, or_assoc, Invisible]
      simp only [hc, Except.ok.injEq, forall_eq']

/-! ## A full backend that decides -/

namespace Crowded

def a : Backend := ⟨"a", "http://a", 100⟩

def b : Backend := ⟨"b", "http://b", 100⟩

/-- The full backend. -/
def x : Backend := ⟨"x", "http://x", 1⟩

def pool : Pool :=
  ((Pool.empty.add ⟨"a", "http://a", 100⟩).add ⟨"b", "http://b", 100⟩).add ⟨"x", "http://x", 1⟩

/-- One request is in flight on `a` and one on `x`, the directory of `b` is full,
and `x` holds the prompt. -/
def world (orders : ℕ → CacheIndex.ScanOrder) : World where
  cells id := ⟨true, if id = "b" then 0 else 1, 0, 2, 1, 0⟩
  cache := CacheIndex.run [.register "a" 10, .register "b" 1, .register "x" 10,
    .commit "b" "chat:" [7] ⟨1, by decide⟩ orders,
    .commit "x" "chat:" [0x787f005495551c49] ⟨2, by decide⟩ orders]
  telemetry := .new 10

/-- The pool has these three backends. -/
theorem get_pool (id : String) : pool.get id =
    if id = "x" then some x else if id = "b" then some b
      else if id = "a" then some a else none := by
  simp only [pool, Pool.add, Pool.get, GoMap.lookup_insert_eq]
  rfl

/-- Of these, `x` is not free. -/
theorem free_pool {orders : ℕ → CacheIndex.ScanOrder} {c : Backend} (hget : pool.get c.id = some c)
    (hfree : (world orders).free pool c.id) : c = a ∨ c = b := by
  rw [get_pool] at hget
  split_ifs at hget with hx hb ha
  · have hfull : (world orders).free pool "x" = false := rfl
    rw [hx, hfull] at hfree
    contradiction
  · exact Or.inr (Option.some.inj hget).symm
  · exact Or.inl (Option.some.inj hget).symm

variable (orders : ℕ → CacheIndex.ScanOrder)

theorem stateOf_a : (world orders).stateOf Sample.chat a = ⟨"a", 0, 1, 100, 0, 10, true⟩ := rfl

theorem stateOf_b : (world orders).stateOf Sample.chat b = ⟨"b", 0, 0, 100, 1, 1, true⟩ := rfl

theorem matched_x : (world orders).matched Sample.chat x = 1 := rfl

/-- The scores are `-1/200` and `-3/10`. -/
theorem first_a : First (world orders) pool Scorer.defaultWeights Sample.chat true a where
  get := rfl
  free := rfl
  ahead c hget hfree := by
    obtain rfl | rfl := free_pool hget hfree
    · exact le_refl _
    · show scoreKey _ ((world orders).stateOf Sample.chat a) ≤
        scoreKey _ ((world orders).stateOf Sample.chat b)
      rw [stateOf_a, stateOf_b, scoreKey, scoreKey, Prod.Lex.toLex_le_toLex]
      refine Or.inl (OrderDual.toDual_lt_toDual.mpr (WithBot.coe_lt_coe.mpr ?_))
      norm_num [Sample.chat, Chat.routeReq, Scorer.divisor, Scorer.defaultWeights]

/-- By depth, `b` comes first. -/
theorem first_b : First (world orders) pool Scorer.defaultWeights Sample.chat false b where
  get := rfl
  free := rfl
  ahead c hget hfree := by
    obtain rfl | rfl := free_pool hget hfree
    · show depthKey ((world orders).stateOf Sample.chat b) ≤
        depthKey ((world orders).stateOf Sample.chat a)
      rw [stateOf_a, stateOf_b, depthKey, depthKey, Prod.Lex.toLex_le_toLex]
      exact Or.inl (by decide)
    · exact le_refl _

theorem get_x : pool.get x.id = some x := rfl

/-- `x` is at its limit. -/
theorem full_x : x.maxConcurrent ≤ ((world orders).cells x.id).queueDepth := by
  show (1 : Int64) ≤ 1
  decide

theorem free_a : (world orders).free pool "a" := rfl

variable (order : GoMap.RangeOrder String Backend)

/-- With `x` in the pool its match makes the scores decide. -/
theorem chosen_crowded : chosen (Sample.server pool) (Sample.request order orders) (world orders) =
    some "a" := by
  have hmode : true = true ↔ (world orders).AnyMatch pool Sample.chat :=
    ⟨fun _ => ⟨x, get_x, rfl, by rw [matched_x]; decide⟩, fun _ => rfl⟩
  exact chosen_of_first (Sample.prepare_request pool order orders) hmode (first_a orders)

/-- Without it the queue depths do. -/
theorem chosen_without : chosen ((Sample.server pool).without x.id) (Sample.request order orders)
    (world orders) = some "b" := by
  have hfirst :
      First (world orders) (pool.without x.id) Scorer.defaultWeights Sample.chat false b :=
    (first_without (s := Sample.server pool) get_x (full_x orders)).mpr (first_b orders)
  have hmode : false = true ↔ (world orders).AnyMatch (pool.without x.id) Sample.chat := by
    constructor
    · intro hfalse
      contradiction
    · intro hany
      obtain ⟨c, hget, hne, -, hmatch⟩ := (anyMatch_without (s := Sample.server pool)).mp hany
      have hget' : pool.get c.id = some c := hget
      rw [get_pool] at hget'
      split_ifs at hget' with hx hb ha
      · exact absurd hx hne
      · obtain rfl := Option.some.inj hget'
        exact absurd hmatch (Nat.lt_irrefl 0)
      · obtain rfl := Option.some.inj hget'
        exact absurd hmatch (Nat.lt_irrefl 0)
  exact chosen_of_first (s := (Sample.server pool).without x.id)
    (Sample.prepare_request (pool.without x.id) order orders) hmode hfirst

end Crowded

/-- At the crowded pool the condition fails, and so does what it stands for. -/
theorem chosen_without_iff_crowded :
    let s := Sample.server Crowded.pool
    let r := Sample.request default fun _ => default
    let w := Crowded.world fun _ => default
    chosen s r w = chosen (s.without Crowded.x.id) r w ↔ Invisible s r w Crowded.x :=
  chosen_without_iff Crowded.get_x rfl (Crowded.full_x _) (Crowded.free_a _)

/-- A full backend that holds the prompt moves the request, under the default
weights, from the idle backend to a busier one. -/
theorem full_backend_decides :
    let s := Sample.server Crowded.pool
    let r := Sample.request default fun _ => default
    let w := Crowded.world fun _ => default
    s.weights = Scorer.defaultWeights ∧ s.pool.get "x" = some Crowded.x ∧ (w.cells "x").healthy ∧
      Crowded.x.maxConcurrent ≤ (w.cells "x").queueDepth ∧ w.free s.pool "a" ∧ w.free s.pool "b" ∧
      chosen s r w = some "a" ∧ chosen (s.without "x") r w = some "b" :=
  ⟨rfl, rfl, rfl, Crowded.full_x _, Crowded.free_a _, rfl, Crowded.chosen_crowded _ _,
    Crowded.chosen_without _ _⟩

end KvRouter
