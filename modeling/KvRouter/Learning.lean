import KvRouter.System

/-!
# KvRouter.Learning

Outcome-gated learning: what a request leaves in the directory depends on how
its exchange with the backend went.  The directory only moves by commits
(`path_cache`), so while no other thread commits, the directory after a request
is the one before it with the request's own commits applied, and the handler
contract says which these are: one, if a slot was reserved and the exchange was
evidence, and otherwise none.
-/

namespace KvRouter

open CacheIndex Handler Interleave

/-! ## The directory along a path -/

/-- An effect on the directory. -/
def applyEffect (i : Index) : Effect → Index
  | .committed id ns blocks now orders => i.commit id ns blocks now orders
  | _ => i

/-- An action changes the directory as its effect says. -/
theorem sem_cache (a : Act) (w : World) :
    (a.sem w).2.cache = (effects [⟨a, (a.sem w).1⟩]).foldl applyEffect w.cache := by
  cases a with
  | casDepth id old new =>
      by_cases hold : (w.cells id).queueDepth = old
      · rw [Act.sem, if_pos hold]
        rfl
      · rw [Act.sem, if_neg hold]
        rfl
  | casHealthy id old new =>
      by_cases hold : (w.cells id).healthy = old
      · rw [Act.sem, if_pos hold]
        rfl
      · rw [Act.sem, if_neg hold]
        rfl
  | _ => rfl

/-- No thread but `i` commits. -/
def OnlyCommitter (i : ℕ) (log : Log) : Prop :=
  ∀ x ∈ log, x.who ≠ i → ∀ id ns blocks now orders, x.event.1 ≠ .commit id ns blocks now orders

/-- An event that is no commit leaves the directory alone. -/
theorem applyEffect_of_no_commit {e : Event}
    (h : ∀ id ns blocks now orders, e.1 ≠ .commit id ns blocks now orders) (i : Index) :
    (effects [e]).foldl applyEffect i = i := by
  obtain ⟨a, x⟩ := e
  cases a with
  | commit id ns blocks now orders => exact absurd rfl (h id ns blocks now orders)
  | casDepth id old new => cases x <;> rfl
  | _ => rfl

/-- **The directory after a run** in which only thread `i` commits: the one
before it with that thread's commits applied. -/
theorem path_cache {c c' : System} {log : Log} (h : Steps c log c') {i : ℕ}
    (honly : OnlyCommitter i log) :
    c'.shared.cache = (effects (own i log)).foldl applyEffect c.shared.cache := by
  refine h.invariant (I := fun log w => w.cache =
    (effects (own i log)).foldl applyEffect c.shared.cache) rfl ?_
  intro earlier x later hlog hbefore
  have hx : x ∈ log := by simp [hlog]
  have hsound := h.sound x hx
  have hother := honly x hx
  obtain ⟨j, w, a, answer⟩ := x
  obtain rfl : answer = (a.sem w).1 := hsound
  rw [own_append, effects_append, List.foldl_append, ← hbefore, sem_cache]
  by_cases hj : j = i
  · simp [own, hj]
  · have hnone : own i [(⟨j, w, ⟨a, (a.sem w).1⟩⟩ : Entry World Act Act.Result)] = [] := by
      simp [own, hj]
    rw [hnone, effects_nil, List.foldl_nil]
    exact applyEffect_of_no_commit (hother hj) w.cache

/-! ## What a request teaches the directory -/

/-- The directory after a handler of `r` that did `es` and ended with `out`. -/
structure Gated (s : Server) (r : Request) (es : List Effect) (out : Outcome)
    (before after : Index) : Prop where
  /-- A slot was reserved on `b`, and the exchange with `b` is evidence: the
  request's blocks are committed to `b`. -/
  learned : ∀ ch b, prepare s r = .ok ch → .reserved b.id ∈ es → s.pool.get b.id = some b →
    Evidence r ch b → out.panicked = false →
    after = before.commit b.id ("chat:" ++ ch.req.model) ch.hashes r.commitTime r.evictions
  /-- In every other case the directory is what it was. -/
  untouched : (¬ ∃ ch b, prepare s r = .ok ch ∧ .reserved b.id ∈ es ∧ s.pool.get b.id = some b ∧
    Evidence r ch b ∧ out.panicked = false) → after = before

/-- The effects of a handler change the directory only where the outcome allows it. -/
theorem gated_of_effects {s : Server} {r : Request} {es : List Effect} {out : Outcome}
    (h : HandlerEffects s r out es) (before : Index) :
    Gated s r es out before (es.foldl applyEffect before) := by
  obtain ⟨-, rfl⟩ | ⟨ch, b, hch, hb, -, rfl⟩ := h
  · exact ⟨fun ch b _ hmem => by simp at hmem, fun _ => rfl⟩
  · have hmem : Effect.reserved b.id ∈ Effect.reserved b.id ::
        ((if Evidence r ch b ∧ out.panicked = false then [observation r ch b] else []) ++
          [.released b.id]) := List.mem_cons_self
    constructor
    · intro ch' b' hch' hmem' hb' hevidence hpanicked
      obtain rfl : ch = ch' := Except.ok.inj (hch.symm.trans hch')
      have hid : b'.id = b.id := by
        rw [List.mem_cons] at hmem'
        obtain heq | hmem' := hmem'
        · exact Effect.reserved.inj heq
        · split at hmem' <;> simp [observation] at hmem'
      obtain rfl : b = b' := by
        rw [hid, hb, Option.some.injEq] at hb'
        exact hb'
      rw [if_pos ⟨hevidence, hpanicked⟩]
      rfl
    · intro hnot
      have hcond : ¬ (Evidence r ch b ∧ out.panicked = false) :=
        fun hcond => hnot ⟨ch, b, hch, hmem, hb, hcond.1, hcond.2⟩
      rw [if_neg hcond]
      rfl

/-- **Outcome-gated learning**: for every request, pool and directory, every
upstream behaviour, and every interleaving in which no other thread commits. -/
theorem outcome_gated_learning {s : Server} {r : Request} {c c' : System} {log : Log}
    (h : Steps c log c') {i : ℕ} (hi : c.threads[i]? = some (.start ((Task.request r).prog s)))
    (honly : OnlyCommitter i log) {t : Thread Act Act.Result Done} {out : Outcome}
    (ht : c'.threads[i]? = some t) (hret : t.prog = .ret (.handled out)) :
    Gated s r (effects (own i log)) out c.shared.cache c'.shared.cache := by
  have hobeys :
      ObeysEffects s.pool (fun x es => ∃ out, x = .handled out ∧ HandlerEffects s r out es) []
        ((Task.request r).prog s) :=
    Prog.Obeys.bind ((handler_contract s r).mono fun out h' hout => ⟨out, rfl, hout⟩)
  obtain ⟨out', hout, heffects⟩ := h.finished hi hobeys ht hret
  obtain rfl : out = out' := Done.handled.inj hout
  rw [path_cache h honly]
  exact gated_of_effects heffects c.shared.cache

/-- A request that is served on its own. -/
theorem outcome_gated_learning_alone :
    let s := Sample.server Sample.pool
    let r := Sample.request default fun _ => default
    ∃ log c out, Steps (System.start s Sample.world [.request r]) log c ∧
      Gated s r (effects (own 0 log)) out Sample.world.cache c.shared.cache := by
  intro s r
  obtain ⟨log, c, out, trace, hsteps, hthread, hwho⟩ := exists_answer s Sample.world r
  exact ⟨log, c, out, hsteps, outcome_gated_learning hsteps rfl
    (fun x hx hne => absurd (hwho x hx) hne) hthread rfl⟩

end KvRouter
