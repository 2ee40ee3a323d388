import KvRouter.Operations.Observed

/-!
# KvRouter.Operations.Slots

The slots that requests hold at different moments of one run.  A request takes at
most one slot in its life (`reserved_unique`), so it is an owner on one backend
only, whichever moments the owners of the backends are counted at: together these
owners are never more than the requests (`Router.sum_owners_le`).
-/

namespace KvRouter

open Handler Interleave Prog

/-! ## The slots of a router with health checks -/

section
variable {s : Server} {w : World} {checks : ChecksEnv} {requests : List Request} {log : Log}
  {c : System}

theorem Router.fresh {t : Thread Act Act.Result Done}
    (ht : t ∈ (Router.start s w checks requests).threads) : t.trace = [] := by
  obtain ⟨p, -, rfl⟩ := List.mem_map.mp ht
  rfl

/-- Every thread keeps to what is allowed. -/
theorem Router.allowed {i : ℕ} {t : Thread Act Act.Result Done}
    (ht : (Router.start s w checks requests).threads[i]? = some t) :
    ObeysEffects s.pool (fun _ _ => True) t.trace t.prog := by
  obtain ⟨b, -, rfl⟩ | ⟨-, r, -, rfl⟩ := Router.start_thread ht
  · exact (obeys_of_quiet ((onHealth_prog checks b).mono fun _ ha =>
      quiet_of_onHealth ha)).mono fun _ _ _ => trivial
  · exact (task_contract s (.request r)).mono fun _ _ _ => trivial

/-- With the goroutines of the health checks the depths still count the owners. -/
theorem Router.counted (hw : ∀ id, w.cells id = .fresh)
    (h : Steps (Router.start s w checks requests) log c) : Counted s.pool c := by
  induction h with
  | refl =>
      have hdepth (id : String) : w.depth id = 0 := by simp [World.depth, hw id, Cells.fresh]
      have howned : ∀ t ∈ (Router.start s w checks requests).threads, owned t = [] :=
        fun t ht => by simp [owned, Router.fresh ht, effects, holding]
      refine ⟨fun id => ?_, fun id b hb => ?_, fun t ht => by simp [howned t ht]⟩
      · have hnone : owners (Router.start s w checks requests) id = 0 :=
          List.countP_eq_zero.mpr fun t ht => by simp [howned t ht]
        rw [hnone]
        exact congrArg Int64.toInt (hdepth id)
      · exact (hdepth id).trans_le (Int64.le_of_lt (s.pool.limited id b hb))
  | @step log s₁ s₂ threads i t e p hpath ht hstep ih =>
      have hlt : i < (Router.start s w checks requests).threads.length := by
        rw [← hpath.length_threads]
        exact (List.getElem?_eq_some_iff.mp ht).1
      have hstart := List.getElem?_eq_getElem hlt
      have hobeys := hpath.obeys hstart (Router.allowed hstart) ht
      exact ih.step ht (obeys_step hobeys hstep).1 hstep

/-! ## One slot for each request -/

/-- A slot that is held was taken. -/
theorem reserved_of_holding {es : List Effect} {id : String} (h : id ∈ holding es) :
    Effect.reserved id ∈ es := by
  induction es using List.reverseRecOn with
  | nil => simp [holding] at h
  | append_singleton es e ih =>
      rw [holding, List.foldl_append, ← holding] at h
      cases e with
      | reserved id' =>
          simp only [List.foldl_cons, List.foldl_nil, List.mem_append, List.mem_singleton] at h
          obtain h | rfl := h
          · exact List.mem_append_left _ (ih h)
          · simp
      | released id' => exact List.mem_append_left _ (ih (List.mem_of_mem_erase h))
      | committed id' ns blocks now orders => exact List.mem_append_left _ (ih h)

/-- **A handler takes one slot in its life.** -/
theorem reserved_unique {h : List Event}
    (hphased : ∀ h₁ e h₂, h = h₁ ++ e :: h₂ → Phased h₁ e.1) {id id' : String}
    (hid : Effect.reserved id ∈ effects h) (hid' : Effect.reserved id' ∈ effects h) : id = id' := by
  induction h using List.reverseRecOn with
  | nil => simp [effects] at hid
  | append_singleton h e ih =>
      have hbefore : ∀ h₁ e' h₂, h = h₁ ++ e' :: h₂ → Phased h₁ e'.1 := fun h₁ e' h₂ heq =>
        hphased h₁ e' (h₂ ++ [e]) (by simp [heq])
      -- the first slot is taken while no effect has been left
      have hfirst {id : String} (he : effectOf e = some (.reserved id)) : effects h = [] := by
        obtain ⟨a, r⟩ := e
        cases a with
        | casDepth id' old new => exact (hphased h _ [] rfl).1.effects_eq
        | _ => cases he
      rw [effects_concat, List.mem_append, Option.mem_toList] at hid hid'
      obtain hid | hid := hid
      · obtain hid' | hid' := hid'
        · exact ih hbefore hid hid'
        · simp [hfirst hid'] at hid
      · obtain hid' | hid' := hid'
        · simp [hfirst hid] at hid'
        · simpa [Option.mem_def.mp hid] using hid'

def Effect.isReserved (id : String) : Effect → Bool
  | .reserved id' => id' = id
  | _ => false

/-- Thread `i` has taken a slot of backend `id`. -/
def took (log : Log) (id : String) (i : ℕ) : Bool :=
  (effects (own i log)).any (Effect.isReserved id)

/-- A thread took a slot of a backend when its trace says so. -/
theorem took_iff {log : Log} {id : String} {i : ℕ} :
    took log id i = true ↔ Effect.reserved id ∈ effects (own i log) := by
  rw [took, List.any_eq_true]
  constructor
  · rintro ⟨e, he, hid⟩
    cases e with
    | reserved id' =>
        obtain rfl : id' = id := by simpa [Effect.isReserved] using hid
        exact he
    | _ => contradiction
  · exact fun h => ⟨_, h, by simp [Effect.isReserved]⟩

/-- A slot that was taken was taken in every longer log. -/
theorem took_mono {earlier later : Log} (h : earlier <+: later) {id : String} {i : ℕ}
    (ht : took earlier id i = true) : took later id i = true := by
  obtain ⟨rest, rfl⟩ := h
  rw [took_iff] at ht ⊢
  rw [own_append, effects_append]
  exact List.mem_append_left _ ht

/-- The owners of a slot are requests that have taken one. -/
theorem Router.owners_le (h : Steps (Router.start s w checks requests) log c) (id : String) :
    owners c id ≤ (List.range' s.pool.size requests.length).countP (took log id) := by
  have htraces : c.threads.map (·.trace) = (List.range (Router.size s requests)).map (own · log) :=
    Router.length_start s w checks requests ▸ h.traces fun _ => Router.fresh
  have hgoroutines : (List.range' 0 s.pool.size).countP (took log id) = 0 := by
    refine List.countP_eq_zero.mpr fun i hi => ?_
    have hlt : i < s.pool.size := by simpa using hi
    have hnone : effects (own i log) = [] := List.filterMap_eq_nil_iff.mpr fun e he =>
      Router.still h hlt e he e.2
    simp [took, hnone]
  calc owners c id
      = ((List.range (Router.size s requests)).map (own · log)).countP
          fun h => id ∈ holding (effects h) := by
        rw [← htraces, List.countP_map]
        rfl
    _ ≤ (List.range (Router.size s requests)).countP (took log id) := by
        rw [List.countP_map]
        refine List.countP_mono_left fun i _ hi => ?_
        exact took_iff.mpr (reserved_of_holding (by simpa using hi))
    _ = (List.range' s.pool.size requests.length).countP (took log id) := by
        rw [List.range_eq_range', Router.size, ← List.range'_append_1, List.countP_append,
          hgoroutines, Nat.zero_add, Nat.zero_add]

/-- Owners at several moments of one run, each of a backend of its own. -/
theorem Router.sum_owners_le (h : Steps (Router.start s w checks requests) log c) {κ : Type}
    {l : List κ} {id : κ → String} (hids : (l.map id).Nodup) (count : κ → ℕ)
    (hcount : ∀ k ∈ l, ∃ earlier c₀, Steps (Router.start s w checks requests) earlier c₀ ∧
      earlier <+: log ∧ count k = owners c₀ (id k)) :
    (l.map count).sum ≤ requests.length := by
  have hle : ∀ k ∈ l, count k ≤
      (List.range' s.pool.size requests.length).countP (took log (id k)) := fun k hk => by
    obtain ⟨earlier, c₀, hsteps, hprefix, heq⟩ := hcount k hk
    rw [heq]
    exact (Router.owners_le hsteps (id k)).trans
      (List.countP_mono_left fun i _ hi => took_mono hprefix hi)
  refine (List.sum_le_sum hle).trans ((sum_countP_le (fun k => took log (id k))
    fun i hi => ?_).trans_eq (by simp))
  have hrequest : s.pool.size ≤ i := (List.mem_range'_1.mp hi).1
  refine (List.pairwise_map.mp hids).imp fun {k k'} hne => ?_
  rw [took_iff, took_iff]
  rintro ⟨hk, hk'⟩
  refine hne (reserved_unique (fun h₁ e h₂ hown => ?_) hk hk')
  obtain ⟨earlier, x, later, hlog, hwho, rfl, rfl⟩ := own_eq_append_cons hown
  exact Router.phased h hrequest hlog hwho

end

end KvRouter
