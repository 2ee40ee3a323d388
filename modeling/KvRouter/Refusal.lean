import KvRouter.Admission
import KvRouter.Privacy

/-!
# KvRouter.Refusal

What a 429 means.  The reserve loop skips a backend for one of two reasons: it
has become unhealthy since the snapshot, or its `TryReserve` finds it at its
limit.  The refusal does not tell them apart, so "all backends are at capacity"
is also the answer when none was: exactly when each backend of the snapshot has
become unhealthy by its turn.

* `Turns` — the readings of the reserve loop;
* `Handled.answer` — the answer of a request that selects no backend;
* `MeansCapacity` — what the two refusals promise.
-/

namespace KvRouter

open Handler Interleave Prog
open Scorer (BackendState rank)

/-! ## The readings of the reserve loop -/

/-- `TryReserve` read backend `id` at its limit, and refused it. -/
def Full (p : Pool) (h : List Event) (id : String) : Prop :=
  ∃ b, p.get id = some b ∧ ∃ v : Int64, b.maxConcurrent ≤ v ∧ (⟨.loadDepth id, v⟩ : Event) ∈ h

theorem Full.append {p : Pool} {h : List Event} {id : String} (hfull : Full p h id)
    (h' : List Event) : Full p (h ++ h') id := by
  obtain ⟨b, hb, v, hv, hmem⟩ := hfull
  exact ⟨b, hb, v, hv, List.mem_append_left _ hmem⟩

/-- The readings of a reserve loop that has come past the backends `ids`. -/
structure Turns (ids : List String) (h : List Event) : Prop where
  passed : ∀ id healthy, (⟨.loadHealthy id, healthy⟩ : Event) ∈ h → id ∈ ids
  once : ∀ id, (⟨.loadHealthy id, true⟩ : Event) ∈ h → (⟨.loadHealthy id, false⟩ : Event) ∉ h
  /-- A depth is only read of a backend that is still healthy. -/
  depth : ∀ id v, (⟨.loadDepth id, v⟩ : Event) ∈ h → (⟨.loadHealthy id, true⟩ : Event) ∈ h

section
variable {ids : List String} {h : List Event}

/-- The turn of the next backend. -/
theorem Turns.next (ht : Turns ids h) {id : String} (hid : id ∉ ids) (healthy : Bool) :
    Turns (ids ++ [id]) (h ++ [⟨.loadHealthy id, healthy⟩]) where
  passed id' healthy' hmem := by
    simp only [List.mem_append, List.mem_singleton] at hmem ⊢
    obtain hmem | heq := hmem
    · exact Or.inl (ht.passed id' healthy' hmem)
    · cases heq
      exact Or.inr rfl
  once id' htrue hfalse := by
    simp only [List.mem_append, List.mem_singleton] at htrue hfalse
    obtain htrue | htrue := htrue <;> obtain hfalse | hfalse := hfalse
    · exact ht.once id' htrue hfalse
    · cases hfalse
      exact hid (ht.passed id true htrue)
    · cases htrue
      exact hid (ht.passed id false hfalse)
    · cases htrue.trans hfalse.symm
  depth id' v hmem := List.mem_append_left _ (ht.depth id' v (by simpa using hmem))

/-- The steps of `TryReserve` on a backend that is still healthy. -/
theorem Turns.reads (ht : Turns ids h) {id : String}
    (hid : (⟨.loadHealthy id, true⟩ : Event) ∈ h) (v : Int64) :
    Turns ids (h ++ [⟨.loadDepth id, v⟩]) where
  passed id' healthy hmem := ht.passed id' healthy (by simpa using hmem)
  once id' htrue := by simpa using ht.once id' (by simpa using htrue)
  depth id' v' hmem := by
    simp only [List.mem_append, List.mem_singleton] at hmem ⊢
    obtain hmem | heq := hmem
    · exact Or.inl (ht.depth id' v' hmem)
    · cases heq
      exact Or.inl hid

/-- A swap comes in the turn of its candidate. -/
theorem Turns.swaps (ht : Turns ids h) (id : String) (old new : Int64) (swapped : Bool) :
    Turns ids (h ++ [⟨.casDepth id old new, swapped⟩]) where
  passed id' healthy hmem := ht.passed id' healthy (by simpa using hmem)
  once id' htrue := by simpa using ht.once id' (by simpa using htrue)
  depth id' v hmem := List.mem_append_left _ (ht.depth id' v (by simpa using hmem))

end

/-- What `TryReserve` reads of a backend that is still healthy. -/
theorem tryReserve_turns {p : Pool} {b : Backend} (hb : p.get b.id = some b) {ids : List String}
    {h : List Event} (ht : Turns ids h) (hhealthy : (⟨.loadHealthy b.id, true⟩ : Event) ∈ h) :
    Obeys (fun _ _ => True) (fun reserved h' => Turns ids h' ∧ h ⊆ h' ∧
      (reserved = false → Full p h' b.id) ∧
      ∀ id, (⟨.loadHealthy id, true⟩ : Event) ∈ h' → (⟨.loadHealthy id, true⟩ : Event) ∈ h)
      h b.tryReserve := by
  refine obeys_tryReserve (fun h' => Turns ids h' ∧ h ⊆ h' ∧
    ∀ id, (⟨.loadHealthy id, true⟩ : Event) ∈ h' → (⟨.loadHealthy id, true⟩ : Event) ∈ h)
    ⟨ht, List.Subset.refl _, fun _ hmem => hmem⟩ (fun _ _ => trivial) ?_ ?_
  · rintro h' v ⟨ht', hsub, hold⟩ - hv
    refine ⟨ht'.reads (hsub hhealthy) v, List.subset_append_of_subset_left _ hsub,
      fun _ => ⟨b, hb, v, hv, by simp⟩, fun id hmem => hold id (by simpa using hmem)⟩
  · rintro h' v ⟨ht', hsub, hold⟩ -
    have hstep (swapped : Bool) := (ht'.reads (hsub hhealthy) v).swaps b.id v (v + 1) swapped
    have hsub' (swapped : Bool) :
        h ⊆ h' ++ [⟨.loadDepth b.id, v⟩] ++ [⟨.casDepth b.id v (v + 1), swapped⟩] :=
      List.subset_append_of_subset_left _ (List.subset_append_of_subset_left _ hsub)
    exact ⟨trivial, ⟨hstep true, hsub' true, by simp, fun id hmem => hold id (by simpa using hmem)⟩,
      hstep false, hsub' false, fun id hmem => hold id (by simpa using hmem)⟩

/-- **What the reserve loop read**: if it selects nothing, then each backend that was still
healthy at its turn was at its limit. -/
theorem reserveFirst_turns {p : Pool} {ranked : List BackendState}
    (hids : (ranked.map (·.id)).Nodup) {h : List Event} {sel : Option (Backend × BackendState)}
    (hx : Returns (reserveFirst p ranked) h sel) :
    Turns (ranked.map (·.id)) h ∧
      (∀ b st, sel = some (b, st) → (⟨.loadHealthy st.id, true⟩ : Event) ∈ h) ∧
      (sel = none → ∀ id, (⟨.loadHealthy id, true⟩ : Event) ∈ h → Full p h id) := by
  suffices hobeys : Obeys (fun _ _ => True) (fun sel h' => Turns (ranked.map (·.id)) h' ∧
      (∀ b st, sel = some (b, st) → (⟨.loadHealthy st.id, true⟩ : Event) ∈ h') ∧
      (sel = none → ∀ id, (⟨.loadHealthy id, true⟩ : Event) ∈ h' → Full p h' id)) []
      (reserveFirst p ranked) from hobeys.returns hx
  have hmono {ids ids' : List String} (hsub : ids ⊆ ids') {h' : List Event} (ht : Turns ids h') :
      Turns ids' h' :=
    ⟨fun id healthy hmem => hsub (ht.passed id healthy hmem), ht.once, ht.depth⟩
  refine obeys_reserveFirst (fun front h' => Turns (front.map (·.id)) h' ∧
    ∀ id, (⟨.loadHealthy id, true⟩ : Event) ∈ h' → Full p h' id) ⟨⟨by simp, by simp, by simp⟩,
      by simp⟩ (fun h' hh' => ⟨hh'.1, by simp, fun _ => hh'.2⟩) ?_ ?_
  · intro front c back h' _ hfront _
    exact ⟨hmono (by simp) hfront.1, hfront.2⟩
  · rintro front c back h' b rfl ⟨ht, hfull⟩ hget
    have hid : b.id = c.id := p.keyed c.id b hget
    have hnew : b.id ∉ front.map (·.id) := by
      rw [List.map_append, List.nodup_append] at hids
      exact fun hmem => hids.2.2 _ hmem c.id (by simp) hid
    have hnext (healthy : Bool) := ht.next hnew healthy
    have hfront : front.map (·.id) ++ [b.id] = (front ++ [c]).map (·.id) := by simp [hid]
    have hold {healthy : Bool} {id : String} (hmem : (⟨.loadHealthy id, true⟩ : Event) ∈
        h' ++ [⟨.loadHealthy b.id, healthy⟩]) : Full p h' id ∨ id = b.id ∧ healthy = true := by
      simp only [List.mem_append, List.mem_singleton] at hmem
      obtain hmem | heq := hmem
      · exact Or.inl (hfull id hmem)
      · cases heq
        exact Or.inr ⟨rfl, rfl⟩
    refine ⟨trivial, ⟨hfront ▸ hnext false, fun id hmem => ?_⟩,
      (tryReserve_turns (by rw [hid, hget]) (hnext true) (by simp)).mono fun reserved h'' hes => ?_⟩
    · obtain hfull' | ⟨-, hfalse⟩ := hold hmem
      · exact hfull'.append _
      · contradiction
    · obtain ⟨ht', hsub, hrefused, hread⟩ := hes
      cases reserved with
      | false =>
          refine ⟨hfront ▸ ht', fun id hmem => ?_⟩
          obtain ⟨b', hb', v, hv, hdepth⟩ | ⟨rfl, -⟩ := hold (hread id hmem)
          · exact ⟨b', hb', v, hv, hsub (List.mem_append_left _ hdepth)⟩
          · exact hrefused rfl
      | true =>
          refine ⟨hmono (by simp [hid]) ht', fun b' st heq => ?_, by simp⟩
          cases heq
          exact hsub (by simp [hid])

/-! ## The answer of the handler -/

section
variable {s : Server} {r : Request} {c : Chat} {h : List Event}

theorem Handled.states_eq_nil (H : Handled s r c h) : H.states = [] ↔ H.found = [] := by
  rw [← List.map_eq_nil_iff (f := (·.id)), H.ids_states, List.map_eq_nil_iff]

/-- The trace begins with the snapshot. -/
theorem Handled.snapped (H : Handled s r c h) : Snapped s r c (H.health ++ H.reads) H.states :=
  ⟨H.found, H.health, H.reads, rfl, H.healthy, H.statesOf⟩

/-- The ranking has all states of the snapshot. -/
theorem Handled.mem_ranked (H : Handled s r c h) {st : BackendState} :
    st ∈ rank s.weights c.routeReq H.states ↔ st ∈ H.states :=
  H.snapped.snapshot.mem_rank s.weights c.routeReq

/-- The answer of a request that is handled, by what it selects. -/
structure Answer (H : Handled s r c h) (out : Outcome) : Prop where
  empty : H.states = [] → out = refuse 503 "no healthy backends available"
  refused : H.states ≠ [] → H.sel = none → out = refuse 429 "all backends are at capacity"
  dispatched : ∀ b st, H.sel = some (b, st) → out.writer.backend = some st.id

/-- The answer is that of one of the three ways to end. -/
theorem Handled.answer (H : Handled s r c h) (hc : prepare s r = .ok c) {out : Outcome}
    (hx : Returns (handleChatCompletions s r) h out) : Answer H out := by
  obtain ⟨H', hrest⟩ := exists_handled hc hx
  obtain rfl := H.unique H'
  obtain ⟨hfound, hsel, -, hout⟩ | ⟨hfound, hfinish⟩ := hrest
  · have hstates : H.states = [] := H.states_eq_nil.mpr hfound
    exact ⟨fun _ => hout, fun hne => absurd hstates hne, by simp [hsel]⟩
  · have hstates : H.states ≠ [] := mt H.states_eq_nil.mp hfound
    refine ⟨fun hnil => absurd hnil hstates, fun _ hsel => ?_, fun b st hsel => ?_⟩
    · obtain ⟨st, states, hcons⟩ := List.exists_cons_of_ne_nil hstates
      have hlen : (rank s.weights c.routeReq H.states).length ≠ 0 := by
        have hmem := H.mem_ranked.mpr (hcons ▸ List.mem_cons_self : st ∈ H.states)
        exact (List.length_pos_of_mem hmem).ne'
      rw [hsel] at hfinish
      rw [hfinish.of_ret.2, if_neg hlen]
    · obtain ⟨front, back, -, hattempted⟩ := reserveFirst_attempted H.reserve
      have hid := s.pool.keyed st.id b (hattempted.selected b st hsel).1
      rw [hsel] at hfinish
      obtain ⟨out', h₁, h₂, -, hdispatch, hrelease⟩ := Returns.of_bind hfinish
      obtain ⟨_, h₃, h₄, -, -, hret⟩ := Returns.of_bind hrelease
      have heffects := (dispatch_effects (p := s.pool) (h := []) (r := r)
        (d := ⟨c, b, st, _, _⟩) hid.symm).returns hdispatch
      rw [hret.of_ret.2]
      exact heffects.header

/-- A request that is not routed gets no 429. -/
theorem prepare_error_ne {out : Outcome} (hbad : prepare s r = .error out) (msg : String) :
    out ≠ refuse 429 msg := by
  obtain ⟨msg', rfl⟩ | rfl := prepare_error hbad
  · exact fun heq => by simpa [refuse, writeError, Proxy.Writer.writeHeader, Proxy.Writer.write,
      Proxy.Writer.new] using congrArg (·.writer.status) heq
  · exact fun heq => by simpa [refuse] using congrArg (·.panicked) heq

end

/-! ## In a run -/

/-- At its turn thread `i` found backend `id` healthy, or not. -/
def FoundHealth (i : ℕ) (turns : Log) (id : String) (healthy : Bool) : Prop :=
  ∃ x ∈ turns, x.who = i ∧ x.event.1 = .loadHealthy id ∧ (x.before.cells id).healthy = healthy

/-- `TryReserve` of thread `i` found a backend at its limit. -/
def FoundFull (p : Pool) (i : ℕ) (turns : Log) : Prop :=
  ∃ b, p.get b.id = some b ∧ ∃ x ∈ turns, x.who = i ∧ x.event.1 = .loadDepth b.id ∧
    b.maxConcurrent ≤ (x.before.cells b.id).queueDepth

/-- What the refusals of thread `i` promise, which took the snapshot `states` and the turns
`turns`. -/
structure MeansCapacity (s : Server) (i : ℕ) (states : List BackendState) (turns : Log)
    (out : Outcome) : Prop where
  capacity : out = refuse 429 "all backends are at capacity" → FoundFull s.pool i turns
  unhealthy : (∀ st ∈ states, FoundHealth i turns st.id false) → out.writer.status = some 503

section
variable {s : Server} {r : Request} {c : Chat} {h : List Event} {turns : Log} {i : ℕ}
  (hsound : ∀ x ∈ turns, x.event.2 = (x.event.1.sem x.before).1)
include hsound

theorem foundHealth_iff {id : String} {healthy : Bool} :
    FoundHealth i turns id healthy ↔ (⟨.loadHealthy id, healthy⟩ : Event) ∈ own i turns :=
  (mem_own_iff hsound).symm

/-- A thread found a backend full exactly when its trace says so. -/
theorem foundFull_iff {p : Pool} : FoundFull p i turns ↔ ∃ id, Full p (own i turns) id := by
  constructor
  · intro hfull
    obtain ⟨b, hb, x, hx, hwho, hevent, hlimit⟩ := hfull
    exact ⟨b.id, b, hb, _, hlimit, (mem_own_iff hsound).mpr ⟨x, hx, hwho, hevent, rfl⟩⟩
  · intro hfull
    obtain ⟨id, b, hb, v, hlimit, hmem⟩ := hfull
    obtain rfl := p.keyed id b hb
    obtain ⟨x, hx, hwho, hevent, rfl⟩ := (mem_own_iff hsound).mp hmem
    exact ⟨b, hb, x, hx, hwho, hevent, hlimit⟩

/-- **The refusals keep their promise** exactly when some backend of the snapshot is still healthy
at its turn, or there is none. -/
theorem Handled.meansCapacity_iff (H : Handled s r c h) (hturns : own i turns = H.attempts)
    {out : Outcome} (hanswer : Answer H out) : MeansCapacity s i H.states turns out ↔
      H.states = [] ∨ ∃ st ∈ H.states, FoundHealth i turns st.id true := by
  have hids : ((rank s.weights c.routeReq H.states).map (·.id)).Nodup := by
    rw [((Scorer.perm_rank _ _ _).map _).nodup_iff]
    exact Scorer.nodup_ids_healthy H.nodup_ids
  obtain ⟨hreads, hselected, hfull⟩ := reserveFirst_turns hids H.reserve
  simp only [foundHealth_iff hsound, hturns]
  constructor
  · intro hmeans
    by_contra hnot
    obtain ⟨hstates, hnone⟩ := not_or.mp hnot
    have hsel : H.sel = none := by
      by_contra hsome
      obtain ⟨⟨b, st⟩, hsel⟩ := Option.ne_none_iff_exists'.mp hsome
      exact hnone ⟨st, H.mem_of_sel hsel, hselected b st hsel⟩
    obtain ⟨id, b, -, v, -, hdepth⟩ :=
      (foundFull_iff hsound).mp (hmeans.capacity (hanswer.refused hstates hsel))
    -- the depth was only read because the backend was still healthy
    have hhealthy := hreads.depth id v (hturns ▸ hdepth)
    obtain ⟨st, hst, rfl⟩ := List.mem_map.mp (hreads.passed id true hhealthy)
    exact hnone ⟨st, H.mem_ranked.mp hst, hhealthy⟩
  · intro hcond
    obtain hnil | ⟨st, hst, hhealthy⟩ := hcond
    · rw [hanswer.empty hnil]
      exact ⟨fun heq => by simp [refuse, writeError, Proxy.Writer.writeHeader,
        Proxy.Writer.write, Proxy.Writer.new] at heq, fun _ => rfl⟩
    · constructor
      · intro hout
        have hsel : H.sel = none := by
          by_contra hsome
          obtain ⟨⟨b, st'⟩, hsel⟩ := Option.ne_none_iff_exists'.mp hsome
          have hheader := hanswer.dispatched b st' hsel
          rw [hout] at hheader
          exact absurd hheader.symm (Option.some_ne_none _)
        exact (foundFull_iff hsound).mpr ⟨st.id, hturns ▸ hfull hsel st.id hhealthy⟩
      · intro hall
        have hunhealthy := (foundHealth_iff hsound).mp (hall st hst)
        rw [hturns] at hunhealthy
        exact absurd hunhealthy (hreads.once st.id hhealthy)

end

/-- **A 429 means capacity** in any run exactly where some backend of the snapshot is still healthy
at its turn: a request that is answered either was not routed, and is not answered so, or it took
a snapshot and came to its backends in turn. -/
theorem refusal_means_capacity_iff {s : Server} {w : World} {tasks : List Task} {log : Log}
    {sys : System} (run : Steps (System.start s w tasks) log sys) {i : ℕ} {r : Request}
    (hi : tasks[i]? = some (.request r)) {trace : List Event} {out : Outcome}
    (hend : sys.threads[i]? = some ⟨trace, .ret (.handled out)⟩) :
    (∀ bad, prepare s r = .error bad → out ≠ refuse 429 "all backends are at capacity") ∧
    ∀ c, prepare s r = .ok c → ∃ (H : Handled s r c (own i log)) (snapshot turns rest : Log),
      log = snapshot ++ (turns ++ rest) ∧ own i snapshot = H.health ++ H.reads ∧
      own i turns = H.attempts ∧ (MeansCapacity s i H.states turns out ↔
        H.states = [] ∨ ∃ st ∈ H.states, FoundHealth i turns st.id true) := by
  have hstart : (System.start s w tasks).threads[i]? =
      some (.start ((Task.request r).prog s)) := by simp [System.start, hi]
  obtain ⟨out', hdone, hx⟩ := returns_of_run run hstart hend rfl
  obtain rfl : out = out' := Done.handled.inj hdone
  constructor
  · intro bad hbad
    unfold handleChatCompletions at hx
    rw [hbad] at hx
    rw [hx.of_ret.2]
    exact prepare_error_ne hbad _
  · intro c hc
    obtain ⟨H, -⟩ := exists_handled hc hx
    have htrace : own i log = (H.health ++ H.reads) ++ (H.attempts ++ H.rest) := by
      rw [List.append_assoc]
      exact H.trace
    obtain ⟨snapshot, later, rfl, hsnapshot, hlater⟩ := own_eq_append htrace
    obtain ⟨turns, rest, rfl, hturns, -⟩ := own_eq_append hlater
    have hsound : ∀ x ∈ turns, x.event.2 = (x.event.1.sem x.before).1 :=
      fun x hx => run.sound x (by simp [hx])
    exact ⟨H, snapshot, turns, rest, rfl, hsnapshot, hturns,
      H.meansCapacity_iff hsound hturns (H.answer hc hx)⟩

/-- A request that is refused on its own. -/
theorem refusal_means_capacity_iff_alone :
    let s := Sample.server Sample.pool
    let r := Sample.request default fun _ => default
    ∃ log sys out, Steps (System.start s Sample.world [.request r]) log sys ∧
      ∃ (H : Handled s r Sample.chat (own 0 log)) (snapshot turns rest : Log),
        log = snapshot ++ (turns ++ rest) ∧ own 0 snapshot = H.health ++ H.reads ∧
        own 0 turns = H.attempts ∧ (MeansCapacity s 0 H.states turns out ↔
          H.states = [] ∨ ∃ st ∈ H.states, FoundHealth 0 turns st.id true) := by
  intro s r
  obtain ⟨log, sys, out, trace, run, hend, -⟩ := exists_answer s Sample.world r
  exact ⟨log, sys, out, run,
    (refusal_means_capacity_iff run rfl hend).2 Sample.chat (Sample.prepare_request _ _ _)⟩

/-! ## A refusal without a full backend -/

/-- The backend is healthy in the snapshot and three probes of it fail before its turn: the answer
is a 429, and nothing was at its limit. -/
theorem refusal_without_full_backend :
    let s := Sample.server Sample.pool
    let r := Sample.request default fun _ => default
    let down := Task.probe Sample.backend false
    ∃ log sys trace out,
      Steps (System.start s Sample.world [.request r, down, down, down]) log sys ∧
      sys.threads[0]? = some ⟨trace, .ret (.handled out)⟩ ∧
      out = refuse 429 "all backends are at capacity" ∧
      ∃ (H : Handled s r Sample.chat (own 0 log)) (snapshot turns rest : Log),
        log = snapshot ++ (turns ++ rest) ∧ own 0 turns = H.attempts ∧
        ¬ MeansCapacity s 0 H.states turns out := by
  intro s r down
  obtain ⟨log, sys, trace, run, hend, hown⟩ := Sample.exists_refused
  obtain ⟨out, hout, hx⟩ := returns_of_run run rfl hend rfl
  obtain rfl := Done.handled.inj hout
  obtain ⟨H, -⟩ := exists_handled (Sample.prepare_request _ _ _) hx
  have htrace : own 0 log = (H.health ++ H.reads) ++ (H.attempts ++ H.rest) := by
    rw [List.append_assoc]
    exact H.trace
  obtain ⟨snapshot, later, rfl, -, hlater⟩ := own_eq_append htrace
  obtain ⟨turns, rest, rfl, hturns, -⟩ := own_eq_append hlater
  refine ⟨_, sys, trace, _, run, hend, rfl, H, snapshot, turns, rest, rfl, hturns, fun hmeans => ?_⟩
  have hsound : ∀ x ∈ turns, x.event.2 = (x.event.1.sem x.before).1 :=
    fun x hx => run.sound x (by simp [hx])
  obtain ⟨id, b, hb, v, hlimit, hmem⟩ := (foundFull_iff hsound).mp (hmeans.capacity rfl)
  have hread : (⟨.loadDepth id, v⟩ : Event) ∈ own 0 (snapshot ++ (turns ++ rest)) := by
    simp [own_append, hmem]
  rw [hown] at hread
  have hdepth : id = "a" ∧ v = 0 := by simpa using hread
  obtain ⟨rfl, rfl⟩ := hdepth
  obtain rfl : Sample.backend = b := Option.some.inj hb
  exact absurd hlimit (by decide)

end KvRouter
