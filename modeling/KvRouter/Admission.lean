import KvRouter.Handler.Reads
import KvRouter.Reservation

/-!
# KvRouter.Admission

Work conservation in ranked admission.  The ranking is computed from a snapshot
that may be obsolete by the time a slot is reserved, so the reserve loop looks
again at every candidate.  The contract `Ordered` says on the trace what that
gives: a thread only tries to take a slot on a backend after it has read, since
its snapshot, that each backend ranked ahead was unhealthy or at its limit.

`work_conservation` carries this to every interleaving: each such reading was
made by the thread itself in a state of the run, after its own snapshot
(`Snapped`) and before the reservation, in which the backend really was
unavailable.  What the other threads do in the meantime is not restricted.
-/

namespace KvRouter

open Handler Interleave Prog
open Scorer (BackendState rank perm_rank)

/-! ## Skipped backends -/

/-- The trace holds a reading of backend `id` as unhealthy or at its limit. -/
def Skipped (p : Pool) (h : List Event) (id : String) : Prop :=
  (⟨.loadHealthy id, false⟩ : Event) ∈ h ∨ ∃ b, ∃ v : Int64, p.get id = some b ∧
    b.maxConcurrent ≤ v ∧ (⟨.loadDepth id, v⟩ : Event) ∈ h

/-- A reading that is in a trace is in every longer one. -/
theorem Skipped.mono {p : Pool} {h h' : List Event} {id : String} (hs : Skipped p h id)
    (hsub : h ⊆ h') : Skipped p h' id := by
  obtain hs | ⟨b, v, hb, hv, hs⟩ := hs
  · exact Or.inl (hsub hs)
  · exact Or.inr ⟨b, v, hb, hv, hsub hs⟩

/-- A slot is only tried for on a backend when every backend ranked ahead of it
has been skipped since the snapshot. -/
def Ordered (s : Server) (r : Request) (h : List Event) : Act → Prop
  | .casDepth id _ _ => ∃ before since c states, h = before ++ since ∧ prepare s r = .ok c ∧
      Snapped s r c before states ∧ ∃ front st back,
        rank s.weights c.routeReq states = front ++ st :: back ∧ st.id = id ∧
          ∀ y ∈ front, Skipped s.pool since y.id
  | _ => True

/-- A trace in which a slot was taken. -/
def Reserved (h : List Event) : Prop :=
  ∃ id old new, (⟨.casDepth id old new, true⟩ : Event) ∈ h

/-- The request gets the answer `out` without a slot: it was bad, or its snapshot was empty, or it
has skipped the whole of it. -/
def TurnedAway (s : Server) (r : Request) (h : List Event) (out : Outcome) : Prop :=
  prepare s r = .error out ∨
  ∃ before since c states, h = before ++ since ∧ prepare s r = .ok c ∧ Snapped s r c before states ∧
    (states = [] ∧ out = refuse 503 "no healthy backends available" ∨
      states ≠ [] ∧ out = refuse 429 "all backends are at capacity" ∧
        ∀ st ∈ states, Skipped s.pool since st.id)

variable {s : Server} {r : Request} {h : List Event}

/-! ## Actions without a swap -/

/-- Only the reserve loop tries to take a slot. -/
def NoSwap (a : Act) : Prop := ∀ id old new, a ≠ .casDepth id old new

theorem noSwap_of_quiet {a : Act} (ha : Quiet a) : NoSwap a := by
  rintro id old new rfl
  exact Option.some_ne_none _ (ha true)

theorem NoSwap.ordered {a : Act} (ha : NoSwap a) (h : List Event) : Ordered s r h a := by
  cases a with
  | casDepth id old new => exact absurd rfl (ha id old new)
  | _ => trivial

theorem ordered_of_read (h : List Event) (a : Act) (ha : IsRead a) : Ordered s r h a := by
  cases a with
  | casDepth id old new => exact False.elim ha
  | _ => trivial

/-! ## The reserve loop -/

/-- `TryReserve`, where it may take a slot, ends with one or with a reading of
the backend at its limit. -/
theorem tryReserve_ordered {b : Backend} (hb : s.pool.get b.id = some b) {before since : List Event}
    (hok : ∀ since', since ⊆ since' → ∀ old new,
      Ordered s r (before ++ since') (.casDepth b.id old new)) :
    Obeys (Ordered s r) (fun ok h' => if ok then Reserved h' else
      ∃ since', h' = before ++ since' ∧ since ⊆ since' ∧ Skipped s.pool since' b.id)
      (before ++ since) b.tryReserve := by
  refine obeys_tryReserve (fun h' => ∃ since', h' = before ++ since' ∧ since ⊆ since')
    ⟨since, rfl, List.Subset.refl _⟩ (fun _ _ => trivial) ?_ ?_
  · -- the depth just read is at the limit
    rintro h' v ⟨since', rfl, hsub⟩ _ hv
    exact ⟨since' ++ [⟨.loadDepth b.id, v⟩], by simp, List.subset_append_of_subset_left _ hsub,
      Or.inr ⟨b, v, hb, hv, by simp⟩⟩
  · rintro h' v ⟨since', rfl, hsub⟩ -
    have hsub' := List.subset_append_of_subset_left [⟨.loadDepth b.id, v⟩] hsub
    refine ⟨?_, ⟨b.id, v, v + 1, by simp⟩, ?_⟩
    · rw [List.append_assoc]
      exact hok _ hsub' v (v + 1)
    · exact ⟨since' ++ [⟨.loadDepth b.id, v⟩] ++ [⟨.casDepth b.id v (v + 1), false⟩], by simp,
        List.subset_append_of_subset_left _ hsub'⟩

/-- What the reserve loop leaves in the trace after the snapshot `before`, by its result. -/
def Selected (s : Server) (states : List BackendState) (before h : List Event) :
    Option (Backend × BackendState) → Prop
  | none => ∃ since, h = before ++ since ∧ ∀ st ∈ states, Skipped s.pool since st.id
  | some _ => Reserved h

/-- **The loop over the ranking of a snapshot** tries the backends in order. -/
theorem reserveFirst_ordered {c : Chat} (hc : prepare s r = .ok c) {states : List BackendState}
    {before : List Event} (hsnap : Snapped s r c before states) :
    Obeys (Ordered s r) (fun sel h' => Selected s states before h' sel) before
      (reserveFirst s.pool (rank s.weights c.routeReq states)) := by
  have hranked {st : BackendState} : st ∈ rank s.weights c.routeReq states ↔ st ∈ states :=
    hsnap.snapshot.mem_rank s.weights c.routeReq
  refine obeys_reserveFirst (fun front h' => ∃ since, h' = before ++ since ∧
    ∀ y ∈ front, Skipped s.pool since y.id) ⟨[], by simp, by simp⟩ ?_ ?_ ?_
  · rintro h' ⟨since, rfl, hskipped⟩
    exact ⟨since, rfl, fun st hst => hskipped st (hranked.mpr hst)⟩
  · -- a ranked backend is in the pool
    intro front st back h' hrank _ hnone
    obtain ⟨b, hb, -⟩ := hsnap.snapshot.read st (hranked.mp (by simp [hrank]))
    rw [hnone] at hb
    contradiction
  · rintro front st back h' b hrank ⟨since, rfl, hskipped⟩ hb
    have hid : b.id = st.id := s.pool.keyed st.id b hb
    have hpassed {since' : List Event} (hsub : since ⊆ since')
        (hnow : Skipped s.pool since' st.id) :
        ∀ y ∈ front ++ [st], Skipped s.pool since' y.id := by
      intro y hy
      rw [List.mem_append, List.mem_singleton] at hy
      obtain hy | rfl := hy
      · exact (hskipped y hy).mono hsub
      · exact hnow
    have hsub (healthy : Bool) : since ⊆ since ++ [⟨.loadHealthy b.id, healthy⟩] :=
      List.subset_append_left _ _
    have hok (since' : List Event) (hsub' : since ++ [⟨.loadHealthy b.id, true⟩] ⊆ since')
        (old new : Int64) : Ordered s r (before ++ since') (.casDepth b.id old new) :=
      ⟨before, since', c, states, rfl, hc, hsnap, front, st, back, hrank, hid.symm,
        fun y hy => (hskipped y hy).mono (List.Subset.trans (hsub true) hsub')⟩
    refine ⟨trivial, ⟨_, List.append_assoc _ _ _, hpassed (hsub false) (Or.inl ?_)⟩, ?_⟩
    · rw [hid]
      simp
    · rw [List.append_assoc]
      refine (tryReserve_ordered (by rw [hid, hb]) hok).mono fun reserved h' hsel => ?_
      cases reserved with
      | true => exact hsel
      | false =>
          obtain ⟨since', rfl, hsub', hnow⟩ := hsel
          exact ⟨since', rfl, hpassed (List.Subset.trans (hsub true) hsub') (hid ▸ hnow)⟩

/-! ## The handler -/

/-- Once a slot is held, no other is tried for. -/
theorem noSwap_dispatch (r : Request) (d : Dispatch) : (dispatch r d).Uses NoSwap :=
  uses_dispatch (fun _ ha _ => noSwap_of_quiet ha)
    (fun id old new heq => by simp [commitCacheObservation] at heq)
    fun _ _ _ => noSwap_of_quiet fun _ => rfl

/-- A reservation stays in the trace. -/
theorem obeys_reserved {α : Type} {prog : Program α} (hprog : prog.Uses NoSwap) (hh : Reserved h) :
    Obeys (Ordered s r) (fun _ h' => Reserved h') h prog := by
  refine hprog.obeys (I := Reserved) (fun h' _ _ ha => ha.ordered h') (fun h' a x hh' _ => ?_) hh
  obtain ⟨id, old, new, hmem⟩ := hh'
  exact ⟨id, old, new, List.mem_append_left _ hmem⟩

/-- **The handler tries backends in order**: it takes a slot, or it turns the request away after
it has skipped its whole snapshot. -/
theorem handler_ordered (s : Server) (r : Request) :
    Obeys (Ordered s r) (fun out h' => Reserved h' ∨ TurnedAway s r h' out) []
      (handleChatCompletions s r) := by
  refine obeys_of_snapped ordered_of_read (fun out hout => Or.inr (Or.inl hout))
    (fun c before hc hsnap => ?_) fun c states before hc hne hsnap => ?_
  · exact Or.inr (Or.inr ⟨before, [], c, [], by simp, hc, hsnap, Or.inl ⟨rfl, rfl⟩⟩)
  · refine Obeys.bind ((reserveFirst_ordered hc hsnap).mono fun sel h' hsel => ?_)
    cases sel with
    | none =>
        obtain ⟨since, rfl, hskipped⟩ := hsel
        obtain ⟨st, hst⟩ := List.exists_mem_of_ne_nil states hne
        have hlen : (rank s.weights c.routeReq states).length ≠ 0 :=
          (List.length_pos_of_mem ((hsnap.snapshot.mem_rank _ _).mpr hst)).ne'
        exact Or.inr (Or.inr ⟨before, since, c, states, rfl, hc, hsnap,
          Or.inr ⟨hne, if_neg hlen, hskipped⟩⟩)
    | some x =>
        have hrest : (finish s r c states (rank s.weights c.routeReq states) (some x)).Uses
            NoSwap :=
          (noSwap_dispatch r _).bind
            fun _ => ⟨fun _ _ _ heq => by simp at heq, fun _ => trivial⟩
        exact (obeys_reserved hrest hsel).mono fun _ _ hh => Or.inl hh

/-! ## Every interleaving -/

/-- Backend `id` is unhealthy or at its limit. -/
def Unavailable (p : Pool) (w : World) (id : String) : Prop :=
  (w.cells id).healthy = false ∨ ∃ b, p.get id = some b ∧ b.maxConcurrent ≤ w.depth id

/-- A reading of thread `i` was made in a state of the log that agrees with it. -/
theorem unavailable_of_skipped {p : Pool} {i : ℕ} {log : Log} {id : String}
    (hsound : ∀ x ∈ log, x.event.2 = (x.event.1.sem x.before).1)
    (hs : Skipped p (own i log) id) : ∃ z ∈ log, z.who = i ∧ Unavailable p z.before id := by
  obtain hs | ⟨b, v, hb, hv, hs⟩ := hs
  · obtain ⟨z, hz, hwho, hevent⟩ := mem_own.mp hs
    have hanswer := hsound z hz
    rw [hevent] at hanswer
    exact ⟨z, hz, hwho, Or.inl hanswer.symm⟩
  · obtain ⟨z, hz, hwho, hevent⟩ := mem_own.mp hs
    have hanswer := hsound z hz
    rw [hevent] at hanswer
    have hdepth : v = z.before.depth id := hanswer
    exact ⟨z, hz, hwho, Or.inr ⟨b, hb, by rw [← hdepth]; exact hv⟩⟩

/-- What the log of a run shows of thread `i`, which handles `r`. -/
structure WorkConserving (s : Server) (r : Request) (i : ℕ) (log : Log) (c : System) : Prop where
  /-- If the thread takes a slot on backend `id`, then at some instant after its own snapshot and
  before that, it found each backend ranked ahead of `id` unavailable. -/
  reserved : ∀ earlier x later id old new, log = earlier ++ x :: later → x.who = i →
    x.event = ⟨.casDepth id old new, true⟩ →
    ∃ snap between ch states front st back, earlier = snap ++ between ∧ prepare s r = .ok ch ∧
      Snapped s r ch (own i snap) states ∧
      rank s.weights ch.routeReq states = front ++ st :: back ∧ st.id = id ∧
      ∀ y ∈ front, ∃ z ∈ between, z.who = i ∧ Unavailable s.pool z.before y.id
  /-- If it answers without a slot, then the request was bad, or no backend was healthy in its
  snapshot, or at some instant after that it found each backend of the snapshot unavailable. -/
  refused : ∀ t out, c.threads[i]? = some t → t.prog = .ret (.handled out) →
    (∀ id old new, (⟨.casDepth id old new, true⟩ : Event) ∉ own i log) →
    prepare s r = .error out ∨
    ∃ snap between ch states, log = snap ++ between ∧ prepare s r = .ok ch ∧
      Snapped s r ch (own i snap) states ∧
      (states = [] ∧ out = refuse 503 "no healthy backends available" ∨
        states ≠ [] ∧ out = refuse 429 "all backends are at capacity" ∧
          ∀ st ∈ states, ∃ z ∈ between, z.who = i ∧ Unavailable s.pool z.before st.id)

/-- **Work conservation in ranked admission**, whatever the other threads do: a
backend that stays available throughout is never passed over for one ranked
behind it, nor for a refusal. -/
theorem work_conservation {s : Server} {r : Request} {c c' : System} {log : Log}
    (h : Steps c log c') {i : ℕ} (hi : c.threads[i]? = some (.start ((Task.request r).prog s))) :
    WorkConserving s r i log c' := by
  have hobeys : Obeys (Ordered s r) (fun x h' => Reserved h' ∨
      ∃ out, x = .handled out ∧ TurnedAway s r h' out) [] ((Task.request r).prog s) :=
    Obeys.bind ((handler_ordered s r).mono fun out h' hout => hout.imp_right fun h => ⟨out, rfl, h⟩)
  constructor
  · intro earlier x later id old new hlog hwho hevent
    have hordered := h.permitted hi hobeys hlog hwho
    rw [hevent] at hordered
    obtain ⟨before, since, ch, states, hsplit, hch, hsnap, front, st, back, hrank, hst, hskipped⟩ :=
      hordered
    obtain ⟨snap, between, hearlier, hbefore, hsince⟩ := own_eq_append hsplit
    subst hbefore hsince
    refine ⟨snap, between, ch, states, front, st, back, hearlier, hch, hsnap, hrank, hst, ?_⟩
    refine fun y hy => unavailable_of_skipped (fun z hz => h.sound z ?_) (hskipped y hy)
    rw [hlog, hearlier]
    exact List.mem_append_left _ (List.mem_append_right _ hz)
  · intro t out ht hret hnot
    obtain ⟨id, old, new, hmem⟩ | ⟨out', heq, haway⟩ := h.finished hi hobeys ht hret
    · exact absurd hmem (hnot id old new)
    obtain rfl := Done.handled.inj heq
    refine haway.imp_right fun hsnapped => ?_
    obtain ⟨before, since, ch, states, hsplit, hch, hsnap, hanswer⟩ := hsnapped
    obtain ⟨snap, between, hlog, hbefore, hsince⟩ := own_eq_append hsplit
    subst hbefore hsince
    refine ⟨snap, between, ch, states, hlog, hch, hsnap, hanswer.imp_right fun hfull => ?_⟩
    obtain ⟨hne, hout, hskipped⟩ := hfull
    refine ⟨hne, hout, fun st hst => ?_⟩
    refine unavailable_of_skipped (fun z hz => h.sound z ?_) (hskipped st hst)
    rw [hlog]
    exact List.mem_append_right _ hz

namespace Sample

/-- The backend is healthy in the snapshot of a request, and three probes of it fail before its
turn. -/
theorem exists_refused :
    let s := server pool
    let down := Task.probe backend false
    ∃ log sys trace, Steps (System.start s world [.request (request default fun _ => default),
        down, down, down]) log sys ∧
      sys.threads[0]? = some ⟨trace, .ret (.handled (refuse 429 "all backends are at capacity"))⟩ ∧
      own 0 log = [⟨.loadHealthy "a", true⟩, ⟨.lookup "a" chat.namespace chat.hashes, 0⟩,
        ⟨.usage "a", ⟨"a", 10, 0⟩⟩, ⟨.loadDepth "a", 0⟩, ⟨.loadHealthy "a", false⟩] := by
  intro s down
  let r := request default fun _ => default
  obtain ⟨log, sys, hrun, hend, hown⟩ : ∃ log sys,
      (System.start s world [.request r, down, down, down]).scheduled Act.sem
        [0, 0, 0, 0, 1, 1, 2, 2, 3, 3, 3, 3, 0] = some (log, sys) ∧
      sys.threads[0]?.map (·.prog) =
        some (.ret (.handled (refuse 429 "all backends are at capacity"))) ∧
      own 0 log = [⟨.loadHealthy "a", true⟩, ⟨.lookup "a" chat.namespace chat.hashes, 0⟩,
        ⟨.usage "a", ⟨"a", 10, 0⟩⟩, ⟨.loadDepth "a", 0⟩, ⟨.loadHealthy "a", false⟩] := by
    rw [System.start, List.map_cons, prog_of_prepare rfl (prepare_request pool _ _)]
    exact ⟨_, _, rfl, rfl, rfl⟩
  obtain ⟨trace, hend⟩ := Interleave.Config.exists_trace hend
  exact ⟨log, sys, trace, Path.of_scheduled hrun, hend, hown⟩

end Sample

/-- The one backend of the snapshot is passed over, for a refusal. -/
theorem work_conservation_refused :
    let s := Sample.server Sample.pool
    let r := Sample.request default fun _ => default
    let down := Task.probe Sample.backend false
    ∃ log c trace, Steps (System.start s Sample.world [.request r, down, down, down]) log c ∧
      c.threads[0]? =
        some ⟨trace, .ret (.handled (refuse 429 "all backends are at capacity"))⟩ ∧
      (∀ id old new, (⟨.casDepth id old new, true⟩ : Event) ∉ own 0 log) ∧
      WorkConserving s r 0 log c := by
  intro s r down
  obtain ⟨log, c, trace, hsteps, hend, hown⟩ := Sample.exists_refused
  refine ⟨log, c, trace, hsteps, hend, fun id old new hmem => ?_, work_conservation hsteps rfl⟩
  rw [hown] at hmem
  simp at hmem

end KvRouter
