import KvRouter.Handler.Contract

/-!
# KvRouter.Handler.Reads

What a handler knows of the shared state when it ranks the backends: the answers
in its trace.  They are read one after another, so no single state of the system
need agree with all of them; a `Snapshot` only says that each was read.  The
lemmas hold under any contract that permits reading (`IsRead`).
-/

namespace KvRouter

open Handler Prog
open Scorer (BackendState rank)

/-! ## Readings in a trace -/

/-- The state of `b` that the answers in `h` give. -/
def StateRead (c : Chat) (b : Backend) (st : BackendState) (h : List Event) : Prop :=
  ∃ (m : ℕ) (u : CacheIndex.Stats) (v : Int64),
    (⟨.lookup b.id c.namespace c.hashes, m⟩ : Event) ∈ h ∧ (⟨.usage b.id, u⟩ : Event) ∈ h ∧
      (⟨.loadDepth b.id, v⟩ : Event) ∈ h ∧
      st = ⟨b.id, m, v.toInt, b.maxConcurrent.toInt, u.used, u.capacity, true⟩

/-- `states` is the snapshot a request took in the trace `h`: the states, as
read, of exactly the backends found healthy. -/
structure Snapshot (p : Pool) (c : Chat) (h : List Event) (states : List BackendState) : Prop where
  read : ∀ st ∈ states, ∃ b, p.get st.id = some b ∧
    (⟨.loadHealthy b.id, true⟩ : Event) ∈ h ∧ StateRead c b st h
  complete : ∀ id, (⟨.loadHealthy id, true⟩ : Event) ∈ h → id ∈ states.map (·.id)

theorem StateRead.mono {c : Chat} {b : Backend} {st : BackendState} {h h' : List Event}
    (hs : StateRead c b st h) (hsub : h ⊆ h') : StateRead c b st h' := by
  obtain ⟨m, u, v, hm, hu, hv, hst⟩ := hs
  exact ⟨m, u, v, hsub hm, hsub hu, hsub hv, hst⟩

/-- A state is that of the backend it was read from. -/
theorem StateRead.id_eq {c : Chat} {b : Backend} {st : BackendState} {h : List Event}
    (hs : StateRead c b st h) : st.id = b.id := by
  obtain ⟨m, u, v, -, -, -, rfl⟩ := hs
  rfl

/-- A ranking has all states of a snapshot. -/
theorem Snapshot.mem_rank {p : Pool} {c : Chat} {h : List Event} {states : List BackendState}
    (hsnap : Snapshot p c h states) (w : Scorer.Weights) (req : Scorer.Request)
    {st : BackendState} :
    st ∈ rank w req states ↔ st ∈ states := by
  rw [(Scorer.perm_rank w req states).mem_iff, List.mem_filter, and_iff_left_iff_imp]
  intro hst
  obtain ⟨b, -, -, m, u, v, -, -, -, rfl⟩ := hsnap.read st hst
  rfl

/-! ## The snapshot -/

section
variable {ok : List Event → Act → Prop} (hok : ∀ h a, IsRead a → ok h a) {h : List Event}
include hok

/-- The filter of `Healthy` returns what it has read to be healthy. -/
theorem healthyAmong_reads (bs : List Backend) :
    Obeys ok (fun found h' => ∃ loads, h' = h ++ loads ∧
      (∀ b ∈ found, b ∈ bs ∧ (⟨.loadHealthy b.id, true⟩ : Event) ∈ loads) ∧
      ∀ id, (⟨.loadHealthy id, true⟩ : Event) ∈ loads → id ∈ found.map (·.id)) h
      (healthyAmong bs) := by
  induction bs generalizing h with
  | nil => exact ⟨[], by simp, by simp, by simp⟩
  | cons b bs ih =>
      refine ⟨hok _ _ trivial, fun healthy => ?_⟩
      show Obeys _ _ _ ((healthyAmong bs).bind _)
      refine Obeys.bind (ih.mono fun found h' hfound => ?_)
      obtain ⟨loads, rfl, hread, hall⟩ := hfound
      refine ⟨⟨.loadHealthy b.id, healthy⟩ :: loads, by simp, ?_, ?_⟩
      · cases healthy with
        | false => exact fun b' hb' => ⟨List.mem_cons_of_mem _ (hread b' hb').1,
            List.mem_cons_of_mem _ (hread b' hb').2⟩
        | true =>
            rw [if_pos rfl, List.forall_mem_cons]
            exact ⟨⟨List.mem_cons_self, List.mem_cons_self⟩, fun b' hb' =>
              ⟨List.mem_cons_of_mem _ (hread b' hb').1, List.mem_cons_of_mem _ (hread b' hb').2⟩⟩
      · intro id hid
        rw [List.mem_cons] at hid
        cases healthy with
        | false => exact hall id (hid.resolve_left (by simp))
        | true =>
            rw [if_pos rfl, List.map_cons, List.mem_cons]
            refine hid.imp (fun hid => ?_) (hall id)
            simpa using hid

/-- What `Healthy` read: it returns the backends of the pool it found healthy. -/
theorem healthy_reads (p : Pool) (o : GoMap.RangeOrder String Backend) :
    Obeys ok (fun found loads =>
      (∀ b ∈ found, p.get b.id = some b ∧ (⟨.loadHealthy b.id, true⟩ : Event) ∈ loads) ∧
      ∀ id, (⟨.loadHealthy id, true⟩ : Event) ∈ loads → id ∈ found.map (·.id)) []
      (p.healthy o) := by
  refine Obeys.bind ((healthyAmong_reads hok (p.visit o)).mono fun found h' hfound => ?_)
  obtain ⟨loads, rfl, hread, hall⟩ := hfound
  refine ⟨fun b hb => ?_, fun id hid => ?_⟩
  · obtain ⟨hvisit, hload⟩ := hread b (Sorting.mem_sliceStable.mp hb)
    exact ⟨Pool.mem_visit.mp hvisit, hload⟩
  · obtain ⟨b, hb, rfl⟩ := List.mem_map.mp (hall id hid)
    exact List.mem_map_of_mem (Sorting.mem_sliceStable.mpr hb)

/-- It returns a part of the list, in order. -/
theorem healthyAmong_sublist (bs : List Backend) :
    Obeys ok (fun found _ => found.Sublist bs) h (healthyAmong bs) := by
  induction bs generalizing h with
  | nil => exact List.Sublist.refl _
  | cons b bs ih =>
      refine ⟨hok _ _ trivial, fun healthy => ?_⟩
      show Obeys _ _ _ ((healthyAmong bs).bind _)
      refine Obeys.bind (ih.mono fun found _ hfound => ?_)
      cases healthy with
      | false => exact hfound.cons b
      | true => exact hfound.cons_cons b

/-- `Healthy` returns no backend twice. -/
theorem healthy_nodup (p : Pool) (o : GoMap.RangeOrder String Backend) :
    Obeys ok (fun found _ => (found.map (·.id)).Nodup) h (p.healthy o) := by
  refine Obeys.bind ((healthyAmong_sublist hok (p.visit o)).mono fun found _ hfound => ?_)
  have hperm := (Sorting.perm_sliceStable (fun a b : Backend => a.id < b.id) found).map (·.id)
  exact hperm.nodup_iff.mpr ((p.nodup_ids_visit o).sublist (hfound.map _))

/-- Each state is made of the readings of its backend. -/
theorem statesOf_reads (c : Chat) (bs : List Backend) :
    Obeys ok (fun states h' => ∃ reads, h' = h ++ reads ∧
      states.map (·.id) = bs.map (·.id) ∧ (∀ st ∈ states, ∃ b ∈ bs, StateRead c b st reads) ∧
      ∀ id healthy, (⟨.loadHealthy id, healthy⟩ : Event) ∉ reads) h (statesOf c bs) := by
  induction bs generalizing h with
  | nil => exact ⟨[], by simp, rfl, by simp, by simp⟩
  | cons b bs ih =>
      refine ⟨hok _ _ trivial, fun m => ⟨hok _ _ trivial, fun u =>
        ⟨hok _ _ trivial, fun v => ?_⟩⟩⟩
      show Obeys _ _ _ ((statesOf c bs).bind _)
      refine Obeys.bind (ih.mono fun states h' hstates => ?_)
      obtain ⟨reads, rfl, hids, hread, hnot⟩ := hstates
      refine ⟨⟨.lookup b.id c.namespace c.hashes, m⟩ :: ⟨.usage b.id, u⟩ :: ⟨.loadDepth b.id, v⟩ ::
        reads, by simp, ?_, ?_, ?_⟩
      · simp [hids]
      · rw [List.forall_mem_cons]
        refine ⟨⟨b, List.mem_cons_self, m, u, v, by simp, by simp, by simp, rfl⟩, fun st hst => ?_⟩
        obtain ⟨b', hb', hread'⟩ := hread st hst
        exact ⟨b', List.mem_cons_of_mem _ hb', hread'.mono fun e he => by simp [he]⟩
      · intro id healthy
        simpa using hnot id healthy

end

/-- The states read of the backends found healthy are a snapshot. -/
theorem snapshot_of_reads {p : Pool} {c : Chat} {found : List Backend} {loads reads : List Event}
    {states : List BackendState}
    (hfound : ∀ b ∈ found, p.get b.id = some b ∧ (⟨.loadHealthy b.id, true⟩ : Event) ∈ loads)
    (hall : ∀ id, (⟨.loadHealthy id, true⟩ : Event) ∈ loads → id ∈ found.map (·.id))
    (hids : states.map (·.id) = found.map (·.id))
    (hread : ∀ st ∈ states, ∃ b ∈ found, StateRead c b st reads)
    (hnot : ∀ id healthy, (⟨.loadHealthy id, healthy⟩ : Event) ∉ reads) :
    Snapshot p c (loads ++ reads) states where
  read st hst := by
    obtain ⟨b, hb, hst'⟩ := hread st hst
    have hid := hst'.id_eq
    obtain ⟨hget, hload⟩ := hfound b hb
    exact ⟨b, by rw [hid, hget], List.mem_append_left _ hload,
      hst'.mono (List.subset_append_right _ _)⟩
  complete id hid := by
    rw [List.mem_append, or_iff_left (hnot id true)] at hid
    rw [hids]
    exact hall id hid

/-- The trace `h` is the snapshot that request `r` takes: the loads of `Healthy` and then the
readings of the backends it returned, whose states are `states`. -/
def Snapped (s : Server) (r : Request) (c : Chat) (h : List Event)
    (states : List BackendState) : Prop :=
  ∃ found loads reads, h = loads ++ reads ∧ Returns (s.pool.healthy r.order) loads found ∧
    Returns (statesOf c found) reads states

/-- The states of a snapshot are those read. -/
theorem Snapped.snapshot {s : Server} {r : Request} {c : Chat} {h : List Event}
    {states : List BackendState} (hs : Snapped s r c h states) : Snapshot s.pool c h states := by
  have hread (h : List Event) (a : Act) (_ : IsRead a) : True := trivial
  obtain ⟨found, loads, reads, rfl, hfound, hstates⟩ := hs
  obtain ⟨hget, hall⟩ := (healthy_reads hread s.pool r.order).returns hfound
  obtain ⟨reads', htrace, hids, hreads, hnot⟩ :=
    (statesOf_reads hread c found (h := [])).returns hstates
  obtain rfl : reads = reads' := by simpa using htrace
  exact snapshot_of_reads hget hall hids hreads hnot

/-- **The rule for the handler**: a request is bad, or it takes its snapshot, and selects and
dispatches on that unless it is empty. -/
theorem obeys_of_snapped {ok : List Event → Act → Prop} (hok : ∀ h a, IsRead a → ok h a)
    {s : Server} {r : Request} {Q : Outcome → List Event → Prop}
    (hbad : ∀ out, prepare s r = .error out → Q out [])
    (hempty : ∀ c h, prepare s r = .ok c → Snapped s r c h [] →
      Q (refuse 503 "no healthy backends available") h)
    (hselect : ∀ c states h, prepare s r = .ok c → states ≠ [] → Snapped s r c h states →
      Obeys ok Q h (selectAndDispatch s r c states)) :
    Obeys ok Q [] (handleChatCompletions s r) := by
  unfold handleChatCompletions
  cases hc : prepare s r with
  | error out => exact hbad out hc
  | ok c =>
      refine Obeys.bind ((healthy_reads hok s.pool r.order).returning.mono
        fun found loads hfound => ?_)
      obtain ⟨-, _, rfl, hloads⟩ := hfound
      show Obeys ok Q loads (ite _ _ _)
      split
      · next hnone =>
          obtain rfl := List.length_eq_zero_iff.mp hnone
          exact hempty c loads hc ⟨[], loads, [], by simp, hloads, .ret _⟩
      · next hsome =>
          refine Obeys.bind ((statesOf_reads hok c found).returning.mono
            fun states h₂ hstates => ?_)
          obtain ⟨⟨_, -, hids, -, -⟩, reads, rfl, hreads⟩ := hstates
          have hne : states ≠ [] := by
            rintro rfl
            exact hsome (List.length_eq_zero_iff.mpr (List.map_eq_nil_iff.mp hids.symm))
          exact hselect c states _ hc hne ⟨found, loads, reads, rfl, hloads, hreads⟩

/-- The rule for a contract that only needs what was read. -/
theorem obeys_of_snapshot {ok : List Event → Act → Prop} (hok : ∀ h a, IsRead a → ok h a)
    {s : Server} {r : Request} {Q : Outcome → List Event → Prop}
    (hbad : ∀ out, prepare s r = .error out → Q out [])
    (hempty : ∀ c h, prepare s r = .ok c → Snapshot s.pool c h [] →
      Q (refuse 503 "no healthy backends available") h)
    (hselect : ∀ c states h, prepare s r = .ok c → Snapshot s.pool c h states →
      Obeys ok Q h (selectAndDispatch s r c states)) :
    Obeys ok Q [] (handleChatCompletions s r) :=
  obeys_of_snapped hok hbad (fun c h hc hs => hempty c h hc hs.snapshot)
    fun c states h hc _ hs => hselect c states h hc hs.snapshot

/-! ## The reserve loop -/

/-- The reserve loop only adds to the trace, and selects one of the states it is given. -/
theorem reserveFirst_selects {ok : List Event → Act → Prop} (hok : ∀ h a, IsRead a → ok h a)
    (hcas : ∀ h id old new, ok h (.casDepth id old new)) (p : Pool) (ranked : List BackendState)
    {h : List Event} :
    Obeys ok (fun sel h' => h ⊆ h' ∧ ∀ b st, sel = some (b, st) →
      st ∈ ranked ∧ p.get st.id = some b) h (reserveFirst p ranked) := by
  refine obeys_reserveFirst (fun _ h' => h ⊆ h') (List.Subset.refl _)
    (fun h' hsub => ⟨hsub, by simp⟩) (fun front c back h' _ hsub _ => hsub) ?_
  rintro front c back h' b rfl hsub hget
  have hload (healthy : Bool) : h ⊆ h' ++ [⟨.loadHealthy b.id, healthy⟩] :=
    List.subset_append_of_subset_left _ hsub
  have htry : b.tryReserve.Uses fun a => ∀ h, ok h a :=
    uses_tryReserve (fun h => hok h _ trivial) fun id old new h => hcas h id old new
  have hreserve : Obeys ok (fun _ h'' => h ⊆ h'') (h' ++ [⟨.loadHealthy b.id, true⟩])
      b.tryReserve :=
    htry.obeys (I := fun h'' => h ⊆ h'') (fun h'' a _ ha => ha h'')
      (fun h'' a r hh'' _ => List.subset_append_of_subset_left _ hh'') (hload true)
  refine ⟨hok _ _ trivial, hload false, hreserve.mono fun reserved h'' hsub' => ?_⟩
  cases reserved with
  | false => exact hsub'
  | true =>
      refine ⟨hsub', fun b' st heq => ?_⟩
      simp only [Option.some.injEq, Prod.mk.injEq] at heq
      obtain ⟨rfl, rfl⟩ := heq
      exact ⟨by simp, hget⟩

end KvRouter
