import KvRouter.Handler

/-!
# KvRouter.Handler.Contract

What a handler does to the shared state, as a contract on its trace that holds
under every interleaving.  Of its actions only three kinds matter here
(`Effect`): it reserves a slot, commits to the directory, and releases the slot.

* `Allowed` — a slot is only taken when none is held, from a depth below the
  limit, and only a held slot is given back;
* `handler_contract` — a handler has no effects at all, or it reserves on one
  backend, commits exactly if the exchange with that backend is evidence that
  the prompt is resident (`Evidence`), and releases that same backend.

The proofs go along the program text, one lemma for each part of the handler.
-/

namespace KvRouter.Handler

open CacheIndex Proxy Scorer Telemetry Prog

/-! ## Effects -/

/-- An event of a trace. -/
abbrev Event := Prog.Event Act.Result

inductive Effect
  | reserved (id : String)
  | released (id : String)
  | committed (id ns : String) (blocks : List UInt64) (now : Instant) (orders : ℕ → ScanOrder)

def effectOf : Event → Option Effect
  | ⟨.casDepth id _ _, true⟩ => some (.reserved id)
  | ⟨.addDepth id _, _⟩ => some (.released id)
  | ⟨.commit id ns blocks now orders, _⟩ => some (.committed id ns blocks now orders)
  | _ => none

/-- The effects of a trace, in order. -/
def effects (h : List Event) : List Effect := h.filterMap effectOf

@[simp] theorem effects_nil : effects [] = [] := rfl

@[simp] theorem effects_append (h h' : List Event) : effects (h ++ h') = effects h ++ effects h' :=
  List.filterMap_append

/-- The effects of one event are its effect, if it has one. -/
theorem effects_singleton (e : Event) : effects [e] = (effectOf e).toList := by
  unfold effects
  cases h : effectOf e with
  | none => rw [List.filterMap_cons_none h]; rfl
  | some x => rw [List.filterMap_cons_some h]; rfl

/-- An action that has no effect, whatever it answers. -/
def Quiet (a : Act) : Prop := ∀ r, effectOf ⟨a, r⟩ = none

theorem effects_quiet {a : Act} (ha : Quiet a) (h : List Event) (r : a.Result) :
    effects (h ++ [⟨a, r⟩]) = effects h := by
  rw [effects_append, effects_singleton, ha r, Option.toList_none, List.append_nil]

/-- The backends on which a slot is held after some effects. -/
def holding : List Effect → List String :=
  List.foldl (fun held e => match e with
    | .reserved id => held ++ [id]
    | .released id => held.erase id
    | .committed _ _ _ _ _ => held) []

/-! ## Permitted actions -/

/-- A slot is taken only while none is held, by a swap from a depth below the
limit to the next one, and only a held slot is given back, once. -/
def Allowed (p : Pool) (h : List Event) : Act → Prop
  | .casDepth id old new => holding (effects h) = [] ∧ new = old + 1 ∧
      ∃ b, p.get id = some b ∧ old < b.maxConcurrent
  | .addDepth id delta => holding (effects h) = [id] ∧ delta = -1
  | _ => True

variable {p : Pool} {h : List Event}

/-- A contract on effects alone. -/
abbrev ObeysEffects (p : Pool) {α : Type} (Q : α → List Effect → Prop) (h : List Event)
    (prog : Program α) : Prop :=
  Obeys (Allowed p) (fun x h' => Q x (effects h')) h prog

/-- A quiet action is always allowed. -/
theorem Quiet.allowed {a : Act} (ha : Quiet a) (p : Pool) (h : List Event) : Allowed p h a := by
  cases a with
  | casDepth id old new => exact absurd (ha true) (Option.some_ne_none _)
  | addDepth id delta => exact absurd (ha 0) (Option.some_ne_none _)
  | _ => trivial

theorem quiet_of_read {a : Act} (ha : IsRead a) : Quiet a := by
  cases a with
  | loadHealthy id | loadDepth id | lookup id ns blocks | usage id => exact fun _ => rfl
  | _ => exact ha.elim

/-- A program of quiet actions has no effects. -/
theorem obeys_of_quiet {α : Type} {prog : Program α} (hq : prog.Uses Quiet) :
    ObeysEffects p (fun _ es => es = effects h) h prog :=
  hq.obeys (I := fun h' => effects h' = effects h) (fun h' _ _ ha => ha.allowed p h')
    (fun h' _ r hh' ha => (effects_quiet ha h' r).trans hh') rfl

theorem uses_actIf {P : Act → Prop} {c : Prop} [Decidable c] {a : Act} (ha : c → P a) :
    (actIf c a).Uses P := uses_ite (fun hc => ⟨ha hc, fun _ => trivial⟩) fun _ => trivial

/-- The contract of a guarded action, by the guard. -/
theorem obeys_actIf {c : Prop} [Decidable c] {a : Act} {Q : Unit → List Effect → Prop}
    (hok : Allowed p h a) (htrue : c → ∀ r, Q () (effects (h ++ [⟨a, r⟩])))
    (hfalse : ¬ c → Q () (effects h)) : ObeysEffects p Q h (actIf c a) := by
  unfold actIf
  split
  · next hc => exact ⟨hok, fun r => htrue hc r⟩
  · next hc => exact hfalse hc

/-! ## TryReserve -/

/-- **The rule for `TryReserve`**: an invariant of the trace that survives lost
races, and what each of its two exits establishes. -/
theorem obeys_tryReserve {ok : List Event → Act → Prop} {Q : Bool → List Event → Prop}
    {b : Backend} (I : List Event → Prop) (hI : I h)
    (hload : ∀ h', I h' → ok h' (.loadDepth b.id))
    (hfull : ∀ h' (v : Int64), I h' → 0 < b.maxConcurrent → v ≥ b.maxConcurrent →
      Q false (h' ++ [⟨.loadDepth b.id, v⟩]))
    (hfree : ∀ h' (v : Int64), I h' → ¬ (0 < b.maxConcurrent ∧ v ≥ b.maxConcurrent) →
      ok (h' ++ [⟨.loadDepth b.id, v⟩]) (.casDepth b.id v (v + 1)) ∧
      Q true (h' ++ [⟨.loadDepth b.id, v⟩] ++ [⟨.casDepth b.id v (v + 1), true⟩]) ∧
      I (h' ++ [⟨.loadDepth b.id, v⟩] ++ [⟨.casDepth b.id v (v + 1), false⟩])) :
    Obeys ok Q h b.tryReserve := by
  refine obeys_untilSome I hI fun h' hh' => ⟨hload h' hh', fun v => ?_⟩
  by_cases hv : 0 < b.maxConcurrent ∧ (v : Int64) ≥ b.maxConcurrent
  · simp only [ret_bind, if_pos hv]
    exact hfull h' v hh' hv.1 hv.2
  · obtain ⟨hok, htrue, hfalse⟩ := hfree h' v hh' hv
    simp only [ret_bind, if_neg hv]
    refine ⟨hok, fun swapped => ?_⟩
    cases hs : (swapped : Bool) with
    | false => exact hfalse
    | true => exact htrue

/-- A reservation has one effect if it succeeds and none if it fails. -/
theorem tryReserve_effects {b : Backend} (hb : p.get b.id = some b)
    (hheld : holding (effects h) = []) :
    ObeysEffects p (fun ok es => es = effects h ++ if ok then [.reserved b.id] else []) h
      b.tryReserve := by
  have hload (v : Int64) (h' : List Event) (hh' : effects h' = effects h) :
      effects (h' ++ [⟨.loadDepth b.id, v⟩]) = effects h := by
    rw [effects_quiet (fun _ => rfl), hh']
  refine obeys_tryReserve (fun h' => effects h' = effects h) rfl (fun h' _ => trivial) ?_ ?_
  · intro h' v hh' _ _
    simp [hload v h' hh']
  · intro h' v hh' hv
    refine ⟨⟨?_, rfl, b, hb, ?_⟩, ?_, ?_⟩
    · rw [hload v h' hh', hheld]
    · exact Int64.not_le.mp fun hle => hv ⟨p.limited b.id b hb, hle⟩
    · rw [effects_append, hload v h' hh']
      rfl
    · rw [effects_append, hload v h' hh']
      exact List.append_nil _

/-! ## The reserve loop -/

/-- **The rule for the reserve loop**: an invariant of the trace and of the candidates that have
been passed, which a candidate keeps when it is unknown, unhealthy or full. -/
theorem obeys_reserveFirst {ok : List Event → Act → Prop}
    {Q : Option (Backend × BackendState) → List Event → Prop} {ranked : List BackendState}
    (I : List BackendState → List Event → Prop) (hI : I [] h)
    (hend : ∀ h', I ranked h' → Q none h')
    (hunknown : ∀ front c back h', ranked = front ++ c :: back → I front h' → p.get c.id = none →
      I (front ++ [c]) h')
    (htry : ∀ front c back h' b, ranked = front ++ c :: back → I front h' →
      p.get c.id = some b → ok h' (.loadHealthy b.id) ∧
        I (front ++ [c]) (h' ++ [⟨.loadHealthy b.id, false⟩]) ∧
        Obeys ok
          (fun reserved h'' => if reserved then Q (some (b, c)) h'' else I (front ++ [c]) h'')
          (h' ++ [⟨.loadHealthy b.id, true⟩]) b.tryReserve) :
    Obeys ok Q h (reserveFirst p ranked) := by
  have hloop : ∀ back front h', ranked = front ++ back → I front h' →
      Obeys ok Q h' (reserveFirst p back) := by
    intro back
    induction back with
    | nil =>
        intro front h' hranked hfront
        rw [List.append_nil] at hranked
        exact hend h' (hranked ▸ hfront)
    | cons c back ih =>
        intro front h' hranked hfront
        have hnext (h'' : List Event) (hpassed : I (front ++ [c]) h'') :
            Obeys ok Q h'' (reserveFirst p back) :=
          ih (front ++ [c]) h'' (by rw [hranked, List.append_cons]) hpassed
        unfold reserveFirst
        cases hget : p.get c.id with
        | none => exact hnext h' (hunknown front c back h' hranked hfront hget)
        | some b =>
            obtain ⟨hok, hunhealthy, hreserve⟩ := htry front c back h' b hranked hfront hget
            refine ⟨hok, fun healthy => ?_⟩
            cases hhealthy : (healthy : Bool) with
            | false => exact hnext _ hunhealthy
            | true =>
                refine Obeys.bind (hreserve.mono fun reserved h'' hes => ?_)
                cases reserved with
                | false => exact hnext h'' hes
                | true => exact hes
  exact hloop ranked [] h rfl hI

/-- The reserve loop has no effect but the reservation of the backend it selects. -/
theorem reserveFirst_effects (ranked : List BackendState) (hheld : holding (effects h) = []) :
    ObeysEffects p (fun sel es => match sel with
      | none => es = effects h
      | some (b, state) => es = effects h ++ [.reserved b.id] ∧ state ∈ ranked ∧
          p.get state.id = some b) h (reserveFirst p ranked) := by
  refine obeys_reserveFirst (fun _ h' => effects h' = effects h) rfl (fun h' hh' => hh')
    (fun front c back h' _ hh' _ => hh') ?_
  rintro front c back h' b rfl hh' hget
  have hid : b.id = c.id := p.keyed c.id b hget
  have hload (healthy : Bool) : effects (h' ++ [⟨.loadHealthy b.id, healthy⟩]) = effects h := by
    rw [effects_quiet (fun _ => rfl), hh']
  refine ⟨trivial, hload false, (tryReserve_effects (by rw [hid, hget])
    (by rw [hload, hheld])).mono fun reserved h'' hes => ?_⟩
  rw [hload] at hes
  cases reserved with
  | false => simpa using hes
  | true => exact ⟨by simpa using hes, by simp, hget⟩

/-! ## The snapshot -/

section
variable {P : Act → Prop} (hread : ∀ a, IsRead a → P a)
include hread

theorem uses_healthyAmong (bs : List Backend) : (healthyAmong bs).Uses P := by
  induction bs with
  | nil => trivial
  | cons b bs ih => exact ⟨hread _ trivial, fun healthy => ih.bind fun found => trivial⟩

theorem uses_healthy (p : Pool) (o : GoMap.RangeOrder String Backend) : (p.healthy o).Uses P :=
  (uses_healthyAmong hread _).bind fun _ => trivial

/-- Taking the snapshot only reads. -/
theorem uses_statesOf (c : Chat) (bs : List Backend) : (statesOf c bs).Uses P := by
  induction bs with
  | nil => trivial
  | cons b bs ih =>
      exact ⟨hread _ trivial, fun _ => ⟨hread _ trivial, fun _ => ⟨hread _ trivial, fun _ =>
        ih.bind fun _ => trivial⟩⟩⟩

end

/-! ## The dispatch -/

/-- The exchange with the backend is evidence that the prompt is resident there:
a status below 400 and, for a stream, a body byte relayed by a writer that can
flush. -/
def Evidence (r : Request) (c : Chat) (b : Backend) : Prop :=
  match r.upstream b with
  | .error _ => False
  | .ok resp => resp.statusCode < 400 ∧
      (c.req.stream = true → r.client.flusher = true ∧ resp.body.bytes ≠ [])

instance (r : Request) (c : Chat) (b : Backend) : Decidable (Evidence r c b) := by
  unfold Evidence
  split <;> infer_instance

/-- The effect of `commitCacheObservation`. -/
def observation (r : Request) (c : Chat) (b : Backend) : Effect :=
  .committed b.id c.namespace c.hashes r.commitTime r.evictions

/-- Recording is quiet. -/
theorem quiet_record (event : RouteEvent) (now : ℤ) : (record event now).Uses Quiet :=
  ⟨fun _ => rfl, fun _ => ⟨fun _ => rfl, fun _ => (uses_actIf fun _ _ => rfl).bind fun _ =>
    (uses_actIf fun _ _ => rfl).bind fun _ => (uses_actIf fun _ _ => rfl).bind fun _ =>
      ⟨fun _ => rfl, fun _ => trivial⟩⟩⟩

/-- Recording a route and then ending with `out`. -/
theorem obeys_recordRoute {Q : Outcome → List Effect → Prop} {r : Request} {d : Dispatch}
    {status : ℕ} {ttftMillis : ℤ} {out : Outcome} (hQ : Q out (effects h)) :
    ObeysEffects p Q h ((recordRoute r d status ttftMillis).bind fun _ => .ret out) := by
  refine Obeys.bind ((obeys_of_quiet (quiet_record _ _)).mono fun _ h' hh' => ?_)
  show Q out (effects h')
  rw [hh']
  exact hQ

/-- The commit of a dispatch, under a condition. -/
theorem obeys_observe {c : Prop} [Decidable c] {α : Type} {Q : α → List Effect → Prop}
    {r : Request} {d : Dispatch} (hid : d.state.id = d.backend.id) {k : Unit → Program α}
    (hk : ∀ h', effects h' = effects h ++ (if c then [observation r d.chat d.backend] else []) →
      ObeysEffects p Q h' (k ())) :
    ObeysEffects p Q h ((actIf c (commitCacheObservation r d)).bind k) := by
  have hif : ObeysEffects p (fun _ es => ∀ h', effects h' = es → ObeysEffects p Q h' (k ())) h
      (actIf c (commitCacheObservation r d)) := by
    refine obeys_actIf trivial ?_ ?_
    · intro hc _ h' hh'
      refine hk h' ?_
      rw [hh', if_pos hc, effects_append, observation, ← hid]
      rfl
    · intro hc h' hh'
      refine hk h' ?_
      rw [hh', if_neg hc, List.append_nil]
  exact Obeys.bind (hif.mono fun _ h' hh' => hh' h' rfl)

/-- The effects of a dispatch that ended with `out`, after the effects `es`. -/
structure DispatchEffects (r : Request) (d : Dispatch) (es : List Effect) (out : Outcome)
    (es' : List Effect) : Prop where
  header : out.writer.backend = some d.state.id
  effects : es' = es ++ if Evidence r d.chat d.backend ∧ out.panicked = false then
    [observation r d.chat d.backend] else []

/-- The TTFT result of a stream is the evidence. -/
theorem isSome_ttft_iff {r : Request} {d : Dispatch} (hstream : d.chat.req.stream = true)
    {ttft : Option TTFTResult} {err : Option RelayError} {w : Writer}
    (hforward : forwardStream (r.upstream d.backend) r.client ⟨d.backend.id, r.ttft⟩ d.writer =
      .ok (ttft, err, w)) : ttft.isSome = true ↔ Evidence r d.chat d.backend := by
  unfold Evidence
  cases hup : r.upstream d.backend with
  | error e =>
      rw [hup] at hforward
      cases hforward
      simp
  | ok resp =>
      rw [hup] at hforward
      obtain ⟨w₁, -, ⟨-, hflush, rfl, -, -⟩ | ⟨hflush, httft, -, -⟩⟩ :=
        forwardStream_cases hforward
      · simp [hstream, hflush]
      · rw [httft]
        refine and_congr_right fun hcode => ?_
        simp [hstream, hflush.resolve_left (Nat.not_le.mpr hcode)]

/-- **The contract of the streaming path.** -/
theorem dispatchStream_effects {r : Request} {d : Dispatch} (hid : d.state.id = d.backend.id)
    (hstream : d.chat.req.stream = true) :
    ObeysEffects p (DispatchEffects r d (effects h)) h (dispatchStream r d) := by
  unfold dispatchStream
  cases hforward :
    forwardStream (r.upstream d.backend) r.client ⟨d.backend.id, r.ttft⟩ d.writer with
  | error e => exact ⟨rfl, by simp⟩
  | ok x =>
      obtain ⟨ttft, err, w⟩ := x
      have hevidence : ttft.isSome = true ↔ Evidence r d.chat d.backend :=
        isSome_ttft_iff hstream hforward
      refine obeys_observe hid fun h' hh' => ?_
      have hdone : DispatchEffects r d (effects h) ⟨w, false⟩ (effects h') :=
        ⟨forwardStream_backend hforward, by simp [hh', hevidence]⟩
      cases err with
      | none => exact obeys_recordRoute hdone
      | some e => exact obeys_recordRoute hdone

/-- **The contract of the plain path.** -/
theorem dispatchPlain_effects {r : Request} {d : Dispatch} (hid : d.state.id = d.backend.id)
    (hstream : d.chat.req.stream = false) :
    ObeysEffects p (DispatchEffects r d (effects h)) h (dispatchPlain r d) := by
  unfold dispatchPlain
  cases hup : r.upstream d.backend with
  | error e =>
      exact obeys_recordRoute ⟨rfl, by simp [Evidence, hup]⟩
  | ok resp =>
      cases hhead : d.writer.writeHeader resp.statusCode with
      | error e =>
          simp only [hhead]
          exact ⟨rfl, by simp⟩
      | ok w =>
          simp only [hhead]
          refine obeys_observe hid fun h' hh' => ?_
          refine obeys_recordRoute ⟨?_, ?_⟩
          · exact (ioCopy_backend r.client w resp.body).trans (writeHeader_backend hhead)
          · simp [hh', Evidence, hup, hstream]

/-- A dispatch keeps the contract of its path. -/
theorem dispatch_effects {r : Request} {d : Dispatch} (hid : d.state.id = d.backend.id) :
    ObeysEffects p (DispatchEffects r d (effects h)) h (dispatch r d) := by
  unfold dispatch
  cases hstream : d.chat.req.stream with
  | true => exact dispatchStream_effects hid hstream
  | false => exact dispatchPlain_effects hid hstream

/-! ## The handler -/

/-- The effects of a whole handler that ended with `out`: none, or those of one
dispatch between a reservation and its release.  The backend header tells which. -/
def HandlerEffects (s : Server) (r : Request) (out : Outcome) (es : List Effect) : Prop :=
  (out.writer.backend = none ∧ es = []) ∨
  ∃ c b, prepare s r = .ok c ∧ s.pool.get b.id = some b ∧ out.writer.backend = some b.id ∧
    es = .reserved b.id :: ((if Evidence r c b ∧ out.panicked = false then
      [observation r c b] else []) ++ [.released b.id])

/-- Nothing is held after the effects of a handler. -/
theorem HandlerEffects.holding_eq {s : Server} {r : Request} {out : Outcome} {es : List Effect}
    (h : HandlerEffects s r out es) : holding es = [] := by
  obtain ⟨-, rfl⟩ | ⟨c, b, -, -, -, rfl⟩ := h
  · rfl
  · split <;> simp [holding, observation]

/-- After the selection the handler serves on the slot that it holds, or refuses. -/
theorem finish_effects {s : Server} {r : Request} {c : Chat} (hc : prepare s r = .ok c)
    {states ranked : List BackendState} {h : List Event} (sel : Option (Backend × BackendState))
    (hsel : match sel with
      | none => effects h = []
      | some (b, state) => effects h = [.reserved b.id] ∧ s.pool.get state.id = some b) :
    ObeysEffects s.pool (HandlerEffects s r) h (finish s r c states ranked sel) := by
  cases sel with
  | none =>
      refine Or.inl ⟨?_, hsel⟩
      split <;> rfl
  | some x =>
      obtain ⟨b, state⟩ := x
      obtain ⟨heffects, hget⟩ := hsel
      have hid : b.id = state.id := s.pool.keyed state.id b hget
      refine Obeys.bind ((dispatch_effects (d := ⟨c, b, state, _, _⟩) hid.symm).mono
        fun out h' hout => ?_)
      refine ⟨⟨?_, rfl⟩, fun _ => Or.inr ⟨c, b, hc, by rw [hid, hget], ?_, ?_⟩⟩
      · rw [hout.effects, heffects]
        split <;> simp [holding, observation]
      · rw [hout.header, hid]
      · rw [effects_append, hout.effects, heffects, List.append_assoc]
        rfl

/-- A request that is not routed is a bad one, or panics in the tokenizer. -/
theorem prepare_error {s : Server} {r : Request} {out : Outcome} (h : prepare s r = .error out) :
    (∃ msg, out = refuse 400 msg) ∨ out = ⟨.new, true⟩ := by
  unfold prepare parse at h
  split at h
  · next hparse =>
      cases h
      split at hparse
      · cases hparse
        exact Or.inl ⟨_, rfl⟩
      · split at hparse
        · cases hparse
          exact Or.inl ⟨_, rfl⟩
        · split at hparse
          · cases hparse
            exact Or.inl ⟨_, rfl⟩
          · contradiction
  · split at h
    · cases h
      exact Or.inr rfl
    · contradiction

/-- It is answered without the backend header. -/
theorem header_of_prepare {s : Server} {r : Request} {out : Outcome}
    (h : prepare s r = .error out) : out.writer.backend = none := by
  obtain ⟨msg, rfl⟩ | rfl := prepare_error h
  · rfl
  · rfl

/-- **The contract of the handler**, under every interleaving. -/
theorem handler_contract (s : Server) (r : Request) :
    ObeysEffects s.pool (HandlerEffects s r) [] (handleChatCompletions s r) := by
  unfold handleChatCompletions
  cases hc : prepare s r with
  | error out => exact Or.inl ⟨header_of_prepare hc, rfl⟩
  | ok c =>
      refine Obeys.bind
        ((obeys_of_quiet (uses_healthy (fun _ => quiet_of_read) s.pool r.order)).mono
          fun found h₁ hh₁ => ?_)
      show ObeysEffects s.pool (HandlerEffects s r) h₁ (ite _ _ _)
      split
      · exact Or.inl ⟨rfl, hh₁⟩
      · refine Obeys.bind ((obeys_of_quiet (uses_statesOf (fun _ => quiet_of_read) c _)).mono
          fun states h₂ hh₂ => ?_)
        have hh₂' : effects h₂ = [] := hh₂.trans hh₁
        have hheld : holding (effects h₂) = [] := by rw [hh₂']; rfl
        refine Obeys.bind ((reserveFirst_effects _ hheld).mono fun sel h₃ hsel => ?_)
        refine finish_effects hc sel ?_
        cases sel with
        | none => exact hsel.trans hh₂'
        | some x => exact ⟨by rw [hsel.1, hh₂']; rfl, hsel.2.2⟩

/-! ## The actions of a handler -/

section
variable {P : Act → Prop}

/-- `Record` writes one event to the ring; all else it does is quiet. -/
theorem uses_record (hquiet : ∀ a, Quiet a → (∀ event, a ≠ .writeRing event) → P a)
    {event : RouteEvent} {now : ℤ}
    (hring : ∀ id, P (.writeRing { event with id := id, timestamp := now })) :
    (record event now).Uses P :=
  ⟨hquiet _ (fun _ => rfl) fun _ => Act.noConfusion, fun id =>
    ⟨hquiet _ (fun _ => rfl) fun _ => Act.noConfusion, fun _ =>
      (uses_actIf fun _ => hquiet _ (fun _ => rfl) fun _ => Act.noConfusion).bind fun _ =>
      (uses_actIf fun _ => hquiet _ (fun _ => rfl) fun _ => Act.noConfusion).bind fun _ =>
      (uses_actIf fun _ => hquiet _ (fun _ => rfl) fun _ => Act.noConfusion).bind fun _ =>
        ⟨hring id, fun _ => trivial⟩⟩⟩

/-- A dispatch may commit, and records its route; all else it does is quiet. -/
theorem uses_dispatch (hquiet : ∀ a, Quiet a → (∀ event, a ≠ .writeRing event) → P a)
    {r : Request} {d : Dispatch} (hcommit : P (commitCacheObservation r d))
    (hring : ∀ status ttftMillis id,
      P (.writeRing { routeEvent d status ttftMillis with id := id, timestamp := r.recordTime })) :
    (dispatch r d).Uses P := by
  have hrecord (status : ℕ) (ttftMillis : ℤ) : (recordRoute r d status ttftMillis).Uses P :=
    uses_record hquiet (hring status ttftMillis)
  have hobserve (c : Prop) [Decidable c] : (actIf c (commitCacheObservation r d)).Uses P :=
    uses_actIf fun _ => hcommit
  unfold dispatch dispatchStream dispatchPlain
  split
  · split
    · trivial
    · next ttft err w _ =>
        refine (hobserve _).bind fun _ => ?_
        cases err with
        | none => exact (hrecord _ _).bind fun _ => trivial
        | some e => exact (hrecord _ _).bind fun _ => trivial
  · split
    · exact (hrecord _ _).bind fun _ => trivial
    · split
      · trivial
      · exact (hobserve _).bind fun _ => (hrecord _ _).bind fun _ => trivial

/-- `TryReserve` reads the depth and swaps it. -/
theorem uses_tryReserve {b : Backend} (hload : P (.loadDepth b.id))
    (hcas : ∀ id old new, P (.casDepth id old new)) : b.tryReserve.Uses P :=
  ⟨⟨hload, fun v => uses_ite (fun _ => trivial) fun _ =>
    ⟨hcas b.id v (v + 1), fun _ => uses_ite (fun _ => trivial) fun _ => trivial⟩⟩,
    fun _ => trivial⟩

/-- The reserve loop reads and swaps. -/
theorem uses_reserveFirst (hread : ∀ a, IsRead a → P a)
    (hcas : ∀ id old new, P (.casDepth id old new)) (p : Pool) (ranked : List BackendState) :
    (reserveFirst p ranked).Uses P := by
  induction ranked with
  | nil => trivial
  | cons candidate ranked ih =>
      unfold reserveFirst
      split
      · exact ih
      · next b _ =>
          exact ⟨hread _ trivial, fun healthy => uses_ite (fun _ => ih) fun _ =>
            (uses_tryReserve (hread _ trivial) hcas).bind fun reserved =>
              uses_ite (fun _ => ih) fun _ => trivial⟩

/-- **What a handler does**: quiet actions, swaps and decrements of a queue depth, and commits of
the hashes of its own request. -/
theorem uses_handleChatCompletions (hquiet : ∀ a, Quiet a → P a)
    (hcas : ∀ id old new, P (.casDepth id old new)) (hadd : ∀ id delta, P (.addDepth id delta))
    {s : Server} {r : Request} (hcommit : ∀ c, prepare s r = .ok c → ∀ id,
      P (.commit id c.namespace c.hashes r.commitTime r.evictions)) :
    (handleChatCompletions s r).Uses P := by
  have hread (a : Act) (ha : IsRead a) : P a := hquiet a (quiet_of_read ha)
  unfold handleChatCompletions
  cases hc : prepare s r with
  | error out => trivial
  | ok c =>
      refine (uses_healthy hread s.pool r.order).bind fun found => ?_
      refine uses_ite (fun _ => trivial) fun _ => ?_
      refine (uses_statesOf hread c found).bind fun states => ?_
      refine (uses_reserveFirst hread hcas s.pool _).bind fun sel => ?_
      cases sel with
      | none => trivial
      | some x =>
          obtain ⟨b, state⟩ := x
          have hdispatch := uses_dispatch (fun a ha _ => hquiet a ha) (r := r)
            (d := ⟨c, b, state, ((matchesByBackend states).lookup state.id).getD 0,
              score s.weights c.routeReq state⟩) (hcommit c hc state.id)
            fun _ _ _ => hquiet _ fun _ => rfl
          exact hdispatch.bind fun _ => ⟨hadd b.id (-1), fun _ => trivial⟩

end

end KvRouter.Handler
