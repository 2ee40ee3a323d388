import KvRouter.CacheIndex.Lookup
import KvRouter.Handler.Reads
import KvRouter.Outcome
import KvRouter.Ranking
import KvRouter.System

/-!
# KvRouter.Privacy

Telemetry reveals nothing of a prompt beyond match counts.  Two requests for one
model that get the same answers from the shared state (`SameAnswers`) leave the
same telemetry, whatever their messages are and whatever the rest of the system
does meanwhile: the messages only enter through the number of blocks and the
depth of each lookup.

* `telemetry` — what a trace shows to the recorder;
* `Handled` — the trace of a handled request, in its parts;
* `SameAnswers.states_subset`, `Attempted.selected_eq` — the same answers give the
  same states to rank, and the same selection from the ranking;
* `shows_dispatch` — a dispatch shows one event, which depends on the request
  only through its counts.
-/

namespace KvRouter

open Handler Interleave Prog Telemetry
open Scorer (BackendState Weights divisor rank score)

/-! ## What the recorder is shown -/

/-- The fields of an event other than ID, timestamp and TTFT. -/
def Telemetry.RouteEvent.masked (event : RouteEvent) : RouteEvent :=
  { event with id := 0, timestamp := 0, ttftMillis := 0 }

/-- The part of an action that telemetry shows: changes of a counter, and the fields of an
event. -/
def shown : Event → Option Act
  | ⟨.addSequence delta, _⟩ => some (.addSequence delta)
  | ⟨.addRequests delta, _⟩ => some (.addRequests delta)
  | ⟨.addErrors delta, _⟩ => some (.addErrors delta)
  | ⟨.addStreams delta, _⟩ => some (.addStreams delta)
  | ⟨.addCacheHits delta, _⟩ => some (.addCacheHits delta)
  | ⟨.writeRing event, _⟩ => some (.writeRing event.masked)
  | _ => none

/-- All that a trace shows, in order. -/
def telemetry (h : List Event) : List Act := h.filterMap shown

@[simp] theorem telemetry_append (h h' : List Event) :
    telemetry (h ++ h') = telemetry h ++ telemetry h' := List.filterMap_append

/-- An action that shows nothing. -/
def Silent (a : Act) : Prop := ∀ r, shown ⟨a, r⟩ = none

theorem silent_of_read {a : Act} (ha : IsRead a) : Silent a := by
  cases a with
  | loadHealthy id | loadDepth id | lookup id ns blocks | usage id => exact fun _ => rfl
  | _ => exact ha.elim

theorem telemetry_silent {a : Act} (ha : Silent a) (h : List Event) (r : a.Result) :
    telemetry (h ++ [⟨a, r⟩]) = telemetry h := by
  rw [telemetry_append, telemetry, telemetry, List.filterMap_cons_none (ha r), List.filterMap_nil,
    List.append_nil]

/-- The program shows `acts`, whatever answers it gets. -/
abbrev Shows {α : Type} (acts : List Act) (prog : Program α) : Prop :=
  ∀ h, Obeys (fun _ _ => True) (fun _ h' => telemetry h' = telemetry h ++ acts) h prog

theorem Shows.telemetry_eq {α : Type} {acts : List Act} {prog : Program α} (hp : Shows acts prog)
    {h : List Event} {x : α} (hx : Returns prog h x) : telemetry h = acts := (hp []).returns hx

/-- A program of silent actions shows nothing. -/
theorem shows_of_silent {α : Type} {prog : Program α} (hprog : prog.Uses Silent) :
    Shows [] prog := fun h => by
  simp only [List.append_nil]
  exact hprog.obeys (I := fun h' => telemetry h' = telemetry h) (fun _ _ _ _ => trivial)
    (fun h' a r hh' ha => (telemetry_silent ha h' r).trans hh') rfl

/-- Programs one after another show their parts. -/
theorem Shows.bind {α β : Type} {acts acts' : List Act} {p : Program α} {f : α → Program β}
    (hp : Shows acts p) (hf : ∀ x, Shows acts' (f x)) : Shows (acts ++ acts') (p.bind f) := by
  intro h
  refine Obeys.bind ((hp h).mono fun x h' hh' => (hf x h').mono fun _ h'' hh'' => ?_)
  rw [hh'', hh', List.append_assoc]

/-! ## The telemetry of a dispatch -/

/-- What `Record` shows of an event. -/
def shownOf (event : RouteEvent) : List Act :=
  [.addSequence 1, .addRequests 1] ++ ((if event.statusCode ≥ 400 then [.addErrors 1] else []) ++
    ((if event.stream = true then [.addStreams 1] else []) ++
      ((if event.matchedBlocks > 0 then [.addCacheHits 1] else []) ++ [.writeRing event.masked])))

theorem shows_act {a a' : Act} (ha : ∀ r, shown ⟨a, r⟩ = some a') : Shows [a'] (act a) := by
  refine fun h => ⟨trivial, fun r => ?_⟩
  show telemetry (h ++ [⟨a, r⟩]) = _
  rw [telemetry_append, telemetry, telemetry, List.filterMap_cons_some (ha r), List.filterMap_nil]

theorem shows_actIf {c : Prop} [Decidable c] {a a' : Act} (ha : ∀ r, shown ⟨a, r⟩ = some a') :
    Shows (if c then [a'] else []) (actIf c a) := by
  unfold actIf
  split
  · exact (shows_act ha).bind fun _ => shows_of_silent trivial
  · exact shows_of_silent trivial

/-- `Record` shows its event. -/
theorem shows_record (event : RouteEvent) (now : ℤ) : Shows (shownOf event) (record event now) :=
  (shows_act (a := .addSequence 1) fun _ => rfl).bind fun _ =>
    (shows_act (a := .addRequests 1) fun _ => rfl).bind fun _ =>
      (shows_actIf fun _ => rfl).bind fun _ =>
        (shows_actIf fun _ => rfl).bind fun _ =>
          (shows_actIf fun _ => rfl).bind fun _ => shows_act fun _ => rfl

theorem silent_observation (r : Request) (d : Dispatch) : Silent (commitCacheObservation r d) :=
  fun _ => rfl

/-- What a dispatch shows: the event with the recorded status, if there is one. -/
def shownByDispatch (r : Request) (d : Dispatch) : List Act :=
  (recordedStatus r d).elim [] fun status => shownOf (routeEvent d status 0)

theorem shows_observe {c : Prop} [Decidable c] {r : Request} {d : Dispatch} {acts : List Act}
    {k : Unit → Program Outcome} (hk : Shows acts (k ())) :
    Shows acts ((actIf c (commitCacheObservation r d)).bind k) :=
  (shows_of_silent (uses_actIf fun _ => silent_observation r d)).bind fun _ => hk

/-- The TTFT of an event is not shown. -/
theorem shows_recordRoute (r : Request) (d : Dispatch) (status : ℕ) (ttftMillis : ℤ)
    (out : Outcome) : Shows (shownOf (routeEvent d status 0))
      ((recordRoute r d status ttftMillis).bind fun _ => .ret out) := by
  have hret : Shows [] (.ret out : Program Outcome) := shows_of_silent trivial
  have hrecord := (shows_record (routeEvent d status ttftMillis) r.recordTime).bind fun _ => hret
  rw [List.append_nil] at hrecord
  exact hrecord

/-- **A dispatch shows the event of its route**, if it records one. -/
theorem shows_dispatch (r : Request) (d : Dispatch) :
    Shows (shownByDispatch r d) (dispatch r d) := by
  unfold shownByDispatch dispatch recordedStatus
  split
  · unfold dispatchStream
    cases Proxy.forwardStream (r.upstream d.backend) r.client ⟨d.backend.id, r.ttft⟩ d.writer with
    | error e => exact shows_of_silent trivial
    | ok x =>
        obtain ⟨ttft, err, w⟩ := x
        cases err with
        | none => exact shows_observe (shows_recordRoute r d 200 _ ⟨w, false⟩)
        | some e => exact shows_observe (shows_recordRoute r d 502 0 ⟨w, false⟩)
  · unfold dispatchPlain
    cases r.upstream d.backend with
    | error e => exact shows_recordRoute r d 502 0 _
    | ok resp =>
        dsimp only
        cases d.writer.writeHeader resp.statusCode with
        | error e => exact shows_of_silent trivial
        | ok w => exact shows_observe (shows_recordRoute r d resp.statusCode 0 _)

/-- The measured time decides nothing of a stream. -/
theorem forwardStream_first (upstream : Proxy.Upstream) (client : Proxy.Client)
    (first first' : Proxy.TTFTResult) (w : Proxy.Writer) :
    (Proxy.forwardStream upstream client first w).map Prod.snd =
      (Proxy.forwardStream upstream client first' w).map Prod.snd := by
  unfold Proxy.forwardStream
  split
  · rfl
  · split
    · rfl
    · split_ifs
      · rfl
      · rfl
      · simp [Except.map, Proxy.streamLoop_eq_ioCopy]

/-- **What a dispatch shows depends on its counts alone**: the same exchange with the backend, for
dispatches with the same event. -/
theorem shownByDispatch_congr {r₁ r₂ : Request} {d₁ d₂ : Dispatch}
    (hupstream : r₁.upstream = r₂.upstream) (hclient : r₁.client = r₂.client)
    (hbackend : d₁.backend = d₂.backend) (hstate : d₁.state = d₂.state)
    (hstream : d₁.chat.req.stream = d₂.chat.req.stream)
    (hevent : ∀ status, routeEvent d₁ status 0 = routeEvent d₂ status 0) :
    shownByDispatch r₁ d₁ = shownByDispatch r₂ d₂ := by
  have hwriter : d₁.writer = d₂.writer := by rw [Dispatch.writer, hstate, Dispatch.writer]
  have hstatus : recordedStatus r₁ d₁ = recordedStatus r₂ d₂ := by
    unfold recordedStatus
    rw [hstream, hupstream, hclient, hbackend, hwriter]
    have hfirst := forwardStream_first (r₂.upstream d₂.backend) r₂.client ⟨d₂.backend.id, r₁.ttft⟩
      ⟨d₂.backend.id, r₂.ttft⟩ d₂.writer
    split
    · generalize Proxy.forwardStream _ _ ⟨_, r₁.ttft⟩ _ = x at hfirst ⊢
      generalize Proxy.forwardStream _ _ ⟨_, r₂.ttft⟩ _ = y at hfirst ⊢
      cases x with
      | error e => cases y <;> simp_all [Except.map]
      | ok x =>
          obtain ⟨ttft, err, w⟩ := x
          cases y with
          | error e => simp [Except.map] at hfirst
          | ok y =>
              obtain ⟨ttft', err', w'⟩ := y
              simp only [Except.map, Except.ok.injEq, Prod.mk.injEq] at hfirst
              obtain ⟨rfl, rfl⟩ := hfirst
              cases err <;> rfl
    · rfl
  simp only [shownByDispatch, hstatus, hevent]

/-! ## The attempts to reserve -/

/-- The reserve loop came to backend `id`. -/
def Tried (h : List Event) (id : String) : Prop :=
  ∃ healthy, (⟨.loadHealthy id, healthy⟩ : Event) ∈ h

/-- A slot was taken on backend `id`. -/
def Took (h : List Event) (id : String) : Prop :=
  ∃ old new, (⟨.casDepth id old new, true⟩ : Event) ∈ h

theorem took_append {h h' : List Event} {id : String} :
    Took (h ++ h') id ↔ Took h id ∨ Took h' id := by
  simp [Took, exists_or]

theorem not_took_append {h h' : List Event} (hh : ∀ id, ¬ Took h id) (hh' : ∀ id, ¬ Took h' id)
    (id : String) : ¬ Took (h ++ h') id := by
  rw [took_append]
  exact not_or.mpr ⟨hh id, hh' id⟩

/-- The first reservation takes a slot iff it succeeds. -/
theorem tryReserve_took {b : Backend} {h : List Event} (hh : ∀ id, ¬ Took h id) :
    Obeys (fun _ _ => True)
      (fun ok h' => h ⊆ h' ∧ ∀ id, Took h' id ↔ ok = true ∧ id = b.id) h b.tryReserve := by
  have hload {h' : List Event} (hh' : ∀ id, ¬ Took h' id) (v : Int64) :
      ∀ id, ¬ Took (h' ++ [⟨.loadDepth b.id, v⟩]) id := not_took_append hh' (by simp [Took])
  refine obeys_tryReserve (fun h' => h ⊆ h' ∧ ∀ id, ¬ Took h' id) ⟨List.Subset.refl _, hh⟩
    (fun _ _ => trivial) ?_ ?_
  · rintro h' v ⟨hsub, hh'⟩ - -
    exact ⟨List.subset_append_of_subset_left _ hsub, fun id => by simp [hload hh' v id]⟩
  · rintro h' v ⟨hsub, hh'⟩ -
    have hsub' := List.subset_append_of_subset_left [⟨.loadDepth b.id, v⟩] hsub
    refine ⟨trivial, ⟨List.subset_append_of_subset_left _ hsub', fun id => ?_⟩,
      List.subset_append_of_subset_left _ hsub', not_took_append (hload hh' v) (by simp [Took])⟩
    rw [took_append, or_iff_right (hload hh' v id)]
    simp [Took]

/-- A reserve loop passed `front`, and then took the first of `back`, if any are left. -/
structure Attempted (p : Pool) (front back : List BackendState) (h : List Event)
    (sel : Option (Backend × BackendState)) : Prop where
  passed : ∀ st ∈ front, (p.get st.id).isSome → Tried h st.id
  head : back.head? = sel.map Prod.snd
  selected : ∀ b st, sel = some (b, st) → p.get st.id = some b ∧ Tried h st.id
  took : ∀ id, Took h id ↔ sel.map (·.2.id) = some id

/-- **What the reserve loop did**, from its trace. -/
theorem reserveFirst_attempted {p : Pool} {ranked : List BackendState} {h : List Event}
    {sel : Option (Backend × BackendState)} (hx : Returns (reserveFirst p ranked) h sel) :
    ∃ front back, ranked = front ++ back ∧ Attempted p front back h sel := by
  suffices hobeys : Obeys (fun _ _ => True) (fun sel h' => ∃ front back,
      ranked = front ++ back ∧ Attempted p front back h' sel) [] (reserveFirst p ranked) from
    hobeys.returns hx
  refine obeys_reserveFirst (fun front h' => (∀ st ∈ front, (p.get st.id).isSome → Tried h' st.id) ∧
    ∀ id, ¬ Took h' id) ⟨by simp, by simp [Took]⟩ ?_ ?_ ?_
  · rintro h' ⟨hpassed, hnot⟩
    exact ⟨ranked, [], by simp, hpassed, rfl, by simp, by simp [hnot]⟩
  · rintro front c back h' - ⟨hpassed, hnot⟩ hnone
    exact ⟨by simpa [or_imp, forall_and, hnone] using hpassed, hnot⟩
  · rintro front c back h' b hranked ⟨hpassed, hnot⟩ hget
    have hid : b.id = c.id := p.keyed c.id b hget
    have hnow (healthy : Bool) : Tried (h' ++ [⟨.loadHealthy b.id, healthy⟩]) c.id :=
      ⟨healthy, by simp [hid]⟩
    have hpassed' {h'' : List Event} (hsub : h' ⊆ h'') (htried : Tried h'' c.id) :
        ∀ st ∈ front ++ [c], (p.get st.id).isSome → Tried h'' st.id := by
      intro st hst hsome
      rw [List.mem_append, List.mem_singleton] at hst
      obtain hst | rfl := hst
      · exact (hpassed st hst hsome).imp fun _ hmem => hsub hmem
      · exact htried
    have hload (healthy : Bool) : ∀ id, ¬ Took (h' ++ [⟨.loadHealthy b.id, healthy⟩]) id :=
      not_took_append hnot (by simp [Took])
    refine ⟨trivial, ⟨hpassed' (List.subset_append_left _ _) (hnow false), hload false⟩,
      (tryReserve_took (hload true)).mono fun reserved h'' hes => ?_⟩
    obtain ⟨hsub, htook⟩ := hes
    have hsub' : h' ⊆ h'' := List.Subset.trans (List.subset_append_left _ _) hsub
    have htried : Tried h'' c.id := (hnow true).imp fun _ hmem => hsub hmem
    cases reserved with
    | false => exact ⟨hpassed' hsub' htried, fun id => by simp [htook id]⟩
    | true =>
        refine ⟨front, c :: back, hranked, fun st hst hsome => ?_, rfl, ?_, fun id => ?_⟩
        · exact (hpassed st hst hsome).imp fun _ hmem => hsub' hmem
        · rintro b' st' heq
          cases heq
          exact ⟨hget, htried⟩
        · simp [htook id, hid, eq_comm]

section
variable {p : Pool} {front₁ back₁ front₂ back₂ : List BackendState} {h₁ h₂ : List Event}
  {sel₁ sel₂ : Option (Backend × BackendState)}

/-- What one loop takes, another with the same outcomes does not pass. -/
theorem Attempted.not_passed (h : Attempted p front₁ back₁ h₁ sel₁)
    (h' : Attempted p front₂ back₂ h₂ sel₂) (hids : ((front₂ ++ back₂).map (·.id)).Nodup)
    (hsame : ∀ id, Tried h₁ id → Tried h₂ id → (Took h₁ id ↔ Took h₂ id))
    {st : BackendState} (hst : back₁.head? = some st) : st ∉ front₂ := by
  intro hmem
  obtain ⟨⟨b, st'⟩, hsel, rfl⟩ := Option.map_eq_some_iff.mp (h.head.symm.trans hst)
  obtain ⟨hget, htried⟩ := h.selected b st' hsel
  have htook : Took h₁ st'.id := (h.took st'.id).mpr (by rw [hsel, Option.map_some])
  have htried' := h'.passed st' hmem (by rw [hget, Option.isSome_some])
  have htook' := (h'.took st'.id).mp ((hsame st'.id htried htried').mp htook)
  obtain ⟨⟨b₂, st₂⟩, hsel₂, hid⟩ := Option.map_eq_some_iff.mp htook'
  have hhead : back₂.head? = some st₂ := h'.head.trans (by rw [hsel₂, Option.map_some])
  rw [List.map_append, List.nodup_append] at hids
  exact hids.2.2 _ (List.mem_map_of_mem hmem) _ (List.mem_map_of_mem (List.mem_of_head? hhead))
    hid.symm

/-- **The same outcomes select the same backend** from the same ranking. -/
theorem Attempted.selected_eq (h : Attempted p front₁ back₁ h₁ sel₁)
    (h' : Attempted p front₂ back₂ h₂ sel₂) (hids : ((front₁ ++ back₁).map (·.id)).Nodup)
    (heq : front₁ ++ back₁ = front₂ ++ back₂)
    (hsame : ∀ id, Tried h₁ id → Tried h₂ id → (Took h₁ id ↔ Took h₂ id)) : sel₁ = sel₂ := by
  have hback : back₁ = back₂ := by
    obtain ⟨rest, hfront, hback⟩ | ⟨rest, hfront, hback⟩ := List.append_eq_append_iff.mp heq
    · cases rest with
      | nil => exact hback
      | cons st rest =>
          have hhead : back₁.head? = some st := by rw [hback, List.cons_append, List.head?_cons]
          exact absurd (by simp [hfront]) (h.not_passed h' (heq ▸ hids) hsame hhead)
    · cases rest with
      | nil => exact hback.symm
      | cons st rest =>
          have hhead : back₂.head? = some st := by rw [hback, List.cons_append, List.head?_cons]
          have hsame' (id : String) (ht : Tried h₂ id) (ht' : Tried h₁ id) :
              Took h₂ id ↔ Took h₁ id := (hsame id ht' ht).symm
          exact absurd (by simp [hfront]) (h'.not_passed h hids hsame' hhead)
  have hhead : sel₁.map Prod.snd = sel₂.map Prod.snd := by rw [← h.head, ← h'.head, hback]
  cases sel₁ with
  | none =>
      rw [Option.map_none, eq_comm, Option.map_eq_none_iff] at hhead
      exact hhead.symm
  | some x =>
      obtain ⟨b, st⟩ := x
      obtain ⟨⟨b', st'⟩, rfl, rfl⟩ := Option.map_eq_some_iff.mp hhead.symm
      have hget := (h.selected b st' rfl).1
      rw [(h'.selected b' st' rfl).1, Option.some.injEq] at hget
      rw [hget]

end

/-! ## Handled requests -/

/-- The trace of a handled request: the reading of the health flags, the readings of the healthy
backends, the attempts to reserve on them in order of rank, and the rest. -/
structure Handled (s : Server) (r : Request) (c : Chat) (h : List Event) where
  health : List Event
  reads : List Event
  attempts : List Event
  rest : List Event
  trace : h = health ++ (reads ++ (attempts ++ rest))
  found : List Backend
  states : List BackendState
  sel : Option (Backend × BackendState)
  healthy : Returns (s.pool.healthy r.order) health found
  statesOf : Returns (Handler.statesOf c found) reads states
  reserve : Returns (reserveFirst s.pool (rank s.weights c.routeReq states)) attempts sel

/-- Two handled requests get the same answers: about which backends are healthy, from each lookup,
about each usage and depth, and from each backend on which both attempt to reserve. -/
structure SameAnswers {s : Server} {r₁ r₂ : Request} {c₁ c₂ : Chat} {h₁ h₂ : List Event}
    (H₁ : Handled s r₁ c₁ h₁) (H₂ : Handled s r₂ c₂ h₂) : Prop where
  healthy : ∀ id, (⟨.loadHealthy id, true⟩ : Event) ∈ H₁.health ↔
    (⟨.loadHealthy id, true⟩ : Event) ∈ H₂.health
  lookup : ∀ id m m', (⟨.lookup id c₁.namespace c₁.hashes, m⟩ : Event) ∈ H₁.reads →
    (⟨.lookup id c₂.namespace c₂.hashes, m'⟩ : Event) ∈ H₂.reads → m = m'
  usage : ∀ id u u', (⟨.usage id, u⟩ : Event) ∈ H₁.reads →
    (⟨.usage id, u'⟩ : Event) ∈ H₂.reads → u = u'
  depth : ∀ id (v v' : Int64), (⟨.loadDepth id, v⟩ : Event) ∈ H₁.reads →
    (⟨.loadDepth id, v'⟩ : Event) ∈ H₂.reads → v = v'
  reserved : ∀ id, Tried H₁.attempts id → Tried H₂.attempts id →
    (Took H₁.attempts id ↔ Took H₂.attempts id)

/-- Getting the same answers is symmetric. -/
theorem SameAnswers.symm {s : Server} {r₁ r₂ : Request} {c₁ c₂ : Chat} {h₁ h₂ : List Event}
    {H₁ : Handled s r₁ c₁ h₁} {H₂ : Handled s r₂ c₂ h₂} (h : SameAnswers H₁ H₂) :
    SameAnswers H₂ H₁ where
  healthy id := (h.healthy id).symm
  lookup id m m' hm hm' := (h.lookup id m' m hm' hm).symm
  usage id u u' hu hu' := (h.usage id u' u hu' hu).symm
  depth id v v' hv hv' := (h.depth id v' v hv' hv).symm
  reserved id ht ht' := (h.reserved id ht' ht).symm

/-- Every request that was parsed and handled has such a trace. -/
theorem exists_handled {s : Server} {r : Request} {c : Chat} (hc : prepare s r = .ok c)
    {h : List Event} {out : Outcome} (hx : Returns (handleChatCompletions s r) h out) :
    ∃ H : Handled s r c h,
      (H.found = [] ∧ H.sel = none ∧ H.rest = [] ∧
        out = refuse 503 "no healthy backends available") ∨
      (H.found ≠ [] ∧
        Returns (finish s r c H.states (rank s.weights c.routeReq H.states) H.sel) H.rest out) := by
  unfold handleChatCompletions at hx
  rw [hc] at hx
  obtain ⟨found, health, t, rfl, hhealthy, hroute⟩ := Returns.of_bind hx
  split at hroute
  · next hnone =>
      obtain ⟨rfl, hout⟩ := hroute.of_ret
      obtain rfl := List.length_eq_zero_iff.mp hnone
      exact ⟨⟨health, [], [], [], rfl, [], [], none, hhealthy, .ret _, .ret _⟩,
        .inl ⟨rfl, rfl, rfl, hout⟩⟩
  · next hsome =>
      obtain ⟨states, reads, t, rfl, hstates, hselect⟩ := Returns.of_bind hroute
      obtain ⟨sel, attempts, rest, rfl, hreserve, hfinish⟩ := Returns.of_bind hselect
      exact ⟨⟨health, reads, attempts, rest, rfl, found, states, sel, hhealthy, hstates, hreserve⟩,
        .inr ⟨mt List.length_eq_zero_iff.mpr hsome, hfinish⟩⟩

/-- The trace of a thread that has handled its request. -/
theorem returns_of_run {s : Server} {r : Request} {sys sys' : System} {log : Log}
    (run : Steps sys log sys') {i : ℕ}
    (start : sys.threads[i]? = some (.start ((Task.request r).prog s)))
    {t : Thread Act Act.Result Done} (hend : sys'.threads[i]? = some t) {x : Done}
    (hret : t.prog = .ret x) :
    ∃ out, x = .handled out ∧ Returns (handleChatCompletions s r) (own i log) out := by
  have hdone : Returns t.prog [] x := hret ▸ .ret x
  have hx := run.returns start hend hdone
  rw [List.append_nil] at hx
  obtain ⟨out, h₁, h₂, hsplit, hhandler, hrest⟩ := Returns.of_bind hx
  obtain ⟨rfl, hout⟩ := hrest.of_ret
  rw [List.append_nil] at hsplit
  exact ⟨out, hout, hsplit ▸ hhandler⟩

/-- A trace has its parts in one way only. -/
theorem Handled.unique {s : Server} {r : Request} {c : Chat} {h : List Event}
    (H H' : Handled s r c h) : H = H' := by
  obtain ⟨health, reads, attempts, rest, rfl, found, states, sel, hhealthy, hstates, hreserve⟩ := H
  obtain ⟨health', reads', attempts', rest', htrace, found', states', sel', hhealthy', hstates',
    hreserve'⟩ := H'
  obtain ⟨rfl, rfl⟩ := hhealthy.deterministic hhealthy' htrace
  have htrace := List.append_cancel_left htrace
  obtain ⟨rfl, rfl⟩ := hstates.deterministic hstates' htrace
  have htrace := List.append_cancel_left htrace
  obtain ⟨rfl, rfl⟩ := hreserve.deterministic hreserve' htrace
  obtain rfl := List.append_cancel_left htrace
  rfl

/-- The dispatch of a handled request that selected `x`. -/
def dispatchOf (s : Server) (c : Chat) (states : List BackendState) (x : Backend × BackendState) :
    Dispatch :=
  ⟨c, x.1, x.2, ((matchesByBackend states).lookup x.2.id).getD 0, score s.weights c.routeReq x.2⟩

/-- What is left after the selection shows the dispatch. -/
theorem shows_finish (s : Server) (r : Request) (c : Chat) (states ranked : List BackendState)
    (sel : Option (Backend × BackendState)) :
    Shows (sel.elim [] fun x => shownByDispatch r (dispatchOf s c states x))
      (finish s r c states ranked sel) := by
  cases sel with
  | none => exact shows_of_silent trivial
  | some x =>
      have hrelease (out : Outcome) : Shows [] (x.1.release.bind fun _ => .ret out) :=
        shows_of_silent ⟨fun _ => rfl, fun _ => trivial⟩
      have hfinish := (shows_dispatch r (dispatchOf s c states x)).bind hrelease
      rw [List.append_nil] at hfinish
      exact hfinish

/-- **A handled request shows the dispatch of its selection**, and nothing else. -/
theorem Handled.telemetry_eq {s : Server} {r : Request} {c : Chat} (hc : prepare s r = .ok c)
    {h : List Event} {out : Outcome} (hx : Returns (handleChatCompletions s r) h out)
    (H : Handled s r c h) :
    telemetry h = H.sel.elim [] fun x => shownByDispatch r (dispatchOf s c H.states x) := by
  obtain ⟨H', hrest⟩ := exists_handled hc hx
  obtain rfl := H.unique H'
  have hread (a : Act) (ha : IsRead a) : Silent a := silent_of_read ha
  have hhealth := (shows_of_silent (uses_healthy hread s.pool r.order)).telemetry_eq H.healthy
  have hreads := (shows_of_silent (uses_statesOf hread c H.found)).telemetry_eq H.statesOf
  have hattempts := (shows_of_silent
    (uses_reserveFirst hread (fun _ _ _ _ => rfl) s.pool _)).telemetry_eq H.reserve
  have hshown : telemetry H.rest =
      H.sel.elim [] fun x => shownByDispatch r (dispatchOf s c H.states x) := by
    obtain ⟨-, hsel, hnil, -⟩ | ⟨-, hfinish⟩ := hrest
    · rw [hsel, hnil]
      rfl
    · exact (shows_finish s r c H.states _ H.sel).telemetry_eq hfinish
  calc telemetry h = telemetry (H.health ++ (H.reads ++ (H.attempts ++ H.rest))) :=
        congrArg telemetry H.trace
    _ = telemetry H.rest := by
        rw [telemetry_append, telemetry_append, telemetry_append, hhealth, hreads, hattempts]
        rfl
    _ = _ := hshown

/-! ## Two requests -/

section
variable {s : Server} {r₁ r₂ : Request} {c₁ c₂ : Chat} {h₁ h₂ : List Event}
  {H₁ : Handled s r₁ c₁ h₁} {H₂ : Handled s r₂ c₂ h₂}

variable {r : Request} {c : Chat} {h : List Event}

/-- The states are those of the backends found healthy. -/
theorem Handled.ids_states (H : Handled s r c h) :
    H.states.map (·.id) = H.found.map (·.id) := by
  have hread (h : List Event) (a : Act) (_ : IsRead a) : True := trivial
  obtain ⟨reads, -, hids, -, -⟩ := (statesOf_reads hread c H.found (h := [])).returns H.statesOf
  exact hids

/-- The states of a handled request have distinct IDs. -/
theorem Handled.nodup_ids (H : Handled s r c h) : (H.states.map (·.id)).Nodup := by
  have hread (h : List Event) (a : Act) (_ : IsRead a) : True := trivial
  rw [H.ids_states]
  exact (healthy_nodup hread s.pool r.order (h := [])).returns H.healthy

/-- Each state is that of a backend that was found healthy, as read. -/
theorem Handled.read (H : Handled s r c h) {st : BackendState} (hst : st ∈ H.states) :
    ∃ b, s.pool.get st.id = some b ∧ (⟨.loadHealthy st.id, true⟩ : Event) ∈ H.health ∧
      StateRead c b st H.reads := by
  have hread (h : List Event) (a : Act) (_ : IsRead a) : True := trivial
  obtain ⟨reads, htrace, -, hstates, -⟩ :=
    (statesOf_reads hread c H.found (h := [])).returns H.statesOf
  obtain rfl : H.reads = reads := by simpa using htrace
  obtain ⟨b, hb, hstate⟩ := hstates st hst
  obtain ⟨hget, hhealthy⟩ := ((healthy_reads hread s.pool r.order).returns H.healthy).1 b hb
  rw [hstate.id_eq]
  exact ⟨b, hget, hhealthy, hstate⟩

/-- A backend read to be healthy has a state. -/
theorem Handled.complete (H : Handled s r c h) {id : String}
    (hid : (⟨.loadHealthy id, true⟩ : Event) ∈ H.health) : id ∈ H.states.map (·.id) := by
  have hread (h : List Event) (a : Act) (_ : IsRead a) : True := trivial
  rw [H.ids_states]
  exact ((healthy_reads hread s.pool r.order).returns H.healthy).2 id hid

/-- The backends read to be healthy are those with a state. -/
theorem Handled.healthy_iff (H : Handled s r c h) {id : String} :
    (⟨.loadHealthy id, true⟩ : Event) ∈ H.health ↔ id ∈ H.states.map (·.id) := by
  refine ⟨H.complete, fun hid => ?_⟩
  obtain ⟨st, hst, rfl⟩ := List.mem_map.mp hid
  obtain ⟨-, -, hhealthy, -⟩ := H.read hst
  exact hhealthy

/-- **The same answers give the same states.** -/
theorem SameAnswers.states_subset (h : SameAnswers H₁ H₂) : H₁.states ⊆ H₂.states := by
  intro st hst
  obtain ⟨b, hget, hhealthy, hread⟩ := H₁.read hst
  obtain ⟨st', hst', hid⟩ := List.mem_map.mp (H₂.complete ((h.healthy st.id).mp hhealthy))
  obtain ⟨b', hget', -, hread'⟩ := H₂.read hst'
  have hb : b = b' := by
    rw [hid, hget, Option.some.injEq] at hget'
    exact hget'
  have hstate : st = st' := by
    obtain ⟨m, u, v, hm, hu, hv, rfl⟩ := hread
    obtain ⟨m', u', v', hm', hu', hv', rfl⟩ := hread'
    subst hb
    rw [h.lookup _ m m' hm hm', h.usage _ u u' hu hu', h.depth _ v v' hv hv']
  exact hstate ▸ hst'

/-- A request enters a score only through its number of blocks. -/
theorem score_routeReq (w : Weights) (hblocks : c₁.hashes.length = c₂.hashes.length) :
    score w c₁.routeReq = score w c₂.routeReq := by
  have hdivisor : divisor c₁.routeReq = divisor c₂.routeReq := by
    unfold divisor Chat.routeReq
    rw [hblocks]
  funext st
  rw [score, hdivisor, score]

/-- The same states are ranked alike, whatever the blocks of the request are. -/
theorem rank_routeReq (w : Weights) (hblocks : c₁.hashes.length = c₂.hashes.length)
    {states₁ states₂ : List BackendState} (hids₁ : (states₁.map (·.id)).Nodup)
    (hids₂ : (states₂.map (·.id)).Nodup) (hmem : ∀ st, st ∈ states₁ ↔ st ∈ states₂) :
    rank w c₁.routeReq states₁ = rank w c₂.routeReq states₂ := by
  have hperm : states₁.Perm states₂ :=
    (List.perm_ext_iff_of_nodup hids₁.of_map hids₂.of_map).mpr hmem
  calc rank w c₁.routeReq states₁ = rank w c₁.routeReq states₂ :=
        Scorer.rank_eq_of_perm w c₁.routeReq hids₁ hids₂ (hperm.filter _)
    _ = rank w c₂.routeReq states₂ := by
        simp only [rank, Scorer.scoresOf, score_routeReq w hblocks]

/-- **The same answers select the same backend.** -/
theorem SameAnswers.sel_eq (h : SameAnswers H₁ H₂)
    (hblocks : c₁.hashes.length = c₂.hashes.length) : H₁.sel = H₂.sel := by
  obtain ⟨front₁, back₁, hranked₁, hattempted₁⟩ := reserveFirst_attempted H₁.reserve
  obtain ⟨front₂, back₂, hranked₂, hattempted₂⟩ := reserveFirst_attempted H₂.reserve
  have hids : ((front₁ ++ back₁).map (·.id)).Nodup := by
    rw [← hranked₁, ((Scorer.perm_rank _ _ _).map _).nodup_iff]
    exact Scorer.nodup_ids_healthy H₁.nodup_ids
  refine hattempted₁.selected_eq hattempted₂ hids ?_ h.reserved
  rw [← hranked₁, ← hranked₂]
  exact rank_routeReq s.weights hblocks H₁.nodup_ids H₂.nodup_ids fun st =>
    ⟨fun hst => h.states_subset hst, fun hst => h.symm.states_subset hst⟩

/-- The match that is recorded is that of the selected state. -/
theorem Handled.matched_eq (H : Handled s r c h) {st : BackendState} (hst : st ∈ H.states) :
    ((matchesByBackend H.states).lookup st.id).getD 0 = st.matchedBlocks := by
  rw [matchesByBackend, GoMap.lookup_foldl_insert H.nodup_ids hst, Option.getD_some]

/-- The selected state is one of the snapshot. -/
theorem Handled.mem_of_sel (H : Handled s r c h) {b : Backend} {st : BackendState}
    (hsel : H.sel = some (b, st)) : st ∈ H.states := by
  obtain ⟨front, back, hranked, hattempted⟩ := reserveFirst_attempted H.reserve
  have hhead : back.head? = some st := by rw [hattempted.head, hsel, Option.map_some]
  have hmem : st ∈ rank s.weights c.routeReq H.states := by
    rw [hranked]
    exact List.mem_append_right _ (List.mem_of_head? hhead)
  exact (List.mem_filter.mp ((Scorer.perm_rank _ _ _).mem_iff.mp hmem)).1

/-- The requests are for one model, with the same stream flag and number of blocks, and the
upstreams and the client behave alike towards them. -/
structure Alike (r₁ r₂ : Request) (c₁ c₂ : Chat) : Prop where
  model : c₁.req.model = c₂.req.model
  stream : c₁.req.stream = c₂.req.stream
  blocks : c₁.hashes.length = c₂.hashes.length
  upstream : r₁.upstream = r₂.upstream
  client : r₁.client = r₂.client

/-- The same selection shows the same dispatch. -/
theorem SameAnswers.shown_eq (h : SameAnswers H₁ H₂) (halike : Alike r₁ r₂ c₁ c₂) :
    (H₁.sel.elim [] fun x => shownByDispatch r₁ (dispatchOf s c₁ H₁.states x)) =
      H₂.sel.elim [] fun x => shownByDispatch r₂ (dispatchOf s c₂ H₂.states x) := by
  have hsel := h.sel_eq halike.blocks
  cases hx : H₂.sel with
  | none => rw [hsel, hx, Option.elim_none, Option.elim_none]
  | some x =>
      rw [hsel, hx, Option.elim_some, Option.elim_some]
      have hmem₁ : x.2 ∈ H₁.states := H₁.mem_of_sel (hsel.trans hx)
      have hmem₂ : x.2 ∈ H₂.states := H₂.mem_of_sel hx
      refine shownByDispatch_congr halike.upstream halike.client rfl rfl halike.stream
        fun status => ?_
      simp only [routeEvent, dispatchOf, halike.model, halike.stream, halike.blocks,
        score_routeReq s.weights halike.blocks, H₁.matched_eq hmem₁, H₂.matched_eq hmem₂]

/-- **Telemetry reveals nothing of the prompt beyond match counts.**  Two requests with arbitrary
messages, each handled in any run of any system, leave the same events and the same changes of
the counters if they get the same answers. -/
theorem telemetry_reveals_counts (hc₁ : prepare s r₁ = .ok c₁) (hc₂ : prepare s r₂ = .ok c₂)
    (halike : Alike r₁ r₂ c₁ c₂) {sys₁ sys₁' sys₂ sys₂' : System} {log₁ log₂ : Log}
    (run₁ : Steps sys₁ log₁ sys₁') (run₂ : Steps sys₂ log₂ sys₂') {i j : ℕ}
    (start₁ : sys₁.threads[i]? = some (.start ((Task.request r₁).prog s)))
    (start₂ : sys₂.threads[j]? = some (.start ((Task.request r₂).prog s)))
    {t₁ t₂ : Thread Act Act.Result Done} (end₁ : sys₁'.threads[i]? = some t₁)
    (end₂ : sys₂'.threads[j]? = some t₂) {x₁ x₂ : Done} (ret₁ : t₁.prog = .ret x₁)
    (ret₂ : t₂.prog = .ret x₂) (H₁ : Handled s r₁ c₁ (own i log₁))
    (H₂ : Handled s r₂ c₂ (own j log₂)) (same : SameAnswers H₁ H₂) :
    telemetry (own i log₁) = telemetry (own j log₂) := by
  obtain ⟨out₁, -, hx₁⟩ := returns_of_run run₁ start₁ end₁ ret₁
  obtain ⟨out₂, -, hx₂⟩ := returns_of_run run₂ start₂ end₂ ret₂
  rw [H₁.telemetry_eq hc₁ hx₁, H₂.telemetry_eq hc₂ hx₂, same.shown_eq halike]

end

/-! ## Requests on their own -/

/-- Readings on their own are all of one state. -/
theorem answers_of_reads {w w' : World} {h : List Event} (hread : ∀ e ∈ h, IsRead e.1)
    (hs : Replays Act.sem w h w') : ∀ e ∈ h, e.2 = (e.1.sem w).1 := by
  induction hs with
  | nil w => simp
  | @cons a w w' h hrest ih =>
      rw [List.forall_mem_cons] at hread
      have hsame : (a.sem w).2 = w := by
        cases a with
        | loadHealthy id | loadDepth id | lookup id ns blocks | usage id => rfl
        | _ => exact hread.1.elim
      rw [hsame] at ih
      rw [List.forall_mem_cons]
      exact ⟨rfl, ih hread.2⟩

section
variable {s : Server} {r r₁ r₂ : Request} {c c₁ c₂ : Chat} {w w' w₁ w₁' w₂ w₂' : World}
  {h h₁ h₂ : List Event}

/-- The parts of a request that was handled on its own. -/
theorem Handled.alone (H : Handled s r c h) (hs : Replays Act.sem w h w') :
    H.states = w.snapshot s r c ∧ (∀ e ∈ H.reads, e.2 = (e.1.sem w).1) ∧
      H.sel.map (·.2.id) = (w.selected s r c).map (·.id) := by
  obtain ⟨health, reads, attempts, rest, rfl, found, states, sel, hhealthy, hstates, hreserve⟩ := H
  obtain ⟨wa, hs₁, hs⟩ := hs.of_append
  obtain ⟨wb, hs₂, hs⟩ := hs.of_append
  obtain ⟨wc, hs₃, -⟩ := hs.of_append
  obtain ⟨rfl, rfl⟩ := hs₁.exec_eq hhealthy (exec_healthy 1 s.pool r.order w)
  obtain ⟨rfl, rfl⟩ := hs₂.exec_eq hstates (exec_statesOf 1 c _ wa)
  refine ⟨rfl, answers_of_reads ((uses_statesOf (fun _ => id) c _).returns hstates) hs₂, ?_⟩
  obtain ⟨hsel, -⟩ := hs₃.exec_eq hreserve (exec_reserveFirst 0 s.pool _ wb)
  dsimp only
  rw [hsel]
  unfold World.selected
  cases hfind : (rank s.weights c.routeReq (wb.snapshot s r c)).find? fun st =>
      wb.free s.pool st.id with
  | none =>
      have hnone := hfind
      simp only [World.snapshot] at hnone
      simp only [hnone, Option.map_none]
  | some st =>
      have hfree : wb.free s.pool st.id = true := by simpa using List.find?_some hfind
      obtain ⟨b, hget, -⟩ := get_of_free hfree
      have hsome := hfind
      simp only [World.snapshot] at hsome
      simp only [hsome, hget, Option.map_some]

/-- Systems in which the pool, the usage of every backend and the depth of every lookup are the
same give the same answers to requests on their own. -/
theorem sameAnswers_alone (hblocks : c₁.hashes.length = c₂.hashes.length)
    (hcells : w₁.cells = w₂.cells)
    (husage : ∀ id, w₁.cache.usage id = w₂.cache.usage id)
    (hlookup : ∀ id, w₁.cache.lookup id c₁.namespace c₁.hashes =
      w₂.cache.lookup id c₂.namespace c₂.hashes)
    (H₁ : Handled s r₁ c₁ h₁) (hs₁ : Replays Act.sem w₁ h₁ w₁')
    (H₂ : Handled s r₂ c₂ h₂) (hs₂ : Replays Act.sem w₂ h₂ w₂') : SameAnswers H₁ H₂ := by
  obtain ⟨hstates₁, hreads₁, hsel₁⟩ := H₁.alone hs₁
  obtain ⟨hstates₂, hreads₂, hsel₂⟩ := H₂.alone hs₂
  have hstate (b : Backend) : w₁.stateOf c₁ b = w₂.stateOf c₂ b := by
    simp only [World.stateOf, hlookup, husage, hcells]
  have hmem (st : BackendState) : st ∈ H₁.states ↔ st ∈ H₂.states := by
    rw [hstates₁, hstates₂, mem_snapshot, mem_snapshot]
    simp only [hstate, hcells]
  have hfree : w₁.free s.pool = w₂.free s.pool := by
    funext id
    rw [World.free, hcells, World.free]
  have hsel : H₁.sel.map (·.2.id) = H₂.sel.map (·.2.id) := by
    have hids₁ := H₁.nodup_ids
    have hids₂ := H₂.nodup_ids
    rw [hstates₁, hstates₂] at hmem
    rw [hstates₁] at hids₁
    rw [hstates₂] at hids₂
    rw [hsel₁, hsel₂, World.selected, World.selected, hfree,
      rank_routeReq s.weights hblocks hids₁ hids₂ hmem]
  have hids (id : String) : id ∈ H₁.states.map (·.id) ↔ id ∈ H₂.states.map (·.id) := by
    simp only [List.mem_map, hmem]
  refine ⟨fun id => ?_, ?_, ?_, ?_, fun id _ _ => ?_⟩
  · rw [H₁.healthy_iff, H₂.healthy_iff, hids]
  · intro id m m' hm hm'
    exact (hreads₁ _ hm).trans ((hlookup id).trans (hreads₂ _ hm').symm)
  · intro id u u' hu hu'
    exact (hreads₁ _ hu).trans ((husage id).trans (hreads₂ _ hu').symm)
  · intro id v v' hv hv'
    have hdepth : (w₁.cells id).queueDepth = (w₂.cells id).queueDepth := by rw [hcells]
    exact (hreads₁ _ hv).trans (hdepth.trans (hreads₂ _ hv').symm)
  · obtain ⟨_, _, -, hattempted₁⟩ := reserveFirst_attempted H₁.reserve
    obtain ⟨_, _, -, hattempted₂⟩ := reserveFirst_attempted H₂.reserve
    rw [hattempted₁.took, hattempted₂.took, hsel]

end

namespace Sample

/-- The backend has come up, and the block that all turns begin with is left on it. -/
def turnWorld (evictions : ℕ → CacheIndex.ScanOrder) : World :=
  { world with cache := CacheIndex.run [.register "a" 10,
      .commit "a" "chat:m" [0xaec63cef153494df] commitTime evictions] }

/-- The two continuations have a match of one block on the backend, and none anywhere else. -/
theorem lookup_turnWorld (id : String) :
    let w := turnWorld fun _ => default
    w.cache.lookup id hiTurn.namespace hiTurn.hashes = (if id = "a" then 1 else 0) ∧
      w.cache.lookup id hoTurn.namespace hoTurn.hashes = (if id = "a" then 1 else 0) := by
  intro w
  by_cases hid : id = "a"
  · rw [hid, if_pos rfl]
    decide +kernel
  · have hnone : w.cache.backends.lookup id = none := by
      simp only [w, turnWorld, CacheIndex.run, List.foldl_cons, List.foldl_nil]
      rw [CacheIndex.lookup_apply_of_ne _ _ (Ne.symm hid),
        CacheIndex.lookup_apply_of_ne _ _ (Ne.symm hid)]
      rfl
    rw [if_neg hid, CacheIndex.lookup_unregistered hnone, CacheIndex.lookup_unregistered hnone]
    exact ⟨rfl, rfl⟩

/-- A continuation that is handled on its own has its match counted as a hit. -/
theorem cacheHits_turn {reply : String} (hreply : reply = "hi" ∨ reply = "ho") {x : Done × World}
    (h : exec Act.sem 1 ((Task.request (turnRequest (some reply) default fun _ => default)).prog
      (turnServer pool)) (turnWorld fun _ => default) = some x) :
    x.2.telemetry.cacheHits = 1 := by
  obtain ⟨-, hhi, hho⟩ := prepare_turnRequest pool default fun _ => default
  have hhits : (exec Act.sem 1 ((Task.request (turnRequest (some reply) default
      fun _ => default)).prog (turnServer pool)) (turnWorld fun _ => default)).map
        (·.2.telemetry.cacheHits) = some 1 := by
    obtain rfl | rfl := hreply
    · rw [prog_of_prepare rfl hhi]
      decide +kernel
    · rw [prog_of_prepare rfl hho]
      decide +kernel
  rw [h] at hhits
  exact Option.some.inj hhits

end Sample

/-- Two turns that go on from a block that the backend holds, each handled on its own. -/
theorem telemetry_reveals_counts_two :
    let r₁ := Sample.turnRequest (some "hi") default fun _ => default
    let r₂ := Sample.turnRequest (some "ho") default fun _ => default
    let s := Sample.turnServer Sample.pool
    let w := Sample.turnWorld fun _ => default
    ∃ c₁ c₂ log₁ log₂ sys₁ sys₂, prepare s r₁ = .ok c₁ ∧ prepare s r₂ = .ok c₂ ∧
      c₁.hashes ≠ c₂.hashes ∧
      Steps (System.start s w [.request r₁]) log₁ sys₁ ∧
      Steps (System.start s w [.request r₂]) log₂ sys₂ ∧
      sys₁.shared.telemetry.cacheHits = 1 ∧ sys₂.shared.telemetry.cacheHits = 1 ∧
      telemetry (own 0 log₁) = telemetry (own 0 log₂) := by
  intro r₁ r₂ s w
  obtain ⟨-, hc₁, hc₂⟩ := Sample.prepare_turnRequest Sample.pool default fun _ => default
  obtain ⟨log₁, sys₁, out₁, run₁, end₁, hs₁, hexec₁⟩ := exists_solo s w r₁
  obtain ⟨log₂, sys₂, out₂, run₂, end₂, hs₂, hexec₂⟩ := exists_solo s w r₂
  have start (r : Request) : (System.start s w [.request r]).threads[0]? =
      some (.start ((Task.request r).prog s)) := rfl
  obtain ⟨_, -, hx₁⟩ := returns_of_run run₁ (start r₁) end₁ rfl
  obtain ⟨_, -, hx₂⟩ := returns_of_run run₂ (start r₂) end₂ rfl
  obtain ⟨H₁, -⟩ := exists_handled hc₁ hx₁
  obtain ⟨H₂, -⟩ := exists_handled hc₂ hx₂
  have hsame : SameAnswers H₁ H₂ := by
    refine sameAnswers_alone ?_ rfl (fun _ => rfl) (fun id => ?_) H₁ hs₁ H₂ hs₂
    · rfl
    · rw [(Sample.lookup_turnWorld id).1, (Sample.lookup_turnWorld id).2]
  -- the common values are named, or the texts of the two chats would be compared to find them
  exact ⟨_, _, log₁, log₂, sys₁, sys₂, hc₁, hc₂, by decide, run₁, run₂,
    Sample.cacheHits_turn (.inl rfl) hexec₁, Sample.cacheHits_turn (.inr rfl) hexec₂,
    telemetry_reveals_counts hc₁ hc₂ ⟨Eq.refl "m", Eq.refl false, Eq.refl 2, rfl, rfl⟩ run₁ run₂
      (start r₁) (start r₂) end₁ end₂ rfl rfl H₁ H₂ hsame⟩

end KvRouter
