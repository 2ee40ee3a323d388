import KvRouter.Admission

/-!
# KvRouter.Handler.Phases

The phases of a handler, on its trace: until it takes a slot it only looks, by
loads and by swaps that fail; with the slot it does the rest, takes no other one
and gives the slot back once.  And it swaps the depth that it has just loaded.
-/

namespace KvRouter

open Handler Prog

/-! ## Looking -/

/-- A load, or a swap that failed. -/
def Idle : Event → Prop
  | ⟨.casDepth _ _ _, swapped⟩ => swapped = false
  | ⟨a, _⟩ => IsRead a

theorem idle_of_read {a : Act} (ha : IsRead a) (r : a.Result) : Idle ⟨a, r⟩ := by
  cases a with
  | casDepth id old new => exact ha.elim
  | _ => exact ha

/-- An action that was answered so changed nothing. -/
theorem silent_of_idle {a : Act} {w : World} (h : Idle ⟨a, (a.sem w).1⟩) : (a.sem w).2 = w := by
  cases a with
  | casDepth id old new =>
      by_cases hold : (w.cells id).queueDepth = old
      · have hsem : (Act.casDepth id old new).sem w =
            (true, w.updateCells id fun c => { c with queueDepth := new }) := if_pos hold
        rw [hsem] at h
        exact absurd h.symm Bool.false_ne_true
      · have hsem : (Act.casDepth id old new).sem w = (false, w) := if_neg hold
        rw [hsem]
  | loadHealthy | loadDepth | lookup | usage => rfl
  | _ => exact False.elim h

/-- A trace of a handler that has taken no slot. -/
def Looking (h : List Event) : Prop := ∀ e ∈ h, Idle e

theorem looking_nil : Looking [] := by simp [Looking]

theorem looking_concat {h : List Event} {e : Event} :
    Looking (h ++ [e]) ↔ Looking h ∧ Idle e := by
  simp [Looking, or_imp, forall_and]

/-- What is idle has no effect. -/
theorem effectOf_idle {e : Event} (he : Idle e) : effectOf e = none := by
  obtain ⟨a, r⟩ := e
  cases a with
  | casDepth id old new =>
      obtain rfl : r = false := he
      rfl
  | loadHealthy | loadDepth | lookup | usage => rfl
  | _ => exact False.elim he

theorem Looking.effects_eq {h : List Event} (hh : Looking h) : effects h = [] :=
  List.filterMap_eq_nil_iff.mpr fun e he => effectOf_idle (hh e he)

/-! ## The phases -/

/-- A trace of a handler that has taken a slot and not given it back. -/
def Serving (h : List Event) : Prop := effects h ≠ [] ∧ ∀ id, .released id ∉ effects h

/-- What a handler may do after the trace `h`. -/
def Phased (h : List Event) : Act → Prop
  | .casDepth id old _ => Looking h ∧ [(⟨.loadDepth id, old⟩ : Event)] <:+ h
  | .addDepth _ _ => Serving h
  | a => IsRead a ∨ effects h ≠ []

theorem phased_of_read (h : List Event) (a : Act) (ha : IsRead a) : Phased h a := by
  cases a with
  | loadHealthy | loadDepth | lookup | usage => exact Or.inl trivial
  | _ => exact ha.elim

/-- An action other than the taking and the return of a slot. -/
def KeepsSlot (a : Act) : Prop := NoSwap a ∧ ∀ id delta, a ≠ .addDepth id delta

theorem keepsSlot_of_quiet {a : Act} (ha : Quiet a) : KeepsSlot a := by
  refine ⟨noSwap_of_quiet ha, ?_⟩
  rintro id delta rfl
  exact Option.some_ne_none _ (ha 0)

/-- After an action the effects are those before it, or one more. -/
theorem effects_concat (h : List Event) (e : Event) :
    effects (h ++ [e]) = effects h ++ (effectOf e).toList := by
  rw [effects_append, effects_singleton]

/-- What keeps the slot is in order while it is held. -/
theorem KeepsSlot.phased {a : Act} (ha : KeepsSlot a) {h : List Event} (hh : Serving h) :
    Phased h a := by
  cases a with
  | casDepth id old new => exact absurd rfl (ha.1 id old new)
  | addDepth id delta => exact absurd rfl (ha.2 id delta)
  | _ => exact Or.inr hh.1

/-- And the slot is held after it. -/
theorem KeepsSlot.serving {a : Act} (ha : KeepsSlot a) (r : a.Result) {h : List Event}
    (hh : Serving h) : Serving (h ++ [⟨a, r⟩]) := by
  obtain ⟨hne, hreleased⟩ := hh
  rw [Serving, effects_concat]
  refine ⟨by simp [hne], fun id hmem => ?_⟩
  rw [List.mem_append] at hmem
  obtain hmem | hmem := hmem
  · exact hreleased id hmem
  · cases a with
    | casDepth id' old new => exact ha.1 id' old new rfl
    | addDepth id' delta => exact ha.2 id' delta rfl
    | _ => simp [effectOf] at hmem

/-! ## The handler -/

/-- Either phase. -/
def InPhase (h : List Event) : Prop := Looking h ∨ effects h ≠ []

/-- Reading stays in the first phase. -/
theorem looking_uses {α : Type} {prog : Program α} (hprog : prog.Uses IsRead) {h : List Event}
    (hh : Looking h) : Obeys Phased (fun _ h' => Looking h') h prog :=
  hprog.obeys (I := Looking) (fun h' a _ ha => phased_of_read h' a ha)
    (fun _ _ r hh' ha => looking_concat.mpr ⟨hh', idle_of_read ha r⟩) hh

/-- The reserve loop goes to the second phase with the slot that it takes. -/
theorem reserveFirst_phased (p : Pool) (ranked : List Scorer.BackendState) {h : List Event}
    (hh : Looking h) :
    Obeys Phased (fun sel h' => if sel.isSome then Serving h' else Looking h') h
      (reserveFirst p ranked) := by
  refine obeys_reserveFirst (fun _ h' => Looking h') hh (fun _ hh' => hh')
    (fun _ _ _ _ _ hh' _ => hh') ?_
  intro front st back h' b _ hh' _
  have hloaded (healthy : Bool) : Looking (h' ++ [⟨.loadHealthy b.id, healthy⟩]) :=
    looking_concat.mpr ⟨hh', trivial⟩
  refine ⟨Or.inl trivial, hloaded false, ?_⟩
  refine obeys_tryReserve Looking (hloaded true) (fun _ _ => Or.inl trivial)
    (fun _ _ hh'' _ _ => looking_concat.mpr ⟨hh'', trivial⟩) ?_
  intro h'' v hh'' _
  have hdepth : Looking (h'' ++ [⟨.loadDepth b.id, v⟩]) := looking_concat.mpr ⟨hh'', trivial⟩
  refine ⟨⟨hdepth, List.suffix_append _ _⟩, ?_, looking_concat.mpr ⟨hdepth, rfl⟩⟩
  rw [if_pos rfl, Option.isSome_some, if_pos rfl, Serving, effects_concat, hdepth.effects_eq]
  simp [effectOf]

/-- The dispatch keeps the slot. -/
theorem keepsSlot_dispatch (r : Request) (d : Dispatch) : (dispatch r d).Uses KeepsSlot :=
  uses_dispatch (fun _ ha _ => keepsSlot_of_quiet ha)
    ⟨fun _ _ _ => Act.noConfusion, fun _ _ => Act.noConfusion⟩
    fun _ _ _ => keepsSlot_of_quiet fun _ => rfl

/-- After the selection the slot is given back at the end. -/
theorem finish_phased (s : Server) (r : Request) (c : Chat)
    (states ranked : List Scorer.BackendState)
    {sel : Option (Backend × Scorer.BackendState)} {h : List Event}
    (hh : if sel.isSome then Serving h else Looking h) :
    Obeys Phased (fun _ h' => InPhase h') h (finish s r c states ranked sel) := by
  cases sel with
  | none => exact Or.inl hh
  | some x =>
      refine Obeys.bind (((keepsSlot_dispatch r _).obeys (I := Serving)
        (fun _ _ hh' ha => ha.phased hh') (fun _ _ r hh' ha => ha.serving r hh') hh).mono
          fun out h' hh' => ⟨hh', fun _ => Or.inr ?_⟩)
      rw [effects_concat]
      simp [hh'.1]

/-- **The phases of the handler**, under every interleaving. -/
theorem handler_phased (s : Server) (r : Request) :
    Obeys Phased (fun _ h => InPhase h) [] (handleChatCompletions s r) := by
  unfold handleChatCompletions
  cases hc : prepare s r with
  | error out => exact Or.inl looking_nil
  | ok c =>
      refine Obeys.bind ((looking_uses (uses_healthy (fun _ ha => ha) s.pool r.order)
        looking_nil).mono fun found h₁ hh₁ => ?_)
      show Obeys Phased _ h₁ (ite _ _ _)
      split
      · exact Or.inl hh₁
      · refine Obeys.bind ((looking_uses (uses_statesOf (fun _ ha => ha) c found) hh₁).mono
          fun states h₂ hh₂ => ?_)
        exact Obeys.bind ((reserveFirst_phased s.pool _ hh₂).mono
          fun sel h₃ hsel => finish_phased s r c states _ hsel)

/-- A request that is answered without a backend has only looked. -/
theorem looking_of_refused {s : Server} {r : Request} {h : List Event} {out : Outcome}
    (hreturns : Returns (handleChatCompletions s r) h out) (hrefused : out.writer.backend = none) :
    Looking h := by
  obtain hlooking | hne := (handler_phased s r).returns hreturns
  · exact hlooking
  · obtain ⟨-, hnil⟩ | ⟨_, b, -, -, hsome, -⟩ := (handler_contract s r).returns hreturns
    · exact absurd hnil hne
    · simp [hrefused] at hsome

end KvRouter
