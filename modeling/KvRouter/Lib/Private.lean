import KvRouter.Lib.Interleave

/-!
# The private part of a thread

A part of the shared state, given by a `view`, that one thread works on (`Within`)
and every other thread leaves alone (`Outside`).  On such a part the thread runs
under every interleaving as it would run alone.

* `Throughout` — what holds all along a run without interference, with its rules;
* `Path.simulates` — a thread is at some point of its run without interference;
* `Path.alone` — so a thread that has returned did what it would have done alone.
-/

namespace Interleave

open Prog

variable {A : Type} {R : A → Type} {α β σ τ : Type} {sem : (a : A) → σ → R a × σ}

/-! ## Runs without interference, at every point -/

/-- `p` runs from `s` to `s'` without interference, leaves the trace `h` and returns `x`. -/
structure Runs (sem : (a : A) → σ → R a × σ) (p : Prog A R α) (s : σ) (h : List (Event R)) (x : α)
    (s' : σ) : Prop where
  returns : Returns p h x
  replays : Replays sem s h s'

theorem Runs.bind {p : Prog A R β} {f : β → Prog A R α} {s s' s'' : σ} {h h' : List (Event R)}
    {y : β} {x : α} (hp : Runs sem p s h y s') (hf : Runs sem (f y) s' h' x s'') :
    Runs sem (p.bind f) s (h ++ h') x s'' :=
  ⟨hp.returns.bind hf.returns, hp.replays.append hf.replays⟩

/-- `I` holds of each trace that a run of `p` from `s` leaves on its way, and of the
state it has come to. -/
def Throughout (sem : (a : A) → σ → R a × σ) (I : List (Event R) → σ → Prop) (p : Prog A R α)
    (s : σ) : Prop :=
  ∀ ⦃h rest x s'⦄, Returns p (h ++ rest) x → Replays sem s h s' → I h s'

variable {I : List (Event R) → σ → Prop} {s : σ}

/-- What holds at the start holds throughout a program that returns at once. -/
theorem throughout_ret {x : α} (hI : I [] s) : Throughout sem I (.ret x : Prog A R α) s := by
  intro h rest y s' hreturns hreplays
  obtain ⟨hnil, -⟩ := hreturns.of_ret
  obtain ⟨rfl, -⟩ := List.append_eq_nil_iff.mp hnil
  cases hreplays
  exact hI

/-- An action in front. -/
theorem throughout_act {a : A} {k : R a → Prog A R α} (hI : I [] s)
    (hrest : Throughout sem (fun h => I (⟨a, (sem a s).1⟩ :: h)) (k (sem a s).1) (sem a s).2) :
    Throughout sem I (.act a k) s := by
  intro h rest x s' hreturns hreplays
  cases hreplays with
  | nil => exact hI
  | cons hreplays =>
      obtain ⟨r, h', heq, hk⟩ := hreturns.of_act
      rw [List.cons_append, List.cons.injEq] at heq
      obtain ⟨hevent, rfl⟩ := heq
      cases hevent
      exact hrest hk hreplays

/-- A sequence. -/
theorem throughout_bind {p : Prog A R β} {f : β → Prog A R α} (hp : Throughout sem I p s)
    (hf : ∀ h x s', Runs sem p s h x s' → Throughout sem (fun h' => I (h ++ h')) (f x) s') :
    Throughout sem I (p.bind f) s := by
  intro h rest x s' hreturns hreplays
  obtain ⟨y, h₁, h₂, heq, hfirst, hsecond⟩ := hreturns.of_bind
  obtain ⟨mid, rfl, -⟩ | ⟨mid, rfl, rfl⟩ := List.append_eq_append_iff.mp heq
  · exact hp hfirst hreplays
  · obtain ⟨s₁, hreplays₁, hreplays₂⟩ := hreplays.of_append
    exact hf h₁ y s₁ ⟨hfirst, hreplays₁⟩ hsecond hreplays₂

theorem Throughout.mono {I' : List (Event R) → σ → Prop} {p : Prog A R α}
    (hp : Throughout sem I p s) (h : ∀ h s, I h s → I' h s) : Throughout sem I' p s :=
  fun _ _ _ _ hreturns hreplays => h _ _ (hp hreturns hreplays)

/-- What holds all along a run holds at its end. -/
theorem Throughout.at_end {p : Prog A R α} (hp : Throughout sem I p s) {h : List (Event R)} {x : α}
    {s' : σ} (hrun : Runs sem p s h x s') : I h s' := by
  have hreturns : Returns p (h ++ []) x := by
    rw [List.append_nil]
    exact hrun.returns
  exact hp hreturns hrun.replays

/-- A result does not change what holds on the way to it. -/
theorem Throughout.map {p : Prog A R β} (hp : Throughout sem I p s) (f : β → α) :
    Throughout sem I (p.bind fun x => .ret (f x)) s := by
  refine throughout_bind hp fun h x s' hrun => throughout_ret ?_
  rw [List.append_nil]
  exact hp.at_end hrun

/-! ## Privacy -/

/-- What `a` answers, and what it makes of the view, is determined by the view. -/
def Within (sem : (a : A) → σ → R a × σ) (view : σ → τ) (a : A) : Prop :=
  ∀ s t, view s = view t → (sem a s).1 = (sem a t).1 ∧ view (sem a s).2 = view (sem a t).2

/-- `a` leaves the view as it is. -/
def Outside (sem : (a : A) → σ → R a × σ) (view : σ → τ) (a : A) : Prop :=
  ∀ s, view (sem a s).2 = view s

/-- A run of actions that leave the view alone. -/
theorem Runs.outside {p : Prog A R α} {s s' : σ} {h : List (Event R)} {x : α}
    (hrun : Runs sem p s h x s') (view : σ → τ) (hp : p.Uses (Outside sem view)) :
    view s' = view s := by
  have houtside := hp.returns hrun.returns
  have hreplays := hrun.replays
  clear hrun
  induction hreplays with
  | nil s => rfl
  | cons hrest ih =>
      rw [List.forall_mem_cons] at houtside
      rw [ih houtside.2, houtside.1]

variable {view : σ → τ} {c c' : Config σ A R α} {log : List (Entry σ A R)}

/-- Every action in the log is one that the program of its thread can perform. -/
theorem Path.uses (h : Path sem c log c') {P : ℕ → A → Prop}
    (hstart : ∀ i (t : Thread A R α), c.threads[i]? = some t → t.prog.Uses (P i)) :
    ∀ x ∈ log, P x.who x.event.1 := by
  intro x hx
  obtain ⟨earlier, later, hlog⟩ := List.append_of_mem hx
  obtain ⟨t, ht⟩ : ∃ t, c.threads[x.who]? = some t := ⟨_, List.getElem?_eq_getElem (h.who_lt x hx)⟩
  have hobeys : Obeys (fun _ a => P x.who a) (fun _ _ => True) t.trace t.prog :=
    (hstart x.who t ht).obeys (I := fun _ => True) (fun _ _ _ ha => ha) (fun _ _ _ _ _ => trivial)
      trivial
  exact h.permitted ht hobeys hlog rfl

/-- **A thread with a private view** is always at a point of its run without interference,
in a state of that run with the same view. -/
theorem Path.simulates (h : Path sem c log c') {i : ℕ}
    (hwithin : ∀ x ∈ log, x.who = i → Within sem view x.event.1)
    (houtside : ∀ x ∈ log, x.who ≠ i → Outside sem view x.event.1) {p : Prog A R α}
    (ht : c.threads[i]? = some (.start p)) {run : List (Event R)} {x : α} {s : σ}
    (hrun : Runs sem p c.shared run x s) {t : Thread A R α} (ht' : c'.threads[i]? = some t) :
    ∃ rest s', run = own i log ++ rest ∧ Replays sem c.shared (own i log) s' ∧
      Runs sem t.prog s' rest x s ∧ view s' = view c'.shared := by
  induction h generalizing t with
  | refl =>
      rw [ht, Option.some.injEq] at ht'
      subst ht'
      exact ⟨run, c.shared, rfl, .nil _, hrun, rfl⟩
  | @step log s₁ s₂ threads j u e q hpath hu hstep ih =>
      obtain ⟨trace, prog⟩ := u
      have hwithin' : ∀ x ∈ log, x.who = i → Within sem view x.event.1 :=
        fun y hy => hwithin y (List.mem_append_left _ hy)
      have houtside' : ∀ x ∈ log, x.who ≠ i → Outside sem view x.event.1 :=
        fun y hy => houtside y (List.mem_append_left _ hy)
      rw [own_append]
      obtain ⟨rfl, rfl⟩ | ⟨hji, hother⟩ := getElem?_set_cases hu ht'
      · obtain ⟨rest, s', rfl, hdone, ⟨hprog, hrest⟩, hview⟩ := ih hwithin' houtside' hu
        rw [own_map_self]
        cases hstep with
        | act a k s₁ =>
            obtain ⟨r, rest', rfl, hk⟩ := hprog.of_act
            cases hrest with
            | cons hrest =>
                have ha := hwithin ⟨j, s₁, ⟨a, (sem a s₁).1⟩⟩ (by simp) rfl s' s₁ hview
                refine ⟨rest', (sem a s').2, ?_, ?_, ⟨?_, hrest⟩, ha.2⟩
                · simp [ha.1]
                · rw [← ha.1]
                  exact hdone.append (.cons (.nil _))
                · rwa [← ha.1]
        | loop body k s₁ =>
            cases hprog with
            | loop hprog =>
                exact ⟨rest, s', by simp, by simpa using hdone, ⟨hprog, hrest⟩, hview⟩
      · obtain ⟨rest, s', rfl, hdone, hrest, hview⟩ := ih hwithin' houtside' hother
        rw [own_map_of_ne hji, List.append_nil]
        refine ⟨rest, s', rfl, hdone, hrest, hview.trans ?_⟩
        cases hstep with
        | act a k s₁ => exact (houtside ⟨j, s₁, ⟨a, (sem a s₁).1⟩⟩ (by simp) hji s₁).symm
        | loop body k s₁ => rfl

/-- A thread with a private view that has returned leaves that view as it would have alone,
with the same trace. -/
theorem Path.alone (h : Path sem c log c') {i : ℕ}
    (hwithin : ∀ x ∈ log, x.who = i → Within sem view x.event.1)
    (houtside : ∀ x ∈ log, x.who ≠ i → Outside sem view x.event.1) {p : Prog A R α}
    (ht : c.threads[i]? = some (.start p)) {run : List (Event R)} {x : α} {s : σ}
    (hrun : Runs sem p c.shared run x s) {t : Thread A R α} (ht' : c'.threads[i]? = some t) {y : α}
    (hret : t.prog = .ret y) : own i log = run ∧ view c'.shared = view s := by
  obtain ⟨rest, s', rfl, -, ⟨hprog, hrest⟩, hview⟩ := h.simulates hwithin houtside ht hrun ht'
  rw [hret] at hprog
  obtain ⟨rfl, -⟩ := hprog.of_ret
  cases hrest
  exact ⟨(List.append_nil _).symm, hview.symm⟩

end Interleave
