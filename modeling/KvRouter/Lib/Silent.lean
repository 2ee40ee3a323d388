import KvRouter.Lib.Interleave

/-!
# Threads that leave no trace

A step that leaves the shared state as it is can be left out of an interleaving:
the other threads find the same states and get the same answers.

* `Path.erase` — a run without the threads whose steps were all silent;
* `Path.of_observed` — a system with observers, which have actions of their own
  that change nothing, runs as the system without them.
-/

namespace Interleave

open Prog

variable {A : Type} {R : A → Type} {α β γ σ : Type} {sem : (a : A) → σ → R a × σ}

/-! ## Erasing silent threads -/

section
variable {c c' : Config σ A R α} {log : List (Entry σ A R)}

/-- What a step added to the log, where only the threads of `p` are kept. -/
theorem filter_map_who (p : ℕ → Bool) (i : ℕ) (s : σ) (es : List (Event R)) :
    (es.map fun x => (⟨i, s, x⟩ : Entry σ A R)).filter (p ·.who) =
      if p i then es.map fun x => ⟨i, s, x⟩ else [] := by
  split
  · next hp =>
      refine List.filter_eq_self.mpr fun x hx => ?_
      obtain ⟨e, -, rfl⟩ := List.mem_map.mp hx
      exact hp
  · next hp =>
      refine List.filter_eq_nil_iff.mpr fun x hx => ?_
      obtain ⟨e, -, rfl⟩ := List.mem_map.mp hx
      exact hp

/-- A step that changed nothing. -/
theorem shared_of_silent {p p' : Prog A R α} {s s' : σ} {e : Option (Event R)}
    (hstep : Step sem p s e p' s') (hsilent : ∀ x ∈ e, (sem x.1 s).2 = s) : s' = s := by
  obtain ⟨-, hs'⟩ := hstep.sound
  cases e with
  | none => exact hs'
  | some x => exact hs'.trans (hsilent x rfl)

/-- **Silent threads leave no trace**: without them the others run as they did, to the same
shared state. -/
theorem Path.erase (h : Path sem c log c') (kept : ℕ → Bool)
    (hsilent : ∀ x ∈ log, kept x.who = false → (sem x.event.1 x.before).2 = x.before) :
    ∃ threads, Path sem c (log.filter (kept ·.who)) ⟨c'.shared, threads⟩ ∧
      ∀ i, threads[i]? = if kept i then c'.threads[i]? else c.threads[i]? := by
  induction h with
  | refl => exact ⟨c.threads, .refl, fun i => by simp⟩
  | @step log s s' threads i t e p hpath ht hstep ih =>
      obtain ⟨threads₀, hpath₀, hthreads₀⟩ := ih fun x hx => hsilent x (List.mem_append_left _ hx)
      dsimp only at hthreads₀ hpath₀ ⊢
      have hlt : i < threads.length := (List.getElem?_eq_some_iff.mp ht).1
      rw [List.filter_append, filter_map_who]
      cases hi : kept i with
      | true =>
          have ht₀ : threads₀[i]? = some t := by rw [hthreads₀, hi, if_pos rfl, ht]
          refine ⟨_, hpath₀.step ht₀ hstep, fun j => ?_⟩
          have hlt₀ : i < threads₀.length := (List.getElem?_eq_some_iff.mp ht₀).1
          by_cases hj : i = j
          · subst hj
            simp [hi, hlt, hlt₀]
          · simp [List.getElem?_set_ne hj, hthreads₀]
      | false =>
          have hs : s' = s := shared_of_silent hstep fun x hx =>
            hsilent ⟨i, s, x⟩ (List.mem_append_right _ (by simpa using hx)) hi
          rw [if_neg Bool.false_ne_true, List.append_nil, hs]
          refine ⟨threads₀, hpath₀, fun j => ?_⟩
          by_cases hj : i = j
          · subst hj
            simp [hi, hthreads₀]
          · simp [List.getElem?_set_ne hj, hthreads₀]

end

/-! ## Programs without loops -/

/-- A program uses what every action satisfies. -/
theorem uses_of_forall {P : A → Prop} (h : ∀ a, P a) (p : Prog A R α) : p.Uses P := by
  induction p with
  | ret x => trivial
  | act a k ih => exact ⟨h a, ih⟩
  | loop body k ihbody ihk => exact ⟨ihbody, ihk⟩

/-- A program without loops whose actions have property `P`. -/
def Straight (P : A → Prop) {α : Type} : Prog A R α → Prop
  | .ret _ => True
  | .act a k => P a ∧ ∀ r, Straight P (k r)
  | .loop _ _ => False

/-- Programs without loops, one after another. -/
theorem Straight.bind {P : A → Prop} {p : Prog A R β} {f : β → Prog A R α} (hp : Straight P p)
    (hf : ∀ x, Straight P (f x)) : Straight P (p.bind f) := by
  induction p with
  | ret x => exact hf x
  | act a k ih => exact ⟨hp.1, fun r => ih r (hp.2 r) hf⟩
  | loop body k => exact hp.elim

/-- A program without loops uses what its actions satisfy. -/
theorem Straight.uses {P : A → Prop} {p : Prog A R α} (hp : Straight P p) : p.Uses P := by
  induction p with
  | ret x => trivial
  | act a k ih => exact ⟨hp.1, fun r => ih r (hp.2 r)⟩
  | loop body k => exact hp.elim

/-! ## Observers -/

section
variable {B : Type} {S : B → Type} {sem' : (b : B) → σ → S b × σ}

def inlEvent (e : Event R) : Event (Sum.elim R S) := ⟨.inl e.1, e.2⟩

/-- A larger set of actions adds no loop. -/
theorem straight_inl {P : A → Prop} {P' : A ⊕ B → Prop} {p : Prog A R α} (hp : Straight P p)
    (h : ∀ a, P a → P' (.inl a)) :
    Straight P' (p.inl : Prog (A ⊕ B) (Sum.elim R S) α) := by
  induction p with
  | ret x => trivial
  | act a k ih => exact ⟨h a hp.1, fun r => ih r (hp.2 r)⟩
  | loop body k => exact hp.elim

/-- The next rounds of a loop among other actions. -/
theorem inl_unroll (body : Prog A R (Option β)) (k : β → Prog A R α) :
    ((body.bind (unroll body k)).inl : Prog (A ⊕ B) (Sum.elim R S) α) =
      body.inl.bind (unroll body.inl fun b => (k b).inl) := by
  rw [inl_bind]
  congr 1
  funext o
  cases o <;> rfl

/-- A program that knows of no other actions leaves the trace that it leaves by itself. -/
theorem returns_of_inl {p : Prog A R α} {h : List (Event (Sum.elim R S))} {x : α}
    (hx : Returns (p.inl : Prog (A ⊕ B) (Sum.elim R S) α) h x) :
    ∃ h₀, h = h₀.map inlEvent ∧ Returns p h₀ x := by
  generalize hq : (p.inl : Prog (A ⊕ B) (Sum.elim R S) α) = q at hx
  induction hx generalizing p with
  | ret x =>
      cases p with
      | ret y =>
          cases hq
          exact ⟨[], rfl, .ret x⟩
      | _ => cases hq
  | act hrest ih =>
      cases p with
      | act a k =>
          cases hq
          obtain ⟨h₀, rfl, hx⟩ := ih rfl
          exact ⟨_, rfl, .act hx⟩
      | _ => cases hq
  | loop hrest ih =>
      cases p with
      | loop body k =>
          cases hq
          obtain ⟨h₀, rfl, hx⟩ := ih (inl_unroll body k)
          exact ⟨h₀, rfl, .loop hx⟩
      | _ => cases hq

/-- An action, as it took effect, among observers. -/
def Entry.inl (x : Entry σ A R) : Entry σ (A ⊕ B) (Sum.elim R S) :=
  ⟨x.who, x.before, inlEvent x.event⟩

/-- An entry of the system is one of the larger system in one way. -/
theorem Entry.inl_injective : Function.Injective
    (Entry.inl : Entry σ A R → Entry σ (A ⊕ B) (Sum.elim R S)) := by
  rintro ⟨i, s, a, r⟩ ⟨j, t, b, q⟩ h
  simp only [Entry.inl, inlEvent, Entry.mk.injEq] at h
  obtain ⟨rfl, rfl, hevent⟩ := h
  cases hevent
  rfl

/-- A thread among observers, its result read by `f`. -/
def Thread.inl (f : α → γ) (t : Thread A R α) : Thread (A ⊕ B) (Sum.elim R S) γ :=
  ⟨t.trace.map inlEvent, t.prog.inl.bind fun x => .ret (f x)⟩

/-- A step among observers is a step without them. -/
theorem step_of_inl {f : α → γ} {p : Prog A R α} {q : Prog (A ⊕ B) (Sum.elim R S) γ} {s s' : σ}
    {e : Option (Event (Sum.elim R S))}
    (h : Step (both sem sem') (p.inl.bind fun x => .ret (f x)) s e q s') :
    ∃ e₀ p', Step sem p s e₀ p' s' ∧ e = e₀.map inlEvent ∧
      q = p'.inl.bind fun x => .ret (f x) := by
  cases p with
  | ret x => cases h
  | act a k =>
      cases h with
      | act => exact ⟨_, _, .act a k s, rfl, rfl⟩
  | loop body k =>
      cases h with
      | loop =>
          refine ⟨none, _, .loop body k s, rfl, ?_⟩
          rw [inl_unroll, bind_unroll]

theorem map_inl_set {f : α → γ} (threads : List (Thread A R α)) (i : ℕ) (t : Thread A R α) :
    (threads.set i t).map (Thread.inl f) =
      (threads.map (Thread.inl f)).set i (t.inl f : Thread (A ⊕ B) (Sum.elim R S) γ) :=
  List.map_set

/-- **Observers change nothing**: threads beside them run as they do without them, to the same
shared states. -/
theorem Path.of_observed {f : α → γ} {c₀ : Config σ A R α}
    {observers : List (Thread (A ⊕ B) (Sum.elim R S) γ)}
    {log : List (Entry σ (A ⊕ B) (Sum.elim R S))} {c' : Config σ (A ⊕ B) (Sum.elim R S) γ}
    (h : Path (both sem sem') ⟨c₀.shared, c₀.threads.map (Thread.inl f) ++ observers⟩ log c')
    (hsilent : ∀ x ∈ log, c₀.threads.length ≤ x.who →
      (both sem sem' x.event.1 x.before).2 = x.before) :
    ∃ log₀ c₀' observers', Path sem c₀ log₀ c₀' ∧
      c' = ⟨c₀'.shared, c₀'.threads.map (Thread.inl f) ++ observers'⟩ ∧
      log.filter (·.who < c₀.threads.length) = log₀.map Entry.inl := by
  induction h with
  | refl => exact ⟨[], c₀, observers, .refl, rfl, rfl⟩
  | @step log s s' threads i t e p hpath ht hstep ih =>
      obtain ⟨log₀, ⟨s₀, threads₀⟩, observers', hpath₀, hconfig, hlog⟩ :=
        ih fun x hx => hsilent x (List.mem_append_left _ hx)
      obtain ⟨rfl, rfl⟩ := Config.mk.inj hconfig
      have hlength : threads₀.length = c₀.threads.length := hpath₀.length_threads
      rw [List.filter_append, filter_map_who (fun i => decide (i < c₀.threads.length)), hlog]
      by_cases hi : i < c₀.threads.length
      · have hlt : i < (threads₀.map (Thread.inl f (B := B) (S := S))).length := by simpa [hlength]
        rw [List.getElem?_append_left hlt, List.getElem?_map] at ht
        obtain ⟨t₀, ht₀, rfl⟩ := Option.map_eq_some_iff.mp ht
        obtain ⟨e₀, p₀, hstep₀, rfl, rfl⟩ := step_of_inl hstep
        refine ⟨_, _, observers', hpath₀.step ht₀ hstep₀, ?_, ?_⟩
        · rw [List.set_append_left _ _ hlt, map_inl_set]
          cases e₀ <;> simp [Thread.inl]
        · cases e₀ <;> simp [hi, Entry.inl]
      · have hs : s' = s := shared_of_silent hstep fun x hx =>
          hsilent ⟨i, s, x⟩ (List.mem_append_right _ (by simpa using hx)) (Nat.le_of_not_lt hi)
        refine ⟨log₀, ⟨s, threads₀⟩, observers'.set (i - threads₀.length) ⟨t.trace ++ e.toList, p⟩,
          hpath₀, ?_, by simp [hi]⟩
        rw [List.set_append_right _ _ (by simpa [hlength] using hi), hs, List.length_map]

end

end Interleave
