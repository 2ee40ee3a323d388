import KvRouter.Lib.Silent
import Mathlib.Data.List.Forall2

/-!
# Atomic blocks

A piece of a program that takes effect in one step, whatever the other threads
do in between, such as a loop around a compare-and-swap.  It can be replaced by
one action:

* `Atomically` — programs that are under way of an action;
* `Implements` — a program, and the one in which such pieces are single actions;
* `Path.implements`, `Path.implemented` — the two have the same runs, up to the
  steps that change nothing.
-/

namespace Prog

variable {A B : Type} {R : A → Type} {S : B → Type} {α β γ σ : Type}

/-- The programs `under` way of `b`, which takes effect in the last step; the steps before it leave
the state as it is, and undisturbed it is reached. -/
structure Atomically (sem : (a : A) → σ → R a × σ) (sem' : (b : B) → σ → S b × σ) (b : B)
    (under : Prog A R (S b) → Prop) : Prop where
  ret : ∀ x, ¬under (.ret x)
  step : ∀ p s e p' s', under p → Step sem p s e p' s' →
    s' = s ∧ under p' ∨ e.isSome = true ∧ p' = .ret (sem' b s).1 ∧ s' = (sem' b s).2
  undisturbed : ∀ p s, under p → ∃ h, Returns p h (sem' b s).1 ∧ Replays sem s h (sem' b s).2

/-- `p` runs as `q` does, where an action of the second kind is a program under way of it. -/
def Implements (under : (b : B) → Prog A R (S b) → Prop) {α : Type} :
    Prog A R α → Prog (A ⊕ B) (Sum.elim R S) α → Prop
  | p, .ret x => p = .ret x
  | p, .act (.inl a) k' => ∃ k, p = .act a k ∧ ∀ r, Implements under (k r) (k' r)
  | p, .act (.inr b) k' => ∃ block k, under b block ∧ p = block.bind k ∧
      ∀ r, Implements under (k r) (k' r)
  | p, .loop body' k' => ∃ body k, p = .loop body k ∧ Implements under body body' ∧
      ∀ b, Implements under (k b) (k' b)

variable {under : (b : B) → Prog A R (S b) → Prop}

/-- A program implements itself. -/
theorem implements_inl (p : Prog A R α) : Implements under p p.inl := by
  induction p with
  | ret x => rfl
  | act a k ih => exact ⟨k, rfl, ih⟩
  | loop body k ihbody ihk => exact ⟨body, k, rfl, ihbody, ihk⟩

/-- Programs one after another implement those that their parts do. -/
theorem Implements.bind {p : Prog A R β} {q : Prog (A ⊕ B) (Sum.elim R S) β}
    {f : β → Prog A R α} {f' : β → Prog (A ⊕ B) (Sum.elim R S) α} (hp : Implements under p q)
    (hf : ∀ x, Implements under (f x) (f' x)) : Implements under (p.bind f) (q.bind f') := by
  induction q with
  | ret x =>
      obtain rfl : p = .ret x := hp
      exact hf x
  | act a k' ih =>
      cases a with
      | inl a =>
          obtain ⟨k, rfl, hk⟩ := hp
          exact ⟨_, rfl, fun r => ih r (hk r) hf⟩
      | inr b =>
          obtain ⟨block, k, hblock, rfl, hk⟩ := hp
          exact ⟨block, _, hblock, bind_assoc block k f, fun r => ih r (hk r) hf⟩
  | loop body' k' _ ih =>
      obtain ⟨body, k, rfl, hbody, hk⟩ := hp
      exact ⟨body, _, rfl, hbody, fun b => ih b (hk b) hf⟩

/-- So do the rounds of a loop. -/
theorem implements_unroll {body : Prog A R (Option γ)} {k : γ → Prog A R α}
    {body' : Prog (A ⊕ B) (Sum.elim R S) (Option γ)}
    {k' : γ → Prog (A ⊕ B) (Sum.elim R S) α} (hbody : Implements under body body')
    (hk : ∀ b, Implements under (k b) (k' b)) :
    Implements under (body.bind (unroll body k)) (body'.bind (unroll body' k')) :=
  hbody.bind fun o => by
    cases o with
    | none => exact ⟨body, k, rfl, hbody, hk⟩
    | some b => exact hk b

/-- So do the branches of a condition. -/
theorem implements_ite {c : Prop} [Decidable c] {p₁ p₂ : Prog A R α}
    {q₁ q₂ : Prog (A ⊕ B) (Sum.elim R S) α} (h₁ : Implements under p₁ q₁)
    (h₂ : Implements under p₂ q₂) :
    Implements under (if c then p₁ else p₂) (if c then q₁ else q₂) := by
  split
  · exact h₁
  · exact h₂

/-- Both have returned, or neither. -/
theorem Implements.ret_iff {sem : (a : A) → σ → R a × σ} {sem' : (b : B) → σ → S b × σ}
    (hunder : ∀ b, Atomically sem sem' b (under b)) {p : Prog A R α}
    {q : Prog (A ⊕ B) (Sum.elim R S) α} (h : Implements under p q) (x : α) :
    p = .ret x ↔ q = .ret x := by
  cases q with
  | ret y =>
      obtain rfl : p = .ret y := h
      simp
  | act a k' =>
      cases a with
      | inl a =>
          obtain ⟨k, rfl, -⟩ := h
          simp
      | inr b =>
          obtain ⟨block, k, hblock, rfl, -⟩ := h
          cases block with
          | ret r => exact absurd hblock ((hunder b).ret r)
          | _ => simp
  | loop body' k' =>
      obtain ⟨body, k, rfl, -, -⟩ := h
      simp

/-- A step of a piece of a program. -/
theorem Step.of_bind {sem : (a : A) → σ → R a × σ} {p : Prog A R β} {f : β → Prog A R α}
    {s s' : σ} {e : Option (Event R)} {p' : Prog A R α} (hp : ∀ x, p ≠ .ret x)
    (hstep : Step sem (p.bind f) s e p' s') :
    ∃ p₀, Step sem p s e p₀ s' ∧ p' = p₀.bind f := by
  cases p with
  | ret x => exact absurd rfl (hp x)
  | act a k =>
      cases hstep
      exact ⟨_, .act a k s, rfl⟩
  | loop body k =>
      cases hstep
      exact ⟨_, .loop body k s, (bind_unroll body k f).symm⟩

/-- **A step of the implementation** changes nothing, or is the next step of what it implements. -/
theorem Implements.step {sem : (a : A) → σ → R a × σ} {sem' : (b : B) → σ → S b × σ}
    (hunder : ∀ b, Atomically sem sem' b (under b)) {p p' : Prog A R α}
    {q : Prog (A ⊕ B) (Sum.elim R S) α} {s s' : σ} {e : Option (Event R)}
    (h : Implements under p q) (hstep : Step sem p s e p' s') :
    s' = s ∧ Implements under p' q ∨
    ∃ e' q', Step (both sem sem') q s e' q' s' ∧ Implements under p' q' ∧
      e'.isSome = e.isSome := by
  cases q with
  | ret x =>
      obtain rfl : p = .ret x := h
      cases hstep
  | act a k' =>
      cases a with
      | inl a =>
          obtain ⟨k, rfl, hk⟩ := h
          cases hstep
          have hact : Step (both sem sem') (.act (.inl a) k') s (some ⟨.inl a, (sem a s).1⟩)
              (k' (sem a s).1) (sem a s).2 := .act _ _ s
          exact Or.inr ⟨_, _, hact, hk _, rfl⟩
      | inr b =>
          obtain ⟨block, k, hblock, rfl, hk⟩ := h
          have hne : ∀ x, block ≠ .ret x := fun x heq => (hunder b).ret x (heq ▸ hblock)
          obtain ⟨block', hblock', rfl⟩ := hstep.of_bind hne
          obtain ⟨rfl, hunder'⟩ | ⟨hsome, rfl, rfl⟩ := (hunder b).step _ _ _ _ _ hblock hblock'
          · exact Or.inl ⟨rfl, block', k, hunder', rfl, hk⟩
          · have hact : Step (both sem sem') (.act (.inr b) k') s (some ⟨.inr b, (sem' b s).1⟩)
                (k' (sem' b s).1) (sem' b s).2 := .act _ _ s
            exact Or.inr ⟨_, _, hact, hk _, hsome.symm⟩
  | loop body' k' =>
      obtain ⟨body, k, rfl, hbody, hk⟩ := h
      cases hstep
      exact Or.inr ⟨_, _, .loop body' k' s, implements_unroll hbody hk, rfl⟩

end Prog

namespace Interleave

open Prog

variable {A B : Type} {R : A → Type} {S : B → Type} {α β σ : Type}
  {sem : (a : A) → σ → R a × σ} {sem' : (b : B) → σ → S b × σ}
  {under : (b : B) → Prog A R (S b) → Prop}

/-- The threads of `c` implement those of `d`, on the same state. -/
structure Config.Implements (under : (b : B) → Prog A R (S b) → Prop) (c : Config σ A R α)
    (d : Config σ (A ⊕ B) (Sum.elim R S) α) : Prop where
  shared : c.shared = d.shared
  length : c.threads.length = d.threads.length
  threads : ∀ (i : ℕ) (t : Thread A R α) (u : Thread (A ⊕ B) (Sum.elim R S) α),
    c.threads[i]? = some t → d.threads[i]? = some u → Prog.Implements under t.prog u.prog

/-- An action of `d`, and the step of `c` that took effect as it did. -/
def Marks (sem : (a : A) → σ → R a × σ) (sem' : (b : B) → σ → S b × σ)
    (y : Entry σ (A ⊕ B) (Sum.elim R S)) (x : Entry σ A R) : Prop :=
  y.who = x.who ∧ y.before = x.before ∧
    (both sem sem' y.event.1 y.before).2 = (sem x.event.1 x.before).2

/-- Every thread implements that of the other system. -/
theorem Config.Implements.other {c : Config σ A R α} {d : Config σ (A ⊕ B) (Sum.elim R S) α}
    (h : c.Implements under d) {i : ℕ} {t : Thread A R α} (ht : c.threads[i]? = some t) :
    ∃ u, d.threads[i]? = some u ∧ Prog.Implements under t.prog u.prog := by
  have hlt : i < d.threads.length := h.length ▸ (List.getElem?_eq_some_iff.mp ht).1
  have hu := List.getElem?_eq_getElem hlt
  exact ⟨_, hu, h.threads i t _ ht hu⟩

/-- Threads may move on together. -/
theorem Config.Implements.set {s s' : σ} {threads : List (Thread A R α)}
    {threads' : List (Thread (A ⊕ B) (Sum.elim R S) α)}
    (h : Config.Implements under ⟨s, threads⟩ ⟨s, threads'⟩) {i : ℕ} {t : Thread A R α}
    {u : Thread (A ⊕ B) (Sum.elim R S) α} (htu : Prog.Implements under t.prog u.prog) :
    Config.Implements under ⟨s', threads.set i t⟩ ⟨s', threads'.set i u⟩ := by
  have hlength : threads.length = threads'.length := h.length
  refine ⟨rfl, by simpa using hlength, fun j t' u' ht' hu' => ?_⟩
  dsimp only at ht' hu'
  by_cases hj : i = j
  · subst hj
    have hlt : i < threads.length := by simpa using (List.getElem?_eq_some_iff.mp ht').1
    rw [List.getElem?_set_self hlt, Option.some.injEq] at ht'
    rw [List.getElem?_set_self (hlength ▸ hlt), Option.some.injEq] at hu'
    exact ht' ▸ hu' ▸ htu
  · rw [List.getElem?_set_ne hj] at ht' hu'
    exact h.threads j t' u' ht' hu'

theorem append_sublistForall₂ {ι κ : Type} {P : ι → κ → Prop} {l₁ l₂ : List ι} {l₁' l₂' : List κ}
    (h₁ : List.SublistForall₂ P l₁ l₁') (h₂ : List.SublistForall₂ P l₂ l₂') :
    List.SublistForall₂ P (l₁ ++ l₂) (l₁' ++ l₂') := by
  obtain ⟨m₁, hm₁, hsub₁⟩ := List.sublistForall₂_iff.mp h₁
  obtain ⟨m₂, hm₂, hsub₂⟩ := List.sublistForall₂_iff.mp h₂
  exact List.sublistForall₂_iff.mpr ⟨m₁ ++ m₂, List.rel_append hm₁ hm₂, hsub₁.append hsub₂⟩

/-- What two steps with the same effect add to their logs. -/
theorem marks_of_steps {p p' : Prog A R α} {q q' : Prog (A ⊕ B) (Sum.elim R S) α} {s s' : σ}
    {e : Option (Event R)} {e' : Option (Event (Sum.elim R S))} (hp : Step sem p s e p' s')
    (hq : Step (both sem sem') q s e' q' s') (he : e'.isSome = e.isSome) (i : ℕ) :
    List.SublistForall₂ (Marks sem sem') (e'.toList.map fun x => ⟨i, s, x⟩)
      (e.toList.map fun x => ⟨i, s, x⟩) := by
  have heffect := hp.sound.2
  have heffect' := hq.sound.2
  cases e' with
  | none => exact .nil
  | some y =>
      obtain ⟨x, rfl⟩ := Option.isSome_iff_exists.mp (he.symm.trans rfl)
      exact .cons ⟨rfl, rfl, heffect'.symm.trans heffect⟩ .nil

/-- **A run of the implementation is a run of what it implements**: each action of the latter is
the effect of a step of the former, by the same thread in the same state. -/
theorem Path.implements (hunder : ∀ b, Atomically sem sem' b (under b)) {c c' : Config σ A R α}
    {log : List (Entry σ A R)} (h : Path sem c log c')
    {d : Config σ (A ⊕ B) (Sum.elim R S) α} (hd : c.Implements under d) :
    ∃ log' d', Path (both sem sem') d log' d' ∧ c'.Implements under d' ∧
      List.SublistForall₂ (Marks sem sem') log' log := by
  induction h with
  | refl => exact ⟨[], d, .refl, hd, .nil⟩
  | @step log s s' threads i t e p hpath ht hstep ih =>
      obtain ⟨log', ⟨s₁, threads'⟩, hpath', himpl, hmarks⟩ := ih
      obtain rfl : s = s₁ := himpl.shared
      obtain ⟨u, hu, htu⟩ := himpl.other ht
      obtain ⟨rfl, hp⟩ | ⟨e', q, hq, hp, he⟩ := htu.step hunder hstep
      · refine ⟨log', ⟨s', threads'⟩, hpath', ?_, ?_⟩
        · have hset : Config.Implements under ⟨s', threads.set i ⟨t.trace ++ e.toList, p⟩⟩
              ⟨s', threads'.set i u⟩ := himpl.set hp
          rwa [← (List.getElem?_eq_some_iff.mp hu).2, List.set_getElem_self] at hset
        · simpa using append_sublistForall₂ hmarks (.nil (l := e.toList.map fun x => ⟨i, s', x⟩))
      · exact ⟨_, _, hpath'.step hu hq, himpl.set hp,
          append_sublistForall₂ hmarks (marks_of_steps hstep hq he i)⟩

/-- A thread whose others stand still, through a piece of its program. -/
theorem Path.replays_bind {c : Config σ A R α} {log : List (Entry σ A R)} {h : List (Event R)}
    {p : Prog A R β} {s s' : σ} {x : β} (hx : Returns p h x) (hs : Replays sem s h s')
    (f : β → Prog A R α) {threads : List (Thread A R α)} (hpath : Path sem c log ⟨s, threads⟩)
    {i : ℕ} {trace : List (Event R)} (ht : threads[i]? = some ⟨trace, p.bind f⟩) :
    ∃ log', Path sem c log' ⟨s', threads.set i ⟨trace ++ h, f x⟩⟩ := by
  have hlt : i < threads.length := (List.getElem?_eq_some_iff.mp ht).1
  have hself (t : Thread A R α) : (threads.set i t)[i]? = some t := List.getElem?_set_self hlt
  induction hx generalizing log s trace threads with
  | ret x =>
      cases hs
      have hnow : threads[i] = ⟨trace, f x⟩ := (List.getElem?_eq_some_iff.mp ht).2
      rw [List.append_nil, ← hnow, List.set_getElem_self]
      exact ⟨log, hpath⟩
  | @act a k r h x hrest ih =>
      cases hs with
      | cons hs =>
          have hact : Step sem (.act a fun r => (k r).bind f) s (some ⟨a, (sem a s).1⟩)
              ((k (sem a s).1).bind f) (sem a s).2 := .act a _ s
          obtain ⟨log', hpath'⟩ := ih hs (hpath.step ht hact) (hself _) (by simpa using hlt)
            fun t => by simpa using hself t
          exact ⟨log', by rwa [List.set_set, List.append_assoc] at hpath'⟩
  | @loop _ body k h x hrest ih =>
      have hloop : Step sem (.loop body fun b => (k b).bind f) s none
          ((body.bind (unroll body k)).bind f) s := by
        rw [bind_unroll]
        exact .loop body _ s
      obtain ⟨log', hpath'⟩ := ih hs (hpath.step ht hloop) (hself _) (by simpa using hlt)
        fun t => by simpa using hself t
      exact ⟨log', by rwa [List.set_set, Option.toList_none, List.append_nil] at hpath'⟩

/-- A step of what a thread implements, by steps of the thread. -/
theorem Path.follows (hunder : ∀ b, Atomically sem sem' b (under b)) {c : Config σ A R α}
    {log : List (Entry σ A R)} {s s' : σ} {threads : List (Thread A R α)}
    (hpath : Path sem c log ⟨s, threads⟩) {i : ℕ} {t : Thread A R α} (ht : threads[i]? = some t)
    {q q' : Prog (A ⊕ B) (Sum.elim R S) α} {e : Option (Event (Sum.elim R S))}
    (h : Prog.Implements under t.prog q) (hstep : Step (both sem sem') q s e q' s') :
    ∃ log' t', Path sem c log' ⟨s', threads.set i t'⟩ ∧ Prog.Implements under t'.prog q' := by
  obtain ⟨trace, p⟩ := t
  cases q with
  | ret x => cases hstep
  | act a k' =>
      cases a with
      | inl a =>
          obtain ⟨k, rfl, hk⟩ := h
          cases hstep
          exact ⟨_, _, hpath.step ht (.act a k s), hk _⟩
      | inr b =>
          obtain ⟨block, k, hblock, rfl, hk⟩ := h
          cases hstep
          obtain ⟨h', hreturns, hreplays⟩ := (hunder b).undisturbed block s hblock
          obtain ⟨log', hpath'⟩ := Path.replays_bind hreturns hreplays k hpath ht
          exact ⟨log', _, hpath', hk _⟩
  | loop body' k' =>
      obtain ⟨body, k, rfl, hbody, hk⟩ := h
      cases hstep
      exact ⟨_, _, hpath.step ht (.loop body k s), implements_unroll hbody hk⟩

/-- **A run of what is implemented is a run of the implementation**, in which no piece is
disturbed. -/
theorem Path.implemented (hunder : ∀ b, Atomically sem sem' b (under b)) {c : Config σ A R α}
    {d d' : Config σ (A ⊕ B) (Sum.elim R S) α} {log' : List (Entry σ (A ⊕ B) (Sum.elim R S))}
    (h : Path (both sem sem') d log' d') (hd : c.Implements under d) :
    ∃ log c', Path sem c log c' ∧ c'.Implements under d' := by
  induction h with
  | refl => exact ⟨[], c, .refl, hd⟩
  | @step log' s s' threads' i u e q hpath' hu hstep ih =>
      obtain ⟨log, ⟨s₁, threads⟩, hpath, himpl⟩ := ih
      obtain rfl : s₁ = s := himpl.shared
      obtain ⟨t, ht⟩ : ∃ t, threads[i]? = some t :=
        ⟨_, List.getElem?_eq_getElem (himpl.length ▸ (List.getElem?_eq_some_iff.mp hu).1)⟩
      obtain ⟨log₁, t', hpath₁, ht'⟩ := hpath.follows hunder ht (himpl.threads i t u ht hu) hstep
      exact ⟨log₁, _, hpath₁, himpl.set ht'⟩

end Interleave
