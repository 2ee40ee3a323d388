import KvRouter.Lib.Prog
import Mathlib.Data.List.Induction

/-!
# Interleavings

Threads that run programs of atomic actions on one shared state, sequentially
consistent: each step of the system is a step of one thread (`Path.step`).  A
path carries its log, the actions in the order they took effect, each with the
thread that performed it and the state it found.

* `Path.thread` — a thread's trace is its part of the log;
* `Path.sound` — each answer in the log is the one its state gives;
* `Path.obeys`, `Path.permitted` — a thread whose program obeys a contract keeps
  to it under every interleaving;
* `Path.keeps` — an invariant that every action keeps holds throughout;
* `Path.exec` — a run without interference is one of the interleavings;
* `Path.scheduled` — so is the run of a given schedule.
-/

namespace Interleave

open Prog

variable {A : Type} {R : A → Type} {α β σ : Type}

/-! ## Systems of threads -/

/-- A thread: the trace it has left and the program it still has to run. -/
structure Thread (A : Type) (R : A → Type) (α : Type) where
  trace : List (Event R)
  prog : Prog A R α

/-- A thread that has not taken a step. -/
def Thread.start (p : Prog A R α) : Thread A R α := ⟨[], p⟩

structure Config (σ : Type) (A : Type) (R : A → Type) (α : Type) where
  shared : σ
  threads : List (Thread A R α)

/-- An action as it took effect: who performed it, in which state, and with
which answer. -/
structure Entry (σ : Type) (A : Type) (R : A → Type) where
  who : ℕ
  before : σ
  event : Event R

/-- The actions of thread `i` in a log. -/
def own (i : ℕ) (log : List (Entry σ A R)) : List (Event R) :=
  (log.filter (·.who = i)).map (·.event)

/-- The steps of a system from one configuration to another, with their log. -/
inductive Path (sem : (a : A) → σ → R a × σ) (c : Config σ A R α) :
    List (Entry σ A R) → Config σ A R α → Prop
  | refl : Path sem c [] c
  | step {log : List (Entry σ A R)} {s s' : σ} {threads : List (Thread A R α)} {i : ℕ}
      {t : Thread A R α} {e : Option (Event R)} {p : Prog A R α}
      (hpath : Path sem c log ⟨s, threads⟩) (ht : threads[i]? = some t)
      (hstep : Step sem t.prog s e p s') :
      Path sem c (log ++ e.toList.map fun x => ⟨i, s, x⟩)
        ⟨s', threads.set i ⟨t.trace ++ e.toList, p⟩⟩

variable {sem : (a : A) → σ → R a × σ} {c c' : Config σ A R α} {log : List (Entry σ A R)}

@[simp] theorem own_nil (i : ℕ) : own i ([] : List (Entry σ A R)) = [] := rfl

theorem own_append (i : ℕ) (log later : List (Entry σ A R)) :
    own i (log ++ later) = own i log ++ own i later := by
  simp [own]

/-- All that a thread has logged is its own. -/
theorem own_map_self (i : ℕ) (s : σ) (es : List (Event R)) :
    own i (es.map fun x => (⟨i, s, x⟩ : Entry σ A R)) = es := by
  induction es with
  | nil => rfl
  | cons e es ih => simpa [own] using ih

/-- None of what another thread has logged is. -/
theorem own_map_of_ne {i j : ℕ} (h : j ≠ i) (s : σ) (es : List (Event R)) :
    own i (es.map fun x => (⟨j, s, x⟩ : Entry σ A R)) = [] := by
  rw [own, List.map_eq_nil_iff, List.filter_eq_nil_iff]
  intro x hx
  obtain ⟨e, -, rfl⟩ := List.mem_map.mp hx
  simpa using h

/-- The actions of a thread are those of its entries. -/
theorem mem_own {i : ℕ} {e : Event R} : e ∈ own i log ↔ ∃ x ∈ log, x.who = i ∧ x.event = e := by
  simp [own, and_assoc]

/-- A thread's part of the log splits where the log does. -/
theorem own_eq_append {i : ℕ} {h₁ h₂ : List (Event R)} (h : own i log = h₁ ++ h₂) :
    ∃ log₁ log₂, log = log₁ ++ log₂ ∧ own i log₁ = h₁ ∧ own i log₂ = h₂ := by
  obtain ⟨l₁, l₂, hfilter, rfl, rfl⟩ := List.map_eq_append_iff.mp h
  obtain ⟨log₁, log₂, rfl, rfl, rfl⟩ := List.filter_eq_append_iff.mp hfilter
  exact ⟨log₁, log₂, rfl, rfl, rfl⟩

/-- An action of a thread in the log. -/
theorem own_eq_append_cons {i : ℕ} {h₁ h₂ : List (Event R)} {e : Event R}
    (h : own i log = h₁ ++ e :: h₂) : ∃ log₁ x log₂, log = log₁ ++ x :: log₂ ∧ x.who = i ∧
      x.event = e ∧ own i log₁ = h₁ := by
  obtain ⟨l₁, l₂, hfilter, hmap, heq⟩ := List.map_eq_append_iff.mp h
  obtain ⟨x, l₃, rfl, hx, -⟩ := List.map_eq_cons_iff.mp heq
  obtain ⟨log₁, log₂, rfl, rfl, hcons⟩ := List.filter_eq_append_iff.mp hfilter
  obtain ⟨log₃, log₄, rfl, hother, hwho, -⟩ := List.filter_eq_cons_iff.mp hcons
  refine ⟨log₁ ++ log₃, x, log₄, by simp, by simpa using hwho, hx, ?_⟩
  rw [own_append, ← hmap, own, own, List.filter_eq_nil_iff.mpr hother, List.map_nil,
    List.append_nil]

/-! ## What holds along a path -/

/-- The thread that took a step, and the others. -/
theorem getElem?_set_cases {threads : List (Thread A R α)} {i j : ℕ} {u t t' : Thread A R α}
    (hu : threads[j]? = some u) (ht' : (threads.set j t)[i]? = some t') :
    (j = i ∧ t' = t) ∨ (j ≠ i ∧ threads[i]? = some t') := by
  by_cases hji : j = i
  · subst hji
    have hlt : j < threads.length := (List.getElem?_eq_some_iff.mp hu).1
    rw [List.getElem?_set_self hlt, Option.some.injEq] at ht'
    exact Or.inl ⟨rfl, ht'.symm⟩
  · rw [List.getElem?_set_ne hji] at ht'
    exact Or.inr ⟨hji, ht'⟩

theorem Path.length_threads (h : Path sem c log c') : c'.threads.length = c.threads.length := by
  induction h with
  | refl => rfl
  | step hpath ht hstep ih => simpa using ih

/-- Every entry of the log is by one of the threads. -/
theorem Path.who_lt (h : Path sem c log c') : ∀ x ∈ log, x.who < c.threads.length := by
  induction h with
  | refl => simp
  | step hpath ht hstep ih =>
      intro x hx
      rw [List.mem_append, List.mem_map] at hx
      obtain hx | ⟨e, -, rfl⟩ := hx
      · exact ih x hx
      · rw [← hpath.length_threads]
        exact (List.getElem?_eq_some_iff.mp ht).1

/-- The trace of a thread grows by its part of the log. -/
theorem Path.thread (h : Path sem c log c') {i : ℕ} {t : Thread A R α}
    (ht : c.threads[i]? = some t) :
    ∃ p, c'.threads[i]? = some ⟨t.trace ++ own i log, p⟩ := by
  induction h with
  | refl => exact ⟨t.prog, by simpa using ht⟩
  | @step log s s' threads j u e p hpath hu hstep ih =>
      obtain ⟨q, hq⟩ := ih
      dsimp only at hq ⊢
      rw [own_append]
      by_cases hji : j = i
      · subst hji
        rw [hu, Option.some.injEq] at hq
        have hlt : j < threads.length := (List.getElem?_eq_some_iff.mp hu).1
        refine ⟨p, ?_⟩
        rw [List.getElem?_set_self hlt, hq, own_map_self, List.append_assoc]
      · refine ⟨q, ?_⟩
        rw [List.getElem?_set_ne hji, hq, own_map_of_ne hji, List.append_nil]

/-- Every answer in the log is the one its state gives. -/
theorem Path.sound (h : Path sem c log c') :
    ∀ x ∈ log, x.event.2 = (sem x.event.1 x.before).1 := by
  induction h with
  | refl => simp
  | step hpath ht hstep ih =>
      intro x hx
      rw [List.mem_append, List.mem_map] at hx
      obtain hx | ⟨e, he, rfl⟩ := hx
      · exact ih x hx
      · exact hstep.sound.1 e (by simpa using he)

/-- An answer in the log tells of the state in which it was given. -/
theorem mem_own_iff (hsound : ∀ x ∈ log, x.event.2 = (sem x.event.1 x.before).1) {i : ℕ} {a : A}
    {r : R a} : (⟨a, r⟩ : Event R) ∈ own i log ↔
      ∃ x ∈ log, x.who = i ∧ x.event.1 = a ∧ (sem a x.before).1 = r := by
  rw [mem_own]
  refine exists_congr fun x => and_congr_right fun hx => and_congr_right fun _ => ?_
  obtain ⟨who, before, b, q⟩ := x
  obtain rfl : q = (sem b before).1 := hsound _ hx
  constructor
  · intro heq
    cases heq
    exact ⟨rfl, rfl⟩
  · intro h
    obtain ⟨rfl, rfl⟩ := h
    rfl

/-- A contract that a thread's program obeys is obeyed after every path. -/
theorem Path.obeys (h : Path sem c log c') {ok : List (Event R) → A → Prop}
    {Q : α → List (Event R) → Prop} {i : ℕ} {t t' : Thread A R α} (ht : c.threads[i]? = some t)
    (hobeys : Obeys ok Q t.trace t.prog) (ht' : c'.threads[i]? = some t') :
    Obeys ok Q t'.trace t'.prog := by
  induction h generalizing t' with
  | refl =>
      rw [ht, Option.some.injEq] at ht'
      exact ht' ▸ hobeys
  | @step log s s' threads j u e p hpath hu hstep ih =>
      obtain ⟨rfl, rfl⟩ | ⟨-, hother⟩ := getElem?_set_cases hu ht'
      · exact (obeys_step (ih hu) hstep).2
      · exact ih hother

/-- Where the log splits at an entry, the path has just come to the step of that thread. -/
theorem Path.split (h : Path sem c log c') {earlier later : List (Entry σ A R)}
    {x : Entry σ A R} (hlog : log = earlier ++ x :: later) :
    ∃ threads t p s', Path sem c earlier ⟨x.before, threads⟩ ∧ threads[x.who]? = some t ∧
      Step sem t.prog x.before (some x.event) p s' := by
  induction h generalizing earlier x later with
  | refl => simp at hlog
  | @step log s s' threads i t e p hpath ht hstep ih =>
      cases e with
      | none =>
          rw [Option.toList_none, List.map_nil, List.append_nil] at hlog
          exact ih hlog
      | some e =>
          rw [Option.toList_some, List.map_cons, List.map_nil] at hlog
          obtain rfl | ⟨later', y, rfl⟩ := List.eq_nil_or_concat later
          · obtain ⟨rfl, hentry⟩ := List.append_inj' hlog rfl
            rw [List.cons.injEq] at hentry
            obtain ⟨rfl, -⟩ := hentry
            exact ⟨threads, t, p, s', hpath, ht, hstep⟩
          · rw [List.concat_eq_append, ← List.cons_append, ← List.append_assoc] at hlog
            exact ih (List.append_inj' hlog rfl).1

/-- Each state in the log is reached by the entries before it. -/
theorem Path.before (h : Path sem c log c') {earlier later : List (Entry σ A R)}
    {x : Entry σ A R} (hlog : log = earlier ++ x :: later) :
    ∃ threads, Path sem c earlier ⟨x.before, threads⟩ := by
  obtain ⟨threads, _, _, _, hpath, -, -⟩ := h.split hlog
  exact ⟨threads, hpath⟩

/-- Every action of a thread whose program obeys a contract is permitted at the
point where it takes effect. -/
theorem Path.permitted (h : Path sem c log c') {ok : List (Event R) → A → Prop}
    {Q : α → List (Event R) → Prop} {i : ℕ} {t : Thread A R α} (ht : c.threads[i]? = some t)
    (hobeys : Obeys ok Q t.trace t.prog) {earlier later : List (Entry σ A R)} {x : Entry σ A R}
    (hlog : log = earlier ++ x :: later) (hx : x.who = i) :
    ok (t.trace ++ own i earlier) x.event.1 := by
  obtain ⟨threads, u, p, s', hpath, hu, hstep⟩ := h.split hlog
  rw [hx] at hu
  obtain ⟨q, hq⟩ := hpath.thread ht
  dsimp only at hq
  rw [hu, Option.some.injEq] at hq
  have hnow := hpath.obeys ht hobeys hu
  rw [hq] at hnow hstep
  exact (obeys_step hnow hstep).1 x.event rfl

/-- Fresh threads that all obey one contract keep to it in the whole log. -/
theorem Path.permitted_all (h : Path sem c log c') {ok : List (Event R) → A → Prop}
    {Q : α → List (Event R) → Prop}
    (hobeys : ∀ t ∈ c.threads, t.trace = [] ∧ Obeys ok Q [] t.prog)
    {earlier later : List (Entry σ A R)} {x : Entry σ A R} (hlog : log = earlier ++ x :: later) :
    ok (own x.who earlier) x.event.1 := by
  have hlt := h.who_lt x (by simp [hlog])
  obtain ⟨htrace, hprog⟩ := hobeys _ (List.getElem_mem hlt)
  have hpermitted := h.permitted (List.getElem?_eq_getElem hlt) (htrace ▸ hprog) hlog rfl
  rwa [htrace, List.nil_append] at hpermitted

/-- Every action in the log is one that the programs of the threads can perform. -/
theorem Path.performs (h : Path sem c log c') {P : A → Prop}
    (hstart : ∀ t ∈ c.threads, t.prog.Uses P) : ∀ x ∈ log, P x.event.1 := by
  intro x hx
  obtain ⟨earlier, later, hlog⟩ := List.append_of_mem hx
  obtain ⟨t, ht⟩ : ∃ t, c.threads[x.who]? = some t := ⟨_, List.getElem?_eq_getElem (h.who_lt x hx)⟩
  have hobeys : Obeys (fun _ a => P a) (fun _ _ => True) t.trace t.prog :=
    (hstart t (List.mem_of_getElem? ht)).obeys (I := fun _ => True) (fun _ _ _ ha => ha)
      (fun _ _ _ _ _ => trivial) trivial
  exact h.permitted ht hobeys hlog rfl

/-- **An invariant** of the log and the shared state, which each entry preserves. -/
theorem Path.invariant (h : Path sem c log c') {I : List (Entry σ A R) → σ → Prop}
    (hstart : I [] c.shared) (hkeep : ∀ earlier x later, log = earlier ++ x :: later →
      I earlier x.before → I (earlier ++ [x]) (sem x.event.1 x.before).2) : I log c'.shared := by
  induction h with
  | refl => exact hstart
  | @step log s s' threads i t e p hpath ht hstep ih =>
      have hnow := ih fun earlier x later heq =>
        hkeep earlier x _ (by rw [heq, List.append_assoc, List.cons_append])
      cases e with
      | none =>
          obtain rfl : s' = s := hstep.sound.2
          simpa using hnow
      | some e =>
          obtain rfl : s' = (sem e.1 s).2 := hstep.sound.2
          exact hkeep log ⟨i, s, e⟩ [] rfl hnow

/-- **An invariant of the shared state** that every action of the log keeps holds
whenever an action takes effect, and at the end. -/
theorem Path.keeps (h : Path sem c log c') {I : σ → Prop} (hstart : I c.shared)
    (hkeep : ∀ x ∈ log, I x.before → I (sem x.event.1 x.before).2) :
    (∀ x ∈ log, I x.before) ∧ I c'.shared := by
  refine h.invariant (I := fun log s => (∀ x ∈ log, I x.before) ∧ I s) ⟨by simp, hstart⟩ ?_
  intro earlier x later hlog hnow
  refine ⟨?_, hkeep x (by simp [hlog]) hnow.2⟩
  simpa [or_imp, forall_and] using hnow

/-- The trace of a thread that has returned. -/
theorem Path.returns (h : Path sem c log c') {i : ℕ} {t t' : Thread A R α}
    (ht : c.threads[i]? = some t) (ht' : c'.threads[i]? = some t') {h' : List (Event R)} {x : α}
    (hx : Returns t'.prog h' x) : Returns t.prog (own i log ++ h') x := by
  induction h generalizing t' h' with
  | refl =>
      rw [ht, Option.some.injEq] at ht'
      exact ht' ▸ hx
  | @step log s s' threads j u e p hpath hu hstep ih =>
      rw [own_append, List.append_assoc]
      obtain ⟨rfl, rfl⟩ | ⟨hji, hother⟩ := getElem?_set_cases hu ht'
      · rw [own_map_self]
        exact ih hu (hstep.returns hx)
      · rw [own_map_of_ne hji, List.nil_append]
        exact ih hother hx

/-- What a thread has established of its log when it has returned. -/
theorem Path.finished (h : Path sem c log c') {ok : List (Event R) → A → Prop}
    {Q : α → List (Event R) → Prop} {i : ℕ} {p : Prog A R α}
    (ht : c.threads[i]? = some (.start p)) (hobeys : Obeys ok Q [] p) {t' : Thread A R α}
    (ht' : c'.threads[i]? = some t') {x : α} (hret : t'.prog = .ret x) : Q x (own i log) := by
  have hx : Returns p (own i log ++ []) x := h.returns ht ht' (hret ▸ .ret x)
  rw [List.append_nil] at hx
  exact hobeys.returns hx

/-! ## The threads that performed an action -/

section
variable (p : A → Bool)

/-- The threads that performed an action of some kind, in order. -/
def doers (log : List (Entry σ A R)) : List ℕ := (log.filter (p ·.event.1)).map (·.who)

@[simp] theorem doers_nil : doers p ([] : List (Entry σ A R)) = [] := rfl

@[simp] theorem doers_append (log later : List (Entry σ A R)) :
    doers p (log ++ later) = doers p log ++ doers p later := by
  simp [doers]

@[simp] theorem doers_cons (x : Entry σ A R) (log : List (Entry σ A R)) :
    doers p (x :: log) = if p x.event.1 then x.who :: doers p log else doers p log := by
  cases hx : p x.event.1 <;> simp [doers, hx]

/-- A thread does what is in its trace. -/
theorem mem_doers {i : ℕ} : i ∈ doers p log ↔ ∃ e ∈ own i log, p e.1 := by
  simp only [doers, mem_own, List.mem_map, List.mem_filter]
  constructor
  · rintro ⟨x, ⟨hx, hp⟩, rfl⟩
    exact ⟨x.event, ⟨x, hx, rfl, rfl⟩, hp⟩
  · rintro ⟨_, ⟨x, hx, rfl, rfl⟩, hp⟩
    exact ⟨x, ⟨hx, hp⟩, rfl⟩

/-- The threads that perform an action of kind `p` are among those that have performed one of
kind `q`. -/
theorem doers_subset {q : A → Bool} (hfirst : ∀ earlier x later, log = earlier ++ x :: later →
    p x.event.1 = true → ∃ e ∈ own x.who earlier, q e.1 = true) : doers p log ⊆ doers q log := by
  intro i hi
  obtain ⟨e, he, hp⟩ := (mem_doers p).mp hi
  obtain ⟨x, hx, rfl, rfl⟩ := mem_own.mp he
  obtain ⟨earlier, later, hlog⟩ := List.append_of_mem hx
  have hdoer := (mem_doers q).mpr (hfirst earlier x later hlog hp)
  simp [hlog, hdoer]

/-- The number of actions of a kind, where none of them is performed once there are `n`. -/
theorem length_doers_le {n : ℕ} {later : List (Entry σ A R)} (hlog : (doers p log).length ≤ n)
    (hkeep : ∀ earlier x rest, later = earlier ++ x :: rest → p x.event.1 = true →
      (doers p (log ++ earlier)).length < n) : (doers p (log ++ later)).length ≤ n := by
  induction later using List.reverseRecOn with
  | nil => simpa using hlog
  | append_singleton later x ih =>
      rw [← List.append_assoc, doers_append, doers_cons, doers_nil]
      split
      · next hx =>
          have hlt := hkeep later x [] rfl hx
          rw [List.length_append, List.length_singleton]
          exact hlt
      · rw [List.append_nil]
        exact ih fun earlier y rest heq => hkeep earlier y (rest ++ [x]) (by simp [heq])

/-- Threads that each perform the action at most once. -/
theorem nodup_doers (honce : ∀ earlier x later, log = earlier ++ x :: later →
    p x.event.1 = true → ∀ e ∈ own x.who earlier, p e.1 = false) : (doers p log).Nodup := by
  induction log using List.reverseRecOn with
  | nil => exact List.nodup_nil
  | append_singleton log x ih =>
      have hlog : (doers p log).Nodup := ih fun earlier y later heq =>
        honce earlier y (later ++ [x]) (by rw [heq, List.append_assoc, List.cons_append])
      rw [doers_append, doers_cons, doers_nil]
      split
      · next hx =>
          refine List.nodup_append.mpr ⟨hlog, by simp, fun i hi j hj hij => ?_⟩
          rw [List.mem_singleton] at hj
          obtain ⟨e, he, hpe⟩ := (mem_doers p).mp (hij.trans hj ▸ hi)
          rw [honce log x [] rfl hx e he] at hpe
          contradiction
      · simpa using hlog

/-- **A counter** to which the actions of one kind add one counts these actions. -/
theorem Path.counts (h : Path sem c log c') {f : σ → UInt64}
    (hstep : ∀ earlier x later, log = earlier ++ x :: later →
      f (sem x.event.1 x.before).2 = f x.before + if p x.event.1 then 1 else 0) :
    f c'.shared = f c.shared + UInt64.ofNat (doers p log).length := by
  refine h.invariant (I := fun log s => f s = f c.shared + UInt64.ofNat (doers p log).length)
    (by simp) ?_
  intro earlier x later hlog hnow
  rw [hstep earlier x later hlog, hnow, doers_append, doers_cons, doers_nil]
  split
  · rw [List.length_append, List.length_singleton, UInt64.ofNat_add, UInt64.add_assoc]
    rfl
  · simp

end

/-! ## A run without interference -/

/-- A thread that runs while the others stand still extends a path. -/
theorem Path.replays {h : List (Event R)} {p : Prog A R α} {s s' : σ} {x : α} (hx : Returns p h x)
    (hs : Replays sem s h s') {threads : List (Thread A R α)} (hpath : Path sem c log ⟨s, threads⟩)
    {i : ℕ} {trace : List (Event R)} (ht : threads[i]? = some ⟨trace, p⟩) :
    ∃ log', Path sem c log' ⟨s', threads.set i ⟨trace ++ h, .ret x⟩⟩ := by
  have hlt : i < threads.length := (List.getElem?_eq_some_iff.mp ht).1
  have hself (t : Thread A R α) : (threads.set i t)[i]? = some t := List.getElem?_set_self hlt
  induction hx generalizing log s trace threads with
  | ret x =>
      cases hs
      rw [List.append_nil, ← (List.getElem?_eq_some_iff.mp ht).2, List.set_getElem_self]
      exact ⟨log, hpath⟩
  | act hrest ih =>
      cases hs with
      | cons hs =>
          obtain ⟨log', hpath'⟩ := ih hs (hpath.step ht (.act _ _ s)) (hself _)
            (by simpa using hlt) fun t => by simpa using hself t
          exact ⟨log', by rwa [List.set_set, List.append_assoc] at hpath'⟩
  | loop hrest ih =>
      obtain ⟨log', hpath'⟩ := ih hs (hpath.step ht (.loop _ _ s)) (hself _)
        (by simpa using hlt) fun t => by simpa using hself t
      exact ⟨log', by rwa [List.set_set, Option.toList_none, List.append_nil] at hpath'⟩

/-- **A run without interference is an interleaving**: of a system at rest, in
which only the one thread moves. -/
theorem Path.exec {n : ℕ} {p : Prog A R α} {s s' : σ} {x : α} (h : exec sem n p s = some (x, s'))
    {threads : List (Thread A R α)} (hpath : Path sem c log ⟨s, threads⟩) {i : ℕ}
    {trace : List (Event R)} (ht : threads[i]? = some ⟨trace, p⟩) :
    ∃ log' trace', Path sem c log' ⟨s', threads.set i ⟨trace', .ret x⟩⟩ := by
  obtain ⟨h', hreturns, hreplays⟩ := returns_of_exec h
  obtain ⟨log', hpath'⟩ := Path.replays hreturns hreplays hpath ht
  exact ⟨log', trace ++ h', hpath'⟩

/-! ## The run of a schedule -/

/-- One step of thread `i`, which has not returned, and what it adds to the log. -/
def Config.next (sem : (a : A) → σ → R a × σ) (c : Config σ A R α) (i : ℕ) :
    Option (List (Entry σ A R) × Config σ A R α) :=
  match c.threads[i]? with
  | none => none
  | some t =>
      match t.prog with
      | .ret _ => none
      | .act a k =>
          let r := sem a c.shared
          some ([⟨i, c.shared, ⟨a, r.1⟩⟩],
            ⟨r.2, c.threads.set i ⟨t.trace ++ [⟨a, r.1⟩], k r.1⟩⟩)
      | .loop body k =>
          some ([], ⟨c.shared, c.threads.set i ⟨t.trace, body.bind (unroll body k)⟩⟩)

/-- The steps of the threads of a schedule, in order. -/
def Config.scheduled (sem : (a : A) → σ → R a × σ) :
    Config σ A R α → List ℕ → Option (List (Entry σ A R) × Config σ A R α)
  | c, [] => some ([], c)
  | c, i :: schedule =>
      (c.next sem i).bind fun now =>
        (now.2.scheduled sem schedule).map fun later => (now.1 ++ later.1, later.2)

/-- A step of thread `i` extends a path. -/
theorem Path.next {c₁ c₂ : Config σ A R α} (hpath : Path sem c log c₁) {i : ℕ}
    {es : List (Entry σ A R)} (h : c₁.next sem i = some (es, c₂)) :
    Path sem c (log ++ es) c₂ := by
  obtain ⟨s, threads⟩ := c₁
  unfold Config.next at h
  split at h
  · contradiction
  · next t ht =>
      obtain ⟨trace, prog⟩ := t
      cases prog with
      | ret x => contradiction
      | act a k =>
          cases h
          exact hpath.step ht (.act a k s)
      | loop body k =>
          cases h
          simpa using hpath.step ht (.loop body k s)

/-- **The run of a schedule is an interleaving.** -/
theorem Path.scheduled {c₁ c₂ : Config σ A R α} (hpath : Path sem c log c₁) {schedule : List ℕ}
    {later : List (Entry σ A R)} (h : c₁.scheduled sem schedule = some (later, c₂)) :
    Path sem c (log ++ later) c₂ := by
  induction schedule generalizing log c₁ later with
  | nil =>
      cases h
      simpa using hpath
  | cons i schedule ih =>
      simp only [Config.scheduled, Option.bind_eq_some_iff, Option.map_eq_some_iff] at h
      obtain ⟨⟨es, c₃⟩, hnow, ⟨rest, c₄⟩, hlater, heq⟩ := h
      obtain ⟨rfl, rfl⟩ := Prod.mk.inj heq
      rw [← List.append_assoc]
      exact ih (hpath.next hnow) hlater

/-- The run of a schedule is a path. -/
theorem Path.of_scheduled {schedule : List ℕ} (h : c.scheduled sem schedule = some (log, c')) :
    Path sem c log c' := Path.scheduled .refl h

/-- The run of a schedule, by what is computed from its log and its end. -/
theorem Path.exists_of_scheduled (schedule : List ℕ)
    (f : List (Entry σ A R) × Config σ A R α → β) {y : β}
    (h : (c.scheduled sem schedule).map f = some y) :
    ∃ log c', Path sem c log c' ∧ f (log, c') = y := by
  obtain ⟨⟨log, c'⟩, hrun, hf⟩ := Option.map_eq_some_iff.mp h
  exact ⟨log, c', Path.of_scheduled hrun, hf⟩

/-- A step of another thread leaves a thread where it is. -/
theorem Config.next_of_ne {i j : ℕ} {es : List (Entry σ A R)} (h : c.next sem i = some (es, c'))
    (hij : i ≠ j) : c'.threads[j]? = c.threads[j]? := by
  unfold Config.next at h
  split at h
  · contradiction
  · next t ht =>
      split at h
      · contradiction
      · cases h
        exact List.getElem?_set_ne hij
      · cases h
        exact List.getElem?_set_ne hij

/-- A thread that is not scheduled stays where it is. -/
theorem Config.scheduled_of_not_mem {schedule : List ℕ}
    (h : c.scheduled sem schedule = some (log, c')) {j : ℕ} (hj : j ∉ schedule) :
    c'.threads[j]? = c.threads[j]? := by
  induction schedule generalizing c log with
  | nil =>
      cases h
      rfl
  | cons i schedule ih =>
      simp only [Config.scheduled, Option.bind_eq_some_iff, Option.map_eq_some_iff] at h
      obtain ⟨⟨es, c₁⟩, hnow, ⟨later, c₂⟩, hlater, heq⟩ := h
      obtain ⟨rfl, rfl⟩ := Prod.mk.inj heq
      rw [List.mem_cons, not_or] at hj
      rw [ih hlater hj.2, Config.next_of_ne hnow (Ne.symm hj.1)]

/-- What thread `i` has returned. -/
def Config.result (c : Config σ A R α) (i : ℕ) : Option α :=
  match c.threads[i]? with
  | some ⟨_, .ret x⟩ => some x
  | _ => none

/-- A thread with a result has returned it. -/
theorem Config.result_eq_some_iff {i : ℕ} {x : α} :
    c.result i = some x ↔ ∃ trace, c.threads[i]? = some ⟨trace, .ret x⟩ := by
  unfold Config.result
  split
  · next trace y hthread => simp [hthread]
  · next hnone =>
      simp only [reduceCtorEq, false_iff]
      rintro ⟨trace, hthread⟩
      exact hnone trace x hthread

/-- The thread has returned. -/
def Thread.returned (t : Thread A R α) : Bool :=
  match t.prog with
  | .ret _ => true
  | _ => false

/-- A thread has returned when its program has come to a result. -/
theorem Thread.returned_iff {t : Thread A R α} : t.returned = true ↔ ∃ x, t.prog = .ret x := by
  unfold Thread.returned
  cases t.prog <;> simp

/-- A thread with its program. -/
theorem Config.exists_trace {i : ℕ} {p : Prog A R α}
    (h : c.threads[i]?.map (·.prog) = some p) : ∃ trace, c.threads[i]? = some ⟨trace, p⟩ := by
  obtain ⟨⟨trace, prog⟩, hthread, rfl⟩ := Option.map_eq_some_iff.mp h
  exact ⟨trace, hthread⟩

end Interleave
