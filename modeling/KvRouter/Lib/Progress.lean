import KvRouter.Lib.Interleave
import KvRouter.Lib.Sorting
import Mathlib.Algebra.BigOperators.Fin
import Mathlib.Algebra.Order.BigOperators.Group.Finset

/-!
# Runs that end

Bounds on the length of a run, for programs whose loops can lose races.

* `Costs` — a program performs at most `n` actions beyond those that a lost race
  gives it credit for, with a rule for each program form;
* `lost_le_moves` — each race that a thread loses is a move of another thread;
* `length_filter_log_le` — the actions of a log, from those of each thread;
* `length_scheduled` — steps that perform no action are at most as many as the
  others, and one for each thread;
* `Path.exists_schedule` — every run is that of a schedule.
-/

namespace Prog

variable {A : Type} {R : A → Type} {α β γ σ : Type}

/-- A contract that permits more. -/
theorem Obeys.permits {ok ok' : List (Event R) → A → Prop} {Q : α → List (Event R) → Prop}
    {h : List (Event R)} {p : Prog A R α} (hp : Obeys ok Q h p)
    (hok : ∀ h a, ok h a → ok' h a) : Obeys ok' Q h p := by
  induction p generalizing h with
  | ret x => exact hp
  | act a k ih => exact ⟨hok h a hp.1, fun r => ih r (hp.2 r)⟩
  | loop body k ihbody ihk =>
      obtain ⟨I, hI, hbody⟩ := hp
      refine ⟨I, hI, fun h' hh' => (ihbody (hbody h' hh')).mono fun o h'' ho => ?_⟩
      cases o with
      | none => exact ho
      | some b => exact ihk b ho

/-! ## Costs -/

section
variable (credit : Event R → ℕ)

/-- The credits of a trace. -/
def credits (h : List (Event R)) : ℕ := (h.map credit).sum

@[simp] theorem credits_concat (h : List (Event R)) (e : Event R) :
    credits credit (h ++ [e]) = credits credit h + credit e := by
  simp [credits]

/-- A program that performs at most `n` actions beyond its credits, and returns with `Q`. -/
def Costs (n : ℕ) (Q : α → Prop) (p : Prog A R α) : Prop :=
  ∀ (b : ℕ) (h : List (Event R)), h.length ≤ b + credits credit h →
    Obeys (fun h' _ => h'.length < b + n + credits credit h')
      (fun x h' => Q x ∧ h'.length ≤ b + n + credits credit h') h p

variable {credit} {m n : ℕ} {Q Q' : α → Prop}

/-- A larger bound is a bound. -/
theorem Costs.mono {p : Prog A R α} (hp : Costs credit m Q p) (hn : m ≤ n) (hQ : ∀ x, Q x → Q' x) :
    Costs credit n Q' p := by
  obtain ⟨k, rfl⟩ := Nat.exists_eq_add_of_le hn
  intro b h hh
  rw [Nat.add_comm m k, ← Nat.add_assoc]
  exact (hp (b + k) h (by omega)).mono fun x h' hx => ⟨hQ x hx.1, hx.2⟩

theorem costs_ret {x : α} (hQ : Q x) : Costs credit 0 Q (.ret x : Prog A R α) :=
  fun _ _ hh => ⟨hQ, hh⟩

theorem costs_return {x : α} (hQ : Q x) : Costs credit n Q (.ret x : Prog A R α) :=
  (costs_ret hQ).mono (Nat.zero_le n) fun _ h => h

/-- An action costs one. -/
theorem costs_act {a : A} {k : R a → Prog A R α} (hk : ∀ r, Costs credit n Q (k r)) :
    Costs credit (n + 1) Q (.act a k) := by
  refine fun b h hh => ⟨by omega, fun r => ?_⟩
  rw [Nat.add_comm n 1, ← Nat.add_assoc]
  refine hk r (b + 1) _ ?_
  rw [List.length_append, List.length_singleton, credits_concat]
  omega

/-- The costs of programs one after another add up. -/
theorem Costs.bind {P : β → Prop} {p : Prog A R β} {f : β → Prog A R α} (hp : Costs credit m P p)
    (hf : ∀ x, P x → Costs credit n Q (f x)) : Costs credit (m + n) Q (p.bind f) := by
  intro b h hh
  have hfirst : Obeys (fun h' _ => h'.length < b + (m + n) + credits credit h')
      (fun x h' => P x ∧ h'.length ≤ b + m + credits credit h') h p :=
    (hp b h hh).permits fun h' _ hlt => by omega
  refine Obeys.bind (hfirst.mono fun x h' hx => ?_)
  rw [← Nat.add_assoc]
  exact hf x hx.1 (b + m) h' hx.2

/-- The rule for a loop whose rounds that do not end it are paid for by their credits. -/
theorem costs_untilSome {body : Prog A R (Option α)} (hbody : ∀ (b : ℕ) (h : List (Event R)),
    h.length ≤ b + credits credit h → Obeys (fun h' _ => h'.length < b + n + credits credit h')
      (fun o h' => match o with
        | none => h'.length ≤ b + credits credit h'
        | some x => Q x ∧ h'.length ≤ b + n + credits credit h') h body) :
    Costs credit n Q (untilSome body) := by
  intro b h hh
  refine obeys_untilSome (fun h' => h'.length ≤ b + credits credit h') hh fun h' hh' => ?_
  refine (hbody b h' hh').mono fun o h'' ho => ?_
  cases o with
  | none => exact ho
  | some x => exact ho

end

/-! ## Steps without an action -/

/-- The next step performs an action. -/
def acts : Prog A R α → Bool
  | .act _ _ => true
  | _ => false

/-- Every round of every loop begins with an action. -/
def Guarded {α : Type} : Prog A R α → Prop
  | .ret _ => True
  | .act _ k => ∀ r, Guarded (k r)
  | .loop body k => body.acts = true ∧ Guarded body ∧ ∀ b, Guarded (k b)

/-- What begins with an action does so with more after it. -/
theorem acts_bind {p : Prog A R β} (hp : p.acts = true) (f : β → Prog A R α) :
    (p.bind f).acts = true := by
  cases p with
  | act a k => rfl
  | _ => contradiction

/-- Programs one after another do not spin if their parts do not. -/
theorem Guarded.bind {p : Prog A R β} {f : β → Prog A R α} (hp : p.Guarded)
    (hf : ∀ x, (f x).Guarded) : (p.bind f).Guarded := by
  induction p with
  | ret x => exact hf x
  | act a k ih => exact fun r => ih r (hp r) hf
  | loop body k _ ih => exact ⟨hp.1, hp.2.1, fun b => ih b (hp.2.2 b) hf⟩

/-- Nor does a condition whose branches do not. -/
theorem guarded_ite {c : Prop} [Decidable c] {p q : Prog A R α} (hp : p.Guarded)
    (hq : q.Guarded) : (if c then p else q).Guarded := by
  split
  · exact hp
  · exact hq

/-- A guarded program after a step; a step without an action is followed by one with an action. -/
theorem Guarded.step {sem : (a : A) → σ → R a × σ} {p p' : Prog A R α} {s s' : σ}
    {e : Option (Event R)} (hp : p.Guarded) (h : Step sem p s e p' s') :
    p'.Guarded ∧ (e = none → p.acts = false ∧ p'.acts = true) := by
  cases h with
  | act a k s => exact ⟨hp _, by simp⟩
  | loop body k s =>
      obtain ⟨hacts, hbody, hk⟩ := hp
      refine ⟨hbody.bind fun o => ?_, fun _ => ⟨rfl, acts_bind hacts _⟩⟩
      cases o with
      | none => exact ⟨hacts, hbody, hk⟩
      | some b => exact hk b

end Prog

namespace Interleave

open Prog

variable {A : Type} {R : A → Type} {α σ : Type} {sem : (a : A) → σ → R a × σ}
  {c c' : Config σ A R α} {log : List (Entry σ A R)}

/-! ## The actions of a log -/

/-- Kinds of which each element of a list has at most one. -/
theorem sum_countP_le {κ ι : Type} (p : κ → ι → Bool) {ks : List κ} {l : List ι}
    (hone : ∀ i ∈ l, ks.Pairwise fun k k' => ¬(p k i = true ∧ p k' i = true)) :
    (ks.map fun k => l.countP (p k)).sum ≤ l.length := by
  induction ks generalizing l with
  | nil => exact Nat.zero_le _
  | cons k ks ih =>
      let rest := l.filter fun i => !p k i
      have hrest : ∀ k' ∈ ks, l.countP (p k') = rest.countP (p k') := fun k' hk' => by
        rw [List.countP_filter]
        refine List.countP_congr fun i hi => ?_
        have hne := (List.pairwise_cons.mp (hone i hi)).1 k' hk'
        cases hk : p k i <;> simp_all
      have hsum := ih (l := rest) fun i hi =>
        (List.pairwise_cons.mp (hone i (List.mem_of_mem_filter hi))).2
      have hlength : l.countP (p k) + rest.length = l.length := by
        rw [← List.countP_eq_length_filter, List.length_eq_countP_add_countP (p k)]
        simp
      rw [List.map_cons, List.sum_cons, List.map_congr_left hrest]
      omega

/-- Fresh threads have left their parts of the log. -/
theorem Path.traces (h : Path sem c log c') (hfresh : ∀ t ∈ c.threads, t.trace = []) :
    c'.threads.map (·.trace) = (List.range c.threads.length).map (own · log) := by
  refine List.ext_getElem? fun i => ?_
  rw [List.getElem?_map, List.getElem?_map]
  by_cases hi : i < c.threads.length
  · obtain ⟨p, hp⟩ := h.thread (List.getElem?_eq_getElem hi)
    simp [hp, hi, hfresh _ (List.getElem_mem hi)]
  · simp [Nat.le_of_not_lt hi, h.length_threads]

/-- A log is made of the actions of its threads. -/
theorem perm_own {n : ℕ} (hlog : ∀ x ∈ log, x.who < n) :
    ((List.range n).flatMap (own · log)).Perm (log.map (·.event)) := by
  have hperm : ((List.range n).flatMap fun i => log.filter (·.who = i)).Perm log :=
    Sorting.perm_flatMap_filter List.nodup_range fun x hx => List.mem_range.mpr (hlog x hx)
  have hmap := hperm.map (·.event)
  rwa [List.map_flatMap] at hmap

/-- A log is made of the traces that fresh threads have left. -/
theorem Path.perm_traces (h : Path sem c log c') (hfresh : ∀ t ∈ c.threads, t.trace = []) :
    (c'.threads.flatMap (·.trace)).Perm (log.map (·.event)) := by
  rw [List.flatMap_def, h.traces hfresh, ← List.flatMap_def]
  exact perm_own h.who_lt

/-- A bound on a sum over a log, from one for each thread. -/
theorem sum_log_le (f : Event R → ℕ) {bounds : List ℕ} (hlog : ∀ x ∈ log, x.who < bounds.length)
    (hown : ∀ (i : ℕ) (hi : i < bounds.length), ((own i log).map f).sum ≤ bounds[i]) :
    ((log.map (·.event)).map f).sum ≤ bounds.sum := by
  have hbounds : bounds = (List.range bounds.length).map fun i => bounds.getD i 0 := by
    refine List.ext_getElem (by simp) fun i hi _ => ?_
    simp [hi]
  have hthread : ∀ i ∈ List.range bounds.length, ((own i log).map f).sum ≤ bounds.getD i 0 := by
    intro i hi
    have hlt := List.mem_range.mp hi
    simpa [hlt] using hown i hlt
  calc ((log.map (·.event)).map f).sum
      = (((List.range bounds.length).flatMap (own · log)).map f).sum :=
        (((perm_own hlog).map f).sum_eq).symm
    _ = ((List.range bounds.length).map fun i => ((own i log).map f).sum).sum := by
        rw [List.map_flatMap, List.flatMap_def, List.sum_flatten, List.map_map]
        rfl
    _ ≤ ((List.range bounds.length).map fun i => bounds.getD i 0).sum := List.sum_le_sum hthread
    _ = bounds.sum := by rw [← hbounds]

/-- A thread stays within what its program costs. -/
theorem Path.costs (h : Path sem c log c') {credit : Event R → ℕ} {n : ℕ} {Q : α → Prop} {i : ℕ}
    {p : Prog A R α} (ht : c.threads[i]? = some (.start p)) (hp : Costs credit n Q p) :
    (own i log).length ≤ n + credits credit (own i log) := by
  obtain hnil | ⟨h', e, hown⟩ := List.eq_nil_or_concat (own i log)
  · simp [hnil]
  · rw [List.concat_eq_append] at hown
    obtain ⟨earlier, x, later, hlog, hwho, -, hearlier⟩ := own_eq_append_cons hown
    have hpermitted := h.permitted ht (hp 0 [] (by simp)) hlog hwho
    rw [hown, List.length_append, List.length_singleton, credits_concat]
    simp only [Thread.start, List.nil_append, hearlier, Nat.zero_add] at hpermitted
    omega

/-- The actions of a kind in a log, thread by thread. -/
theorem length_filter_log (q : Event R → Bool) {n : ℕ} (hlog : ∀ x ∈ log, x.who < n) :
    (log.filter (q ·.event)).length = ∑ i ∈ Finset.range n, ((own i log).filter q).length := by
  induction log with
  | nil => simp
  | cons x log ih =>
      obtain ⟨hx, hrest⟩ := List.forall_mem_cons.mp hlog
      have hown (i : ℕ) : ((own i (x :: log)).filter q).length =
          (if x.who = i then if q x.event then 1 else 0 else 0) +
            ((own i log).filter q).length := by
        by_cases hi : x.who = i <;> cases hq : q x.event <;> simp [own, hi, hq, Nat.add_comm]
      have hhere : (if x.who ∈ Finset.range n then if q x.event then 1 else 0 else 0) =
          if q x.event then 1 else 0 := if_pos (Finset.mem_range.mpr hx)
      simp only [hown, Finset.sum_add_distrib, Finset.sum_ite_eq, hhere, ← ih hrest]
      cases hq : q x.event <;> simp [hq, Nat.add_comm]

/-- A bound on the actions of a log from one for each thread: those of `first`, and `d` for each
of the others. -/
theorem length_filter_log_le (q : Event R → Bool) (first : List ℕ) {m d : ℕ}
    (hlog : ∀ x ∈ log, x.who < first.length + m)
    (hown : ∀ i, ((own i log).filter q).length ≤ first.getD i d) :
    (log.filter (q ·.event)).length ≤ first.sum + m * d := by
  have hfirst : ∑ i ∈ Finset.range first.length, first.getD i d = first.sum := by
    rw [Finset.sum_range, ← Fin.sum_univ_getElem]
    simp
  calc (log.filter (q ·.event)).length
      = ∑ i ∈ Finset.range (first.length + m), ((own i log).filter q).length :=
        length_filter_log q hlog
    _ ≤ ∑ i ∈ Finset.range (first.length + m), first.getD i d :=
        Finset.sum_le_sum fun i _ => hown i
    _ = first.sum + m * d := by
        rw [Finset.sum_range_add, hfirst]
        simp

/-! ## Races -/

section
variable {ι V : Type} (val : σ → ι → V) (read lost : Event R → Option (ι × V))
  (moves : Event R → Bool)

/-- **Each race that a thread loses is a move of another thread**: it reads a value, and the value
is another one when it acts on what it has read. -/
theorem Path.lost_le_moves (h : Path sem c log c') {i : ℕ}
    (hread : ∀ a s x v, read ⟨a, (sem a s).1⟩ = some (x, v) → val s x = v)
    (hlost : ∀ a s x v, lost ⟨a, (sem a s).1⟩ = some (x, v) → val s x ≠ v)
    (hstill : ∀ a s, moves ⟨a, (sem a s).1⟩ = false → val (sem a s).2 = val s)
    (hlast : ∀ earlier y later, log = earlier ++ y :: later → y.who = i →
      ∀ r, lost y.event = some r → ∃ h' e, own i earlier = h' ++ [e] ∧ read e = some r) :
    ((own i log).filter fun e => (lost e).isSome).length ≤ (log.filter (moves ·.event)).length := by
  let losses (log : List (Entry σ A R)) := ((own i log).filter fun e => (lost e).isSome).length
  let moved (log : List (Entry σ A R)) := (log.filter (moves ·.event)).length
  -- a thread that has read a value which has changed since has a move to spare
  have hinv : losses log ≤ moved log ∧ ∀ h' e x v, own i log = h' ++ [e] → read e = some (x, v) →
      val c'.shared x ≠ v → losses log + 1 ≤ moved log := by
    refine h.invariant (I := fun log s => losses log ≤ moved log ∧ ∀ h' e x v,
      own i log = h' ++ [e] → read e = some (x, v) → val s x ≠ v → losses log + 1 ≤ moved log)
      ⟨by simp [losses], by simp⟩ ?_
    intro earlier y later hlog hnow
    obtain ⟨hle, hspare⟩ := hnow
    obtain ⟨who, s, a, r⟩ := y
    obtain rfl : r = (sem a s).1 := h.sound ⟨who, s, a, r⟩ (by simp [hlog])
    have hmoved : moved (earlier ++ [⟨who, s, a, (sem a s).1⟩]) =
        moved earlier + if moves ⟨a, (sem a s).1⟩ then 1 else 0 := by
      cases hm : moves ⟨a, (sem a s).1⟩ <;> simp [moved, hm]
    have hchanged (x : ι) (v : V) (hv : val s x = v) (hne : val (sem a s).2 x ≠ v) :
        moves ⟨a, (sem a s).1⟩ = true := by
      by_contra hm
      rw [hstill a s (by simpa using hm)] at hne
      exact hne hv
    dsimp only
    by_cases hwho : who = i
    · subst hwho
      have hown : own who (earlier ++ [⟨who, s, a, (sem a s).1⟩]) =
          own who earlier ++ [⟨a, (sem a s).1⟩] := by simp [own]
      have hlosses : losses (earlier ++ [⟨who, s, a, (sem a s).1⟩]) ≤ moved earlier := by
        show ((own who _).filter _).length ≤ _
        rw [hown]
        cases hl : lost ⟨a, (sem a s).1⟩ with
        | none => simpa [hl] using hle
        | some p =>
            obtain ⟨x, v⟩ := p
            obtain ⟨h', e, hsplit, he⟩ := hlast _ _ _ hlog rfl _ hl
            have hlt := hspare h' e x v hsplit he (hlost a s x v hl)
            simpa [hl] using hlt
      refine ⟨by omega, fun h' e x v hsplit he hne => ?_⟩
      rw [hown] at hsplit
      obtain ⟨-, hlasts⟩ := List.append_inj' hsplit rfl
      obtain rfl : (⟨a, (sem a s).1⟩ : Event R) = e := by simpa using hlasts
      rw [hmoved, hchanged x v (hread a s x v he) hne]
      simpa using hlosses
    · have hown : own i (earlier ++ [⟨who, s, a, (sem a s).1⟩]) = own i earlier := by
        simp [own, hwho]
      have hlosses : losses (earlier ++ [⟨who, s, a, (sem a s).1⟩]) = losses earlier := by
        show ((own i _).filter _).length = _
        rw [hown]
      refine ⟨by omega, fun h' e x v hsplit he hne => ?_⟩
      rw [hown] at hsplit
      rw [hlosses, hmoved]
      by_cases hv : val s x = v
      · rw [hchanged x v hv hne]
        simpa using hle
      · have hlt := hspare h' e x v hsplit he hv
        omega
  exact hinv.1

end

/-! ## Steps and actions -/

/-- The threads whose next step performs no action. -/
def Config.idle (c : Config σ A R α) : ℕ := c.threads.countP fun t => !t.prog.acts

/-- A thread replaced. -/
theorem idle_set {threads : List (Thread A R α)} {i : ℕ} {t : Thread A R α}
    (ht : threads[i]? = some t) (t' : Thread A R α) (s s' : σ) :
    (⟨s', threads.set i t'⟩ : Config σ A R α).idle + (if (!t.prog.acts) = true then 1 else 0) =
      (⟨s, threads⟩ : Config σ A R α).idle + if (!t'.prog.acts) = true then 1 else 0 := by
  obtain ⟨hlt, rfl⟩ := List.getElem?_eq_some_iff.mp ht
  have hle := List.boole_getElem_le_countP (p := fun t => !t.prog.acts) hlt
  have hset := List.countP_set (p := fun t => !t.prog.acts) (a := t') hlt
  unfold Config.idle
  dsimp only
  rw [hset]
  split_ifs at hle ⊢ <;> omega

/-- One step of a schedule. -/
theorem idle_next {i : ℕ} {es : List (Entry σ A R)} (hc : ∀ t ∈ c.threads, t.prog.Guarded)
    (h : c.next sem i = some (es, c')) :
    (∀ t ∈ c'.threads, t.prog.Guarded) ∧ 1 + c'.idle ≤ 2 * es.length + c.idle := by
  obtain ⟨s, threads⟩ := c
  unfold Config.next at h
  split at h
  · contradiction
  · next t ht =>
      obtain ⟨trace, prog⟩ := t
      have hguarded : prog.Guarded := hc _ (List.mem_of_getElem? ht)
      have hothers {t' : Thread A R α} (ht' : t'.prog.Guarded) :
          ∀ u ∈ threads.set i t', u.prog.Guarded := by
        intro u hu
        obtain hu | rfl := List.mem_or_eq_of_mem_set hu
        · exact hc u hu
        · exact ht'
      cases prog with
      | ret x => contradiction
      | act a k =>
          cases h
          have hidle := idle_set ht ⟨trace ++ [⟨a, (sem a s).1⟩], k (sem a s).1⟩ s (sem a s).2
          refine ⟨hothers (hguarded _), ?_⟩
          rw [List.length_singleton]
          dsimp only at hidle ⊢
          split_ifs at hidle <;> omega
      | loop body k =>
          cases h
          obtain ⟨hbody, hacts⟩ := hguarded.step (Step.loop body k s : Step sem _ _ _ _ _)
          have hidle := idle_set ht ⟨trace, body.bind (unroll body k)⟩ s s
          refine ⟨hothers hbody, ?_⟩
          simp only [(hacts rfl).1, (hacts rfl).2] at hidle
          simp at hidle ⊢
          omega

/-- **Steps without an action** are at most as many as the actions, and one for each thread. -/
theorem length_scheduled {schedule : List ℕ} (hc : ∀ t ∈ c.threads, t.prog.Guarded)
    (h : c.scheduled sem schedule = some (log, c')) :
    schedule.length + c'.idle ≤ 2 * log.length + c.idle := by
  induction schedule generalizing c log with
  | nil =>
      cases h
      simp
  | cons i schedule ih =>
      simp only [Config.scheduled, Option.bind_eq_some_iff, Option.map_eq_some_iff] at h
      obtain ⟨⟨es, c₁⟩, hnext, ⟨rest, c₂⟩, hlater, heq⟩ := h
      obtain ⟨rfl, rfl⟩ := Prod.mk.inj heq
      obtain ⟨hguarded, hidle⟩ := idle_next hc hnext
      have hrest := ih hguarded hlater
      rw [List.length_cons, List.length_append]
      dsimp only at hidle hrest ⊢
      omega

/-! ## Schedules -/

/-- A schedule goes on with one more step. -/
theorem scheduled_concat {c₁ c₂ : Config σ A R α} {schedule : List ℕ} {es : List (Entry σ A R)}
    {i : ℕ} (h : c.scheduled sem schedule = some (log, c₁)) (hi : c₁.next sem i = some (es, c₂)) :
    c.scheduled sem (schedule ++ [i]) = some (log ++ es, c₂) := by
  induction schedule generalizing c log with
  | nil =>
      cases h
      simp [Config.scheduled, hi]
  | cons j schedule ih =>
      simp only [Config.scheduled, Option.bind_eq_some_iff, Option.map_eq_some_iff] at h
      obtain ⟨⟨es₁, c₃⟩, hnext, ⟨rest, c₄⟩, hlater, heq⟩ := h
      obtain ⟨rfl, rfl⟩ := Prod.mk.inj heq
      simp [Config.scheduled, hnext, ih hlater]

/-- Every run is that of a schedule. -/
theorem Path.exists_schedule (h : Path sem c log c') :
    ∃ schedule, c.scheduled sem schedule = some (log, c') := by
  induction h with
  | refl => exact ⟨[], rfl⟩
  | @step log s s' threads i t e p hpath ht hstep ih =>
      obtain ⟨schedule, hschedule⟩ := ih
      obtain ⟨trace, prog⟩ := t
      refine ⟨schedule ++ [i], scheduled_concat hschedule ?_⟩
      cases hstep <;> simp [Config.next, ht]

/-- A run after a run. -/
theorem Path.trans {c₁ c₂ : Config σ A R α} {later : List (Entry σ A R)} (h : Path sem c log c₁)
    (hlater : Path sem c₁ later c₂) : Path sem c (log ++ later) c₂ := by
  obtain ⟨schedule, hschedule⟩ := hlater.exists_schedule
  exact h.scheduled hschedule

end Interleave
