import Mathlib.Tactic.Common

/-!
# Programs of atomic actions

`Prog A R α` is a program that performs atomic actions `a : A` on a state it
shares with others, gets an answer in `R a` for each, and returns an `α`.  What
the program does between two actions is pure.  `loop` repeats a body until it
answers, so a program need not end.

A program is reasoned about by its *trace*, the actions it performed with the
answers it got.  `Obeys ok Q h p` says that after the trace `h` every action `p`
performs is permitted by `ok`, and every result it returns satisfies `Q`,
whatever answers the shared state gives; the rules below derive it along the
program text, with an invariant for each loop.

* `Step` — one step against a shared state;
* `obeys_step` — steps preserve `Obeys`;
* `Returns` — the program can leave a trace and return a result;
* `exec` — a run without interference, with a bound on the rounds of each loop.
-/

/-- A program over the actions `A`. -/
inductive Prog (A : Type) (R : A → Type) : Type → Type 1
  | ret {α : Type} (x : α) : Prog A R α
  | act {α : Type} (a : A) (k : R a → Prog A R α) : Prog A R α
  | loop {α β : Type} (body : Prog A R (Option β)) (k : β → Prog A R α) : Prog A R α

namespace Prog

variable {A : Type} {R : A → Type} {α β γ σ : Type}

/-! ## Sequencing -/

def bind {α β : Type} : Prog A R α → (α → Prog A R β) → Prog A R β
  | .ret x, f => f x
  | .act a k, f => .act a fun r => (k r).bind f
  | .loop body k, f => .loop body fun b => (k b).bind f

instance : Monad (Prog A R) where
  pure := .ret
  bind := bind

/-- Perform one action. -/
def perform (a : A) : Prog A R (R a) := .act a .ret

/-- Repeat `body` until it answers. -/
def untilSome (body : Prog A R (Option β)) : Prog A R β := .loop body .ret

@[simp] theorem pure_eq (x : α) : (pure x : Prog A R α) = .ret x := rfl

@[simp] theorem bind_eq (p : Prog A R α) (f : α → Prog A R β) : p >>= f = p.bind f := rfl

@[simp] theorem ret_bind (x : α) (f : α → Prog A R β) : (ret x).bind f = f x := rfl

@[simp] theorem act_bind (a : A) (k : R a → Prog A R α) (f : α → Prog A R β) :
    (act a k).bind f = act a fun r => (k r).bind f := rfl

@[simp] theorem loop_bind (body : Prog A R (Option γ)) (k : γ → Prog A R α) (f : α → Prog A R β) :
    (loop body k).bind f = loop body fun b => (k b).bind f := rfl

/-- Programs one after another may be grouped either way. -/
theorem bind_assoc (p : Prog A R α) (f : α → Prog A R β) (g : β → Prog A R γ) :
    (p.bind f).bind g = p.bind fun x => (f x).bind g := by
  induction p with
  | ret x => rfl
  | act a k ih => simp only [act_bind, ih]
  | loop body k _ ih => simp only [loop_bind, ih]

/-- How a loop goes on after one round. -/
def unroll (body : Prog A R (Option β)) (k : β → Prog A R α) : Option β → Prog A R α
  | none => .loop body k
  | some b => k b

/-- What comes after the rounds of a loop comes after its result. -/
theorem bind_unroll (body : Prog A R (Option γ)) (k : γ → Prog A R α) (f : α → Prog A R β) :
    (body.bind (unroll body k)).bind f = body.bind (unroll body fun b => (k b).bind f) := by
  rw [bind_assoc]
  congr 1
  funext o
  cases o <;> rfl

/-! ## Traces -/

/-- An action with the answer it got. -/
abbrev Event (R : A → Type) := Σ a, R a

/-- After the trace `h`, the program only performs actions that `ok` permits and
only returns with `Q`. -/
def Obeys (ok : List (Event R) → A → Prop) {α : Type} (Q : α → List (Event R) → Prop)
    (h : List (Event R)) : Prog A R α → Prop
  | .ret x => Q x h
  | .act a k => ok h a ∧ ∀ r, Obeys ok Q (h ++ [⟨a, r⟩]) (k r)
  | .loop body k => ∃ I : List (Event R) → Prop, I h ∧ ∀ h', I h' →
      Obeys ok (fun o h'' => match o with
        | none => I h''
        | some b => Obeys ok Q h'' (k b)) h' body

variable {ok : List (Event R) → A → Prop} {Q Q' : α → List (Event R) → Prop} {h : List (Event R)}

/-- A contract may promise less. -/
theorem Obeys.mono {p : Prog A R α} (hp : Obeys ok Q h p) (hQ : ∀ x h', Q x h' → Q' x h') :
    Obeys ok Q' h p := by
  induction p generalizing h with
  | ret x => exact hQ x h hp
  | act a k ih => exact ⟨hp.1, fun r => ih r (hp.2 r) hQ⟩
  | loop body k ihbody ihk =>
      obtain ⟨I, hI, hbody⟩ := hp
      refine ⟨I, hI, fun h' hh' => ihbody (hbody h' hh') fun o h'' ho => ?_⟩
      cases o with
      | none => exact ho
      | some b => exact ihk b ho hQ

/-- A contract for programs one after another: the second starts from the trace of the first. -/
theorem Obeys.bind {p : Prog A R β} {f : β → Prog A R α}
    (hp : Obeys ok (fun x h' => Obeys ok Q h' (f x)) h p) : Obeys ok Q h (p.bind f) := by
  induction p generalizing h with
  | ret x => exact hp
  | act a k ih => exact ⟨hp.1, fun r => ih r (hp.2 r)⟩
  | loop body k _ ihk =>
      obtain ⟨I, hI, hbody⟩ := hp
      refine ⟨I, hI, fun h' hh' => (hbody h' hh').mono fun o h'' ho => ?_⟩
      cases o with
      | none => exact ho
      | some b => exact ihk b ho

/-- The rounds of a loop keep its contract. -/
theorem Obeys.unroll {body : Prog A R (Option γ)} {k : γ → Prog A R α}
    (hp : Obeys ok Q h (.loop body k)) : Obeys ok Q h (body.bind (unroll body k)) := by
  obtain ⟨I, hI, hbody⟩ := hp
  refine Obeys.bind ((hbody h hI).mono fun o h'' ho => ?_)
  cases o with
  | none => exact ⟨I, ho, hbody⟩
  | some b => exact ho

/-- The rule for a loop with invariant `I`. -/
theorem obeys_untilSome {body : Prog A R (Option α)} (I : List (Event R) → Prop) (hI : I h)
    (hbody : ∀ h', I h' → Obeys ok (fun o h'' => match o with
      | none => I h''
      | some b => Q b h'') h' body) : Obeys ok Q h (untilSome body) := by
  refine ⟨I, hI, fun h' hh' => (hbody h' hh').mono fun o h'' ho => ?_⟩
  cases o with
  | none => exact ho
  | some b => exact ho

/-! ## The actions a program can perform -/

/-- Every action of the program has property `P`. -/
def Uses (P : A → Prop) {α : Type} : Prog A R α → Prop
  | .ret _ => True
  | .act a k => P a ∧ ∀ r, Uses P (k r)
  | .loop body k => Uses P body ∧ ∀ b, Uses P (k b)

/-- Programs one after another use what their parts do. -/
theorem Uses.bind {P : A → Prop} {p : Prog A R β} {f : β → Prog A R α} (hp : Uses P p)
    (hf : ∀ x, Uses P (f x)) : Uses P (p.bind f) := by
  induction p with
  | ret x => exact hf x
  | act a k ih => exact ⟨hp.1, fun r => ih r (hp.2 r) hf⟩
  | loop body k _ ihk => exact ⟨hp.1, fun b => ihk b (hp.2 b) hf⟩

theorem Uses.mono {P P' : A → Prop} {p : Prog A R α} (hp : Uses P p) (h : ∀ a, P a → P' a) :
    Uses P' p := by
  induction p with
  | ret x => trivial
  | act a k ih => exact ⟨h a hp.1, fun r => ih r (hp.2 r)⟩
  | loop body k ihbody ihk => exact ⟨ihbody hp.1, fun b => ihk b (hp.2 b)⟩

/-- A condition uses what its branches do. -/
theorem uses_ite {P : A → Prop} {c : Prop} [Decidable c] {p q : Prog A R α} (hp : c → Uses P p)
    (hq : ¬ c → Uses P q) : Uses P (if c then p else q) := by
  split
  · next hc => exact hp hc
  · next hc => exact hq hc

/-- A program whose actions are permitted, and keep an invariant of the trace,
keeps the invariant. -/
theorem Uses.obeys {P : A → Prop} {I : List (Event R) → Prop} {p : Prog A R α} (hp : Uses P p)
    (hok : ∀ h' a, I h' → P a → ok h' a) (hI : ∀ h' a r, I h' → P a → I (h' ++ [⟨a, r⟩]))
    (hh : I h) : Obeys ok (fun _ h' => I h') h p := by
  induction p generalizing h with
  | ret x => exact hh
  | act a k ih => exact ⟨hok h a hh hp.1, fun r => ih r (hp.2 r) (hI h a r hh hp.1)⟩
  | loop body k ihbody ihk =>
      refine ⟨I, hh, fun h' hh' => (ihbody hp.1 hh').mono fun o h'' hh'' => ?_⟩
      cases o with
      | none => exact hh''
      | some b => exact ihk b (hp.2 b) hh''

/-! ## Steps -/

variable {sem : (a : A) → σ → R a × σ}

/-- One step of a program against the shared state; unrolling a loop performs
no action. -/
inductive Step (sem : (a : A) → σ → R a × σ) :
    Prog A R α → σ → Option (Event R) → Prog A R α → σ → Prop
  | act (a : A) (k : R a → Prog A R α) (s : σ) :
      Step sem (.act a k) s (some ⟨a, (sem a s).1⟩) (k (sem a s).1) (sem a s).2
  | loop {δ : Type} (body : Prog A R (Option δ)) (k : δ → Prog A R α) (s : σ) :
      Step sem (.loop body k) s none (body.bind (unroll body k)) s

/-- **A step keeps the contract**: it is permitted, and so is the rest. -/
theorem obeys_step {p p' : Prog A R α} {s s' : σ} {e : Option (Event R)} (hp : Obeys ok Q h p)
    (hstep : Step sem p s e p' s') :
    (∀ x ∈ e, ok h x.1) ∧ Obeys ok Q (h ++ e.toList) p' := by
  cases hstep with
  | act a k s =>
      obtain ⟨hok, hk⟩ := hp
      exact ⟨by simpa using hok, hk _⟩
  | loop body k s =>
      constructor
      · simp
      · rw [Option.toList_none, List.append_nil]
        exact hp.unroll

/-- What a step does to the shared state and which answer it got. -/
theorem Step.sound {p p' : Prog A R α} {s s' : σ} {e : Option (Event R)}
    (hstep : Step sem p s e p' s') :
    (∀ x ∈ e, x.2 = (sem x.1 s).1) ∧ s' = e.elim s fun x => (sem x.1 s).2 := by
  cases hstep with
  | act a k s => simp
  | loop body k s => simp

/-! ## Results -/

/-- The program can leave the trace `h` and return `x`. -/
inductive Returns : {α : Type} → Prog A R α → List (Event R) → α → Prop
  | ret {α : Type} (x : α) : Returns (.ret x) [] x
  | act {α : Type} {a : A} {k : R a → Prog A R α} {r : R a} {h : List (Event R)} {x : α}
      (hrest : Returns (k r) h x) : Returns (.act a k) (⟨a, r⟩ :: h) x
  | loop {α δ : Type} {body : Prog A R (Option δ)} {k : δ → Prog A R α} {h : List (Event R)} {x : α}
      (hrest : Returns (body.bind (unroll body k)) h x) : Returns (.loop body k) h x

/-- What a contract says of a result. -/
theorem Obeys.returns {p : Prog A R α} (hp : Obeys ok Q h p) {h' : List (Event R)} {x : α}
    (hx : Returns p h' x) : Q x (h ++ h') := by
  induction hx generalizing h with
  | ret x => rwa [List.append_nil]
  | act hrest ih =>
      rw [List.append_cons]
      exact ih (hp.2 _)
  | loop hrest ih => exact ih hp.unroll

/-- The traces of programs one after another are joined. -/
theorem Returns.bind {p : Prog A R β} {f : β → Prog A R α} {h' : List (Event R)} {y : β} {x : α}
    (hp : Returns p h y) (hf : Returns (f y) h' x) : Returns (p.bind f) (h ++ h') x := by
  induction hp with
  | ret y => exact hf
  | act hrest ih => exact .act (ih hf)
  | loop hrest ih =>
      have hbind := ih hf
      rw [bind_unroll] at hbind
      exact .loop hbind

theorem Returns.of_ret {x y : α} (hx : Returns (.ret y : Prog A R α) h x) : h = [] ∧ x = y := by
  cases hx
  exact ⟨rfl, rfl⟩

theorem Returns.of_act {a : A} {k : R a → Prog A R α} {x : α} (hx : Returns (.act a k) h x) :
    ∃ r h', h = ⟨a, r⟩ :: h' ∧ Returns (k r) h' x := by
  cases hx with
  | act hrest => exact ⟨_, _, rfl, hrest⟩

/-- The trace of a sequence splits into those of its parts. -/
theorem Returns.of_bind {p : Prog A R β} {f : β → Prog A R α} {x : α}
    (hx : Returns (p.bind f) h x) :
    ∃ y h₁ h₂, h = h₁ ++ h₂ ∧ Returns p h₁ y ∧ Returns (f y) h₂ x := by
  generalize hq : p.bind f = q at hx
  induction hx generalizing p with
  | ret x =>
      cases p with
      | ret y =>
          rw [ret_bind] at hq
          exact ⟨y, [], [], rfl, .ret y, hq ▸ .ret x⟩
      | act a k => cases hq
      | loop body k => cases hq
  | act hrest ih =>
      cases p with
      | ret y =>
          rw [ret_bind] at hq
          exact ⟨y, [], _, rfl, .ret y, hq ▸ .act hrest⟩
      | act a' k' =>
          cases hq
          obtain ⟨y, h₁, h₂, rfl, hp, hf⟩ := ih rfl
          exact ⟨y, _, h₂, rfl, .act hp, hf⟩
      | loop body k' => cases hq
  | loop hrest ih =>
      cases p with
      | ret y =>
          rw [ret_bind] at hq
          exact ⟨y, [], _, rfl, .ret y, hq ▸ .loop hrest⟩
      | act a k' => cases hq
      | loop body' k' =>
          cases hq
          obtain ⟨y, h₁, h₂, rfl, hp, hf⟩ := ih (bind_unroll _ _ _)
          exact ⟨y, h₁, h₂, rfl, .loop hp, hf⟩

/-- The answers determine the result. -/
theorem Returns.deterministic {p : Prog A R α} {h₁ h₂ t₁ t₂ : List (Event R)} {x y : α}
    (hx : Returns p h₁ x) (hy : Returns p h₂ y) (heq : h₁ ++ t₁ = h₂ ++ t₂) :
    h₁ = h₂ ∧ x = y := by
  induction hx generalizing h₂ with
  | ret x =>
      cases hy
      exact ⟨rfl, rfl⟩
  | act hrest ih =>
      cases hy with
      | act hrest' =>
          simp only [List.cons_append, List.cons.injEq, Sigma.mk.injEq, heq_eq_eq, true_and] at heq
          obtain ⟨rfl, htail⟩ := heq
          obtain ⟨rfl, rfl⟩ := ih hrest' htail
          exact ⟨rfl, rfl⟩
  | loop hrest ih =>
      cases hy with
      | loop hrest' => exact ih hrest' heq

/-- The trace only has actions of the program. -/
theorem Uses.returns {P : A → Prop} {p : Prog A R α} (hp : Uses P p) {x : α}
    (hx : Returns p h x) : ∀ e ∈ h, P e.1 := by
  have hobeys : Obeys (fun _ _ => True) (fun _ h' => ∀ e ∈ h', P e.1) [] p :=
    hp.obeys (I := fun h' => ∀ e ∈ h', P e.1) (fun _ _ _ _ => trivial)
      (fun h' a r hh' ha => by simpa [or_imp, forall_and] using ⟨hh', ha⟩) (by simp)
  exact hobeys.returns hx

/-- **A contract may speak of the program itself**: what is added to the trace by the time it
returns is one of its own traces, with that result. -/
theorem Obeys.returning {p : Prog A R α} (hp : Obeys ok Q h p) :
    Obeys ok (fun x h' => Q x h' ∧ ∃ t, h' = h ++ t ∧ Returns p t x) h p := by
  induction p generalizing h with
  | ret x => exact ⟨hp, [], by simp, .ret x⟩
  | act a k ih =>
      refine ⟨hp.1, fun r => (ih r (hp.2 r)).mono fun x h' hx => ?_⟩
      obtain ⟨hQ, t, rfl, hrest⟩ := hx
      exact ⟨hQ, ⟨a, r⟩ :: t, by simp, .act hrest⟩
  | loop body k ihbody ihk =>
      obtain ⟨I, hI, hbody⟩ := hp
      -- the rounds so far can stand in front of any trace of the loop
      refine ⟨fun h' => I h' ∧ ∃ t, h' = h ++ t ∧ ∀ {t' x}, Returns (.loop body k) t' x →
        Returns (.loop body k) (t ++ t') x, ⟨hI, [], by simp, fun hx => hx⟩, ?_⟩
      rintro h' ⟨hI', t, rfl, hrounds⟩
      refine (ihbody (hbody _ hI')).mono fun o h'' ho => ?_
      obtain ⟨ho, t₁, rfl, hround⟩ := ho
      cases o with
      | none =>
          refine ⟨ho, t ++ t₁, List.append_assoc h t t₁, fun hx => ?_⟩
          rw [List.append_assoc]
          exact hrounds (.loop (hround.bind hx))
      | some b =>
          refine (ihk b ho).mono fun x h₃ hx => ?_
          obtain ⟨hQ, t₂, rfl, hrest⟩ := hx
          exact ⟨hQ, t ++ (t₁ ++ t₂), by simp, hrounds (.loop (hround.bind hrest))⟩

/-- What a step was made of. -/
theorem Step.returns {p p' : Prog A R α} {s s' : σ} {e : Option (Event R)} {x : α}
    (hstep : Step sem p s e p' s') (hx : Returns p' h x) : Returns p (e.toList ++ h) x := by
  cases hstep with
  | act a k s => exact .act hx
  | loop body k s => exact .loop hx

/-! ## Runs without interference -/

/-- At most `n` rounds of a loop whose rounds are given by `round`. -/
def rounds (round : σ → Option (Option β × σ)) : ℕ → σ → Option (β × σ)
  | 0, _ => none
  | n + 1, s =>
      match round s with
      | none => none
      | some (none, s') => rounds round n s'
      | some (some b, s') => some (b, s')

/-- The result of a run in which nobody else touches the shared state, every
loop making at most `n` rounds. -/
def exec (sem : (a : A) → σ → R a × σ) (n : ℕ) {α : Type} : Prog A R α → σ → Option (α × σ)
  | .ret x, s => some (x, s)
  | .act a k, s => exec sem n (k (sem a s).1) (sem a s).2
  | .loop body k, s => (rounds (exec sem n body) n s).bind fun r => exec sem n (k r.1) r.2

@[simp] theorem exec_ret (n : ℕ) (x : α) (s : σ) :
    exec sem n (ret x : Prog A R α) s = some (x, s) := rfl

/-- Programs one after another run from state to state. -/
theorem exec_bind (n : ℕ) (p : Prog A R α) (f : α → Prog A R β) (s : σ) :
    exec sem n (p.bind f) s = (exec sem n p s).bind fun r => exec sem n (f r.1) r.2 := by
  induction p generalizing s with
  | ret x => rfl
  | act a k ih => exact ih _ f _
  | loop body k _ ihk =>
      simp only [loop_bind, exec, Option.bind_assoc, ihk]

/-- The answers of a trace are those of a run without interference from `s` to `s'`. -/
inductive Replays (sem : (a : A) → σ → R a × σ) : σ → List (Event R) → σ → Prop
  | nil (s : σ) : Replays sem s [] s
  | cons {a : A} {s s' : σ} {h : List (Event R)} (hrest : Replays sem (sem a s).2 h s') :
      Replays sem s (⟨a, (sem a s).1⟩ :: h) s'

/-- Traces that can be replayed one after another. -/
theorem Replays.append {s s' s'' : σ} {h' : List (Event R)} (hs : Replays sem s h s')
    (hs' : Replays sem s' h' s'') : Replays sem s (h ++ h') s'' := by
  induction hs with
  | nil s => exact hs'
  | cons hrest ih => exact .cons (ih hs')

/-- A trace is replayed part after part. -/
theorem Replays.of_append {s s'' : σ} {h' : List (Event R)} (hs : Replays sem s (h ++ h') s'') :
    ∃ s', Replays sem s h s' ∧ Replays sem s' h' s'' := by
  induction h generalizing s with
  | nil => exact ⟨s, .nil s, hs⟩
  | cons e h ih =>
      cases hs with
      | cons hrest =>
          obtain ⟨s', hfirst, hsecond⟩ := ih hrest
          exact ⟨s', .cons hfirst, hsecond⟩

/-- There is only one run without interference. -/
theorem Replays.unique {p : Prog A R α} {s s' s'' : σ} {h' : List (Event R)} {x y : α}
    (hs : Replays sem s h s') (hs' : Replays sem s h' s'') (hx : Returns p h x)
    (hy : Returns p h' y) : x = y ∧ s' = s'' := by
  induction hx generalizing s h' with
  | ret x =>
      cases hy
      cases hs
      cases hs'
      exact ⟨rfl, rfl⟩
  | act hrest ih =>
      cases hy with
      | act hrest' =>
          cases hs with
          | cons hs =>
              cases hs' with
              | cons hs' => exact ih hs hs' hrest'
  | loop hrest ih =>
      cases hy with
      | loop hrest' => exact ih hs hs' hrest'

/-- The trace of the rounds of a loop. -/
theorem returns_of_rounds {body : Prog A R (Option β)} {k : β → Prog A R α} {n m : ℕ}
    (hbody : ∀ {s s' : σ} {o : Option β}, exec sem n body s = some (o, s') →
      ∃ h, Returns body h o ∧ Replays sem s h s')
    {s s' : σ} {b : β} (h : rounds (exec sem n body) m s = some (b, s')) :
    ∃ h, Replays sem s h s' ∧
      ∀ {h' x}, Returns (k b) h' x → Returns (.loop body k) (h ++ h') x := by
  induction m generalizing s with
  | zero => simp [rounds] at h
  | succ m ih =>
      simp only [rounds] at h
      split at h
      · contradiction
      · next s₁ ho =>
          obtain ⟨h₁, hreturns, hreplays⟩ := hbody ho
          obtain ⟨h₂, hreplays', hrest⟩ := ih h
          refine ⟨h₁ ++ h₂, hreplays.append hreplays', fun hk => ?_⟩
          rw [List.append_assoc]
          exact .loop (hreturns.bind (hrest hk))
      · next b' s₁ ho =>
          rw [Option.some.injEq, Prod.mk.injEq] at h
          obtain ⟨rfl, rfl⟩ := h
          obtain ⟨h₁, hreturns, hreplays⟩ := hbody ho
          exact ⟨h₁, hreplays, fun hk => .loop (hreturns.bind hk)⟩

/-- A run without interference, as a trace. -/
theorem returns_of_exec {n : ℕ} {p : Prog A R α} {s s' : σ} {x : α}
    (h : exec sem n p s = some (x, s')) : ∃ h, Returns p h x ∧ Replays sem s h s' := by
  induction p generalizing s s' with
  | ret y =>
      rw [exec_ret, Option.some.injEq, Prod.mk.injEq] at h
      obtain ⟨rfl, rfl⟩ := h
      exact ⟨[], .ret y, .nil s⟩
  | act a k ih =>
      obtain ⟨h', hreturns, hreplays⟩ := ih _ h
      exact ⟨_, .act hreturns, .cons hreplays⟩
  | loop body k ihbody ihk =>
      simp only [exec, Option.bind_eq_some_iff] at h
      obtain ⟨⟨b, s₁⟩, hrounds, hrest⟩ := h
      obtain ⟨h₁, hreplays, hloop⟩ := returns_of_rounds ihbody hrounds
      obtain ⟨h₂, hreturns, hreplays'⟩ := ihk b hrest
      exact ⟨h₁ ++ h₂, hloop hreturns, hreplays.append hreplays'⟩

/-- A trace without interference leads to the result of the run. -/
theorem Replays.exec_eq {n : ℕ} {p : Prog A R α} {s s' s'' : σ} {x y : α}
    (hs : Replays sem s h s') (hx : Returns p h x) (hexec : exec sem n p s = some (y, s'')) :
    x = y ∧ s' = s'' := by
  obtain ⟨h', hreturns, hreplays⟩ := returns_of_exec hexec
  exact hs.unique hreplays hx hreturns

/-- A loop whose body answers in its first round. -/
theorem exec_untilSome {n : ℕ} {body : Prog A R (Option α)} {s s' : σ} {x : α}
    (hbody : exec sem (n + 1) body s = some (some x, s')) :
    exec sem (n + 1) (untilSome body) s = some (x, s') := by
  simp [untilSome, exec, rounds, hbody]

/-! ## Two kinds of actions -/

section
variable {B : Type} {S : B → Type}

/-- A program with the actions `A`, among programs that have the actions `B` as well. -/
def inl {α : Type} : Prog A R α → Prog (A ⊕ B) (Sum.elim R S) α
  | .ret x => .ret x
  | .act a k => .act (.inl a) fun r => (k r).inl
  | .loop body k => .loop body.inl fun b => (k b).inl

/-- The larger set of actions does not change how programs are joined. -/
@[simp] theorem inl_bind {α β : Type} (p : Prog A R α) (f : α → Prog A R β) :
    ((p.bind f).inl : Prog (A ⊕ B) (Sum.elim R S) β) = p.inl.bind fun x => (f x).inl := by
  induction p with
  | ret x => rfl
  | act a k ih => exact congrArg (act (Sum.inl a)) (funext fun r => ih r f)
  | loop body k _ ih => exact congrArg (loop body.inl) (funext fun b => ih b f)

/-- What the actions of both kinds do to one state. -/
def both (sem : (a : A) → σ → R a × σ) (sem' : (b : B) → σ → S b × σ) :
    (c : A ⊕ B) → σ → Sum.elim R S c × σ
  | .inl a => sem a
  | .inr b => sem' b

end

end Prog
