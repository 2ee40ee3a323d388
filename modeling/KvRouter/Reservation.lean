import KvRouter.System

/-!
# KvRouter.Reservation

No reservation is leaked or released twice.  The queue depth of a backend is a
shared counter that any number of handlers move; the theorem is that under every
interleaving it equals the number of handlers that own a slot there.

The argument has one step lemma, `slotStep`: an action either takes a slot
(from a depth below the limit, by a thread that owns none), or gives the
thread's own slot back, or leaves depths and ownership as they are.  A stale
load does no harm because the swap only succeeds on the depth that was loaded.
-/

namespace KvRouter

open Handler Interleave

/-! ## One action -/

/-- The backends on which a thread owns a slot. -/
def owned (t : Thread Act Act.Result Done) : List String := holding (effects t.trace)

/-- The depth of a backend. -/
def World.depth (w : World) (id : String) : Int64 := (w.cells id).queueDepth

/-- The depth of a backend changes only with its own cells. -/
theorem depth_updateCells (w : World) (id id' : String) (f : Cells → Cells) :
    (w.updateCells id f).depth id' =
      if id' = id then (f (w.cells id)).queueDepth else w.depth id' := by
  unfold World.updateCells World.depth
  by_cases h : id' = id
  · subst h
    simp
  · simp [h]

/-- An update that keeps the queue depth changes no depth. -/
theorem depth_updateCells_of_eq {w : World} {id : String} {f : Cells → Cells}
    (hf : ∀ c, (f c).queueDepth = c.queueDepth) (id' : String) :
    (w.updateCells id f).depth id' = w.depth id' := by
  rw [depth_updateCells, hf]
  split
  · next h => rw [h, World.depth]
  · rfl

theorem holding_append_reserved {es : List Effect} (h : holding es = []) (id : String) :
    holding (es ++ [.reserved id]) = [id] := by
  rw [holding, List.foldl_append, ← holding, h]
  rfl

theorem holding_append_released {es : List Effect} {id : String} (h : holding es = [id]) :
    holding (es ++ [.released id]) = [] := by
  rw [holding, List.foldl_append, ← holding, h]
  simp

/-- A quiet action leaves every depth as it is. -/
theorem depth_of_quiet {a : Act} (ha : Quiet a) (w : World) (id : String) :
    (a.sem w).2.depth id = w.depth id := by
  cases a with
  | casDepth id' old new => exact absurd (ha true) (Option.some_ne_none _)
  | addDepth id' delta => exact absurd (ha 0) (Option.some_ne_none _)
  | casHealthy id' old new =>
      dsimp only [Act.sem]
      split
      · dsimp only
        refine depth_updateCells_of_eq ?_ id
        exact fun _ => rfl
      · rfl
  | storeFails id' n | addFails id' n | storeSuccesses id' n | addSuccesses id' n
  | addHealthyTransitions id' n | addUnhealthyTransitions id' n =>
      dsimp only [Act.sem]
      refine depth_updateCells_of_eq ?_ id
      exact fun _ => rfl
  | _ => rfl

/-- What an action that leads from `w` to `w'` does to the depths, and to the
slots of the thread that performs it. -/
inductive SlotStep (p : Pool) (w w' : World) : List String → List String → Prop
  | acquired {id : String} {b : Backend} (hb : p.get id = some b)
      (hlt : w.depth id < b.maxConcurrent)
      (hdepth : ∀ id', w'.depth id' = if id' = id then w.depth id + 1 else w.depth id') :
      SlotStep p w w' [] [id]
  | released {id : String}
      (hdepth : ∀ id', w'.depth id' = if id' = id then w.depth id + -1 else w.depth id') :
      SlotStep p w w' [id] []
  | kept {held : List String} (hdepth : ∀ id', w'.depth id' = w.depth id') :
      SlotStep p w w' held held

/-- A permitted action is one of these. -/
theorem slotStep {p : Pool} {h : List Event} {a : Act} (w : World) (hok : Allowed p h a) :
    SlotStep p w (a.sem w).2 (holding (effects h))
      (holding (effects (h ++ [⟨a, (a.sem w).1⟩]))) := by
  have hquiet (ha : Quiet a) : SlotStep p w (a.sem w).2 (holding (effects h))
      (holding (effects (h ++ [⟨a, (a.sem w).1⟩]))) := by
    rw [effects_quiet ha]
    exact .kept (depth_of_quiet ha w)
  cases a with
  | casDepth id old new =>
      obtain ⟨hheld, rfl, b, hb, hlt⟩ := hok
      rw [effects_append]
      by_cases hold : w.depth id = old
      · subst hold
        have hsem : (Act.casDepth id (w.depth id) (w.depth id + 1)).sem w =
            (true, w.updateCells id fun c => { c with queueDepth := w.depth id + 1 }) := if_pos rfl
        have hafter : holding (effects h ++ effects
            [⟨.casDepth id (w.depth id) (w.depth id + 1), true⟩]) = [id] :=
          holding_append_reserved hheld id
        rw [hsem, hafter, hheld]
        exact .acquired hb hlt fun id' => by rw [depth_updateCells]
      · have hsem : (Act.casDepth id old (old + 1)).sem w = (false, w) := if_neg hold
        have hnone : effects [⟨.casDepth id old (old + 1), false⟩] = [] := rfl
        rw [hsem, hnone, List.append_nil]
        exact .kept fun _ => rfl
  | addDepth id delta =>
      obtain ⟨hheld, rfl⟩ := hok
      have hafter : holding (effects h ++ effects
          [⟨.addDepth id (-1), ((Act.addDepth id (-1)).sem w).1⟩]) = [] :=
        holding_append_released hheld
      rw [effects_append, hafter, hheld]
      exact .released fun id' => by
        dsimp only [Act.sem]
        exact depth_updateCells w id id' _
  | commit id ns blocks now orders =>
      have hafter : holding (effects h ++ effects [⟨.commit id ns blocks now orders, ()⟩]) =
          holding (effects h) := by
        rw [holding, List.foldl_append]
        rfl
      rw [effects_append, hafter]
      exact .kept fun _ => rfl
  | _ => exact hquiet fun _ => rfl

/-! ## Counting owners -/

/-- How many threads own a slot on backend `id`. -/
def owners (c : System) (id : String) : ℕ := c.threads.countP fun t => id ∈ owned t

/-- The counting invariant, for every ID, and the limit on the backends of the pool. -/
structure Counted (p : Pool) (c : System) : Prop where
  depth : ∀ id, (c.shared.depth id).toInt = owners c id
  limit : ∀ id b, p.get id = some b → c.shared.depth id ≤ b.maxConcurrent
  single : ∀ t ∈ c.threads, (owned t).length ≤ 1

/-- A counter below another one does not overflow when it is incremented. -/
theorem toInt_add_one {x y : Int64} (h : x < y) : (x + 1).toInt = x.toInt + 1 := by
  have hlt := Int64.lt_iff_toInt_lt.mp h
  have hy := y.toInt_lt
  have hx := x.le_toInt
  rw [Int64.toInt_add]
  rw [Int64.toInt_one]
  exact Int.bmod_eq_of_le (by omega) (by omega)

/-- A positive depth goes down by one. -/
theorem toInt_add_neg_one {x : Int64} (h : 0 < x.toInt) : (x + -1).toInt = x.toInt - 1 := by
  have hlt := x.toInt_lt
  have hneg : (-1 : Int64).toInt = -1 := rfl
  rw [Int64.toInt_add, hneg]
  exact Int.bmod_eq_of_le (by omega) (by omega)

/-- Owners after a thread has been replaced. -/
theorem owners_set {s s' : World} {threads : List (Thread Act Act.Result Done)} {i : ℕ}
    {t t' : Thread Act Act.Result Done} (ht : threads[i]? = some t) (id : String) :
    (owners ⟨s', threads.set i t'⟩ id : ℤ) = owners ⟨s, threads⟩ id -
      (if id ∈ owned t then 1 else 0) + (if id ∈ owned t' then 1 else 0) := by
  obtain ⟨hlt, hget⟩ := List.getElem?_eq_some_iff.mp ht
  have hle := List.boole_getElem_le_countP (p := fun t => decide (id ∈ owned t)) hlt
  have hset := List.countP_set (p := fun t => decide (id ∈ owned t)) (a := t') hlt
  rw [hget] at hle hset
  simp only [decide_eq_true_eq] at hle hset
  unfold owners
  dsimp only
  rw [hset]
  split_ifs at hle ⊢ <;> omega

/-- Replacing a thread keeps the invariant when the depths move with its slots. -/
theorem Counted.replace {p : Pool} {s s' : World} {threads : List (Thread Act Act.Result Done)}
    {i : ℕ} {t t' : Thread Act Act.Result Done} (hinv : Counted p ⟨s, threads⟩)
    (ht : threads[i]? = some t) (howned : (owned t').length ≤ 1)
    (hdepth : ∀ id, (s'.depth id).toInt = (s.depth id).toInt -
      (if id ∈ owned t then 1 else 0) + (if id ∈ owned t' then 1 else 0))
    (hlimit : ∀ id b, p.get id = some b → s'.depth id ≤ b.maxConcurrent) :
    Counted p ⟨s', threads.set i t'⟩ where
  depth id := by
    have hcount : (s.depth id).toInt = owners ⟨s, threads⟩ id := hinv.depth id
    have hset : (owners ⟨s', threads.set i t'⟩ id : ℤ) = owners ⟨s, threads⟩ id -
        (if id ∈ owned t then 1 else 0) + (if id ∈ owned t' then 1 else 0) := owners_set ht id
    dsimp only
    rw [hset, hdepth, hcount]
  limit := hlimit
  single u hu := by
    obtain hu | rfl := List.mem_or_eq_of_mem_set hu
    · exact hinv.single u hu
    · exact howned

/-- A slot that a thread owns is counted. -/
theorem Counted.depth_pos {p : Pool} {c : System} (hinv : Counted p c)
    {t : Thread Act Act.Result Done} (ht : t ∈ c.threads) {id : String} (hid : id ∈ owned t) :
    0 < (c.shared.depth id).toInt := by
  have hcount : 0 < owners c id := List.countP_pos_iff.mpr ⟨t, ht, by simpa using hid⟩
  rw [hinv.depth id]
  omega

/-- A depth moves with the slots of the thread that acts. -/
theorem SlotStep.toInt_depth {p : Pool} {w w' : World} {before after : List String}
    (h : SlotStep p w w' before after) (hpos : ∀ id ∈ before, 0 < (w.depth id).toInt)
    (id : String) : (w'.depth id).toInt = (w.depth id).toInt -
      (if id ∈ before then 1 else 0) + (if id ∈ after then 1 else 0) := by
  cases h with
  | acquired hb hlt hdepth =>
      rw [hdepth]
      split
      · next hid =>
          subst hid
          rw [toInt_add_one hlt]
          simp
      · next hid => simp [hid]
  | released hdepth =>
      rw [hdepth]
      split
      · next hid =>
          subst hid
          rw [toInt_add_neg_one (hpos _ (List.mem_singleton_self _))]
          simp
      · next hid => simp [hid]
  | kept hdepth =>
      rw [hdepth]
      omega

/-- A slot is only acquired below the limit. -/
theorem SlotStep.depth_le {p : Pool} {w w' : World} {before after : List String}
    (h : SlotStep p w w' before after) (hpos : ∀ id ∈ before, 0 < (w.depth id).toInt)
    {id : String} {b : Backend} (hb : p.get id = some b) (hle : w.depth id ≤ b.maxConcurrent) :
    w'.depth id ≤ b.maxConcurrent := by
  have hmove := h.toInt_depth hpos id
  rw [Int64.le_iff_toInt_le] at hle ⊢
  cases h with
  | @acquired id' b' hb' hlt hdepth =>
      simp only [List.not_mem_nil, if_false, List.mem_singleton] at hmove
      split at hmove
      · next hid =>
          subst hid
          obtain rfl : b' = b := Option.some.inj (hb'.symm.trans hb)
          have hbelow := Int64.lt_iff_toInt_lt.mp hlt
          omega
      · omega
  | released hdepth =>
      simp only [List.not_mem_nil, if_false] at hmove
      split at hmove <;> omega
  | kept hdepth => rwa [hdepth]

/-- A thread holds at most one slot. -/
theorem SlotStep.length_le {p : Pool} {w w' : World} {before after : List String}
    (h : SlotStep p w w' before after) (hle : before.length ≤ 1) : after.length ≤ 1 := by
  cases h with
  | acquired hb hlt hdepth => exact Nat.le_refl 1
  | released hdepth => exact Nat.zero_le 1
  | kept hdepth => exact hle

/-- **One action keeps the counting invariant.** -/
theorem Counted.slotStep {p : Pool} {s s' : World} {threads : List (Thread Act Act.Result Done)}
    {i : ℕ} {t t' : Thread Act Act.Result Done} (hinv : Counted p ⟨s, threads⟩)
    (ht : threads[i]? = some t) (hslot : SlotStep p s s' (owned t) (owned t')) :
    Counted p ⟨s', threads.set i t'⟩ := by
  have hmem : t ∈ threads := List.mem_of_getElem? ht
  have hpos : ∀ id ∈ owned t, 0 < (s.depth id).toInt := fun id hid => hinv.depth_pos hmem hid
  exact hinv.replace ht (hslot.length_le (hinv.single t hmem)) (hslot.toInt_depth hpos)
    fun id b hb => hslot.depth_le hpos hb (hinv.limit id b hb)

/-- **One step keeps the counting invariant.** -/
theorem Counted.step {p : Pool} {s s' : World} {threads : List (Thread Act Act.Result Done)}
    {i : ℕ} {t : Thread Act Act.Result Done} {e : Option Event} {prog : Program Done}
    (hinv : Counted p ⟨s, threads⟩) (ht : threads[i]? = some t)
    (hok : ∀ x ∈ e, Allowed p t.trace x.1) (hstep : Prog.Step Act.sem t.prog s e prog s') :
    Counted p ⟨s', threads.set i ⟨t.trace ++ e.toList, prog⟩⟩ := by
  refine hinv.slotStep ht ?_
  cases e with
  | none =>
      obtain rfl : s' = s := hstep.sound.2
      rw [Option.toList_none, List.append_nil]
      exact .kept fun _ => rfl
  | some x =>
      obtain ⟨a, r⟩ := x
      obtain ⟨hsound, hs⟩ := hstep.sound
      obtain rfl : r = (a.sem s).1 := hsound ⟨a, r⟩ rfl
      obtain rfl : s' = (a.sem s).2 := hs
      exact KvRouter.slotStep s (hok ⟨a, (a.sem s).1⟩ rfl)

/-! ## Every reachable state -/

/-- At the start nobody owns a slot. -/
theorem counted_start (s : Server) {w : World} (hw : ∀ id, w.cells id = .fresh)
    (tasks : List Task) : Counted s.pool (System.start s w tasks) := by
  have howned : ∀ t ∈ (System.start s w tasks).threads, owned t = [] := by
    intro t ht
    obtain ⟨task, -, rfl⟩ := List.mem_map.mp ht
    rfl
  have hzero (id : String) : (System.start s w tasks).shared.depth id = 0 := by
    show (w.cells id).queueDepth = 0
    rw [hw id]
    rfl
  refine ⟨fun id => ?_, fun id b hb => ?_, fun t ht => ?_⟩
  · have hnone : owners (System.start s w tasks) id = 0 := by
      refine List.countP_eq_zero.mpr fun t ht => ?_
      simp [howned t ht]
    rw [hzero, hnone]
    rfl
  · rw [hzero]
    exact Int64.le_of_lt (s.pool.limited id b hb)
  · rw [howned t ht]
    exact Nat.zero_le 1

/-- **In every state of a run** the depths count the holders. -/
theorem counted_run {s : Server} {w : World} {tasks : List Task} (hw : ∀ id, w.cells id = .fresh)
    {log : Log} {c : System} (h : Steps (System.start s w tasks) log c) : Counted s.pool c := by
  induction h with
  | refl => exact counted_start s hw tasks
  | step hpath ht hstep ih =>
      obtain ⟨task, -, hobeys⟩ := thread_contract hpath ht
      exact ih.step ht (Prog.obeys_step hobeys hstep).1 hstep

/-- No reservation is leaked or released twice. -/
structure NoLeak (p : Pool) (c : System) : Prop where
  /-- The queue depth is the number of threads that own a slot. -/
  depth : ∀ id b, p.get id = some b → (c.shared.depth id).toInt = owners c id
  range : ∀ id b, p.get id = some b →
    0 ≤ (c.shared.depth id).toInt ∧ (c.shared.depth id).toInt ≤ b.maxConcurrent.toInt
  /-- Every thread owns at most one slot, on one backend. -/
  single : ∀ t ∈ c.threads, (owned t).length ≤ 1
  /-- A thread that has returned, however it ended, owns none. -/
  returned : ∀ t ∈ c.threads, ∀ x, t.prog = .ret x → owned t = []

/-- **No leaked or double-released reservation**: in every state that any number
of handlers and probes reach from a fresh pool, under every interleaving. -/
theorem no_leaked_reservation (s : Server) {w : World} (hw : ∀ id, w.cells id = .fresh)
    (tasks : List Task) {log : Log} {c : System} (h : Steps (System.start s w tasks) log c) :
    NoLeak s.pool c where
  depth id b _ := (counted_run hw h).depth id
  range id b hb := by
    have hinv := counted_run hw h
    have hdepth := hinv.depth id
    exact ⟨by omega, Int64.le_iff_toInt_le.mp (hinv.limit id b hb)⟩
  single := (counted_run hw h).single
  returned t ht x hx := by
    obtain ⟨i, hi⟩ := List.getElem?_of_mem ht
    obtain ⟨task, -, hobeys⟩ := thread_contract h hi
    rw [hx] at hobeys
    exact hobeys

/-- Two probes of a fresh backend and a request. -/
theorem no_leaked_reservation_run :
    let s := Sample.server Sample.pool
    let tasks := [.probe ⟨"a", "http://a", 1⟩ true, .probe ⟨"a", "http://a", 1⟩ true,
      .request (Sample.request default fun _ => default)]
    ∃ log c, Steps (System.start s .fresh tasks) log c ∧
      (∀ i < 3, ∃ trace x, c.threads[i]? = some ⟨trace, .ret x⟩) ∧ NoLeak s.pool c := by
  intro s tasks
  obtain ⟨log, c, hsteps, hdone⟩ := exists_run s .fresh tasks
  exact ⟨log, c, hsteps, hdone, no_leaked_reservation s (fun _ => rfl) tasks hsteps⟩

end KvRouter
