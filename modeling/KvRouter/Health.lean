import KvRouter.World
import KvRouter.Lib.Latch

/-!
# KvRouter.Health

Health hysteresis.  `probe` keeps two run lengths, which are not reset when the
state flips and wrap at `2^31`, and counts the flips.  `Coupled` ties these
counters to the whole history of probes: as long as a backend is healthy its run
of failures is below three, and as long as it is not its run of successes is
below two, so a wrapped counter never meets a flip that could happen.
-/

namespace KvRouter

open Prog Latch

/-! ## A probe on its own -/

/-- The atomics of a backend after a probe of it. -/
def Cells.probed (c : Cells) (ping : Bool) : Cells :=
  if ping then
    let counted := { c with
      consecutiveFails := 0, consecutiveSuccesses := c.consecutiveSuccesses + 1 }
    if c.consecutiveSuccesses + 1 ≥ healthyAfter ∧ c.healthy = false then
      { counted with healthy := true, healthyTransitions := c.healthyTransitions + 1 }
    else counted
  else
    let counted := { c with
      consecutiveSuccesses := 0, consecutiveFails := c.consecutiveFails + 1 }
    if c.consecutiveFails + 1 ≥ unhealthyAfter ∧ c.healthy = true then
      { counted with healthy := false, unhealthyTransitions := c.unhealthyTransitions + 1 }
    else counted

@[simp] theorem cells_updateCells_self (w : World) (id : String) (f : Cells → Cells) :
    (w.updateCells id f).cells id = f (w.cells id) := by
  simp [World.updateCells]

@[simp] theorem updateCells_updateCells (w : World) (id : String) (f g : Cells → Cells) :
    (w.updateCells id f).updateCells id g = w.updateCells id fun c => g (f c) := by
  simp [World.updateCells]

/-- Only the cells of the backend matter to an update of it. -/
theorem updateCells_congr {w : World} {id : String} {f g : Cells → Cells}
    (h : f (w.cells id) = g (w.cells id)) : w.updateCells id f = w.updateCells id g := by
  rw [World.updateCells, h, World.updateCells]

/-- The flip of the state that both branches of `probe` end with. -/
theorem exec_flip (n : ℕ) (id : String) (c : Prop) [Decidable c] (old new : Bool) (count : Act)
    (w : World) :
    exec Act.sem n (if c then do
        let swapped : Bool ← act (.casHealthy id old new)
        if swapped then
          let _ ← act count
          return
        else return
      else return) w = some ((), if c ∧ (w.cells id).healthy = old then
        (count.sem (w.updateCells id fun c => { c with healthy := new })).2 else w) := by
  by_cases hc : c
  · let cas := Act.casHealthy id old new
    rw [if_pos hc]
    show exec Act.sem n (ite ((cas.sem w).1 = true) _ _) (cas.sem w).2 = _
    by_cases hold : (w.cells id).healthy = old
    · have hcas : cas.sem w = (true, w.updateCells id fun c => { c with healthy := new }) :=
        if_pos hold
      have hboth : c ∧ (w.cells id).healthy = old := ⟨hc, hold⟩
      rw [hcas, if_pos rfl, if_pos hboth]
      rfl
    · have hcas : cas.sem w = (false, w) := if_neg hold
      rw [hcas, if_neg (not_and_of_not_right _ hold)]
      rfl
  · rw [if_neg hc, if_neg (not_and_of_not_left _ hc)]
    rfl

/-- A probe on its own applies its outcome. -/
theorem exec_probe (n : ℕ) (b : Backend) (ping : Bool) (w : World) :
    exec Act.sem n (probe b ping) w = some ((), w.updateCells b.id fun c => c.probed ping) := by
  cases ping with
  | false =>
      refine (exec_flip n b.id _ true false (.addUnhealthyTransitions b.id 1) _).trans ?_
      dsimp only [Act.sem]
      simp only [cells_updateCells_self, updateCells_updateCells]
      congr 2
      split
      · next h => exact updateCells_congr (by simp [Cells.probed, h])
      · next h => exact updateCells_congr (by simp [Cells.probed, h])
  | true =>
      refine (exec_flip n b.id _ false true (.addHealthyTransitions b.id 1) _).trans ?_
      dsimp only [Act.sem]
      simp only [cells_updateCells_self, updateCells_updateCells]
      congr 2
      split
      · next h => exact updateCells_congr (by simp [Cells.probed, h])
      · next h => exact updateCells_congr (by simp [Cells.probed, h])

/-! ## A sequence of probes -/

/-- Probes of one backend, one after another. -/
def probes (b : Backend) : List Bool → Program Unit
  | [] => return
  | ping :: pings => do
      probe b ping
      probes b pings

/-- Probes one after another apply their outcomes in order. -/
theorem exec_probes (n : ℕ) (b : Backend) (pings : List Bool) (w : World) :
    exec Act.sem n (probes b pings) w =
      some ((), w.updateCells b.id fun c => pings.foldl Cells.probed c) := by
  induction pings generalizing w with
  | nil => simp [probes, World.updateCells]
  | cons ping pings ih =>
      rw [probes, bind_eq, exec_bind, exec_probe, Option.bind_some, ih, updateCells_updateCells]
      rfl

/-! ## The history -/

/-- Healthy by the history of probes: some point ends two consecutive successes
and no later point ends three consecutive failures. -/
def HealthyBy (pings : List Bool) : Prop :=
  Held (List.replicate 2 true <:+ ·) (List.replicate 3 false <:+ ·) pings

instance : DecidablePred HealthyBy := fun pings =>
  inferInstanceAs
    (Decidable (Held (List.replicate 2 true <:+ ·) (List.replicate 3 false <:+ ·) pings))

theorem not_healthyBy_nil : ¬ HealthyBy [] := by decide

/-- A success admits what one success before it, or health, would. -/
theorem healthyBy_success (pings : List Bool) :
    HealthyBy (pings ++ [true]) ↔ 1 ≤ trailing true pings ∨ HealthyBy pings := by
  have hset : List.replicate 2 true <:+ pings ++ [true] ↔ 1 ≤ trailing true pings := by
    rw [replicate_suffix_iff, trailing_concat_self]
    omega
  have hreset : ¬ List.replicate 3 false <:+ pings ++ [true] := by
    rw [replicate_suffix_iff, trailing_concat_of_ne (by decide)]
    omega
  rw [HealthyBy, held_concat, hset, and_iff_left hreset]
  rfl

/-- A failure keeps health unless two came before it. -/
theorem healthyBy_failure (pings : List Bool) :
    HealthyBy (pings ++ [false]) ↔ HealthyBy pings ∧ trailing false pings < 2 := by
  have hset : ¬ List.replicate 2 true <:+ pings ++ [false] := by
    rw [replicate_suffix_iff, trailing_concat_of_ne (by decide)]
    omega
  have hreset : ¬ List.replicate 3 false <:+ pings ++ [false] ↔ trailing false pings < 2 := by
    rw [replicate_suffix_iff, trailing_concat_self]
    omega
  rw [HealthyBy, held_concat, or_iff_right hset, hreset]
  rfl

/-! ## The coupling -/

/-- The atomics of a backend after a history of probes. -/
structure Coupled (pings : List Bool) (c : Cells) : Prop where
  healthy : c.healthy = true ↔ HealthyBy pings
  fails : c.consecutiveFails = Int32.ofNat (trailing false pings)
  successes : c.consecutiveSuccesses = Int32.ofNat (trailing true pings)
  ups : c.healthyTransitions = UInt64.ofNat (rises HealthyBy pings)
  downs : c.unhealthyTransitions = UInt64.ofNat (falls HealthyBy pings)
  /-- A run of failures that could flip a healthy backend has not wrapped. -/
  fails_le : HealthyBy pings → trailing false pings ≤ 2
  successes_le : ¬ HealthyBy pings → trailing true pings ≤ 1

/-- Fresh cells follow the empty history. -/
theorem coupled_fresh : Coupled [] .fresh where
  healthy := by simp [Cells.fresh, not_healthyBy_nil]
  fails := rfl
  successes := rfl
  ups := rfl
  downs := rfl
  fails_le := fun _ => Nat.zero_le 2
  successes_le := fun _ => Nat.zero_le 1

/-- The thresholds on run lengths that are in range. -/
theorem unhealthyAfter_le_iff {n : ℕ} (h : n ≤ 2) :
    Int32.ofNat n + 1 ≥ unhealthyAfter ↔ ¬ n < 2 := by
  have hall : ∀ n ≤ 2, (Int32.ofNat n + 1 ≥ unhealthyAfter ↔ ¬ n < 2) := by decide
  exact hall n h

theorem healthyAfter_le_iff {n : ℕ} (h : n ≤ 1) :
    Int32.ofNat n + 1 ≥ healthyAfter ↔ 1 ≤ n := by
  have hall : ∀ n ≤ 1, (Int32.ofNat n + 1 ≥ healthyAfter ↔ 1 ≤ n) := by decide
  exact hall n h

/-- A change of `HealthyBy` counts, once. -/
theorem ofNat_rises {pings : List Bool} {ping : Bool} {n : UInt64}
    (h : n = UInt64.ofNat (rises HealthyBy pings)) :
    UInt64.ofNat (rises HealthyBy (pings ++ [ping])) =
      if ¬ HealthyBy pings ∧ HealthyBy (pings ++ [ping]) then n + 1 else n := by
  rw [rises_concat, UInt64.ofNat_add, ← h]
  split
  · rfl
  · exact UInt64.add_zero n

/-- The counter of falls grows exactly when health is lost. -/
theorem ofNat_falls {pings : List Bool} {ping : Bool} {n : UInt64}
    (h : n = UInt64.ofNat (falls HealthyBy pings)) :
    UInt64.ofNat (falls HealthyBy (pings ++ [ping])) =
      if HealthyBy pings ∧ ¬ HealthyBy (pings ++ [ping]) then n + 1 else n := by
  rw [falls_concat, UInt64.ofNat_add, ← h]
  split
  · rfl
  · exact UInt64.add_zero n

/-- A run that grows or is cut, as `probe` counts it. -/
theorem ofNat_trailing (a ping : Bool) (pings : List Bool) :
    Int32.ofNat (trailing a (pings ++ [ping])) =
      if ping = a then Int32.ofNat (trailing a pings) + 1 else 0 := by
  split
  · next h =>
      rw [h, trailing_concat_self, Int32.ofNat_add]
      rfl
  · next h =>
      rw [trailing_concat_of_ne h]
      rfl

/-- The failures that flip the state are those that end `HealthyBy`. -/
theorem Coupled.fall_iff {pings : List Bool} {c : Cells} (h : Coupled pings c) :
    (c.consecutiveFails + 1 ≥ unhealthyAfter ∧ c.healthy = true) ↔
      HealthyBy pings ∧ ¬ HealthyBy (pings ++ [false]) := by
  rw [h.healthy, healthyBy_failure, h.fails]
  constructor
  · intro hc
    exact ⟨hc.2, fun hafter => (unhealthyAfter_le_iff (h.fails_le hc.2)).mp hc.1 hafter.2⟩
  · intro hc
    exact ⟨(unhealthyAfter_le_iff (h.fails_le hc.1)).mpr fun hlt => hc.2 ⟨hc.1, hlt⟩, hc.1⟩

/-- The code admits exactly when the history does. -/
theorem Coupled.rise_iff {pings : List Bool} {c : Cells} (h : Coupled pings c) :
    (c.consecutiveSuccesses + 1 ≥ healthyAfter ∧ c.healthy = false) ↔
      ¬ HealthyBy pings ∧ HealthyBy (pings ++ [true]) := by
  rw [← Bool.not_eq_true, h.healthy, healthyBy_success, h.successes]
  constructor
  · intro hc
    exact ⟨hc.2, Or.inl ((healthyAfter_le_iff (h.successes_le hc.2)).mp hc.1)⟩
  · intro hc
    exact ⟨(healthyAfter_le_iff (h.successes_le hc.1)).mpr (hc.2.resolve_right hc.1), hc.1⟩

/-- A probe flips the state, and counts the flip, exactly when the history says so. -/
theorem Coupled.probed_eq {pings : List Bool} {c : Cells} (h : Coupled pings c) (ping : Bool) :
    c.probed ping = { c with
      consecutiveFails := if ping = false then c.consecutiveFails + 1 else 0
      consecutiveSuccesses := if ping = true then c.consecutiveSuccesses + 1 else 0
      healthy := decide (HealthyBy (pings ++ [ping]))
      healthyTransitions := if ¬ HealthyBy pings ∧ HealthyBy (pings ++ [ping]) then
        c.healthyTransitions + 1 else c.healthyTransitions
      unhealthyTransitions := if HealthyBy pings ∧ ¬ HealthyBy (pings ++ [ping]) then
        c.unhealthyTransitions + 1 else c.unhealthyTransitions } := by
  have hhealthy : c.healthy = decide (HealthyBy pings) := by
    rw [Bool.eq_iff_iff, h.healthy, decide_eq_true_iff]
  cases ping with
  | false =>
      have hno : HealthyBy (pings ++ [false]) → HealthyBy pings := by
        rw [healthyBy_failure]
        exact And.left
      simp only [Cells.probed, h.fall_iff]
      by_cases hbefore : HealthyBy pings
      · by_cases hafter : HealthyBy (pings ++ [false]) <;> simp [hbefore, hafter, hhealthy]
      · simp [hbefore, mt hno hbefore, hhealthy]
  | true =>
      have hno : HealthyBy pings → HealthyBy (pings ++ [true]) := by
        rw [healthyBy_success]
        exact Or.inr
      simp only [Cells.probed, h.rise_iff]
      by_cases hbefore : HealthyBy pings
      · simp [hbefore, hno hbefore, hhealthy]
      · by_cases hafter : HealthyBy (pings ++ [true]) <;> simp [hbefore, hafter, hhealthy]

/-- **A probe keeps the coupling.** -/
theorem Coupled.probed {pings : List Bool} {c : Cells} (h : Coupled pings c) (ping : Bool) :
    Coupled (pings ++ [ping]) (c.probed ping) := by
  rw [h.probed_eq]
  constructor
  · exact decide_eq_true_iff
  · rw [ofNat_trailing, ← h.fails]
  · rw [ofNat_trailing, ← h.successes]
  · rw [ofNat_rises h.ups]
  · rw [ofNat_falls h.downs]
  · cases ping with
    | false =>
        rw [healthyBy_failure, trailing_concat_self]
        omega
    | true =>
        rw [trailing_concat_of_ne (by decide)]
        omega
  · cases ping with
    | false =>
        rw [trailing_concat_of_ne (by decide)]
        omega
    | true =>
        rw [healthyBy_success, trailing_concat_self]
        omega

/-- The coupling holds after every history. -/
theorem coupled_run (pings : List Bool) : Coupled pings (pings.foldl Cells.probed .fresh) := by
  induction pings using List.reverseRecOn with
  | nil => exact coupled_fresh
  | append_singleton pings ping ih =>
      rw [List.foldl_append, List.foldl_cons, List.foldl_nil]
      exact ih.probed ping

/-! ## Hysteresis -/

/-- What a history of probes leaves in the atomics of a backend. -/
structure Hysteresis (pings : List Bool) (c : Cells) : Prop where
  healthy : c.healthy = true ↔ HealthyBy pings
  /-- The counters count the flips, modulo `2^64`. -/
  healthyTransitions : c.healthyTransitions.toNat = rises HealthyBy pings % 2 ^ 64
  unhealthyTransitions : c.unhealthyTransitions.toNat = falls HealthyBy pings % 2 ^ 64
  /-- Their difference, as a `uint64`, shows the state. -/
  difference : c.healthyTransitions - c.unhealthyTransitions = if HealthyBy pings then 1 else 0

/-- **Health hysteresis**: for every sequence of probes of a fresh backend, the
wrap of the run lengths included. -/
theorem health_hysteresis (b : Backend) (pings : List Bool) {w : World}
    (hw : w.cells b.id = .fresh) (n : ℕ) :
    ∃ w', exec Act.sem n (probes b pings) w = some ((), w') ∧ Hysteresis pings (w'.cells b.id) := by
  refine ⟨_, exec_probes n b pings w, ?_⟩
  rw [cells_updateCells_self, hw]
  have hcoupled := coupled_run pings
  constructor
  · exact hcoupled.healthy
  · rw [hcoupled.ups, UInt64.toNat_ofNat']
  · rw [hcoupled.downs, UInt64.toNat_ofNat']
  · rw [hcoupled.ups, hcoupled.downs, rises_eq_falls_add HealthyBy not_healthyBy_nil,
      UInt64.ofNat_add, UInt64.add_comm, UInt64.add_sub_cancel]
    split <;> rfl

/-- A world in which nothing has happened yet. -/
def World.fresh : World := ⟨fun _ => .fresh, .new, .new 10⟩

/-- A backend that comes up and goes down again. -/
theorem health_hysteresis_flap : ∃ w',
    exec Act.sem 0 (probes ⟨"a", "http://a", 1⟩ [true, true, false, false, false]) .fresh =
      some ((), w') ∧ Hysteresis [true, true, false, false, false] (w'.cells "a") :=
  health_hysteresis ⟨"a", "http://a", 1⟩ [true, true, false, false, false] rfl 0

/-- `n` times up and down. -/
def flaps : ℕ → List Bool
  | 0 => []
  | n + 1 => flaps n ++ [true, true, false, false, false]

/-- Each flap is one rise. -/
theorem rises_flaps (n : ℕ) : ¬ HealthyBy (flaps n) ∧ trailing true (flaps n) = 0 ∧
    rises HealthyBy (flaps n) = n := by
  induction n with
  | zero => exact ⟨not_healthyBy_nil, rfl, rfl⟩
  | succ n ih =>
      obtain ⟨hdown, htrailing, hcount⟩ := ih
      have hsplit : flaps (n + 1) =
          flaps n ++ [true] ++ [true] ++ [false] ++ [false] ++ [false] := by simp [flaps]
      rw [hsplit]
      simp [-List.append_assoc, rises_concat, healthyBy_success, healthyBy_failure,
        trailing_concat_of_ne, hdown, htrailing, hcount]

/-- After `2^64` flaps the counter of rises is back at zero. -/
theorem transitions_wrap : ∃ w',
    exec Act.sem 0 (probes ⟨"a", "http://a", 1⟩ (flaps (2 ^ 64))) .fresh = some ((), w') ∧
      (w'.cells "a").healthyTransitions = 0 ∧ rises HealthyBy (flaps (2 ^ 64)) = 2 ^ 64 := by
  obtain ⟨-, -, hcount⟩ := rises_flaps (2 ^ 64)
  refine ⟨_, exec_probes 0 _ _ _, ?_, hcount⟩
  rw [cells_updateCells_self]
  show ((flaps (2 ^ 64)).foldl Cells.probed .fresh).healthyTransitions = 0
  rw [(coupled_run _).ups, hcount]
  rfl

end KvRouter
