import KvRouter.Go
import KvRouter.Handler.Solo
import KvRouter.Lib.Ring

/-!
# KvRouter.Telemetry.Ring

`Recent`, and the ring it reads.  The events of a recorder are a ring buffer
that holds the newest events written to it (`holds_writeRing`), and `Recent`
walks back from the next slot.  Its index arithmetic is on 64-bit `int`s and
every access is checked; a capacity that `make` can allocate keeps the sum of
cursor and capacity in range.
-/

namespace KvRouter.Telemetry

/-! ## New and Recent -/

/-- The most events that `make` allocates, of 120 bytes each in a heap of `2 ^ 48`. -/
def maxEvents : ℤ := 2345624805922

/-- The run-time panics of `New` and `Recent`. -/
inductive Panic
  /-- `make` with a length out of range -/
  | makeslice
  /-- index out of range -/
  | index (index : ℤ)
deriving DecidableEq

/-- `New`. -/
def new (capacity : ℤ) : Except Panic Recorder :=
  if capacity > maxEvents then .error .makeslice else .ok (.new capacity)

/-- What `New` accepts is an empty recorder. -/
theorem eq_of_new {capacity : ℤ} {r : Recorder} (hnew : new capacity = .ok r) :
    r = .new capacity ∧ capacity ≤ maxEvents := by
  unfold new at hnew
  split at hnew
  · contradiction
  · next hmax =>
      rw [Except.ok.injEq] at hnew
      exact ⟨hnew.symm, Int.not_lt.mp hmax⟩

/-- A capacity that is not positive is replaced by the default. -/
theorem capacity_new (capacity : ℤ) :
    ((Recorder.new capacity).capacity : ℤ) = if capacity ≤ 0 then 1000 else capacity := by
  show ((if capacity ≤ 0 then 1000 else capacity.toNat : ℕ) : ℤ) = _
  split <;> omega

/-- `r.events[index]`. -/
def Recorder.eventAt (r : Recorder) (index : ℤ) : Except Panic RouteEvent :=
  if index < 0 then .error (.index index)
  else
    match r.events[index.toNat]? with
    | none => .error (.index index)
    | some event => .ok event

/-- The index that `Recent` reads in round `n`. -/
def Recorder.recentIndex (r : Recorder) (n : ℤ) : ℤ :=
  (wrapInt (wrapInt (wrapInt (r.next - 1) - n) + r.capacity)).tmod r.capacity

/-- The loop of `Recent` from round `n`, with some rounds to go. -/
def Recorder.recentLoop (r : Recorder) : ℕ → ℤ → List RouteEvent → Except Panic (List RouteEvent)
  | 0, _, result => .ok result
  | rounds + 1, n, result => do
      let event ← r.eventAt (r.recentIndex n)
      r.recentLoop rounds (n + 1) (result ++ [event])

/-- `Recent`. -/
def Recorder.recent (r : Recorder) (limit : ℤ) : Except Panic (List RouteEvent) :=
  let limit := if limit ≤ 0 ∨ limit > r.capacity then 100 else limit
  let limit := if limit > r.count then (r.count : ℤ) else limit
  r.recentLoop limit.toNat 0 []

/-! ## The ring -/

/-- The ring of a recorder holds the newest of the events `written`. -/
def Recorder.Holds (r : Recorder) (written : List RouteEvent) : Prop :=
  Ring.Holds r.events written r.next r.count

theorem holds_new (capacity : ℤ) : (Recorder.new capacity).Holds [] := by
  have hpos := (Recorder.new capacity).capacity_pos
  rw [← (Recorder.new capacity).length_events] at hpos
  exact Ring.Holds.start hpos

/-- A write is held, and drops the oldest event if the ring is full. -/
theorem holds_writeRing {r : Recorder} {written : List RouteEvent} (h : r.Holds written)
    (event : RouteEvent) : (r.writeRing event).Holds (written ++ [event]) := by
  have hwrite := Ring.Holds.write h event
  rw [Ring.advance, r.length_events] at hwrite
  exact hwrite

/-- The index of `Recent` is the one so many steps back. -/
theorem recentIndex_eq {r : Recorder} (hcap : (r.capacity : ℤ) ≤ maxEvents) {k : ℕ}
    (hk : k < r.count) : r.recentIndex k = Ring.back r.capacity r.next k := by
  have hnext := r.next_lt
  have hcount := r.count_le
  have hmax : 2 * (r.capacity : ℤ) < maxInt := by
    unfold maxEvents at hcap
    unfold maxInt
    omega
  have hsum : wrapInt (wrapInt (wrapInt (r.next - 1) - k) + r.capacity) =
      r.next - 1 - k + r.capacity := by
    have hlast : wrapInt (r.next - 1) = r.next - 1 := wrapInt_eq (by omega) (by omega)
    have hback : wrapInt (r.next - 1 - k) = r.next - 1 - k := wrapInt_eq (by omega) (by omega)
    rw [hlast, hback]
    exact wrapInt_eq (by omega) (by omega)
  rw [Recorder.recentIndex, hsum, Int.tmod_eq_emod_of_nonneg (by omega), Ring.back]
  split
  · next hlt =>
      rw [Int.add_emod_right, Int.emod_eq_of_lt (by omega) (by omega)]
      omega
  · next hge =>
      rw [Int.emod_eq_of_lt (by omega) (by omega)]
      omega

/-- The loop reads the newest events in order, and no index is out of range. -/
theorem recentLoop_eq {r : Recorder} {written : List RouteEvent} (h : r.Holds written)
    (hcap : (r.capacity : ℤ) ≤ maxEvents) {rounds n : ℕ} (hn : n + rounds ≤ r.count)
    (result : List RouteEvent) : r.recentLoop rounds n result =
      .ok (result ++ (written.reverse.drop n).take rounds) := by
  induction rounds generalizing n result with
  | zero => simp [Recorder.recentLoop]
  | succ rounds ih =>
      obtain ⟨event, hread, hdrop⟩ := Ring.Holds.read h (k := n) (by omega)
      have hevent : r.eventAt (r.recentIndex n) = .ok event := by
        have hnonneg : ¬ ((Ring.back r.capacity r.next n : ℕ) : ℤ) < 0 := by omega
        rw [r.length_events] at hread
        rw [recentIndex_eq hcap (Nat.lt_of_lt_of_le (by omega) hn), Recorder.eventAt,
          if_neg hnonneg, Int.toNat_natCast, hread]
      have hrest := ih (n := n + 1) (by omega) (result ++ [event])
      rw [Nat.cast_add, Nat.cast_one] at hrest
      rw [Recorder.recentLoop, hevent, hdrop, List.take_succ_cons, List.append_cons]
      exact hrest

/-- The limit of `Recent`, as far as it depends on the capacity. -/
def effectiveLimit (capacity : ℕ) (limit : ℤ) : ℕ :=
  if 1 ≤ limit ∧ limit ≤ capacity then limit.toNat else 100

/-- **What `Recent` returns**: the newest events, as many as there are and the limit allows. -/
theorem recent_eq {r : Recorder} {written : List RouteEvent} (h : r.Holds written)
    (hcap : (r.capacity : ℤ) ≤ maxEvents) (limit : ℤ) : r.recent limit =
      .ok (written.reverse.take (min (effectiveLimit r.capacity limit) r.count)) := by
  unfold Recorder.recent
  dsimp only
  have hlimit : (if limit ≤ 0 ∨ limit > r.capacity then 100 else limit) =
      (effectiveLimit r.capacity limit : ℤ) := by
    unfold effectiveLimit
    split_ifs <;> omega
  have hrounds : (if (effectiveLimit r.capacity limit : ℤ) > r.count then (r.count : ℤ)
      else effectiveLimit r.capacity limit).toNat =
        min (effectiveLimit r.capacity limit) r.count := by
    split <;> omega
  rw [hlimit, hrounds]
  exact recentLoop_eq (n := 0) h hcap (by omega) []

/-- What `New` accepts has room for no more than the largest number of events. -/
theorem capacity_le_of_new {capacity : ℤ} {r : Recorder} (hnew : new capacity = .ok r) :
    (r.capacity : ℤ) ≤ maxEvents := by
  obtain ⟨rfl, hmax⟩ := eq_of_new hnew
  rw [capacity_new]
  split
  · decide
  · exact hmax

/-! ## Sequences of Record -/

/-- **A record is held.** -/
theorem holds_record {r : Recorder} {written : List RouteEvent} (h : r.Holds written)
    (event : RouteEvent) (now : ℤ) : (r.record event now).Holds
      (written ++ [{ event with id := r.sequence + 1, timestamp := now }]) := by
  -- the counters are no part of the ring
  unfold Recorder.record
  refine holds_writeRing ?_ _
  exact h

/-- The recorder after some calls of `Record`, each with its reading of the clock. -/
def Recorder.recordAll (r : Recorder) (calls : List (RouteEvent × ℤ)) : Recorder :=
  calls.foldl (fun r call => r.record call.1 call.2) r

/-- The events of some calls as `Record` stores them, when `sequence` IDs are given out. -/
def stamped : UInt64 → List (RouteEvent × ℤ) → List RouteEvent
  | _, [] => []
  | sequence, (event, now) :: calls =>
      { event with id := sequence + 1, timestamp := now } :: stamped (sequence + 1) calls

theorem length_stamped (sequence : UInt64) (calls : List (RouteEvent × ℤ)) :
    (stamped sequence calls).length = calls.length := by
  induction calls generalizing sequence with
  | nil => rfl
  | cons call calls ih => simp [stamped, ih]

@[simp] theorem capacity_recordAll (r : Recorder) (calls : List (RouteEvent × ℤ)) :
    (r.recordAll calls).capacity = r.capacity := by
  induction calls generalizing r with
  | nil => rfl
  | cons call calls ih => exact ih _

/-- Records one after another are held. -/
theorem holds_recordAll {r : Recorder} {written : List RouteEvent} (h : r.Holds written)
    (calls : List (RouteEvent × ℤ)) :
    (r.recordAll calls).Holds (written ++ stamped r.sequence calls) := by
  induction calls generalizing r written with
  | nil =>
      rw [stamped, List.append_nil]
      exact h
  | cons call calls ih =>
      have hrest := ih (holds_record h call.1 call.2)
      rw [List.append_assoc] at hrest
      exact hrest

/-- **The event ring keeps exactly the newest events**, for every capacity that `New` accepts. -/
theorem recent_newest {capacity : ℤ} {r : Recorder} (hnew : new capacity = .ok r)
    (calls : List (RouteEvent × ℤ)) (limit : ℤ) :
    (r.capacity : ℤ) = (if capacity ≤ 0 then 1000 else capacity) ∧
    (r.recordAll calls).next < (r.recordAll calls).events.length ∧
    (r.recordAll calls).recent limit = .ok ((stamped 0 calls).reverse.take
      (min (if 1 ≤ limit ∧ limit ≤ r.capacity then limit.toNat else 100)
        (min calls.length r.capacity))) := by
  have hmax := capacity_le_of_new hnew
  obtain ⟨rfl, -⟩ := eq_of_new hnew
  have hholds := holds_recordAll (holds_new capacity) calls
  have hcount := Ring.Holds.count_eq hholds
  rw [List.nil_append, length_stamped, Recorder.length_events, capacity_recordAll] at hcount
  refine ⟨capacity_new capacity, Ring.Holds.next_lt hholds, ?_⟩
  rw [recent_eq hholds (by rwa [capacity_recordAll]), hcount, capacity_recordAll]
  rfl

/-- A ring of two events after three calls. -/
theorem recent_newest_two :
    let calls : List (RouteEvent × ℤ) := [(.zero, 1), (.zero, 2), (.zero, 3)]
    ((Recorder.new 2).recordAll calls).recent 0 =
      .ok [{ RouteEvent.zero with id := 3, timestamp := 3 },
        { RouteEvent.zero with id := 2, timestamp := 2 }] :=
  have hnew : new 2 = .ok (.new 2) := rfl
  (recent_newest hnew [(.zero, 1), (.zero, 2), (.zero, 3)] 0).2.2

end KvRouter.Telemetry
