import KvRouter.Lib.Sorting
import KvRouter.Telemetry.Consistency

/-!
# KvRouter.Telemetry.Order

The order of the events that `Recent` returns.  `Record` draws its ID before it
takes the lock under which it writes the ring, so the order of the IDs is the
order of the draws (`drawn_id`), and the order of the ring is the order of the
writes (`holds_run`).  The newest events come in the order of their IDs exactly
as long as the calls that wrote them have drawn in that order.
-/

namespace KvRouter.Telemetry

open Interleave Prog

/-- The events written to the ring, in order. -/
def written (log : CallLog) : List RouteEvent := log.filterMap fun x => writtenBy x.event.1

/-- What an action does to the IDs. -/
theorem sequence_step {h : List CallEvent} {a : CallAct} (ha : Disciplined h a) (w : World) :
    (callSem a w).2.telemetry.sequence =
      w.telemetry.sequence + if draws a then 1 else 0 := by
  obtain ⟨k, rfl⟩ | rfl | ⟨event, rfl⟩ | hidle := telemetry_step ha
  · cases k <;> simp [draws, Counter.increment, both, Act.sem]
  · simp [draws, both, Act.sem]
  · simp [draws, both, Act.sem, Recorder.writeRing]
  · simp [hidle.draws, hidle.same]

/-- What an action does to the ring. -/
theorem ring_step {h : List CallEvent} {a : CallAct} (ha : Disciplined h a) {w : World}
    {events : List RouteEvent} (hw : w.telemetry.Holds events) :
    (callSem a w).2.telemetry.capacity = w.telemetry.capacity ∧
      (callSem a w).2.telemetry.Holds (events ++ (writtenBy a).toList) := by
  obtain ⟨k, rfl⟩ | rfl | ⟨event, rfl⟩ | hidle := telemetry_step ha
  · rw [writtenBy_increment, Option.toList_none, List.append_nil]
    cases k <;> exact ⟨rfl, hw⟩
  · have hwrites : writtenBy (.inl (.addSequence 1)) = none := rfl
    rw [hwrites, Option.toList_none, List.append_nil]
    exact ⟨rfl, hw⟩
  · exact ⟨rfl, holds_writeRing hw event⟩
  · rw [hidle.writtenBy, hidle.same, Option.toList_none, List.append_nil]
    exact ⟨rfl, hw⟩

/-- The lists that `Recent` returns are the parts of one list, all the events of the ring. -/
theorem recent_pairwise_iff {r : Recorder} {events : List RouteEvent} (h : r.Holds events)
    (hcap : (r.capacity : ℤ) ≤ maxEvents) {R : RouteEvent → RouteEvent → Prop} :
    (∀ limit, ∃ recent, r.recent limit = .ok recent ∧ recent.Pairwise R) ↔
      (events.drop (events.length - r.capacity)).Pairwise fun e e' => R e' e := by
  have hcount := Ring.Holds.count_eq h
  rw [r.length_events] at hcount
  have hring : events.reverse.take r.count =
      (events.drop (events.length - r.capacity)).reverse := by
    rw [List.take_reverse, hcount]
    congr 2
    omega
  rw [← List.pairwise_reverse, ← hring]
  constructor
  · intro hall
    obtain ⟨recent, heq, hpairwise⟩ := hall r.capacity
    have hpos := r.capacity_pos
    have hlimit : effectiveLimit r.capacity r.capacity = r.capacity := by
      rw [effectiveLimit, if_pos (by omega), Int.toNat_natCast]
    rw [recent_eq h hcap, hlimit, Nat.min_eq_right r.count_le, Except.ok.injEq] at heq
    rwa [heq]
  · intro hpairwise limit
    refine ⟨_, recent_eq h hcap limit, ?_⟩
    rw [← List.take_take]
    exact hpairwise.sublist (List.take_sublist _ _)

section
variable {w : World} {r : Recorder} {calls : List Call} {log : CallLog} {c : Calls} {capacity : ℤ}

/-- The ring holds the newest of the events written. -/
theorem holds_run (h : Path callSem (Calls.start w r calls) log c) (hnew : new capacity = .ok r) :
    c.shared.telemetry.capacity = r.capacity ∧ c.shared.telemetry.Holds (written log) := by
  obtain ⟨rfl, -⟩ := eq_of_new hnew
  refine h.invariant (I := fun log w => w.telemetry.capacity = (Recorder.new capacity).capacity ∧
    w.telemetry.Holds (written log)) ⟨rfl, holds_new capacity⟩ ?_
  intro earlier x later hlog hnow
  obtain ⟨hcapacity, hholds⟩ := ring_step (disciplined h hlog) hnow.2
  refine ⟨hcapacity.trans hnow.1, ?_⟩
  have hwritten : written (earlier ++ [x]) = written earlier ++ (writtenBy x.event.1).toList := by
    rw [written, List.filterMap_append, List.filterMap_cons]
    cases writtenBy x.event.1 <;> rfl
  rwa [hwritten]

/-- The sequence is the number of IDs drawn. -/
theorem sequence_run (h : Path callSem (Calls.start w r calls) log c)
    (hnew : new capacity = .ok r) :
    c.shared.telemetry.sequence = UInt64.ofNat (doers draws log).length := by
  obtain ⟨rfl, -⟩ := eq_of_new hnew
  have hcount := h.counts (f := fun w => w.telemetry.sequence) draws
    fun _ x _ hlog => sequence_step (disciplined h hlog) x.before
  exact hcount.trans (UInt64.zero_add _)

/-- No call draws two IDs. -/
theorem nodup_draws (h : Path callSem (Calls.start w r calls) log c) : (doers draws log).Nodup :=
  nodup_doers _ fun _ _ _ hlog hx => ((disciplined h hlog).draws hx).2

/-- **The IDs are in the order of the draws.** -/
theorem drawn_id (h : Path callSem (Calls.start w r calls) log c) (hnew : new capacity = .ok r)
    {i : ℕ} {id : UInt64} (hdrawn : (⟨.inl (.addSequence 1), id⟩ : CallEvent) ∈ own i log) :
    i ∈ doers draws log ∧ id = UInt64.ofNat ((doers draws log).idxOf i + 1) := by
  have hmem : i ∈ doers draws log := (mem_doers draws).mpr ⟨_, hdrawn, rfl⟩
  refine ⟨hmem, ?_⟩
  obtain ⟨x, hx, rfl, hevent⟩ := mem_own.mp hdrawn
  obtain ⟨earlier, later, hlog⟩ := List.append_of_mem hx
  obtain ⟨threads, hbefore⟩ := h.before hlog
  have hsound := h.sound x hx
  rw [hevent] at hsound
  have hid : id = x.before.telemetry.sequence + 1 := hsound
  have hsequence : x.before.telemetry.sequence = UInt64.ofNat (doers draws earlier).length :=
    sequence_run hbefore hnew
  have hdraws : draws x.event.1 = true := by
    rw [hevent]
    rfl
  have hsplit : doers draws log = doers draws earlier ++ x.who :: doers draws later := by
    rw [hlog, doers_append, doers_cons, if_pos hdraws]
  have hfresh : x.who ∉ doers draws earlier := by
    have hnodup := nodup_draws h
    rw [hsplit, List.nodup_middle, List.nodup_cons, List.mem_append] at hnodup
    exact fun hmem => hnodup.1 (.inl hmem)
  rw [hid, hsequence, hsplit, List.idxOf_append_of_notMem hfresh, List.idxOf_cons_self,
    Nat.add_zero, UInt64.ofNat_add]
  rfl

/-- **The IDs of the events written** are those that the calls have drawn. -/
theorem written_ids (h : Path callSem (Calls.start w r calls) log c)
    (hnew : new capacity = .ok r) : (written log).map (·.id) =
      (doers writes log).map fun i => UInt64.ofNat ((doers draws log).idxOf i + 1) := by
  have hid (x) (hx : x ∈ log) (event : RouteEvent) (hevent : writtenBy x.event.1 = some event) :
      event.id = UInt64.ofNat ((doers draws log).idxOf x.who + 1) := by
    obtain ⟨earlier, later, hlog⟩ := List.append_of_mem hx
    have hdrawn := ((disciplined h hlog).writes event hevent).2
    refine (drawn_id h hnew (i := x.who) ?_).2
    rw [hlog, own_append]
    exact List.mem_append_left _ hdrawn
  -- the draws are those of the whole log
  generalize doers draws log = drawn at hid
  clear h
  induction log with
  | nil => rfl
  | cons x log ih =>
      have hrest := ih fun y hy => hid y (List.mem_cons_of_mem x hy)
      have hfirst := hid x (List.mem_cons_self ..)
      rw [written] at hrest ⊢
      rw [doers_cons, writes, List.filterMap_cons]
      cases hwritten : writtenBy x.event.1 with
      | none => exact hrest
      | some event => simpa [hfirst event hwritten] using hrest

/-- Whoever writes has drawn. -/
theorem subset_draws (h : Path callSem (Calls.start w r calls) log c) :
    doers writes log ⊆ doers draws log :=
  doers_subset _ fun earlier x later hlog hx => by
    obtain ⟨event, hevent⟩ := Option.isSome_iff_exists.mp hx
    exact ⟨_, ((disciplined h hlog).writes event hevent).2, rfl⟩

/-- **`Recent` lists the newest ID first**, for every limit, exactly in the states in which the
calls that have written the newest events, as many as the ring holds, have written them in the
order in which they had drawn their IDs. -/
theorem recent_descending_iff (hnew : new capacity = .ok r)
    (h : Path callSem (Calls.start w r calls) log c)
    (hfew : (doers draws log).length < 2 ^ 64) :
    (∀ limit, ∃ events, c.shared.telemetry.recent limit = .ok events ∧
      events.Pairwise fun e e' => e.id > e'.id) ↔
    ((doers writes log).drop ((doers writes log).length - r.capacity)).Sublist
      (doers draws log) := by
  obtain ⟨hcapacity, hholds⟩ := holds_run h hnew
  have hcap : (c.shared.telemetry.capacity : ℤ) ≤ maxEvents := hcapacity ▸ capacity_le_of_new hnew
  have hids := written_ids h hnew
  have hlength : (written log).length = (doers writes log).length := by
    simpa using congrArg List.length hids
  rw [recent_pairwise_iff hholds hcap, hcapacity, hlength]
  generalize (doers writes log).length - r.capacity = older
  have hsubset : (doers writes log).drop older ⊆ doers draws log :=
    fun i hi => subset_draws h (List.mem_of_mem_drop hi)
  have hwriters : ((written log).drop older).Pairwise (fun e e' => e'.id > e.id) ↔
      ((doers writes log).drop older).Pairwise fun i j =>
        UInt64.ofNat ((doers draws log).idxOf i + 1) <
          UInt64.ofNat ((doers draws log).idxOf j + 1) := by
    have hmap := congrArg (List.drop older) hids
    rw [← List.map_drop, ← List.map_drop] at hmap
    rw [← List.pairwise_map (f := fun i => UInt64.ofNat ((doers draws log).idxOf i + 1))
      (R := (· < ·)), ← hmap, List.pairwise_map]
  have hbound {i : ℕ} (hi : i ∈ (doers writes log).drop older) :
      (doers draws log).idxOf i + 1 < UInt64.size :=
    Nat.lt_of_le_of_lt (List.idxOf_lt_length_of_mem (hsubset hi)) hfew
  rw [hwriters, ← Sorting.pairwise_idxOf_iff (nodup_draws h) hsubset]
  refine List.Pairwise.iff_of_mem fun hi hj => ?_
  rw [UInt64.ofNat_lt_iff_lt (hbound hi) (hbound hj)]
  exact Nat.add_lt_add_iff_right

end

/-- Two calls, one after the other. -/
theorem recent_descending_iff_sequential :
    let calls : List Call := [.record .zero 1, .record .zero 2]
    ∃ log c, Path callSem (Calls.start Sample.world (.new 2) calls) log c ∧
      doers writes log = [0, 1] ∧
      ((∀ limit, ∃ events, c.shared.telemetry.recent limit = .ok events ∧
          events.Pairwise fun e e' => e.id > e'.id) ↔
        ((doers writes log).drop ((doers writes log).length - (Recorder.new 2).capacity)).Sublist
          (doers draws log)) := by
  intro calls
  obtain ⟨log, c, hrun, hdraws, hwrites⟩ : ∃ log c,
      (Calls.start Sample.world (.new 2) calls).scheduled callSem [0, 0, 0, 1, 1, 1] =
        some (log, c) ∧
      doers draws log = [0, 1] ∧ doers writes log = [0, 1] := ⟨_, _, rfl, rfl, rfl⟩
  have run := Path.of_scheduled hrun
  have hnew : new 2 = .ok (.new 2) := rfl
  exact ⟨log, c, run, hwrites, recent_descending_iff hnew run (by rw [hdraws]; decide)⟩

/-- A call that draws the ID 1 and writes after the one that draws 2. -/
theorem recent_out_of_order :
    let calls : List Call := [.record .zero 1, .record .zero 2]
    ∃ log c, Path callSem (Calls.start Sample.world (.new 2) calls) log c ∧
      c.shared.telemetry.recent 2 = .ok [{ RouteEvent.zero with id := 1, timestamp := 1 },
        { RouteEvent.zero with id := 2, timestamp := 2 }] ∧
      ¬ ∃ events, c.shared.telemetry.recent 2 = .ok events ∧
        events.Pairwise fun e e' => e.id > e'.id := by
  have hrecent : ((Calls.start Sample.world (.new 2) [.record .zero 1, .record .zero 2]).scheduled
      callSem [0, 1, 1, 1, 0, 0]).map (fun run => run.2.shared.telemetry.recent 2) =
        some (.ok [{ RouteEvent.zero with id := 1, timestamp := 1 },
          { RouteEvent.zero with id := 2, timestamp := 2 }]) := rfl
  intro calls
  obtain ⟨⟨log, c⟩, hrun, hrecent⟩ := Option.map_eq_some_iff.mp hrecent
  have run := Path.of_scheduled hrun
  refine ⟨log, c, run, hrecent, fun hdescending => ?_⟩
  obtain ⟨events, heq, hpairwise⟩ := hdescending
  rw [hrecent, Except.ok.injEq] at heq
  subst heq
  exact absurd hpairwise (by decide)

end KvRouter.Telemetry
