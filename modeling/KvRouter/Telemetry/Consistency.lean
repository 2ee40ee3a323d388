import KvRouter.Telemetry.Calls

/-!
# KvRouter.Telemetry.Consistency

When the counters that `Summary` returns are consistent.  `Record` counts a
request before its error, stream or cache hit, so no counter ever exceeds the
requests (`counter_le_requests`); but `Summary` loads the requests first, and a
`Record` that comes between two of its loads shows in the later one only.
`Paced` says that no such addition overtakes the requests that were loaded, and
is exactly what consistency takes.
-/

namespace KvRouter.Telemetry

open Interleave Prog

/-- Whenever a call adds to the counter `k` between thread `i`'s load of the requests and its load
of `k`, the counter is below the requests at the first load. -/
def Paced (i : ℕ) (k : Counter) (log : CallLog) : Prop :=
  ∀ load addition load', [load, addition, load'].Sublist log →
    load.who = i → load.event.1 = .inr .requests → load'.who = i → load'.event.1 = .inr k →
    adds k addition.event.1 = true →
    addition.before.telemetry.counter k < load.before.telemetry.counter .requests

/-- The loads of a call that returns `s`. -/
def Summary.loads (s : Summary) : List CallEvent :=
  [.requests, .errors, .streams, .cacheHits].map fun k => ⟨.inr k, s.counter k⟩

section
variable {w : World} {r : Recorder} {calls : List Call} {log : CallLog} {c : Calls}

/-- No counter exceeds the requests, in any state. -/
theorem counter_le_requests (h : Path callSem (Calls.start w r calls) log c) {capacity : ℤ}
    (hnew : new capacity = .ok r) (hfew : (doers (adds .requests) log).length < 2 ^ 64)
    (k : Counter) :
    c.shared.telemetry.counter k ≤ c.shared.telemetry.counter .requests := by
  rw [UInt64.le_iff_toNat_le, toNat_counter h hnew hfew, toNat_counter h hnew hfew]
  exact length_adds_le h k

/-- A summary that is returned is made of the four loads of its call. -/
theorem own_of_summary (h : Path callSem (Calls.start w r calls) log c) {i : ℕ}
    {trace : List CallEvent} {s : Summary} (hi : c.threads[i]? = some ⟨trace, .ret (some s)⟩) :
    own i log = s.loads := by
  have hlt : i < calls.length := by
    have hlt := (List.getElem?_eq_some_iff.mp hi).1
    rw [h.length_threads] at hlt
    simpa [Calls.start] using hlt
  have hstart : (Calls.start w r calls).threads[i]? = some (.start calls[i].prog) := by
    simp [Calls.start, hlt]
  have hreturns := h.returns hstart hi (.ret _)
  rw [List.append_nil] at hreturns
  cases hcall : calls[i] with
  | record event now =>
      rw [hcall] at hreturns
      obtain ⟨_, _, _, -, -, hnone⟩ := Returns.of_bind hreturns
      cases hnone.of_ret.2
  | summary =>
      rw [hcall] at hreturns
      obtain ⟨requests, _, hown, hrest⟩ := Returns.of_act hreturns
      obtain ⟨errors, _, rfl, hrest'⟩ := Returns.of_act hrest
      obtain ⟨streams, _, rfl, hlast⟩ := Returns.of_act hrest'
      obtain ⟨cacheHits, _, rfl, hret⟩ := Returns.of_act hlast
      obtain ⟨rfl, heq⟩ := Returns.of_ret hret
      cases heq
      exact hown

/-- What a load of that call found. -/
theorem counter_of_load (h : Path callSem (Calls.start w r calls) log c) {i : ℕ} {s : Summary}
    (hown : own i log = s.loads) {x : Entry World CallAct CallResult} (hx : x ∈ log)
    (hwho : x.who = i) {k : Counter} (hload : x.event.1 = .inr k) :
    x.before.telemetry.counter k = s.counter k := by
  have hmem : x.event ∈ own i log := mem_own.mpr ⟨x, hx, hwho, rfl⟩
  have hsound := h.sound x hx
  obtain ⟨who, before, a, answer⟩ := x
  subst hload
  rw [hown] at hmem
  obtain ⟨k', -, heq⟩ := List.mem_map.mp hmem
  cases heq
  exact hsound.symm

/-- The counter `k` where an entry of the log takes effect. -/
theorem toNat_counter_before (h : Path callSem (Calls.start w r calls) log c) {capacity : ℤ}
    (hnew : new capacity = .ok r) (hfew : (doers (adds .requests) log).length < 2 ^ 64)
    {earlier later : CallLog} {x : Entry World CallAct CallResult}
    (hlog : log = earlier ++ x :: later) (k : Counter) :
    (x.before.telemetry.counter k).toNat = (doers (adds k) earlier).length := by
  obtain ⟨threads, hbefore⟩ := h.before hlog
  refine toNat_counter hbefore hnew (Nat.lt_of_le_of_lt ?_ hfew) k
  rw [hlog, doers_append, List.length_append]
  exact Nat.le_add_right _ _

/-- One counter of a summary against the requests. -/
theorem counter_le_requests_iff (h : Path callSem (Calls.start w r calls) log c) {capacity : ℤ}
    (hnew : new capacity = .ok r) (hfew : (doers (adds .requests) log).length < 2 ^ 64) {i : ℕ}
    {s : Summary} (hown : own i log = s.loads) {k : Counter} (hk : k ≠ .requests) :
    s.counter k ≤ s.counter .requests ↔ Paced i k log := by
  constructor
  · intro hle load addition load' hsub hwho hload hwho' hload' hadds
    obtain ⟨l₁, l₂, hlog, hmem, hmem'⟩ :=
      List.cons_sublist_iff.mp (List.sublist_of_cons_sublist hsub)
    obtain ⟨before, between, rfl⟩ := List.append_of_mem hmem
    obtain ⟨between', after, rfl⟩ := List.append_of_mem (List.singleton_sublist.mp hmem')
    -- the later load finds the addition in the counter
    have hfound : log = before ++ addition :: (between ++ (between' ++ load' :: after)) := by
      rw [hlog, List.append_assoc, List.cons_append]
    have hnow := toNat_counter_before h hnew hfew hfound k
    have hlater := toNat_counter_before h hnew hfew (x := load') (hlog.trans (by
      rw [← List.append_assoc])) k
    rw [doers_append, doers_append, doers_cons, if_pos hadds] at hlater
    simp only [List.length_append, List.length_cons] at hlater
    have hfirst := counter_of_load h hown (hsub.subset (by simp)) hwho hload
    have hsecond := counter_of_load h hown (hsub.subset (by simp)) hwho' hload'
    rw [hfirst, UInt64.lt_iff_toNat_lt, hnow]
    rw [← hsecond, UInt64.le_iff_toNat_le, hlater] at hle
    omega
  · intro hpaced
    obtain ⟨mid, rest, hloads⟩ : ∃ mid rest, s.loads =
        ⟨.inr .requests, s.counter .requests⟩ :: mid ++ ⟨.inr k, s.counter k⟩ :: rest := by
      cases k with
      | requests => contradiction
      | errors => exact ⟨[], _, rfl⟩
      | streams => exact ⟨[_], _, rfl⟩
      | cacheHits => exact ⟨[_, _], _, rfl⟩
    obtain ⟨earlier, load', after, hlog, hwho', hload', hearlier⟩ :=
      own_eq_append_cons (hown.trans hloads)
    obtain ⟨before, load, between, rfl, hwho, hload, -⟩ :=
      own_eq_append_cons (hearlier.trans (List.nil_append _).symm)
    have hstart : log = before ++ load :: (between ++ load' :: after) := by simp [hlog]
    have hfirst := counter_of_load h hown (x := load) (by simp [hlog]) hwho
      (congrArg Sigma.fst hload)
    have hsecond := counter_of_load h hown (x := load') (by simp [hlog]) hwho'
      (congrArg Sigma.fst hload')
    rw [← hfirst, ← hsecond, UInt64.le_iff_toNat_le, toNat_counter_before h hnew hfew hstart,
      toNat_counter_before h hnew hfew hlog, List.append_cons]
    refine length_doers_le _ ?_ fun done y left hbetween hadds => ?_
    · obtain ⟨threads, hbefore⟩ := h.before hstart
      have hsilent : adds k load.event.1 = false := by
        rw [hload]
        cases k <;> rfl
      simpa [hsilent] using length_adds_le hbefore k
    · have hlt := hpaced load y load' (by simp [hlog, hbetween]) hwho (congrArg Sigma.fst hload)
        hwho' (congrArg Sigma.fst hload') hadds
      have hnow : log = (before ++ [load] ++ done) ++ y :: (left ++ load' :: after) := by
        simp [hlog, hbetween]
      rwa [UInt64.lt_iff_toNat_lt, toNat_counter_before h hnew hfew hstart,
        toNat_counter_before h hnew hfew hnow] at hlt

/-- **A summary is consistent** in every run in which no addition overtakes the requests that the
summary has loaded, and in no other. -/
theorem summary_consistent_iff {capacity : ℤ} (hnew : new capacity = .ok r)
    (h : Path callSem (Calls.start w r calls) log c)
    (hfew : (doers (adds .requests) log).length < 2 ^ 64) {i : ℕ} {trace : List CallEvent}
    {s : Summary} (hi : c.threads[i]? = some ⟨trace, .ret (some s)⟩) :
    (s.errors ≤ s.requests ∧ s.streams ≤ s.requests ∧ s.cacheHitRequests ≤ s.requests) ↔
      ∀ k, k ≠ .requests → Paced i k log := by
  have hiff {k : Counter} (hk : k ≠ .requests) :=
    counter_le_requests_iff h hnew hfew (own_of_summary h hi) hk
  constructor
  · rintro ⟨herrors, hstreams, hhits⟩ k hk
    refine (hiff hk).mp ?_
    cases k with
    | requests => contradiction
    | errors => exact herrors
    | streams => exact hstreams
    | cacheHits => exact hhits
  · intro hpaced
    have hle (k : Counter) (hk : k ≠ .requests) := (hiff hk).mpr (hpaced k hk)
    exact ⟨hle .errors nofun, hle .streams nofun, hle .cacheHits nofun⟩

end

/-- A failed request that is recorded before the summary is taken. -/
theorem summary_consistent_iff_after :
    let calls : List Call := [.record { RouteEvent.zero with statusCode := 500 } 1, .summary]
    ∃ log c trace s, Path callSem (Calls.start Sample.world (.new 1) calls) log c ∧
      c.threads[1]? = some ⟨trace, .ret (some s)⟩ ∧
      ((s.errors ≤ s.requests ∧ s.streams ≤ s.requests ∧ s.cacheHitRequests ≤ s.requests) ↔
        ∀ k, k ≠ .requests → Paced 1 k log) := by
  intro calls
  obtain ⟨log, c, hrun, hend, hcount⟩ : ∃ log c,
      (Calls.start Sample.world (.new 1) calls).scheduled callSem [0, 0, 0, 0, 1, 1, 1, 1] =
        some (log, c) ∧
      c.threads[1]?.map (·.prog) = some (.ret (some ⟨1, 1, 0, 0⟩)) ∧
      doers (adds .requests) log = [0] := ⟨_, _, rfl, rfl, rfl⟩
  obtain ⟨trace, hend⟩ := Config.exists_trace hend
  have run := Path.of_scheduled hrun
  have hnew : new 1 = .ok (.new 1) := rfl
  exact ⟨log, c, trace, _, run, hend,
    summary_consistent_iff hnew run (by rw [hcount]; decide) hend⟩

/-- A request that fails between two loads of a summary: one error of no request. -/
theorem summary_inconsistent :
    let calls : List Call := [.summary, .record { RouteEvent.zero with statusCode := 500 } 1]
    ∃ log c trace s, Path callSem (Calls.start Sample.world (.new 1) calls) log c ∧
      c.threads[0]? = some ⟨trace, .ret (some s)⟩ ∧ s.requests = 0 ∧ s.errors = 1 ∧
      ¬ (s.errors ≤ s.requests ∧ s.streams ≤ s.requests ∧ s.cacheHitRequests ≤ s.requests) := by
  intro calls
  obtain ⟨log, c, hrun, hend⟩ : ∃ log c,
      (Calls.start Sample.world (.new 1) calls).scheduled callSem [0, 1, 1, 1, 0, 0, 0] =
        some (log, c) ∧
      c.threads[0]?.map (·.prog) = some (.ret (some ⟨0, 1, 0, 0⟩)) := ⟨_, _, rfl, rfl⟩
  obtain ⟨trace, hend⟩ := Config.exists_trace hend
  have run := Path.of_scheduled hrun
  exact ⟨log, c, trace, _, run, hend, rfl, rfl, by decide⟩

end KvRouter.Telemetry
