import KvRouter.Operations.Observed
import KvRouter.Refusal.Traceless
import KvRouter.Telemetry.Ledger

/-!
# KvRouter.Operations.Scrape

What a scraper gets from `/metrics`.  The text is read by the rules of the text
format (`readSamples`): a line with the type before the first sample of a metric,
and a sample as its name and its value.  It reads as the four counters
(`readSamples_prometheus`), and from one scrape to the next no counter goes back,
however the requests are interleaved with the scrapes (`scrapes_monotone`).
-/

namespace KvRouter

open Handler Interleave Prog Telemetry

/-! ## The text format -/

structure Sample where
  name : String
  type : Option String
  value : ℕ
deriving DecidableEq

/-- A decimal number. -/
def readDecimal (digits : List Char) : Option ℕ :=
  if digits ≠ [] ∧ digits.all Char.isDigit then some (Nat.ofDigitChars 10 digits 0) else none

/-- The samples of some lines; `types` are the types announced so far.  A metric has one type, and
other comments mean nothing. -/
def readLines : List (List Char) → List (String × String) → Option (List Sample)
  | [], _ => some []
  | line :: lines, types =>
      match (line.splitOn ' ').map String.ofList with
      | [""] => readLines lines types
      | ["#", "TYPE", name, type] =>
          if (types.lookup name).isSome then none else readLines lines ((name, type) :: types)
      | "#" :: _ => readLines lines types
      | [name, digits] => do
          let value ← readDecimal digits.toList
          let samples ← readLines lines types
          return ⟨name, types.lookup name, value⟩ :: samples
      | _ => none

/-- The samples of a text; its last line ends like the others. -/
def readSamples (text : String) : Option (List Sample) :=
  let lines := text.toList.splitOn '\n'
  if lines.getLast? = some [] then readLines lines [] else none

/-! ## Reading the metrics -/

/-- A text of lines is split into these lines, and what is after the last. -/
theorem splitOn_lines {lines : List (List Char)} (h : ∀ line ∈ lines, '\n' ∉ line) :
    (lines.flatMap (· ++ ['\n'])).splitOn '\n' = lines ++ [[]] := by
  have hlines : lines.flatMap (· ++ ['\n']) = ['\n'].intercalate (lines ++ [[]]) := by
    clear h
    induction lines with
    | nil => rfl
    | cons line lines ih =>
        rw [List.flatMap_cons, ih, List.cons_append,
          List.intercalate_cons_of_ne_nil (by simp)]
  rw [hlines, List.splitOn_intercalate _ _ (by simp)]
  simpa [or_imp, forall_and] using h

/-- The lines of a metric. -/
def metricLines (name : String) (n : UInt64) : List (List Char) :=
  [("# TYPE " ++ name ++ " counter").toList, (name ++ " " ++ toString n.toNat).toList]

theorem toList_metric (name : String) (n : UInt64) :
    (metric name n).toList = (metricLines name n).flatMap (· ++ ['\n']) := by
  simp [metric, metricLines]

/-- A name without blanks, which begins no comment. -/
def Plain (name : String) : Prop := ' ' ∉ name.toList ∧ '\n' ∉ name.toList ∧ name ≠ "#"

theorem not_mem_toDigits {c : Char} (hc : c.isDigit = false) (n : ℕ) : c ∉ Nat.toDigits 10 n := by
  intro hmem
  simp [Nat.isDigit_of_mem_toDigits (by decide) (by decide) hmem] at hc

/-- A decimal number is read as what was written. -/
theorem readDecimal_toDigits (n : ℕ) : readDecimal (Nat.toDigits 10 n) = some n := by
  have hdigits : (Nat.toDigits 10 n).all Char.isDigit = true := List.all_eq_true.mpr fun c hc =>
    Nat.isDigit_of_mem_toDigits (by decide) (by decide) hc
  rw [readDecimal, if_pos ⟨Nat.toDigits_ne_nil, hdigits⟩, Nat.ofDigitChars_ten_toDigits]

/-- The announcement of a metric has four words. -/
theorem splitOn_typeLine {name : String} (hname : Plain name) :
    (("# TYPE " ++ name ++ " counter").toList.splitOn ' ').map String.ofList =
      ["#", "TYPE", name, "counter"] := by
  have hline : ("# TYPE " ++ name ++ " counter").toList =
      [' '].intercalate ["#".toList, "TYPE".toList, name.toList, "counter".toList] := by
    simp
  rw [hline, List.splitOn_intercalate _ (by simp [hname.1]) (by simp)]
  simp

/-- A sample has a name and a value. -/
theorem splitOn_sampleLine {name : String} (hname : Plain name) (n : ℕ) :
    ((name ++ " " ++ toString n).toList.splitOn ' ').map String.ofList =
      [name, String.ofList (Nat.toDigits 10 n)] := by
  have hline : (name ++ " " ++ toString n).toList =
      [' '].intercalate [name.toList, Nat.toDigits 10 n] := by
    simp
  have hdigits : ' ' ∉ Nat.toDigits 10 n := not_mem_toDigits (by decide) n
  rw [hline, List.splitOn_intercalate _ (by simp [hname.1, hdigits]) (by simp)]
  simp

/-- A metric reads as its sample. -/
theorem readLines_metric {name : String} (hname : Plain name) (n : UInt64)
    {types : List (String × String)} (hnew : types.lookup name = none)
    (lines : List (List Char)) :
    readLines (metricLines name n ++ lines) types =
      (readLines lines ((name, "counter") :: types)).map
        (⟨name, some "counter", n.toNat⟩ :: ·) := by
  have hcomment : name ≠ "#" := hname.2.2
  rw [metricLines, List.cons_append, readLines, splitOn_typeLine hname]
  simp only [hnew, Option.isSome_none]
  rw [List.cons_append, readLines, splitOn_sampleLine hname]
  simp only [String.toList_ofList, readDecimal_toDigits, List.lookup_cons_self]
  cases hrest : readLines lines ((name, "counter") :: types) <;> simp [hrest]

theorem not_newline_metricLines {name : String} (hname : Plain name) (n : UInt64) :
    ∀ line ∈ metricLines name n, '\n' ∉ line := by
  have hdigits : '\n' ∉ Nat.toDigits 10 n.toNat := not_mem_toDigits (by decide) _
  simp [metricLines, hname.2.1, hdigits]

/-- The name of a counter in the metrics. -/
def Telemetry.Counter.metricName : Counter → String
  | .requests => "kv_router_requests_total"
  | .errors => "kv_router_errors_total"
  | .streams => "kv_router_streams_total"
  | .cacheHits => "kv_router_cache_hit_requests_total"

theorem plain_metricName (k : Counter) : Plain k.metricName := by
  cases k <;> simp [Plain, Counter.metricName]

/-- The samples of the four counters. -/
def samplesOf (v : Counter → ℕ) : List Sample :=
  [Counter.requests, .errors, .streams, .cacheHits].map fun k =>
    ⟨k.metricName, some "counter", v k⟩

/-- **What `Prometheus` prints reads as the four counters.** -/
theorem readSamples_prometheus (v : Counter → UInt64) :
    readSamples (Summary.prometheus ⟨v .requests, v .errors, v .streams, v .cacheHits⟩) =
      some (samplesOf fun k => (v k).toNat) := by
  let lines := [Counter.requests, .errors, .streams, .cacheHits].flatMap fun k =>
    metricLines k.metricName (v k)
  have hlist : (Summary.prometheus ⟨v .requests, v .errors, v .streams, v .cacheHits⟩).toList =
      lines.flatMap (· ++ ['\n']) := by
    simp [Summary.prometheus, toList_metric, lines, Counter.metricName]
  have hplain : ∀ line ∈ lines, '\n' ∉ line := fun line hline => by
    obtain ⟨k, -, hk⟩ := List.mem_flatMap.mp hline
    exact not_newline_metricLines (plain_metricName k) (v k) line hk
  have hread : readLines (lines ++ [[]]) [] = some (samplesOf fun k => (v k).toNat) := by
    simp only [lines, List.flatMap_cons, List.flatMap_nil, List.append_assoc, List.append_nil]
    rw [readLines_metric (plain_metricName _) _ (by rfl),
      readLines_metric (plain_metricName _) _ (by rfl),
      readLines_metric (plain_metricName _) _ (by rfl),
      readLines_metric (plain_metricName _) _ (by rfl)]
    rfl
  rw [readSamples, hlist, splitOn_lines hplain]
  simp [hread]

/-! ## What the counters count -/

section
variable {s : Server} {w : World} {checks : ChecksEnv} {requests : List Request}
  {endpoints : List Endpoint}

/-- A goroutine of the health checks is served by no backend. -/
theorem Router.unserved {log : Log} {c : KvRouter.System}
    (h : Steps (Router.start s w checks requests) log c) {i : ℕ} (hi : i < s.pool.size)
    {t : Thread Act Act.Result Done} (ht : c.threads[i]? = some t) : servedBy t = none := by
  obtain ⟨trace, p⟩ := t
  have hlt : i < (Router.start s w checks requests).threads.length :=
    h.length_threads ▸ (List.getElem?_eq_some_iff.mp ht).1
  have hstart := List.getElem?_eq_getElem hlt
  obtain ⟨b, -, hthread⟩ | ⟨hnone, -⟩ := Router.start_thread hstart
  · rw [hthread] at hstart
    cases p with
    | ret x =>
        cases x with
        | handled out => exact absurd (h.returns hstart ht (.ret _)) (not_handled checks b)
        | probed => rfl
    | _ => rfl
  · rw [List.getElem?_eq_none_iff, s.pool.length_visit] at hnone
    omega

/-- Only requests are served. -/
theorem Router.served_le {log : Log} {c : KvRouter.System}
    (h : Steps (Router.start s w checks requests) log c) :
    (c.threads.filterMap servedBy).length ≤ requests.length := by
  have hprobes : (c.threads.take s.pool.size).filterMap servedBy = [] := by
    refine List.filterMap_eq_nil_iff.mpr fun t ht => ?_
    obtain ⟨i, hi⟩ := List.mem_iff_getElem?.mp ht
    rw [List.getElem?_take] at hi
    split at hi
    · next hlt => exact Router.unserved h hlt hi
    · contradiction
  have hlength : (c.threads.drop s.pool.size).length = requests.length := by
    have hthreads := h.length_threads
    rw [Router.length_start, Router.size] at hthreads
    rw [List.length_drop, hthreads]
    omega
  rw [← List.take_append_drop s.pool.size c.threads, List.filterMap_append, hprobes,
    List.nil_append, ← hlength]
  exact List.length_filterMap_le _ _

/-- A counter has been added to once a request, at most. -/
theorem Router.additions_le {log : Log} {c : KvRouter.System}
    (h : Steps (Router.start s w checks requests) log c) (k : Counter) :
    (log.map (·.event)).countP (addsTo k) ≤ requests.length := by
  -- the run can be brought to its end, where the books are balanced
  obtain ⟨schedule, hschedule⟩ := h.exists_schedule
  obtain ⟨rest, log', c', hrest, hreturned⟩ := Router.completes hschedule
  have hend := h.scheduled hrest
  have hperm := hend.perm_traces fun t ht => (Router.books t ht).1
  have hbalanced := balanced_traces (Router.balanced hend hreturned.all)
  have hserved := congrArg List.length hbalanced.served
  rw [List.length_map] at hserved
  calc (log.map (·.event)).countP (addsTo k)
      ≤ ((log ++ log').map (·.event)).countP (addsTo k) := by simp
    _ = (c'.threads.flatMap (·.trace)).countP (addsTo k) := (hperm.countP_eq _).symm
    _ = ((c'.threads.flatMap (·.trace)).filterMap writtenTo).countP k.counts :=
        hbalanced.additions k
    _ ≤ ((c'.threads.flatMap (·.trace)).filterMap writtenTo).length := List.countP_le_length
    _ ≤ requests.length := hserved.trans_le (Router.served_le hend)

/-- An entry that adds to a counter. -/
def countedBy (k : Counter) : Entry World OpsAct OpsResult → Bool
  | ⟨_, _, ⟨.inl a, r⟩⟩ => addsTo k ⟨a, r⟩
  | _ => false

/-- How often the router has added to a counter. -/
def Router.additions (s : Server) (requests : List Request) (k : Counter) (log : OpsLog) : ℕ :=
  (log.filter (·.who < Router.size s requests)).countP (countedBy k)

theorem Router.additions_mono (k : Counter) (log later : OpsLog) :
    Router.additions s requests k log ≤ Router.additions s requests k (log ++ later) := by
  simp [Router.additions]

/-- **A counter counts the additions**, of which there are no more than requests. -/
theorem Router.counter_observed (hfresh : w.telemetry = .new 1000) {log : OpsLog} {c : Observed}
    (h : ObservedSteps (Router.observed s w checks requests endpoints) log c) (k : Counter) :
    c.shared.telemetry.counter k = UInt64.ofNat (Router.additions s requests k log) ∧
      Router.additions s requests k log ≤ requests.length := by
  obtain ⟨log₀, c₀, observers, hsteps, rfl, hlog⟩ := Router.of_observed h
  have hadditions : Router.additions s requests k log =
      (log₀.map (·.event)).countP (addsTo k) := by
    rw [Router.additions, hlog, List.countP_map, List.countP_map]
    rfl
  rw [hadditions]
  exact ⟨(Router.tallied hsteps hfresh).counter k, Router.additions_le hsteps k⟩

/-! ## Scrapes -/

/-- Thread `i` has answered with a text that reads as `samples`. -/
def Scraped (c : Observed) (i : ℕ) (samples : List Sample) : Prop :=
  ∃ trace text, c.threads[i]? = some ⟨trace, .ret (.inr (.ok ⟨"text/plain", 200, .text text⟩))⟩ ∧
    readSamples text = some samples

/-- A summary is made of a load of each counter. -/
theorem returns_summaryOf {loads : List OpsEvent} {summary : Summary}
    (h : Returns summaryOf loads summary) (k : Counter) :
    ⟨.inr (.counter k), summary.counter k⟩ ∈ loads := by
  obtain ⟨requests, loads₁, rfl, hrest₁⟩ := Returns.of_act h
  obtain ⟨errors, loads₂, rfl, hrest₂⟩ := Returns.of_act hrest₁
  obtain ⟨streams, loads₃, rfl, hrest₃⟩ := Returns.of_act hrest₂
  obtain ⟨cacheHits, loads₄, rfl, hrest₄⟩ := Returns.of_act hrest₃
  obtain ⟨rfl, rfl⟩ := Returns.of_ret hrest₄
  cases k <;> simp [Summary.counter]

/-- The values of a scrape are those of the counters at moments of its run. -/
theorem scraped_of_ended {log : OpsLog} {c c' : Observed} (h : ObservedSteps c log c') {i : ℕ}
    (hi : c.threads[i]? = some (.start (Endpoint.metrics.prog s.pool)))
    {trace : List OpsEvent} {x : Ended} (hend : c'.threads[i]? = some ⟨trace, .ret x⟩) :
    ∃ v : Counter → UInt64, Scraped c' i (samplesOf fun k => (v k).toNat) ∧
      ∀ k, ∃ y ∈ log, v k = y.before.telemetry.counter k := by
  have hreturns := h.returns hi hend (.ret x)
  rw [List.append_nil] at hreturns
  obtain ⟨r, loads₁, loads₂, hown, hhandler, hret⟩ := Returns.of_bind hreturns
  obtain ⟨rfl, rfl⟩ := hret.of_ret
  obtain ⟨response, loads₃, loads₄, rfl, hmetrics, hok⟩ := Returns.of_bind hhandler
  obtain ⟨rfl, rfl⟩ := hok.of_ret
  obtain ⟨summary, loads₅, loads₆, rfl, hsummary, htext⟩ := Returns.of_bind hmetrics
  obtain ⟨rfl, rfl⟩ := Returns.of_ret htext
  simp only [List.append_nil] at hown
  refine ⟨summary.counter, ⟨trace, _, hend, readSamples_prometheus summary.counter⟩, fun k => ?_⟩
  obtain ⟨y, hy, -, hevent⟩ := mem_own.mp (hown ▸ returns_summaryOf hsummary k)
  refine ⟨y, hy, ?_⟩
  have hanswer := h.sound y hy
  obtain ⟨who, before, a, r⟩ := y
  cases hevent
  exact hanswer

/-- **Counters never go back**: of two scrapes, one after the other, the second shows no counter at
a lower value, and none above the number of requests. -/
theorem scrapes_monotone {parseURL : String → Option Config.URL} {cfg : KvRouter.Config}
    {hvalid : Config.Valid parseURL cfg} {sum64 : Bytes → UInt64}
    {unmarshal : Bytes → Except String ChatCompletionRequest}
    (hboot : boot sum64 unmarshal cfg hvalid = .ok (s, w))
    (hrequests : requests.length < UInt64.size) {log₁ log₂ : OpsLog} {c₁ c₂ : Observed}
    (h₁ : ObservedSteps (Router.observed s w checks requests endpoints) log₁ c₁)
    (h₂ : ObservedSteps c₁ log₂ c₂) {i j : ℕ} (hi : endpoints[i]? = some .metrics)
    {trace₁ trace₂ : List OpsEvent} {x₁ x₂ : Ended}
    (hended : c₁.threads[Router.size s requests + i]? = some ⟨trace₁, .ret x₁⟩)
    (hwaits : c₁.threads[Router.size s requests + j]? =
      some (.start (Endpoint.metrics.prog s.pool)))
    (hended' : c₂.threads[Router.size s requests + j]? = some ⟨trace₂, .ret x₂⟩) :
    ∃ v v' : Counter → ℕ, Scraped c₁ (Router.size s requests + i) (samplesOf v) ∧
      Scraped c₂ (Router.size s requests + j) (samplesOf v') ∧
      ∀ k, v k ≤ v' k ∧ v' k ≤ requests.length := by
  have hfresh : w.telemetry = .new 1000 := by
    obtain ⟨pool, -, -, rfl⟩ := boot_eq_ok_iff.mp hboot
    rfl
  obtain ⟨v, hscraped, hvalues⟩ := scraped_of_ended h₁ (Router.call_thread hi) hended
  obtain ⟨v', hscraped', hvalues'⟩ := scraped_of_ended h₂ hwaits hended'
  -- what a counter shows at any moment of a run from the start
  have hshown {log : OpsLog} {c : Observed}
      (h : ObservedSteps (Router.observed s w checks requests endpoints) log c) (k : Counter) :
      (c.shared.telemetry.counter k).toNat = Router.additions s requests k log ∧
        Router.additions s requests k log ≤ requests.length := by
    obtain ⟨hcounter, hle⟩ := Router.counter_observed hfresh h k
    rw [hcounter, UInt64.toNat_ofNat_of_lt' (hle.trans_lt hrequests)]
    exact ⟨rfl, hle⟩
  refine ⟨_, _, hscraped, hscraped', fun k => ?_⟩
  obtain ⟨y, hy, hv⟩ := hvalues k
  obtain ⟨y', hy', hv'⟩ := hvalues' k
  obtain ⟨before, after, rfl⟩ := List.append_of_mem hy
  obtain ⟨before', after', rfl⟩ := List.append_of_mem hy'
  obtain ⟨threads, hbefore⟩ := h₁.before rfl
  obtain ⟨threads', hbefore'⟩ := h₂.before rfl
  obtain ⟨hnow, -⟩ := hshown hbefore k
  obtain ⟨hlater, hle⟩ := hshown (h₁.trans hbefore') k
  rw [hv, hv']
  refine ⟨?_, hlater.trans_le hle⟩
  calc (y.before.telemetry.counter k).toNat
      = Router.additions s requests k before := hnow
    _ ≤ Router.additions s requests k (before ++ (y :: after ++ before')) :=
        Router.additions_mono k _ _
    _ = (y'.before.telemetry.counter k).toNat := by
        rw [← List.append_assoc]
        exact hlater.symm

end

/-- A scrape before the only request, and one after it. -/
theorem scrapes_monotone_served :
    let checks := Sample.checks default
    let requests := [Sample.request default fun _ => default]
    let endpoints := [Endpoint.metrics, .metrics]
    ∃ s w log₁ c₁ log₂ c₂, boot Sample.sum64 Sample.unmarshal Sample.config Sample.valid_config =
        .ok (s, w) ∧
      ObservedSteps (Router.observed s w checks requests endpoints) log₁ c₁ ∧
      ObservedSteps c₁ log₂ c₂ ∧
      c₁.shared.telemetry.requests = 0 ∧ c₂.shared.telemetry.requests = 1 ∧
      ∃ v v' : Counter → ℕ, Scraped c₁ (Router.size s requests + 0) (samplesOf v) ∧
        Scraped c₂ (Router.size s requests + 1) (samplesOf v') ∧
        ∀ k, v k ≤ v' k ∧ v' k ≤ requests.length := by
  intro checks requests endpoints
  let s := Sample.server Sample.pool
  let start := Router.observed s Sample.booted checks requests endpoints
  have hruns : ((start.scheduled opsSem [2, 2, 2, 2]).bind fun x =>
      (x.2.scheduled opsSem (List.replicate 8 0 ++ List.replicate 13 1 ++ [3, 3, 3, 3])).map
        fun y => ((x.2.result 2).isSome, x.2.shared.telemetry.requests,
          (y.2.result 3).isSome, y.2.shared.telemetry.requests)) = some (true, 0, true, 1) := by
    simp only [start, Router.observed]
    rw [Sample.start_eq rfl]
    simp only [requests, List.map_cons, List.map_nil]
    rw [Sample.prog_of_prepare rfl (Sample.prepare_request Sample.pool _ _)]
    decide +kernel
  obtain ⟨⟨log₁, c₁⟩, hfirst, hsecond⟩ := Option.bind_eq_some_iff.mp hruns
  obtain ⟨log₂, c₂, hpath₂, hshown⟩ := Path.exists_of_scheduled _ _ hsecond
  simp only [Prod.mk.injEq] at hshown
  obtain ⟨hended, hnone, hended', hone⟩ := hshown
  obtain ⟨x₁, hx₁⟩ := Option.isSome_iff_exists.mp hended
  obtain ⟨x₂, hx₂⟩ := Option.isSome_iff_exists.mp hended'
  obtain ⟨trace₁, hthread₁⟩ := Config.result_eq_some_iff.mp hx₁
  obtain ⟨trace₂, hthread₂⟩ := Config.result_eq_some_iff.mp hx₂
  have hwaits : c₁.threads[Router.size s requests + 1]? =
      some (.start (Endpoint.metrics.prog s.pool)) :=
    (Config.scheduled_of_not_mem hfirst (by decide)).trans (Router.call_thread rfl)
  have hpath₁ : ObservedSteps start log₁ c₁ := Path.of_scheduled hfirst
  exact ⟨s, _, log₁, c₁, log₂, c₂, Sample.boot_server, hpath₁, hpath₂, hnone, hone,
    scrapes_monotone Sample.boot_server (by decide) hpath₁ hpath₂ rfl hthread₁ hwaits hthread₂⟩

end KvRouter
