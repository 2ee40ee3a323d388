import KvRouter.Handler.Phases
import KvRouter.Health.Concurrent
import KvRouter.Lib.Silent
import KvRouter.Refusal

/-!
# KvRouter.Refusal.Traceless

A request that the router answers itself, with a 400, a 503 or a 429, leaves no
trace: without it every other request and every health check runs as it did, on
the same states.  Such a request has only looked (`looking_of_refused`), so its
steps can be erased from the interleaving (`Path.erase`).
-/

namespace KvRouter

open Handler Interleave Prog

/-- Thread `i` has answered its request without a backend. -/
def Refused (c : System) (i : ℕ) : Prop :=
  ∃ trace out, c.threads[i]? = some ⟨trace, .ret (.handled out)⟩ ∧ out.writer.backend = none

section
variable {s : Server} {w : World} {checks : ChecksEnv} {requests : List Request} {log : Log}
  {c : System}

/-- A goroutine of the health checks answers no request. -/
theorem not_handled (checks : ChecksEnv) (b : Backend) {h : List Event} {out : Outcome} :
    ¬Returns (checks.prog b) h (Done.handled out) := by
  intro hreturns
  obtain ⟨_, _, _, -, -, hret⟩ := hreturns.of_bind
  simpa using hret.of_ret.2

/-- A thread that has answered handles a request. -/
theorem Router.returns_request (h : Steps (Router.start s w checks requests) log c) {i : ℕ}
    {trace : List Event} {out : Outcome} (ht : c.threads[i]? = some ⟨trace, .ret (.handled out)⟩) :
    ∃ r ∈ requests, Returns (handleChatCompletions s r) (own i log) out := by
  have hlt : i < (Router.start s w checks requests).threads.length :=
    h.length_threads ▸ (List.getElem?_eq_some_iff.mp ht).1
  have hstart := List.getElem?_eq_getElem hlt
  have hreturns := h.returns hstart ht (.ret _)
  rw [List.append_nil] at hreturns
  obtain ⟨b, -, heq⟩ | ⟨-, r, hr, heq⟩ := Router.start_thread hstart
  · rw [heq] at hreturns
    exact absurd hreturns (not_handled checks b)
  · rw [heq] at hreturns
    obtain ⟨out', h₁, h₂, hsplit, hhandler, hret⟩ := hreturns.of_bind
    obtain ⟨rfl, hout⟩ := hret.of_ret
    obtain rfl : out = out' := by simpa using hout
    rw [List.append_nil] at hsplit
    exact ⟨r, hr, hsplit ▸ hhandler⟩

/-- The actions of a refused request changed nothing. -/
theorem silent_of_refused (h : Steps (Router.start s w checks requests) log c)
    {x : Entry World Act Act.Result} (hx : x ∈ log) (hrefused : Refused c x.who) :
    (x.event.1.sem x.before).2 = x.before := by
  obtain ⟨trace, out, ht, hnone⟩ := hrefused
  obtain ⟨r, -, hreturns⟩ := Router.returns_request h ht
  have hidle : Idle x.event :=
    looking_of_refused hreturns hnone x.event (mem_own.mpr ⟨x, hx, rfl, rfl⟩)
  obtain ⟨who, before, a, answer⟩ := x
  obtain rfl : answer = (a.sem before).1 := h.sound _ hx
  exact silent_of_idle hidle

/-- **Refused requests leave no trace**: any of them can be left out, and the rest of the run is a
run of the router to the same shared state. -/
theorem refused_leaves_no_trace (h : Steps (Router.start s w checks requests) log c)
    (kept : ℕ → Bool) (hrefused : ∀ i, kept i = false → Refused c i) :
    ∃ threads, Steps (Router.start s w checks requests) (log.filter (kept ·.who))
        ⟨c.shared, threads⟩ ∧
      ∀ i, threads[i]? = if kept i then c.threads[i]?
        else (Router.start s w checks requests).threads[i]? :=
  h.erase kept fun _ hx hkept => silent_of_refused h hx (hrefused _ hkept)

end

/-- Before any probe no backend is named. -/
theorem named_fresh (s : Server) (r : Request) : World.fresh.named s r = none := by
  unfold World.named
  split
  · rfl
  · next c _ =>
      rw [Option.map_eq_none_iff, World.selected, List.find?_eq_none]
      intro st _ hfree
      obtain ⟨_, -, hhealthy, -⟩ := get_of_free hfree
      exact absurd hhealthy Bool.false_ne_true

/-- A request that comes before the checks is refused. -/
theorem refused_leaves_no_trace_cold_start :
    let s := Sample.server Sample.pool
    let start := Router.start s .fresh (Sample.checks default)
      [Sample.request default fun _ => default]
    ∃ log c, Steps start log c ∧ log ≠ [] ∧ Refused c 1 ∧
      ∃ threads, Steps start (log.filter fun x => x.who ≠ 1) ⟨c.shared, threads⟩ ∧
        ∀ i, threads[i]? = if i ≠ 1 then c.threads[i]? else start.threads[i]? := by
  intro s start
  let r := Sample.request default fun _ => default
  have hlength : (s.pool.startHealthChecks (Sample.checks default)).length = 1 := by
    have hvisit : s.pool.visit (Sample.checks default).order = [Sample.backend] :=
      Sample.visit_pool _
    rw [Pool.startHealthChecks, List.length_map, hvisit]
    rfl
  have hthread : start.threads[1]? = some (.start ((Task.request r).prog s)) := by
    simp [start, Router.start, hlength, r]
  obtain ⟨out, w, hexec, hheader⟩ := exec_handleChatCompletions 0 s r .fresh
  rw [named_fresh] at hheader
  obtain ⟨h, hreturns, hreplays⟩ := returns_of_exec hexec
  obtain ⟨log, hpath, hown⟩ := exists_served hreturns hreplays (c := start) .refl hthread rfl
  have hlt : 1 < start.threads.length := (List.getElem?_eq_some_iff.mp hthread).1
  have hrefused : Refused ⟨w, start.threads.set 1 ⟨h, .ret (.handled out)⟩⟩ 1 :=
    ⟨h, out, List.getElem?_set_self hlt, hheader⟩
  refine ⟨log, _, hpath, ?_, hrefused, ?_⟩
  · -- the request has looked at the backend
    have hhealthy : s.pool.healthy r.order = _ := Sample.healthy_pool _
    have hroute : Returns (route s r Sample.chat) h out := hreturns
    unfold route at hroute
    rw [hhealthy] at hroute
    obtain ⟨_, h', rfl, -⟩ := hroute.of_act
    rintro rfl
    simp at hown
  · have hrun := refused_leaves_no_trace hpath (fun i => decide (i ≠ 1)) fun i hi => by
      obtain rfl : i = 1 := by simpa using hi
      exact hrefused
    simpa using hrun

end KvRouter
