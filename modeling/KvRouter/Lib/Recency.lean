import Mathlib.Data.List.Dedup
import Mathlib.Data.Finset.Card
import Mathlib.Tactic.Common

/-!
# Recency lists

Least-recently-used order as a list, oldest element first.  `touch` moves an
element to the recent end; the distinct elements of a history in order of
their last occurrence are `List.dedup` of the history, so replaying a history
by `touch` is the same as deduplicating it (`touchAll_dedup`).

A bounded cache keeps only `newest n`, the `n` most recent elements.  The
theorem that makes a bounded replay exact is `newest_touchAll_newest`:
forgetting everything but the `n` newest before a batch of touches does not
change which `n` are newest after it.  A larger bound or a thinner history keeps
what was kept before (`mem_newest_of_thinned`).
-/

namespace Recency

variable {α : Type*} [DecidableEq α]

/-! ## Touching -/

/-- Move `a` to the most recent end of a recency list. -/
def touch (L : List α) (a : α) : List α := L.erase a ++ [a]

/-- Touch the elements of `as` one after another. -/
def touchAll (L as : List α) : List α := as.foldl touch L

@[simp] theorem touchAll_nil (L : List α) : touchAll L [] = L := rfl

@[simp] theorem touchAll_cons (L : List α) (a : α) (as : List α) :
    touchAll L (a :: as) = touchAll (touch L a) as := rfl

/-- A touch adds the element. -/
theorem mem_touch {L : List α} {a b : α} : b ∈ touch L a ↔ b = a ∨ b ∈ L := by
  unfold touch
  by_cases hba : b = a
  · simp [hba]
  · simp [hba, List.mem_erase_of_ne hba]

/-- A touch leaves every element once. -/
theorem nodup_touch {L : List α} (h : L.Nodup) (a : α) : (touch L a).Nodup := by
  unfold touch
  rw [List.nodup_append]
  refine ⟨h.erase a, List.nodup_singleton a, ?_⟩
  intro b hb c hc hbc
  rw [List.mem_singleton] at hc
  subst hbc hc
  exact h.not_mem_erase hb

/-- A relation along a recency list survives a touch when it holds from every
other element to the one touched. -/
theorem pairwise_touch {R R' : α → α → Prop} {L : List α} {a : α} (hL : L.Nodup)
    (h : L.Pairwise R) (hold : ∀ b c, b ≠ a → c ≠ a → R b c → R' b c)
    (hnew : ∀ b ∈ L, b ≠ a → R' b a) : (touch L a).Pairwise R' := by
  have hne {b : α} (hb : b ∈ L.erase a) : b ≠ a := by
    rintro rfl
    exact hL.not_mem_erase hb
  unfold touch
  rw [List.pairwise_append]
  refine ⟨(h.sublist List.erase_sublist).imp_of_mem ?_, List.pairwise_singleton _ _, ?_⟩
  · intro b c hb hc hbc
    exact hold b c (hne hb) (hne hc) hbc
  · intro b hb c hc
    rw [List.mem_singleton] at hc
    subst hc
    exact hnew b (List.mem_of_mem_erase hb) (hne hb)

/-- A touch makes no list shorter. -/
theorem length_le_length_touch (L : List α) (a : α) : L.length ≤ (touch L a).length := by
  unfold touch
  have h := List.le_length_erase (a := a) (l := L)
  rw [List.length_append, List.length_singleton]
  omega

theorem length_le_length_touchAll (L as : List α) : L.length ≤ (touchAll L as).length := by
  induction as generalizing L with
  | nil => exact Nat.le_refl _
  | cons a as ih => exact Nat.le_trans (length_le_length_touch L a) (ih (touch L a))

/-! ## Replaying a history -/

/-- The last occurrences in a history are the recency list of its touches. -/
theorem dedup_concat (log : List α) (a : α) : (log ++ [a]).dedup = touch log.dedup a := by
  unfold touch
  induction log with
  | nil => simp
  | cons b log ih =>
      by_cases hb : b ∈ log
      · have hb' : b ∈ log ++ [a] := List.mem_append_left _ hb
        rw [List.cons_append, List.dedup_cons_of_mem hb', ih, List.dedup_cons_of_mem hb]
      · rw [List.dedup_cons_of_notMem hb, List.cons_append]
        by_cases hba : b = a
        · have hb' : b ∈ log ++ [a] := by simp [hba]
          have hnot : a ∉ log.dedup := by rw [List.mem_dedup, ← hba]; exact hb
          rw [List.dedup_cons_of_mem hb', ih, hba, List.erase_cons_head,
            List.erase_of_not_mem hnot]
        · have hb' : b ∉ log ++ [a] := by simp [hb, hba]
          rw [List.dedup_cons_of_notMem hb', ih, List.erase_cons_tail (by simpa using hba),
            List.cons_append]

/-- Replaying `as` on top of a deduplicated history is deduplicating the
longer history. -/
theorem touchAll_dedup (log as : List α) : touchAll log.dedup as = (log ++ as).dedup := by
  induction as generalizing log with
  | nil => simp
  | cons a as ih =>
      rw [touchAll_cons, ← dedup_concat, ih, List.append_assoc, List.singleton_append]

/-! ## The newest elements -/

/-- The `n` most recent elements of a recency list. -/
def newest (n : ℕ) (L : List α) : List α := L.drop (L.length - n)

omit [DecidableEq α] in
theorem newest_suffix (n : ℕ) (L : List α) : newest n L <:+ L := List.drop_suffix _ _

omit [DecidableEq α] in
@[simp] theorem length_newest (n : ℕ) (L : List α) : (newest n L).length = min n L.length := by
  rw [newest, List.length_drop]
  omega

omit [DecidableEq α] in
theorem newest_of_length_le {n : ℕ} {L : List α} (h : L.length ≤ n) : newest n L = L := by
  rw [newest, Nat.sub_eq_zero_of_le h, List.drop_zero]

omit [DecidableEq α] in
/-- A suffix that is long enough has the same newest elements. -/
theorem newest_eq_of_suffix {n : ℕ} {R L : List α} (hs : R <:+ L)
    (hlen : min n L.length ≤ R.length) : newest n R = newest n L := by
  obtain ⟨E, rfl⟩ := hs
  unfold newest
  rw [List.length_append] at hlen ⊢
  by_cases hn : n ≤ R.length
  · have hsplit : E.length + R.length - n = E.length + (R.length - n) := by omega
    rw [hsplit, List.drop_length_add_append]
  · have hE : E = [] := List.eq_nil_of_length_eq_zero (by omega)
    subst hE
    simp

omit [DecidableEq α] in
/-- A suffix of at most `n` elements lies within the `n` newest. -/
theorem suffix_newest {n : ℕ} {R L : List α} (hs : R <:+ L) (hlen : R.length ≤ n) :
    R <:+ newest n L := by
  refine List.suffix_of_suffix_length_le hs (newest_suffix n L) ?_
  rw [length_newest]
  exact Nat.le_min.mpr ⟨hlen, hs.length_le⟩

omit [DecidableEq α] in
theorem newest_eq_self_of_suffix {R L : List α} (hs : R <:+ L) : newest R.length L = R := by
  rw [← newest_eq_of_suffix hs (Nat.min_le_left _ _), newest_of_length_le (Nat.le_refl _)]

/-- A touch keeps a part at the end at the end. -/
theorem touch_suffix {R L : List α} (hs : R <:+ L) (hL : L.Nodup) (a : α) :
    touch R a <:+ touch L a := by
  obtain ⟨E, rfl⟩ := hs
  unfold touch
  rw [List.erase_append]
  split
  · next ha =>
      have hR : a ∉ R := fun hR => (List.nodup_append.mp hL).2.2 a ha a hR rfl
      rw [List.erase_of_not_mem hR, List.append_assoc]
      exact List.suffix_append _ _
  · rw [List.append_assoc]
    exact List.suffix_append _ _

/-- So do several. -/
theorem touchAll_suffix {R L : List α} (hs : R <:+ L) (hL : L.Nodup) (as : List α) :
    touchAll R as <:+ touchAll L as := by
  induction as generalizing R L with
  | nil => exact hs
  | cons a as ih => exact ih (touch_suffix hs hL a) (nodup_touch hL a)

/-- **Bounded replay is exact**: keeping only the `n` newest before a batch of
touches leaves the same `n` newest after it. -/
theorem newest_touchAll_newest (n : ℕ) {L : List α} (hL : L.Nodup) (as : List α) :
    newest n (touchAll (newest n L) as) = newest n (touchAll L as) := by
  by_cases hn : L.length ≤ n
  · rw [newest_of_length_le hn]
  · apply newest_eq_of_suffix (touchAll_suffix (newest_suffix n L) hL as)
    have hlen := length_le_length_touchAll (newest n L) as
    rw [length_newest] at hlen
    omega

theorem dedup_suffix_append (earlier later : List α) :
    later.dedup <:+ (earlier ++ later).dedup := by
  rw [List.dedup_append]
  exact List.suffix_union_right _ _

/-- The elements of the last part of a history survive in the `n` newest when
that part has at most `n` distinct elements. -/
theorem mem_newest_of_recent {n : ℕ} {earlier later : List α} {a : α} (ha : a ∈ later)
    (hlen : later.dedup.length ≤ n) : a ∈ newest n (earlier ++ later).dedup := by
  exact (suffix_newest (dedup_suffix_append earlier later) hlen).subset (List.mem_dedup.mpr ha)

/-- The distinct elements of a history are those of `P` and the ones that pass a
filter which every element outside `P` passes. -/
theorem length_dedup_append_le (P later : List α) {q : α → Bool} (hq : ∀ a, a ∉ P → q a) :
    (P ++ later).dedup.length ≤ P.length + (later.filter q).dedup.length := by
  have hsub : (P ++ later).toFinset ⊆ P.toFinset ∪ (later.filter q).toFinset := by
    intro a ha
    have hqa := hq a
    simp only [List.mem_toFinset, List.mem_append, Finset.mem_union, List.mem_filter] at ha ⊢
    tauto
  calc (P ++ later).dedup.length
      = (P ++ later).toFinset.card := (List.card_toFinset _).symm
    _ ≤ (P.toFinset ∪ (later.filter q).toFinset).card := Finset.card_le_card hsub
    _ ≤ P.toFinset.card + (later.filter q).toFinset.card := Finset.card_union_le _ _
    _ ≤ P.length + (later.filter q).dedup.length := by
        rw [List.card_toFinset (later.filter q)]
        exact Nat.add_le_add_right (List.toFinset_card_le P) _

/-- When the `n` newest reach into `P` without exhausting it, they cut the part
of `P` that is not repeated later in two. -/
theorem newest_cuts {n : ℕ} (earlier : List α) {P later : List α} (hlo : later.dedup.length < n)
    (hhi : n < (P ++ later).dedup.length) :
    ∃ X₁ X₂, X₁ ≠ [] ∧ X₂ ≠ [] ∧ (X₁ ++ X₂).Sublist P ∧ (X₁ ++ (X₂ ++ later.dedup)).Nodup ∧
      newest n (earlier ++ (P ++ later)).dedup = X₂ ++ later.dedup := by
  obtain ⟨X, hX, hdedup⟩ := List.sublist_suffix_of_union P later.dedup
  rw [← List.dedup_append] at hdedup
  have hlen : (P ++ later).dedup.length = X.length + later.dedup.length := by
    rw [← hdedup, List.length_append]
  let k := X.length - (n - later.dedup.length)
  have hsplit : X.take k ++ (X.drop k ++ later.dedup) = (P ++ later).dedup := by
    rw [← List.append_assoc, List.take_append_drop, hdedup]
  have hinner : X.drop k ++ later.dedup <:+ (P ++ later).dedup := ⟨X.take k, hsplit⟩
  have hsuffix := hinner.trans (dedup_suffix_append earlier (P ++ later))
  have hcount : (X.drop k ++ later.dedup).length = n := by
    rw [List.length_append, List.length_drop]
    omega
  refine ⟨X.take k, X.drop k, ?_, ?_, ?_, ?_, ?_⟩
  · apply List.ne_nil_of_length_pos
    rw [List.length_take]
    omega
  · apply List.ne_nil_of_length_pos
    rw [List.length_drop]
    omega
  · rwa [List.take_append_drop]
  · rw [hsplit]
    exact List.nodup_dedup _
  · rw [← hcount]
    exact newest_eq_self_of_suffix hsuffix

omit [DecidableEq α] in
/-- A measure of suffixes that passes `n` without ever being `n` jumps over it
at one element. -/
theorem exists_jump {g : List α → ℕ} {n : ℕ} {L : List α} (hlo : g [] < n) (hhi : n < g L)
    (hne : ∀ R, R <:+ L → g R ≠ n) : ∃ a R, a :: R <:+ L ∧ g R < n ∧ n < g (a :: R) := by
  induction L with
  | nil => omega
  | cons a L ih =>
      have hL : L <:+ a :: L := List.suffix_cons a L
      by_cases h : n < g L
      · obtain ⟨c, R, hs, hR, hc⟩ := ih h fun R hs => hne R (hs.trans hL)
        exact ⟨c, R, hs.trans hL, hR, hc⟩
      · have hneL := hne L hL
        exact ⟨a, L, List.suffix_refl _, by omega, hhi⟩

/-! ## More room and less traffic -/

/-- An element among the `n` newest was touched, and fewer than `n` others after it. -/
theorem recent_of_mem_newest {n : ℕ} {log : List α} {a : α} (h : a ∈ newest n log.dedup) :
    ∃ earlier later, log = earlier ++ a :: later ∧ (a :: later).dedup.length ≤ n := by
  induction log with
  | nil => simp [newest] at h
  | cons b log ih =>
      have hlater (hmem : a ∈ newest n log.dedup) :
          ∃ earlier later, b :: log = earlier ++ a :: later ∧ (a :: later).dedup.length ≤ n := by
        obtain ⟨earlier, later, heq, hlen⟩ := ih hmem
        exact ⟨b :: earlier, later, by rw [heq, List.cons_append], hlen⟩
      by_cases hb : b ∈ log
      · rw [List.dedup_cons_of_mem hb] at h
        exact hlater h
      · rw [List.dedup_cons_of_notMem hb] at h
        by_cases hn : n ≤ log.dedup.length
        · rw [← newest_eq_of_suffix (List.suffix_cons b log.dedup) (by simp [hn])] at h
          exact hlater h
        · have hle : (b :: log.dedup).length ≤ n := by simp only [List.length_cons]; omega
          rw [newest_of_length_le hle, List.mem_cons] at h
          obtain rfl | h := h
          · exact ⟨[], log, rfl, by rwa [List.dedup_cons_of_notMem hb]⟩
          · refine hlater ?_
            rwa [newest_of_length_le (by omega)]

/-- A subset has no more distinct elements. -/
theorem length_dedup_le_of_subset {L M : List α} (h : L ⊆ M) :
    L.dedup.length ≤ M.dedup.length := by
  rw [← List.card_toFinset, ← List.card_toFinset]
  refine Finset.card_le_card fun a ha => ?_
  simp only [List.mem_toFinset] at ha ⊢
  exact h ha

/-- **More room and less traffic never push out an element**: `log'` is `log`
without some of the touches that fail `q`, and `a` passes it. -/
theorem mem_newest_of_thinned {n n' : ℕ} (hn : n ≤ n') {log log' : List α} {q : α → Bool}
    (hsub : log'.Sublist log) (hq : log'.filter q = log.filter q) {a : α} (ha : q a)
    (h : a ∈ newest n log.dedup) : a ∈ newest n' log'.dedup := by
  obtain ⟨earlier, later, rfl, hlen⟩ := recent_of_mem_newest h
  obtain ⟨earlier', later', rfl, hearlier, hlater⟩ := List.sublist_append_iff.mp hsub
  have hkept : later'.filter q = (a :: later).filter q := by
    refine (hlater.filter q).eq_of_length ?_
    have htotal := congrArg List.length hq
    simp only [List.filter_append, List.length_append] at htotal
    have h₁ := (hearlier.filter q).length_le
    have h₂ := (hlater.filter q).length_le
    omega
  have hmem : a ∈ later'.filter q := by simp [hkept, ha]
  refine mem_newest_of_recent (List.mem_filter.mp hmem).1 ?_
  exact (length_dedup_le_of_subset hlater.subset).trans (hlen.trans hn)

end Recency
