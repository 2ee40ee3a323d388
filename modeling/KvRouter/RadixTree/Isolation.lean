import KvRouter.RadixTree.Refinement

/-!
# KvRouter.RadixTree.Isolation

The backends that share a prefix tree do not see each other.  The calls about
other backends create nodes, fill them and empty them, and `Evict` takes its
references from a walk in an arbitrary order; none of it reaches the bindings
of a backend.

* `Agrees` — two maps with the same bindings of a backend;
* `Agrees.step` — the same call keeps them so, because an eviction has no
  choice where no two bindings carry the same time (`Distinct`);
* `isolated` — histories with the same calls about a backend bind it alike.
-/

namespace KvRouter.RadixTree

/-! ## Calls -/

/-- The backend a call is about. -/
def Op.backend : Op → String
  | .insert _ id _ => id
  | .touch _ id _ => id
  | .evict id _ _ _ => id

/-- The reading of the clock that a call stores. -/
def Op.reading : Op → Option ℤ
  | .insert _ _ now => some now
  | .touch _ _ now => some now
  | .evict _ _ _ _ => none

/-- The calls of a history about a backend. -/
def about (id : String) (ops : List Op) : List Op := ops.filter fun op => op.backend = id

/-- The readings of the clock in the calls about a backend. -/
def readings (id : String) (ops : List Op) : List ℤ := (about id ops).filterMap Op.reading

/-- Two calls that differ at most in the orders in which they range over maps. -/
inductive SameCall : Op → Op → Prop
  | insert (hashes : List UInt64) (id : String) (now : ℤ) :
      SameCall (.insert hashes id now) (.insert hashes id now)
  | touch (hashes : List UInt64) (id : String) (now : ℤ) :
      SameCall (.touch hashes id now) (.touch hashes id now)
  | evict (id : String) (count : ℤ) (walkOrder walkOrder' : WalkOrder)
      (removalOrder removalOrder' : GoMap.RangeOrder (List UInt64) (List ℕ)) :
      SameCall (.evict id count walkOrder removalOrder) (.evict id count walkOrder' removalOrder')

theorem SameCall.refl (op : Op) : SameCall op op := by
  cases op <;> constructor

theorem SameCall.reading {op op' : Op} (h : SameCall op op') : op'.reading = op.reading := by
  cases h <;> rfl

theorem about_concat (id : String) (ops : List Op) (op : Op) :
    about id (ops ++ [op]) = if op.backend = id then about id ops ++ [op] else about id ops := by
  by_cases h : op.backend = id <;> simp [about, h]

/-- The reading of the last call is among those for its backend. -/
theorem readings_concat (id : String) (ops : List Op) (op : Op) :
    readings id (ops ++ [op]) =
      if op.backend = id then readings id ops ++ op.reading.toList else readings id ops := by
  rw [readings, about_concat]
  split
  · rw [List.filterMap_append, readings]
    cases h : op.reading <;> simp [h]
  · rfl

/-! ## Maps -/

/-- Two maps bind a backend alike. -/
def FlatMap.Agrees (id : String) (m m' : FlatMap) : Prop :=
  ∀ p, m'.lookup (p, id) = m.lookup (p, id)

/-- No two bindings of a backend carry the same time. -/
def FlatMap.Distinct (id : String) (m : FlatMap) : Prop :=
  ∀ p q x y, m.lookup (p, id) = some x → m.lookup (q, id) = some y → x.1 = y.1 → p = q

theorem FlatMap.Agrees.trans {id : String} {m₁ m₂ m₃ : FlatMap} (h : Agrees id m₁ m₂)
    (h' : Agrees id m₂ m₃) : Agrees id m₁ m₃ :=
  fun p => (h' p).trans (h p)

theorem FlatMap.Agrees.symm {id : String} {m m' : FlatMap} (h : Agrees id m m') :
    Agrees id m' m :=
  fun p => (h p).symm

theorem FlatMap.mem_bindings {m : FlatMap} {id : String} {key : List UInt64 × String} :
    key ∈ m.bindings id ↔ (m.lookup key).isSome ∧ key.2 = id := by
  rw [bindings, Finset.mem_filter, Finmap.mem_keys, Finmap.lookup_isSome]

/-- Maps that agree have the same bindings of the backend. -/
theorem FlatMap.Agrees.bindings {id : String} {m m' : FlatMap} (h : Agrees id m m') :
    m'.bindings id = m.bindings id := by
  ext ⟨p, id'⟩
  rw [mem_bindings, mem_bindings]
  refine and_congr_left fun hid => ?_
  dsimp only at hid
  rw [hid, h]

/-- Recording binds one key anew. -/
theorem FlatMap.lookup_record (m : FlatMap) (hashes : List UInt64) (backendID : String) (now : ℤ)
    (key : List UInt64 × String) :
    (m.record hashes backendID now).lookup key =
      if key = (hashes, backendID) then
        some (now, ((m.lookup (hashes, backendID)).map fun x => x.2 + 1).getD 1)
      else m.lookup key :=
  GoMap.lookup_insert_eq _ _ _ _

/-- Refreshing changes one key, if it is bound. -/
theorem FlatMap.lookup_refresh (m : FlatMap) (hashes : List UInt64) (backendID : String) (now : ℤ)
    (key : List UInt64 × String) :
    (m.refresh hashes backendID now).lookup key =
      if key = (hashes, backendID) then
        (m.lookup (hashes, backendID)).map fun x => (now, x.2 + 1)
      else m.lookup key := by
  unfold refresh
  cases h : m.lookup (hashes, backendID) with
  | none => grind
  | some x => simp [GoMap.lookup_insert_eq]

/-! ## One call -/

/-- A call about another backend changes nothing. -/
theorem FlatMap.Step.frame {m m' : FlatMap} {op : Op} (h : m.Step op m') {id : String}
    (hop : op.backend ≠ id) : m.Agrees id m' := by
  intro p
  cases op with
  | insert hashes backendID now =>
      have hne : id ≠ backendID := Ne.symm hop
      obtain rfl : m' = m.record hashes backendID now := h
      simp [lookup_record, hne]
  | touch hashes backendID now =>
      have hne : id ≠ backendID := Ne.symm hop
      obtain rfl : m' = m.refresh hashes backendID now := h
      simp [lookup_refresh, hne]
  | evict backendID count walkOrder removalOrder =>
      have hne : id ≠ backendID := Ne.symm hop
      simp only [FlatMap.Step] at h
      split at h
      · rw [h]
      · obtain ⟨removed, hevicts⟩ := h
        simp [hevicts.lookup, hne]

/-- Sets of one size are equal when they do not both have an element of their own. -/
theorem eq_of_card_eq {α : Type*} {s t : Finset α} (hcard : s.card = t.card)
    (hmeet : ∀ p ∈ s, ∀ q ∈ t, p ∉ t → q ∉ s → False) : s = t := by
  by_contra hne
  have hsub : ¬s ⊆ t := fun h => hne (Finset.eq_of_subset_of_card_le h hcard.ge)
  have hsub' : ¬t ⊆ s := fun h => hne (Finset.eq_of_subset_of_card_le h hcard.le).symm
  obtain ⟨p, hp, hp'⟩ := Finset.not_subset.mp hsub
  obtain ⟨q, hq, hq'⟩ := Finset.not_subset.mp hsub'
  exact hmeet p hp q hq hp' hq'

/-- **An eviction has no choice** where no two bindings carry the same time. -/
theorem FlatMap.Evicts.unique {m₁ m₂ m₁' m₂' : FlatMap} {id : String} {n : ℕ}
    {removed₁ removed₂ : Finset (List UInt64)} (h₁ : m₁.Evicts id n removed₁ m₁')
    (h₂ : m₂.Evicts id n removed₂ m₂') (hagrees : m₁.Agrees id m₂) (hdistinct : m₁.Distinct id) :
    removed₁ = removed₂ := by
  refine eq_of_card_eq (by rw [h₁.card, h₂.card, hagrees.bindings]) ?_
  intro p hp q hq hp' hq'
  obtain ⟨x, hx⟩ := Option.isSome_iff_exists.mp (h₁.bound p hp)
  obtain ⟨y, hy⟩ := Option.isSome_iff_exists.mp (h₂.bound q hq)
  have hy' : m₁.lookup (q, id) = some y := hagrees q ▸ hy
  have hle := h₁.oldest p hp q hq' x y hx hy'
  have hge := h₂.oldest q hq p hp' y x hy (by rw [hagrees, hx])
  obtain rfl := hdistinct p q x y hx hy' (le_antisymm hle hge)
  exact hq' hp

/-- **The same call keeps two maps in agreement.** -/
theorem FlatMap.Agrees.step {id : String} {m₁ m₂ m₁' m₂' : FlatMap} {op op' : Op}
    (hagrees : m₁.Agrees id m₂) (hdistinct : m₁.Distinct id) (hsame : SameCall op op')
    (hop : op.backend = id) (h₁ : m₁.Step op m₁') (h₂ : m₂.Step op' m₂') : m₁'.Agrees id m₂' := by
  subst hop
  intro p
  cases hsame with
  | insert hashes backendID now =>
      obtain rfl : m₁' = m₁.record hashes backendID now := h₁
      obtain rfl : m₂' = m₂.record hashes backendID now := h₂
      have hat := hagrees hashes
      have hp := hagrees p
      simp only [Op.backend] at hat hp ⊢
      rw [lookup_record, lookup_record, hat, hp]
  | touch hashes backendID now =>
      obtain rfl : m₁' = m₁.refresh hashes backendID now := h₁
      obtain rfl : m₂' = m₂.refresh hashes backendID now := h₂
      have hat := hagrees hashes
      have hp := hagrees p
      simp only [Op.backend] at hat hp ⊢
      rw [lookup_refresh, lookup_refresh, hat, hp]
  | evict backendID count walkOrder walkOrder' removalOrder removalOrder' =>
      simp only [FlatMap.Step] at h₁ h₂
      split at h₁
      · next hcount =>
          rw [if_pos hcount] at h₂
          rw [h₁, h₂]
          exact hagrees p
      · next hcount =>
          rw [if_neg hcount] at h₂
          obtain ⟨removed₁, hremoved₁⟩ := h₁
          obtain ⟨removed₂, hremoved₂⟩ := h₂
          obtain rfl := hremoved₁.unique hremoved₂ hagrees hdistinct
          have hp := hagrees p
          simp only [Op.backend] at hp ⊢
          rw [hremoved₁.lookup, hremoved₂.lookup, hp]

/-! ## Times -/

/-- The bindings of a backend carry distinct times, all among those read. -/
structure FlatMap.Stamped (id : String) (times : List ℤ) (m : FlatMap) : Prop where
  distinct : m.Distinct id
  read : ∀ p x, m.lookup (p, id) = some x → x.1 ∈ times

/-- A binding made or refreshed at a time later than any other. -/
theorem FlatMap.Stamped.record {id : String} {times : List ℤ} {m m' : FlatMap}
    (h : m.Stamped id times) {now : ℤ} (hnow : ∀ t ∈ times, t < now) (hashes : List UInt64)
    (hkeep : ∀ p, p ≠ hashes → m'.lookup (p, id) = m.lookup (p, id))
    (hnew : ∀ x, m'.lookup (hashes, id) = some x → x.1 = now) :
    m'.Stamped id (times ++ [now]) where
  distinct p q x y hx hy hxy := by
    by_cases hp : p = hashes <;> by_cases hq : q = hashes
    · rw [hp, hq]
    · subst hp
      rw [hkeep q hq] at hy
      have hlt := hnow _ (h.read q y hy)
      rw [← hxy, hnew x hx] at hlt
      exact absurd hlt (lt_irrefl _)
    · subst hq
      rw [hkeep p hp] at hx
      have hlt := hnow _ (h.read p x hx)
      rw [hxy, hnew y hy] at hlt
      exact absurd hlt (lt_irrefl _)
    · rw [hkeep p hp] at hx
      rw [hkeep q hq] at hy
      exact h.distinct p q x y hx hy hxy
  read p x hx := by
    by_cases hp : p = hashes
    · subst hp
      simp [hnew x hx]
    · rw [hkeep p hp] at hx
      exact List.mem_append_left _ (h.read p x hx)

/-- A map with fewer bindings of the backend. -/
theorem FlatMap.Stamped.sub {id : String} {times : List ℤ} {m m' : FlatMap}
    (h : m.Stamped id times)
    (hsub : ∀ p x, m'.lookup (p, id) = some x → m.lookup (p, id) = some x) :
    m'.Stamped id times where
  distinct p q x y hx hy := h.distinct p q x y (hsub p x hx) (hsub q y hy)
  read p x hx := h.read p x (hsub p x hx)

/-- **A step of the backend keeps its stamps** distinct and among the readings. -/
theorem FlatMap.Stamped.step {id : String} {times : List ℤ} {m m' : FlatMap}
    (h : m.Stamped id times) {op : Op} (hstep : m.Step op m') (hop : op.backend = id)
    (hnow : ∀ now ∈ op.reading, ∀ t ∈ times, t < now) :
    m'.Stamped id (times ++ op.reading.toList) := by
  subst hop
  cases op with
  | insert hashes backendID now =>
      obtain rfl : m' = m.record hashes backendID now := hstep
      refine h.record (hnow now rfl) hashes (fun p hp => ?_) fun x hx => ?_
      · simp [lookup_record, hp]
      · simp only [Op.backend, lookup_record, if_true, Option.some.injEq] at hx
        rw [← hx]
  | touch hashes backendID now =>
      obtain rfl : m' = m.refresh hashes backendID now := hstep
      refine h.record (hnow now rfl) hashes (fun p hp => ?_) fun x hx => ?_
      · simp [lookup_refresh, hp]
      · simp only [Op.backend, lookup_refresh, if_true, Option.map_eq_some_iff] at hx
        obtain ⟨y, -, rfl⟩ := hx
        rfl
  | evict backendID count walkOrder removalOrder =>
      simp only [FlatMap.Step] at hstep
      rw [Op.reading, Option.toList_none, List.append_nil]
      split at hstep
      · rwa [hstep]
      · obtain ⟨removed, hevicts⟩ := hstep
        refine h.sub fun p x hx => ?_
        rw [hevicts.lookup] at hx
        split at hx
        · contradiction
        · exact hx

/-- **Where the clock goes on between the calls about a backend, its bindings carry
distinct times.** -/
theorem run_stamped {id : String} (ops : List Op)
    (hclock : (readings id ops).Pairwise (· < ·)) :
    (run ops).flat.Stamped id (readings id ops) := by
  induction ops using List.reverseRecOn with
  | nil =>
      have hempty (p : List UInt64) : (run []).flat.lookup (p, id) = none :=
        Finmap.lookup_empty _
      constructor
      · intro p q x y hx
        rw [hempty] at hx
        contradiction
      · intro p x hx
        rw [hempty] at hx
        contradiction
  | append_singleton ops op ih =>
      have hstep := step_apply (run ops) op
      rw [readings_concat] at hclock ⊢
      rw [run_concat]
      split at hclock
      · next hop =>
          rw [if_pos hop]
          refine (ih (List.pairwise_append.mp hclock).1).step hstep hop fun now hnow t ht => ?_
          exact (List.pairwise_append.mp hclock).2.2 t ht now (Option.mem_toList.mpr hnow)
      · next hop =>
          rw [if_neg hop]
          exact (ih hclock).sub fun p x hx => by rwa [hstep.frame hop] at hx

/-! ## Histories -/

/-- The calls about other backends can be left out. -/
theorem agrees_about {id : String} (ops : List Op) (hclock : (readings id ops).Pairwise (· < ·)) :
    (run ops).flat.Agrees id (run (about id ops)).flat := by
  induction ops using List.reverseRecOn with
  | nil => exact fun _ => rfl
  | append_singleton ops op ih =>
      have hstep := step_apply (run ops) op
      rw [readings_concat] at hclock
      rw [run_concat, about_concat]
      split at hclock
      · next hop =>
          have hclock' := (List.pairwise_append.mp hclock).1
          rw [if_pos hop, run_concat]
          exact (ih hclock').step (run_stamped ops hclock').distinct (.refl op) hop hstep
            (step_apply _ op)
      · next hop =>
          rw [if_neg hop]
          exact (hstep.frame hop).symm.trans (ih hclock)

/-- Two trees that bind a backend alike, after the same calls about it. -/
theorem agrees_foldl {id : String} {calls calls' : List Op} (h : List.Forall₂ SameCall calls calls')
    (habout : ∀ op ∈ calls, op.backend = id) {t t' : Tree} {times : List ℤ}
    (hagrees : t.flat.Agrees id t'.flat) (hstamped : t.flat.Stamped id times)
    (hclock : (times ++ calls.filterMap Op.reading).Pairwise (· < ·)) :
    (calls.foldl Tree.apply t).flat.Agrees id (calls'.foldl Tree.apply t').flat := by
  induction h generalizing t t' times with
  | nil => exact hagrees
  | @cons op op' calls calls' hsame h ih =>
      have hop : op.backend = id := habout op List.mem_cons_self
      have hsplit : (op :: calls).filterMap Op.reading =
          op.reading.toList ++ calls.filterMap Op.reading := by
        cases hread : op.reading <;> simp [hread]
      rw [hsplit] at hclock
      have hnow : ∀ now ∈ op.reading, ∀ s ∈ times, s < now := by
        intro now hnow s hs
        refine (List.pairwise_append.mp hclock).2.2 s hs now ?_
        exact List.mem_append_left _ (Option.mem_toList.mpr hnow)
      rw [← List.append_assoc] at hclock
      exact ih (fun o ho => habout o (List.mem_cons_of_mem _ ho))
        (hagrees.step hstamped.distinct hsame hop (step_apply t op) (step_apply t' op'))
        (hstamped.step (step_apply t op) hop hnow) hclock

/-- Maps that bind a backend alike answer alike for it. -/
theorem FlatMap.LooksUp.agrees {id : String} {m m' : FlatMap} {q : List UInt64}
    {result result' : GoMap String ℤ} (h : m.LooksUp q result) (h' : m'.LooksUp q result')
    (hagrees : m.Agrees id m') : result'.lookup id = result.lookup id := by
  have hdepths : m'.depths q id = m.depths q id := by
    simp only [depths, hagrees _]
  ext k
  rw [h'.greatest, h.greatest, hdepths]

/-- Histories of the same calls read the same times. -/
theorem readings_of_same {calls calls' : List Op} (h : List.Forall₂ SameCall calls calls') :
    calls'.filterMap Op.reading = calls.filterMap Op.reading := by
  induction h with
  | nil => rfl
  | cons hsame h ih => simp [List.filterMap_cons, hsame.reading, ih]

/-- **The backends of a prefix tree are isolated.**  Two histories that make the
same calls about a backend, with the clock going on between them, bind it alike
and answer every lookup alike for it, whatever they do to the other backends and
in whatever orders they range over maps. -/
theorem isolated (id : String) (ops ops' : List Op)
    (hsame : List.Forall₂ SameCall (about id ops) (about id ops'))
    (hclock : (readings id ops).Pairwise (· < ·)) :
    (∀ p, (run ops').flat.lookup (p, id) = (run ops).flat.lookup (p, id)) ∧
      ∀ q, ((run ops').lookup q).lookup id = ((run ops).lookup q).lookup id := by
  have hclock' : (readings id ops').Pairwise (· < ·) := by
    rwa [readings, readings_of_same hsame]
  have hnew : Tree.new.flat.Agrees id Tree.new.flat := fun _ => rfl
  have hempty : Tree.new.flat.Stamped id [] := run_stamped [] List.Pairwise.nil
  have habout : ∀ op ∈ about id ops, op.backend = id := fun op hop => by
    simpa using (List.mem_filter.mp hop).2
  have hagrees : (run ops).flat.Agrees id (run ops').flat :=
    ((agrees_about ops hclock).trans (agrees_foldl hsame habout hnew hempty hclock)).trans
      (agrees_about ops' hclock').symm
  exact ⟨hagrees, fun q => (looksUp_lookup _ q).agrees (looksUp_lookup _ q) hagrees⟩

/-- Another backend comes and goes between the calls about the first one, and the eviction of the
first one walks the tree the other way round. -/
theorem isolated_pair :
    let shared := run [.insert [1] "a" 3, .insert [1, 2] "b" 3, .insert [1, 2] "a" 5,
      .evict "b" 1 .stored default, .evict "a" 1 .stored default]
    let alone := run [.insert [1] "a" 3, .insert [1, 2] "a" 5,
      .evict "a" 1 ⟨fun _ keys => keys.reverse, fun _ keys => keys.reverse_perm⟩ default]
    ∀ q, (alone.lookup q).lookup "a" = (shared.lookup q).lookup "a" := by
  refine (isolated "a" _ _ ?_ ?_).2
  · simp only [about, Op.backend, List.filter_cons, List.filter_nil]
    exact .cons (.insert _ _ _) (.cons (.insert _ _ _) (.cons (.evict _ _ _ _ _ _) .nil))
  · decide

end KvRouter.RadixTree
