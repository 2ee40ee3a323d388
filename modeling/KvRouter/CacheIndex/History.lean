import KvRouter.CacheIndex.Evict
import KvRouter.CacheIndex.Keys

/-!
# KvRouter.CacheIndex.History

What a run of calls says about the directory before any eviction is looked at:
the clock readings it took, the number of keys it touched, and for each backend
the block lists committed (`committed`) and the pairs touched (`touched`) since
that backend was last registered.  Each of these grows by one call at the end
of a run (the `_concat` lemmas), which is how the inductions over runs use them.
-/

namespace KvRouter.CacheIndex

/-! ## Quantities of a run -/

/-- The backend a call is about. -/
def Op.backend : Op → String
  | .register id _ => id
  | .commit id _ _ _ _ => id

def Op.reading : Op → Option ℤ
  | .register _ _ => none
  | .commit _ _ _ now _ => some now.time

/-- The successive readings of the clock. -/
def readings (ops : List Op) : List ℤ := ops.filterMap Op.reading

/-- How many keys a call touches; a commit to a backend that is unknown or has
no capacity touches none. -/
def Index.keyTouches (i : Index) : Op → ℕ
  | .register _ _ => 0
  | .commit id _ blocks _ _ =>
      match i.backends.lookup id with
      | none => 0
      | some b => if b.capacity ≤ 0 then 0 else blocks.length

/-- The number of key touches of a run from `i`. -/
def touchesFrom (i : Index) : List Op → ℕ
  | [] => 0
  | op :: ops => i.keyTouches op + touchesFrom (i.apply op) ops

/-- The number of key touches of a run on a new directory. -/
def totalTouches (ops : List Op) : ℕ := touchesFrom Index.new ops

/-- The number of blocks a call carries. -/
def Op.size : Op → ℕ
  | .register _ _ => 0
  | .commit _ _ blocks _ _ => blocks.length

/-- The pairs of a block list in a namespace, in the order they are touched. -/
def pairsOf (ns : String) (blocks : List UInt64) : List Pair :=
  (cumulativeKeys blocks).map fun key => (ns, key)

/-- The namespaces and block lists committed to a backend since its last
`Register`, in call order. -/
def committed (id : String) (ops : List Op) : List (String × List UInt64) :=
  ops.foldl (fun log op => match op with
    | .register id' _ => if id' = id then [] else log
    | .commit id' ns blocks _ _ => if id' = id then log ++ [(ns, blocks)] else log) []

/-- The pairs touched at a backend since its last `Register`. -/
def touched (id : String) (ops : List Op) : List Pair :=
  (committed id ops).flatMap fun c => pairsOf c.1 c.2

/-! ## One more call -/

theorem readings_concat (ops : List Op) (op : Op) :
    readings (ops ++ [op]) = readings ops ++ op.reading.toList := by
  simp only [readings, List.filterMap_append, List.filterMap_cons, List.filterMap_nil]
  cases op.reading <;> rfl

/-- The touches of two histories add up. -/
theorem touchesFrom_append (i : Index) (ops later : List Op) :
    touchesFrom i (ops ++ later) =
      touchesFrom i ops + touchesFrom (ops.foldl Index.apply i) later := by
  induction ops generalizing i with
  | nil => simp [touchesFrom]
  | cons op ops ih =>
      rw [List.cons_append, touchesFrom, touchesFrom, List.foldl_cons, ih, Nat.add_assoc]

theorem totalTouches_concat (ops : List Op) (op : Op) :
    totalTouches (ops ++ [op]) = totalTouches ops + (run ops).keyTouches op := by
  simp [totalTouches, touchesFrom_append, touchesFrom, run]

/-- A call touches at most its own keys. -/
theorem keyTouches_le (i : Index) (op : Op) : i.keyTouches op ≤ op.size := by
  cases op with
  | register id capacity => exact Nat.le_refl _
  | commit id ns blocks now orders =>
      simp only [Index.keyTouches, Op.size]
      split
      · exact Nat.zero_le _
      · split
        · exact Nat.zero_le _
        · exact Nat.le_refl _

/-- A run touches at most as many keys as its calls carry blocks. -/
theorem totalTouches_le (ops : List Op) : totalTouches ops ≤ (ops.map Op.size).sum := by
  unfold totalTouches
  generalize Index.new = i
  induction ops generalizing i with
  | nil => exact Nat.le_refl _
  | cons op ops ih =>
      rw [touchesFrom, List.map_cons, List.sum_cons]
      exact Nat.add_le_add (keyTouches_le i op) (ih (i.apply op))

/-- Registering a backend forgets what was committed to it. -/
theorem committed_register (id : String) (ops : List Op) (id' : String) (capacity : ℤ) :
    committed id (ops ++ [.register id' capacity]) =
      if id' = id then [] else committed id ops := by
  simp [committed]

/-- A commit is remembered for its backend. -/
theorem committed_commit (id : String) (ops : List Op) (id' ns : String) (blocks : List UInt64)
    (now : Instant) (orders : ℕ → ScanOrder) :
    committed id (ops ++ [.commit id' ns blocks now orders]) =
      if id' = id then committed id ops ++ [(ns, blocks)] else committed id ops := by
  simp [committed]

/-- Registering a backend forgets what was touched. -/
theorem touched_register (id : String) (ops : List Op) (id' : String) (capacity : ℤ) :
    touched id (ops ++ [.register id' capacity]) = if id' = id then [] else touched id ops := by
  rw [touched, committed_register]
  split <;> rfl

/-- A commit touches its pairs last. -/
theorem touched_commit (id : String) (ops : List Op) (id' ns : String) (blocks : List UInt64)
    (now : Instant) (orders : ℕ → ScanOrder) :
    touched id (ops ++ [.commit id' ns blocks now orders]) =
      if id' = id then touched id ops ++ pairsOf ns blocks else touched id ops := by
  rw [touched, committed_commit]
  split
  · simp [touched]
  · rfl

/-- The history of a backend ignores calls about other backends. -/
theorem committed_of_ne (ops : List Op) {op : Op} {id : String} (h : op.backend ≠ id) :
    committed id (ops ++ [op]) = committed id ops := by
  cases op with
  | register id' capacity => exact (committed_register id ops id' capacity).trans (if_neg h)
  | commit id' ns blocks now orders =>
      exact (committed_commit id ops id' ns blocks now orders).trans (if_neg h)

theorem touched_of_ne (ops : List Op) {op : Op} {id : String} (h : op.backend ≠ id) :
    touched id (ops ++ [op]) = touched id ops := by
  rw [touched, committed_of_ne ops h, touched]

/-- The pairs of a commit are the keys of its non-empty prefixes. -/
theorem mem_pairsOf {ns : String} {blocks : List UInt64} {p : Pair} :
    p ∈ pairsOf ns blocks ↔
      p.1 = ns ∧ ∃ n, 0 < n ∧ n ≤ blocks.length ∧ p.2 = cumulativeKey (blocks.take n) := by
  obtain ⟨ns', key⟩ := p
  simp only [pairsOf, List.mem_map, Prod.mk.injEq, ← mem_cumulativeKeys]
  constructor
  · rintro ⟨key', hkey, rfl, rfl⟩
    exact ⟨rfl, hkey⟩
  · rintro ⟨rfl, hkey⟩
    exact ⟨key, hkey, rfl, rfl⟩

@[simp] theorem length_pairsOf (ns : String) (blocks : List UInt64) :
    (pairsOf ns blocks).length = blocks.length := by
  simp [pairsOf]

/-! ## The effect of one call -/

/-- A registered backend starts empty. -/
theorem lookup_register (i : Index) (id : String) (capacity : ℤ) (id' : String) :
    (i.register id capacity).backends.lookup id' =
      if id' = id then some ⟨capacity, ∅⟩ else i.backends.lookup id' := by
  rw [Index.register]
  exact GoMap.lookup_insert_eq _ _ _ _

/-- The eviction loop of a commit. -/
def trim (orders : ℕ → ScanOrder) (b : BackendCache) : BackendCache :=
  (evictLoop orders (totalEntries b) b).2

@[simp] theorem capacity_trim (orders : ℕ → ScanOrder) (b : BackendCache) :
    (trim orders b).capacity = b.capacity := capacity_evictLoop _ _ _

section Commit

variable {i : Index} {id : String} {b : BackendCache} (hb : i.backends.lookup id = some b)
  (hcap : 0 < b.capacity) (ns : String) (blocks : List UInt64) (now : Instant)
  (orders : ℕ → ScanOrder)
include hb hcap

/-- A commit to a backend with a capacity touches the keys and runs the eviction
loop. -/
theorem commit_of_lookup :
    i.commit id ns blocks now orders =
      let s := touchKeys b i.sequence ns now (cumulativeKeys blocks)
      ⟨i.backends.insert id (trim orders s.1), s.2⟩ := by
  simp only [Index.commit, hb, if_neg (Int.not_le.mpr hcap)]
  rfl

/-- A commit to a backend with room touches each of its keys. -/
theorem keyTouches_of_lookup :
    i.keyTouches (.commit id ns blocks now orders) = blocks.length := by
  simp only [Index.keyTouches, hb, if_neg (Int.not_le.mpr hcap)]

end Commit

/-- A commit is to a backend with a capacity, or does nothing. -/
theorem commit_cases (i : Index) (id ns : String) (blocks : List UInt64) (now : Instant)
    (orders : ℕ → ScanOrder) :
    (∃ b, i.backends.lookup id = some b ∧ 0 < b.capacity) ∨
    ((∀ b, i.backends.lookup id = some b → b.capacity ≤ 0) ∧
      i.keyTouches (.commit id ns blocks now orders) = 0 ∧
      i.commit id ns blocks now orders = i) := by
  unfold Index.commit Index.keyTouches
  cases h : i.backends.lookup id with
  | none => exact Or.inr ⟨by simp, by simp [h], by simp⟩
  | some b =>
      by_cases hcap : b.capacity ≤ 0
      · exact Or.inr ⟨by simpa using hcap, by simp [h, hcap], by simp [hcap]⟩
      · exact Or.inl ⟨b, rfl, Int.not_le.mp hcap⟩

/-- A call that does not register a backend again keeps its capacity. -/
theorem lookup_apply_some {i : Index} {op : Op} {id : String} {b : BackendCache}
    (hb : i.backends.lookup id = some b) (hop : ∀ capacity, op ≠ .register id capacity) :
    ∃ b', (i.apply op).backends.lookup id = some b' ∧ b'.capacity = b.capacity := by
  cases op with
  | register id' capacity =>
      have hne : id ≠ id' := by
        rintro rfl
        exact hop capacity rfl
      refine ⟨b, ?_, rfl⟩
      rw [Index.apply, lookup_register, if_neg hne, hb]
  | commit id' ns blocks now orders =>
      obtain ⟨b₁, hb₁, hcap⟩ | ⟨-, -, heq⟩ := commit_cases i id' ns blocks now orders
      · rw [Index.apply, commit_of_lookup hb₁ hcap]
        by_cases hid : id = id'
        · subst hid
          rw [hb, Option.some.injEq] at hb₁
          subst hb₁
          exact ⟨_, Finmap.lookup_insert _, capacity_trim _ _⟩
        · exact ⟨b, (Finmap.lookup_insert_of_ne _ hid).trans hb, rfl⟩
      · rw [Index.apply, heq]
        exact ⟨b, hb, rfl⟩

/-- `later` does not register `id` again. -/
def Keeps (id : String) (later : List Op) : Prop :=
  ∀ op ∈ later, ∀ capacity, op ≠ .register id capacity

theorem keeps_concat {id : String} {later : List Op} {op : Op} (h : Keeps id (later ++ [op])) :
    Keeps id later ∧ ∀ capacity, op ≠ .register id capacity :=
  ⟨fun o ho => h o (List.mem_append_left _ ho),
    h op (List.mem_append_right _ List.mem_cons_self)⟩

/-- A backend that is not registered again keeps its capacity. -/
theorem lookup_run_append {before later : List Op} {id : String} {b : BackendCache}
    (hb : (run before).backends.lookup id = some b) (hlater : Keeps id later) :
    ∃ b', (run (before ++ later)).backends.lookup id = some b' ∧ b'.capacity = b.capacity := by
  induction later using List.reverseRecOn with
  | nil => exact ⟨b, by rwa [List.append_nil], rfl⟩
  | append_singleton later op ih =>
      obtain ⟨hkeep, hop⟩ := keeps_concat hlater
      obtain ⟨b₁, hb₁, hcap₁⟩ := ih hkeep
      obtain ⟨b₂, hb₂, hcap₂⟩ := lookup_apply_some hb₁ hop
      rw [← List.append_assoc, run_concat]
      exact ⟨b₂, hb₂, hcap₂.trans hcap₁⟩

/-- Its commits go on from the earlier ones. -/
theorem committed_append (before : List Op) {later : List Op} {id : String}
    (hlater : Keeps id later) :
    committed id (before ++ later) = committed id before ++ committed id later := by
  induction later using List.reverseRecOn with
  | nil => simp [committed]
  | append_singleton later op ih =>
      obtain ⟨hkeep, hop⟩ := keeps_concat hlater
      rw [← List.append_assoc]
      by_cases hid : op.backend = id
      · cases op with
        | register id' capacity =>
            simp only [Op.backend] at hid
            exact absurd (by rw [hid]) (hop capacity)
        | commit id' ns blocks now orders =>
            simp only [Op.backend] at hid
            rw [committed_commit, committed_commit, if_pos hid, if_pos hid, ih hkeep,
              List.append_assoc]
      · rw [committed_of_ne _ hid, committed_of_ne _ hid, ih hkeep]

/-- So do its touches. -/
theorem touched_append (before : List Op) {later : List Op} {id : String}
    (hlater : Keeps id later) :
    touched id (before ++ later) = touched id before ++ touched id later := by
  rw [touched, committed_append before hlater, List.flatMap_append, touched, touched]

/-- A call leaves the other backends alone. -/
theorem lookup_apply_of_ne (i : Index) (op : Op) {id : String} (h : op.backend ≠ id) :
    (i.apply op).backends.lookup id = i.backends.lookup id := by
  cases op with
  | register id' capacity =>
      exact (lookup_register i id' capacity id).trans (if_neg (Ne.symm h))
  | commit id' ns blocks now orders =>
      rw [Index.apply]
      obtain ⟨b, hb, hcap⟩ | ⟨-, -, heq⟩ := commit_cases i id' ns blocks now orders
      · rw [commit_of_lookup hb hcap]
        exact (GoMap.lookup_insert_eq _ _ _ _).trans (if_neg (Ne.symm h))
      · rw [heq]

/-- How a call on `i` makes `b` the state of backend `id`. -/
inductive Becomes (i : Index) (id : String) : Op → BackendCache → Prop
  | register (capacity : ℤ) : Becomes i id (.register id capacity) ⟨capacity, ∅⟩
  | commit {b : BackendCache} (hb : i.backends.lookup id = some b) (hcap : 0 < b.capacity)
      (ns : String) (blocks : List UInt64) (now : Instant) (orders : ℕ → ScanOrder) :
      Becomes i id (.commit id ns blocks now orders)
        (trim orders (touchKeys b i.sequence ns now (cumulativeKeys blocks)).1)
  | idle {b : BackendCache} (hb : i.backends.lookup id = some b) (hcap : b.capacity ≤ 0)
      (ns : String) (blocks : List UInt64) (now : Instant) (orders : ℕ → ScanOrder) :
      Becomes i id (.commit id ns blocks now orders) b
  | other {b : BackendCache} {op : Op} (hop : op.backend ≠ id)
      (hb : i.backends.lookup id = some b) : Becomes i id op b

/-- **What a call makes of a backend** is one of these cases. -/
theorem becomes_apply {i : Index} {op : Op} {id : String} {b : BackendCache}
    (hb : (i.apply op).backends.lookup id = some b) : Becomes i id op b := by
  by_cases hop : op.backend = id
  · subst hop
    cases op with
    | register id capacity =>
        rw [Op.backend, Index.apply, lookup_register, if_pos rfl, Option.some.injEq] at hb
        exact hb ▸ .register capacity
    | commit id ns blocks now orders =>
        obtain ⟨b', hb', hcap⟩ | ⟨hnone, -, heq⟩ := commit_cases i id ns blocks now orders
        · simp only [Index.apply, commit_of_lookup hb' hcap] at hb
          rw [← Option.some.inj ((Finmap.lookup_insert _).symm.trans hb)]
          exact .commit hb' hcap ns blocks now orders
        · rw [Index.apply, heq] at hb
          exact .idle hb (hnone b hb) ns blocks now orders
  · rw [lookup_apply_of_ne i op hop] at hb
    exact .other hop hb

end KvRouter.CacheIndex
