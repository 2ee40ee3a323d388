import KvRouter.Eviction.Conservation

/-!
# KvRouter.Eviction.Access

What an access promotes.  `RecordAccess` looks for the entry by the blocks it
shares with the accessed prefix, and takes the first one in the order of
evictions; that is the entry of the prefix itself exactly if no entry before it
shares a block with the prefix (`Unshadowed`).

* `promote_first` — the first entry with a match moves to the back;
* `run_insertions` — later insertions take entries from the front only;
* `access_promotes_iff` — the accessed prefix comes last and is spared.
-/

namespace KvRouter.Eviction

/-! ## One access -/

/-- The first entry that matches is moved to the end. -/
theorem promote_first {hashSet : GoMap UInt64 Unit} {front back entries : List Entry} {e : Entry}
    (hskip : ∀ e' ∈ front, matchesHashes e'.hashes hashSet = false)
    (he : matchesHashes e.hashes hashSet = true) (now : ℤ) :
    promote hashSet now entries (front ++ e :: back) =
      entries ++ front ++ back ++ [e.mark now] := by
  induction front generalizing entries with
  | nil => simp [promote, he, Entry.mark]
  | cons e' front ih =>
      have hfirst := hskip e' (List.mem_cons_self ..)
      rw [List.cons_append, promote, hfirst, if_neg Bool.false_ne_true,
        ih fun d hd => hskip d (List.mem_cons_of_mem e' hd)]
      simp

/-- No entry that is evicted before the first entry with the hashes `P` shares a block with `P`. -/
def Unshadowed (entries : List Entry) (P : List UInt64) : Prop :=
  ∀ front e back, entries = front ++ e :: back → e.hashes = P →
    (∀ e' ∈ front, e'.hashes ≠ P) → ∀ e' ∈ front, e'.hashes.Disjoint P

theorem disjoint_iff {entryHashes P : List UInt64} :
    entryHashes.Disjoint P ↔ matchesHashes entryHashes (makeHashSet P) = false := by
  rw [← Bool.not_eq_true, matchesHashes_iff]
  simp [List.Disjoint]

/-- The first entry of a list with some property. -/
theorem exists_first {p : Entry → Bool} {entries : List Entry} (h : ∃ e ∈ entries, p e = true) :
    ∃ front e back, entries = front ++ e :: back ∧ p e = true ∧ ∀ e' ∈ front, p e' = false := by
  obtain ⟨e, he⟩ := Option.isSome_iff_exists.mp (List.find?_isSome.mpr h)
  obtain ⟨hp, front, back, heq, hfront⟩ := List.find?_eq_some_iff_append.mp he
  exact ⟨front, e, back, heq, hp, fun e' he' => by simpa using hfront e' he'⟩

/-- The entry that an unshadowed prefix promotes is its own, -/
theorem recordAccess_unshadowed {bc : BackendCache} {P : List UInt64} (hP : P ≠ [])
    (hresident : ∃ e ∈ bc.entries, e.hashes = P) (h : Unshadowed bc.entries P) (now : ℤ) :
    ∃ front e back, bc.entries = front ++ e :: back ∧ e.hashes = P ∧
      (bc.recordAccess P now).entries = front ++ back ++ [e.mark now] := by
  obtain ⟨front, e, back, heq, he, hfront⟩ :=
    exists_first (p := fun e => decide (e.hashes = P)) (by simpa using hresident)
  rw [decide_eq_true_eq] at he
  refine ⟨front, e, back, heq, he, ?_⟩
  have hskip (e' : Entry) (he' : e' ∈ front) : matchesHashes e'.hashes (makeHashSet P) = false :=
    disjoint_iff.mp (h front e back heq he (by simpa using hfront) e' he')
  have hmatch : matchesHashes e.hashes (makeHashSet P) = true := by
    obtain ⟨x, hx⟩ := List.exists_mem_of_ne_nil P hP
    exact matchesHashes_iff.mpr ⟨x, he ▸ hx, hx⟩
  rw [BackendCache.recordAccess, heq, promote_first hskip hmatch, List.nil_append]

/-- and a shadowed prefix promotes an entry with other hashes. -/
theorem unshadowed_of_recordAccess {bc : BackendCache} {P : List UInt64} {now : ℤ}
    {others : List Entry} {e : Entry} (he : e.hashes = P)
    (h : (bc.recordAccess P now).entries = others ++ [e.mark now]) : Unshadowed bc.entries P := by
  intro front d back heq hd hfront e' he'
  rw [disjoint_iff, ← Bool.not_eq_true]
  intro hmatch
  obtain ⟨front', first, back', rfl, hfirst, hskip⟩ :=
    exists_first (p := fun e => matchesHashes e.hashes (makeHashSet P)) ⟨e', he', hmatch⟩
  rw [BackendCache.recordAccess, heq, List.append_assoc, List.cons_append,
    promote_first hskip hfirst] at h
  obtain ⟨-, hlast⟩ := List.append_inj' h rfl
  rw [List.singleton_inj] at hlast
  have hhashes : (first.mark now).hashes = (e.mark now).hashes := congrArg Entry.hashes hlast
  exact hfront first (by simp) (hhashes.trans he)

/-! ## Later insertions -/

/-- Some insertions, each with its reading of the clock. -/
def insertions (id : String) (later : List (List UInt64 × ℤ)) : List Op :=
  later.map fun i => .recordInsert id i.1 i.2

/-- The entries of these insertions. -/
def insertedEntries (later : List (List UInt64 × ℤ)) : List Entry :=
  later.map fun i => ⟨i.1, i.2, i.2, i.1.length⟩

/-- Insertions evict from the front. -/
theorem run_insertions {id : String} {ops : List Op} {bc : BackendCache}
    (hbc : (run ops).lookup id = some bc) (later : List (List UInt64 × ℤ)) :
    ∃ bc' k, (run (ops ++ insertions id later)).lookup id = some bc' ∧
      k ≤ (bc.entries ++ insertedEntries later).length ∧
      bc'.entries = (bc.entries ++ insertedEntries later).drop k := by
  induction later using List.reverseRecOn with
  | nil => exact ⟨bc, 0, by simpa [insertions] using hbc, by simp, by simp [insertedEntries]⟩
  | append_singleton later i ih =>
      obtain ⟨bc', k, hbc', hk, hentries⟩ := ih
      obtain ⟨n, hn, heq⟩ := recordInsert_spec (run_ledger id _ bc' hbc').used i.1 i.2
      have hops : insertions id (later ++ [i]) =
          insertions id later ++ [.recordInsert id i.1 i.2] := List.map_append
      have hnew : bc.entries ++ insertedEntries (later ++ [i]) =
          bc.entries ++ insertedEntries later ++ [⟨i.1, i.2, i.2, i.1.length⟩] := by
        simp [insertedEntries]
      have hle := hn.le
      rw [hentries, List.length_drop] at hle
      rw [hops, hnew, ← List.append_assoc, lookup_recordInsert hbc', heq]
      generalize bc.entries ++ insertedEntries later = entries at hk hentries hle ⊢
      refine ⟨_, k + n, rfl, ?_, ?_⟩
      · rw [List.length_append]
        omega
      · rw [BackendCache.inserted, hentries, List.drop_drop,
          List.drop_append_of_le_length (by omega)]

/-! ## Promotion -/

/-- After the run, an access to `P` takes an entry with the hashes `P` to the back and leaves the
others as they are, and as long as later insertions have not evicted all of these it is still
resident, behind them. -/
def Promotes (ops : List Op) (id : String) (P : List UInt64) (now : ℤ) : Prop :=
  ∃ bc after front e back, (run ops).lookup id = some bc ∧ bc.entries = front ++ e :: back ∧
    e.hashes = P ∧ (run (ops ++ [.recordAccess id P now])).lookup id = some after ∧
    after.entries = front ++ back ++ [e.mark now] ∧
    ∀ later, ∃ bc',
      (run (ops ++ [.recordAccess id P now] ++ insertions id later)).lookup id = some bc' ∧
      ((∃ k, bc'.entries = (front ++ back).drop k ++ e.mark now :: insertedEntries later) ∨
        ∃ k, bc'.entries = (insertedEntries later).drop k)

/-- **An access promotes the accessed prefix** exactly if no entry before the first one of this
prefix shares a block with it. -/
theorem access_promotes_iff {ops : List Op} {id : String} {bc : BackendCache}
    (hbc : (run ops).lookup id = some bc) {P : List UInt64} (hP : P ≠ [])
    (hresident : ∃ e ∈ bc.entries, e.hashes = P) (now : ℤ) :
    Promotes ops id P now ↔ Unshadowed bc.entries P := by
  have hafter := lookup_recordAccess hbc P now
  constructor
  · rintro ⟨bc', after, front, e, back, hbc', -, he, hafter', hentries, -⟩
    obtain rfl : bc.recordAccess P now = after := Option.some.inj (hafter.symm.trans hafter')
    exact unshadowed_of_recordAccess he hentries
  · intro h
    obtain ⟨front, e, back, hentries, he, hpromoted⟩ := recordAccess_unshadowed hP hresident h now
    refine ⟨bc, _, front, e, back, hbc, hentries, he, hafter, hpromoted, fun later => ?_⟩
    obtain ⟨bc', k, hbc', -, hdrop⟩ := run_insertions hafter later
    refine ⟨bc', hbc', ?_⟩
    rw [hpromoted, List.append_assoc, List.singleton_append, List.drop_append] at hdrop
    obtain hle | hlt := le_or_gt k (front ++ back).length
    · rw [Nat.sub_eq_zero_of_le hle, List.drop_zero] at hdrop
      exact .inl ⟨k, hdrop⟩
    · obtain ⟨n, hn⟩ := Nat.exists_eq_succ_of_ne_zero (Nat.sub_ne_zero_of_lt hlt)
      rw [List.drop_eq_nil_of_le hlt.le, List.nil_append, hn, List.drop_succ_cons] at hdrop
      exact .inr ⟨n, hdrop⟩

/-- A prefix that extends another one, accessed when it comes first. -/
theorem access_promotes_iff_sample :
    let ops : List Op :=
      [.register "b" 9, .recordInsert "b" [1, 2, 3] 10, .recordInsert "b" [1, 2] 20]
    ∃ bc, (run ops).lookup "b" = some bc ∧
      (Promotes ops "b" [1, 2, 3] 30 ↔ Unshadowed bc.entries [1, 2, 3]) := by
  intro ops
  have hbc : (run ops).lookup "b" =
      some ⟨[⟨[1, 2, 3], 10, 10, 3⟩, ⟨[1, 2], 20, 20, 2⟩], 9, 5, []⟩ := by decide
  exact ⟨_, hbc, access_promotes_iff hbc (by decide) ⟨_, List.mem_cons_self .., rfl⟩ 30⟩

/-- Two conversations with a common first block: the access to the second promotes the first. -/
theorem access_promotes_other :
    let ops : List Op :=
      [.register "b" 9, .recordInsert "b" [1, 2] 10, .recordInsert "b" [1, 3] 20]
    ∃ bc, (run ops).lookup "b" = some bc ∧ (∃ e ∈ bc.entries, e.hashes = [1, 3]) ∧
      (∃ after, (run (ops ++ [.recordAccess "b" [1, 3] 30])).lookup "b" = some after ∧
        after.entries = [⟨[1, 3], 20, 20, 2⟩, ⟨[1, 2], 10, 30, 2⟩]) ∧
      ¬ Promotes ops "b" [1, 3] 30 := by
  intro ops
  have hbc : (run ops).lookup "b" =
      some ⟨[⟨[1, 2], 10, 10, 2⟩, ⟨[1, 3], 20, 20, 2⟩], 9, 4, []⟩ := by decide
  have hafter : (run (ops ++ [.recordAccess "b" [1, 3] 30])).lookup "b" =
      some ⟨[⟨[1, 3], 20, 20, 2⟩, ⟨[1, 2], 10, 30, 2⟩], 9, 4, []⟩ := by decide
  refine ⟨_, hbc, ⟨⟨[1, 3], 20, 20, 2⟩, by simp, rfl⟩, ⟨_, hafter, rfl⟩, ?_⟩
  rintro ⟨bc, after, front, e, back, -, -, he, hafter', hentries, -⟩
  obtain rfl := Option.some.inj (hafter.symm.trans hafter')
  -- the entry at the back has other hashes
  have hlast := congrArg List.getLast? hentries
  rw [List.getLast?_concat] at hlast
  have hhashes : [1, 2] = (e.mark 30).hashes := congrArg Entry.hashes (Option.some.inj hlast)
  exact absurd (hhashes.trans he) (by decide)

end KvRouter.Eviction
