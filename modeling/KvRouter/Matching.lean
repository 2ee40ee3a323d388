import KvRouter.Fingerprint

/-!
# KvRouter.Matching

What a match of two fingerprints says about the texts.  `PrefixMatch` counts the
leading blocks on which they agree (`prefixMatch_eq`), and these are the blocks
that lie within the common prefix of the texts, with the partial last block when
the texts are the same.
-/

namespace KvRouter.Tokenizer

/-- `PrefixMatch` is the length of the longest common prefix. -/
theorem prefixMatch_eq (as bs : List UInt64) : prefixMatch as bs = Prefix.lcp as bs := by
  induction as generalizing bs with
  | nil => cases bs <;> rfl
  | cons a as ih =>
      cases bs with
      | nil => rfl
      | cons b bs => simp [prefixMatch, Prefix.lcp, ih]

/-- What two fingerprints in blocks of `B` bytes tell about the texts `s` and `t`. -/
structure Measures (sum64 : Bytes → UInt64) (B : ℕ) (s t : Bytes) (hashes hashes' : List UInt64) :
    Prop where
  length : hashes.length = s.length ⌈/⌉ B
  length' : hashes'.length = t.length ⌈/⌉ B
  /-- Shared blocks match. -/
  shared : Prefix.lcp s t / B ≤ prefixMatch hashes hashes'
  /-- Without collisions nothing else does. -/
  exact : CollisionFree sum64 (Chunks.chunks B s ++ Chunks.chunks B t) →
    prefixMatch hashes hashes' = if s = t then s.length ⌈/⌉ B else Prefix.lcp s t / B

/-- **A match measures the shared text.** -/
theorem measures_hashPrefix (bh : BlockHasher) (sum64 : Bytes → UInt64) (M M' : List Message)
    (hrange : ((flat M).length : ℤ) + bh.blockSize ≤ maxInt + 1)
    (hrange' : ((flat M').length : ℤ) + bh.blockSize ≤ maxInt + 1) :
    ∃ hashes hashes', bh.hashPrefix sum64 M = .ok hashes ∧ bh.hashPrefix sum64 M' = .ok hashes' ∧
      Measures sum64 bh.blockSize.toNat (flat M) (flat M') hashes hashes' := by
  have hpos : 1 ≤ bh.blockSize.toNat := bh.one_le_toNat
  have hlcp := Chunks.lcp_chunks hpos (flat M) (flat M')
  refine ⟨_, _, hashPrefix_eq bh sum64 M hrange, hashPrefix_eq bh sum64 M' hrange', ?_, ?_, ?_, ?_⟩
  · rw [List.length_map, Chunks.length_chunks, Chunks.numChunks_eq_ceilDiv]
  · rw [List.length_map, Chunks.length_chunks, Chunks.numChunks_eq_ceilDiv]
  · have hmap := Prefix.lcp_le_lcp_map sum64 (Chunks.chunks bh.blockSize.toNat (flat M))
      (Chunks.chunks bh.blockSize.toNat (flat M'))
    rw [hlcp] at hmap
    rw [prefixMatch_eq]
    split at hmap
    · next heq =>
        rw [heq, Prefix.lcp_self]
        rw [heq] at hmap
        exact Nat.le_trans (Chunks.div_le_numChunks _ _ hpos) hmap
    · exact hmap
  · intro hfree
    rw [prefixMatch_eq, Prefix.lcp_map, hlcp, Chunks.numChunks_eq_ceilDiv]
    intro x hx y hy
    exact hfree x (by simp [hx]) y (by simp [hy])

/-- "u:hi" and "u:ho!" in blocks of two bytes. -/
theorem measures_hashPrefix_sample :
    let bh : BlockHasher := ⟨2, by decide, by decide⟩
    let M : List Message := [⟨[117], [104, 105]⟩]
    let M' : List Message := [⟨[117], [104, 111, 33]⟩]
    ∀ sum64 : Bytes → UInt64,
      ∃ hashes hashes', bh.hashPrefix sum64 M = .ok hashes ∧
        bh.hashPrefix sum64 M' = .ok hashes' ∧
        Measures sum64 2 (flat M) (flat M') hashes hashes' :=
  fun sum64 => measures_hashPrefix ⟨2, by decide, by decide⟩ sum64 [⟨[117], [104, 105]⟩]
    [⟨[117], [104, 111, 33]⟩] (by decide) (by decide)

end KvRouter.Tokenizer
