import KvRouter.Boot

/-!
# KvRouter.Tokenizer.Arithmetic

The 64-bit arithmetic of `HashPrefix` for every block size that `validate`
accepts.  The rounded-up division, the end of a block and the next offset are
all sums that may wrap.  None of them does, and the capacity of the result is
the number of its hashes, exactly when text length and block size together
stay within the `int` range (`blocksSafe_iff`): beyond it the capacity is
negative, and `make` panics, or zero.
-/

namespace KvRouter.Tokenizer

/-! ## Rounds of the block loop -/

/-- `numBlocks`, for a text of `n` bytes. -/
def BlockHasher.numBlocks (bh : BlockHasher) (n : ℤ) : ℤ :=
  (wrapInt (n + bh.blockSize - 1)).tdiv bh.blockSize

/-- The block loop ends, from `offset` on, after rounds with these slice bounds. -/
inductive Rounds (blockSize n : ℤ) : ℤ → List (ℤ × ℤ) → Prop
  | done {offset : ℤ} (h : ¬ offset < n) : Rounds blockSize n offset []
  | round {offset : ℤ} {bounds : List (ℤ × ℤ)} (h : offset < n)
      (rest : Rounds blockSize n (wrapInt (offset + blockSize)) bounds) :
      Rounds blockSize n offset ((offset, blockEnd blockSize n offset) :: bounds)

/-- The block between two bounds. -/
def block (str : Bytes) (bounds : ℤ × ℤ) : Bytes :=
  (str.drop bounds.1.toNat).take (bounds.2 - bounds.1).toNat

/-- **The arithmetic of `HashPrefix` is safe**: the loop ends, every slice is in bounds, and the
capacity of the result is the number of hashes appended, one for each round. -/
def BlocksSafe (bh : BlockHasher) (messages : List Message) : Prop :=
  ∃ bounds, Rounds bh.blockSize (flat messages).length 0 bounds ∧
    (∀ x ∈ bounds, 0 ≤ x.1 ∧ x.1 ≤ x.2 ∧ x.2 ≤ (flat messages).length) ∧
    bh.numBlocks (flat messages).length = bounds.length ∧
    ∀ sum64 : Bytes → UInt64, bh.hashPrefix sum64 messages =
      .ok (bounds.map fun x => sum64 (block (flat messages) x))

/-! ## Within the range -/

theorem blockEnd_eq {B n offset : ℤ} (hlo : 0 ≤ offset + B) (hhi : offset + B ≤ maxInt) :
    blockEnd B n offset = min (offset + B) n := by
  rw [blockEnd, wrapInt_of_range hlo hhi]
  grind

/-- The rounds from block `j` on cut the remaining chunks. -/
theorem exists_rounds {B : ℕ} {str : Bytes} (hB : 1 ≤ B)
    (hrange : (str.length : ℤ) + B ≤ maxInt + 1) {fuel j : ℕ} (hfuel : str.length - j * B ≤ fuel) :
    ∃ bounds, Rounds B str.length (j * B : ℕ) bounds ∧
      (∀ x ∈ bounds, 0 ≤ x.1 ∧ x.1 ≤ x.2 ∧ x.2 ≤ str.length) ∧
      bounds.map (block str) = (Chunks.chunks B str).drop j := by
  induction fuel generalizing j with
  | zero =>
      have hle : str.length ≤ j * B := by omega
      exact ⟨[], .done (by omega), by simp, (Chunks.drop_chunks_eq_nil hB hle).symm⟩
  | succ fuel ih =>
      by_cases hj : j * B < str.length
      · have hnext : (j + 1) * B = j * B + B := by ring
        obtain ⟨bounds, hrounds, hbounds, hmap⟩ := ih (j := j + 1) (by omega)
        have hend : blockEnd B str.length (j * B : ℕ) = min ((j * B : ℕ) + (B : ℤ)) str.length :=
          blockEnd_eq (by omega) (by omega)
        have hwrap : wrapInt ((j * B : ℕ) + (B : ℤ)) = ((j + 1) * B : ℕ) := by
          rw [hnext, Nat.cast_add]
          exact wrapInt_of_range (by omega) (by omega)
        have hround : Rounds B str.length (j * B : ℕ)
            (((j * B : ℕ), min ((j * B : ℕ) + (B : ℤ)) str.length) :: bounds) := by
          rw [← hend]
          exact .round (by exact_mod_cast hj) (hwrap ▸ hrounds)
        have hblock : block str ((j * B : ℕ), min ((j * B : ℕ) + (B : ℤ)) str.length) =
            Chunks.chunk B str j := by
          -- the part of the block behind the end of the text is empty
          have hcut : (min ((j * B : ℕ) + (B : ℤ)) str.length - (j * B : ℕ)).toNat =
              min B (str.length - j * B) := by omega
          rw [block, hcut, Chunks.chunk, Int.toNat_natCast, ← List.length_drop]
          exact List.take_eq_take_min.symm
        refine ⟨_, hround, ?_, ?_⟩
        · rw [List.forall_mem_cons]
          exact ⟨by omega, hbounds⟩
        · rw [List.map_cons, hmap, hblock, Chunks.drop_chunks_eq_cons hB hj]
      · exact ⟨[], .done (by exact_mod_cast hj), by simp,
          (Chunks.drop_chunks_eq_nil hB (Nat.le_of_not_lt hj)).symm⟩

/-- Text and block size within range are safe. -/
theorem blocksSafe_of_le {bh : BlockHasher} {messages : List Message}
    (hrange : ((flat messages).length : ℤ) + bh.blockSize ≤ maxInt + 1) :
    BlocksSafe bh messages := by
  have hpos : 1 ≤ bh.blockSize.toNat := bh.one_le_toNat
  have hB : (bh.blockSize.toNat : ℤ) = bh.blockSize := bh.natCast_toNat
  obtain ⟨bounds, hrounds, hbounds, hmap⟩ :=
    exists_rounds hpos (hB ▸ hrange) (j := 0) (Nat.sub_le (flat messages).length _)
  rw [Nat.zero_mul, Nat.cast_zero, hB] at hrounds
  rw [List.drop_zero] at hmap
  have hlen : bounds.length = Chunks.numChunks bh.blockSize.toNat (flat messages).length := by
    rw [← Chunks.length_chunks, ← hmap, List.length_map]
  refine ⟨bounds, hrounds, hbounds, ?_, fun sum64 => ?_⟩
  · have hsum : (flat messages).length + bh.blockSize - 1 =
        (((flat messages).length + bh.blockSize.toNat - 1 : ℕ) : ℤ) := by omega
    rw [hlen, BlockHasher.numBlocks, hsum, wrapInt_of_range (by omega) (by omega),
      Chunks.numChunks, Int.natCast_ediv, hB, Int.tdiv_eq_ediv_of_nonneg (by omega)]
  · rw [hashPrefix_eq bh sum64 messages hrange, ← hmap, List.map_map]
    rfl

/-! ## Beyond the range -/

/-- The loop ends behind the text, and there is no offset beyond `maxInt`. -/
theorem Rounds.le_maxInt {blockSize n offset : ℤ} {bounds : List (ℤ × ℤ)}
    (h : Rounds blockSize n offset bounds) (hoffset : offset ≤ maxInt) : n ≤ maxInt := by
  induction h with
  | done hdone => omega
  | round _ _ ih => exact ih (wrapInt_le_maxInt _)

/-- A text that is not empty has a round. -/
theorem Rounds.length_pos {blockSize n : ℤ} {bounds : List (ℤ × ℤ)}
    (h : Rounds blockSize n 0 bounds) (hn : 0 < n) : 0 < bounds.length := by
  cases h with
  | done hdone => contradiction
  | round _ _ => simp

/-- A rounded-up division whose sum wraps makes no block. -/
theorem numBlocks_nonpos {bh : BlockHasher} {n : ℤ} (hn : n ≤ maxInt)
    (hover : maxInt + 1 < n + bh.blockSize) : bh.numBlocks n ≤ 0 := by
  have hmax := bh.le_maxInt
  have hneg : wrapInt (n + bh.blockSize - 1) < 0 := wrapInt_neg (by omega) (by omega)
  have hquot : 0 ≤ (-wrapInt (n + bh.blockSize - 1)).tdiv bh.blockSize :=
    Int.tdiv_nonneg (by omega) (by linarith [bh.pos])
  rw [Int.neg_tdiv] at hquot
  rw [BlockHasher.numBlocks]
  omega

/-- **The arithmetic of `HashPrefix` is safe exactly when text length and block size together
stay within the `int` range.** -/
theorem blocksSafe_iff (bh : BlockHasher) (messages : List Message) :
    BlocksSafe bh messages ↔ ((flat messages).length : ℤ) + bh.blockSize ≤ maxInt + 1 := by
  constructor
  · intro h
    obtain ⟨bounds, hrounds, -, hcount, -⟩ := h
    by_contra hover
    have hn : ((flat messages).length : ℤ) ≤ maxInt := hrounds.le_maxInt (by decide)
    have hpos : 0 < bounds.length := hrounds.length_pos (by linarith [bh.le_maxInt])
    have hzero : bh.numBlocks (flat messages).length ≤ 0 := numBlocks_nonpos hn (by omega)
    omega
  · exact blocksSafe_of_le

end KvRouter.Tokenizer

namespace KvRouter.Sample

open Config Tokenizer

/-- The configuration with a block size five short of `2^63`. -/
def hugeBlocks : Config := { config with blockSize := 9223372036854775803 }

theorem valid_hugeBlocks : Valid parse hugeBlocks :=
  { valid_config with blockSize := by decide }

/-- The message "hi" of the user, seven bytes of text. -/
def userHi : List Message := [⟨[117, 115, 101, 114], [104, 105]⟩]

/-- `validate` accepts the block size, and `make` panics on its first request. -/
theorem hashPrefix_hugeBlocks :
    (∀ order, validate parse order hugeBlocks = .ok ()) ∧
      ¬ BlocksSafe (blockHasher hugeBlocks valid_hugeBlocks) userHi ∧
      (blockHasher hugeBlocks valid_hugeBlocks).numBlocks (flat userHi).length = -1 ∧
      ∀ sum64 : Bytes → UInt64,
        (blockHasher hugeBlocks valid_hugeBlocks).hashPrefix sum64 userHi = .error .makeslice := by
  refine ⟨fun _ => validate_iff.mpr valid_hugeBlocks, ?_, by decide, fun sum64 => rfl⟩
  intro h
  obtain ⟨bounds, -, -, hcount, -⟩ := h
  have hcap : (blockHasher hugeBlocks valid_hugeBlocks).numBlocks (flat userHi).length = -1 := by
    decide
  omega

end KvRouter.Sample
