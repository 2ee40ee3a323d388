import KvRouter.Go
import KvRouter.Lib.Chunks
import Mathlib.Tactic.Ring
import Mathlib.Tactic.Linarith

/-!
# KvRouter.Tokenizer

The block hasher, `internal/tokenizer/tokenizer.go`.  `hashPrefix` flattens the
messages as `role:content`, cuts the bytes into blocks of `blockSize` and hashes
each block, the final partial one included.

Its arithmetic is on 64-bit `int`s that wrap, and both the allocation of the
result and the slicing of a block can panic, so the model returns
`Except Panic`.  When text length and block size together stay within the
`int` range (`hashPrefix_eq`), there is no panic and the result is the hash of
each of `Chunks.chunks`.  The hash itself, `xxhash.Sum64`, is a parameter.
-/

namespace KvRouter.Tokenizer

/-! ## Messages -/

/-- A chat message. -/
structure Message where
  role : Bytes
  content : Bytes
deriving DecidableEq

/-- What `HashPrefix` writes to its builder: `role:content` of each message. -/
def flat (messages : List Message) : Bytes :=
  messages.flatMap fun m => m.role ++ 58 :: m.content

/-- A block hasher with a block size that `Config.validate` accepts. -/
structure BlockHasher where
  blockSize : ℤ
  pos : 1 ≤ blockSize
  le_maxInt : blockSize ≤ maxInt

/-- A block has at least one byte. -/
theorem BlockHasher.one_le_toNat (bh : BlockHasher) : 1 ≤ bh.blockSize.toNat := by
  have hpos := bh.pos
  omega

theorem BlockHasher.natCast_toNat (bh : BlockHasher) : (bh.blockSize.toNat : ℤ) = bh.blockSize :=
  Int.toNat_of_nonneg (Int.le_trans (by decide) bh.pos)

/-! ## HashPrefix -/

/-- The run-time panics of `HashPrefix`. -/
inductive Panic
  /-- `make` with a negative capacity -/
  | makeslice
  /-- slice bounds out of range -/
  | sliceBounds
deriving DecidableEq

/-- `str[lo:hi]`. -/
def slice (str : Bytes) (lo hi : ℤ) : Except Panic Bytes :=
  if 0 ≤ lo ∧ lo ≤ hi ∧ hi ≤ str.length then .ok ((str.drop lo.toNat).take (hi - lo).toNat)
  else .error .sliceBounds

/-- The end of the block that starts at `offset`: `offset + blockSize`, but no
further than the text. -/
def blockEnd (blockSize n offset : ℤ) : ℤ :=
  let upto := wrapInt (offset + blockSize)
  if upto > n then n else upto

/-- The block loop, for at most `fuel` rounds; the final offset and the hashes.
Every round that does not panic advances the offset, so as many rounds as there
are bytes are enough. -/
def hashLoop (sum64 : Bytes → UInt64) (blockSize : ℤ) (str : Bytes) :
    ℕ → ℤ → List UInt64 → Except Panic (ℤ × List UInt64)
  | 0, offset, hashes => .ok (offset, hashes)
  | fuel + 1, offset, hashes =>
      if offset < str.length then
        match slice str offset (blockEnd blockSize str.length offset) with
        | .error e => .error e
        | .ok block =>
            hashLoop sum64 blockSize str fuel (wrapInt (offset + blockSize))
              (hashes ++ [sum64 block])
      else .ok (offset, hashes)

/-- `HashPrefix`: one digest for each block of the flattened messages. -/
def BlockHasher.hashPrefix (bh : BlockHasher) (sum64 : Bytes → UInt64) (messages : List Message) :
    Except Panic (List UInt64) :=
  let str := flat messages
  let n : ℤ := str.length
  if n = 0 then .ok []
  else
    let numBlocks := (wrapInt (n + bh.blockSize - 1)).tdiv bh.blockSize
    if numBlocks < 0 then .error .makeslice
    else
      match hashLoop sum64 bh.blockSize str str.length 0 [] with
      | .error e => .error e
      | .ok r => .ok r.2

/-- `PrefixMatch`: the number of leading blocks that are identical. -/
def prefixMatch : List UInt64 → List UInt64 → ℕ
  | a :: as, b :: bs => if a ≠ b then 0 else prefixMatch as bs + 1
  | _, _ => 0

/-! ## The result is never empty -/

/-- The loop only appends. -/
theorem prefix_hashLoop {sum64 : Bytes → UInt64} {blockSize : ℤ} {str : Bytes} {fuel : ℕ}
    {offset : ℤ} {hashes : List UInt64} {r : ℤ × List UInt64}
    (h : hashLoop sum64 blockSize str fuel offset hashes = .ok r) : hashes <+: r.2 := by
  induction fuel generalizing offset hashes with
  | zero =>
      rw [hashLoop, Except.ok.injEq] at h
      subst h
      exact List.prefix_refl _
  | succ fuel ih =>
      rw [hashLoop] at h
      split at h
      · split at h
        · contradiction
        · exact (List.prefix_append _ _).trans (ih h)
      · rw [Except.ok.injEq] at h
        subst h
        exact List.prefix_refl _

theorem flat_ne_nil {messages : List Message} (h : messages ≠ []) : flat messages ≠ [] := by
  obtain ⟨m, ms, rfl⟩ := List.exists_cons_of_ne_nil h
  simp [flat]

/-- **A non-empty message list has a non-empty fingerprint**, whatever overflows on the way. -/
theorem hashPrefix_ne_nil {bh : BlockHasher} {sum64 : Bytes → UInt64} {messages : List Message}
    {hashes : List UInt64} (hne : messages ≠ []) (h : bh.hashPrefix sum64 messages = .ok hashes) :
    hashes ≠ [] := by
  obtain ⟨c, str, hstr⟩ := List.exists_cons_of_ne_nil (flat_ne_nil hne)
  simp only [BlockHasher.hashPrefix, hstr, List.length_cons] at h
  split at h
  · omega
  · split at h
    · contradiction
    · split at h
      · contradiction
      · next r hloop =>
          -- the text is not empty, so the first round appends a hash
          rw [Except.ok.injEq] at h
          subst h
          rw [hashLoop, if_pos (by simp)] at hloop
          split at hloop
          · contradiction
          · next block _ =>
              have hmem : sum64 block ∈ r.2 := (prefix_hashLoop hloop).subset (by simp)
              exact List.ne_nil_of_mem hmem

/-! ## Without overflow -/

@[simp] theorem flat_append (xs ys : List Message) : flat (xs ++ ys) = flat xs ++ flat ys := by
  simp [flat]

theorem slice_eq {str : Bytes} {lo hi : ℕ} (hlo : lo ≤ hi) (hhi : hi ≤ str.length) :
    slice str lo hi = .ok ((str.drop lo).take (hi - lo)) := by
  have hsub : ((hi : ℤ) - lo).toNat = hi - lo := by omega
  rw [slice, if_pos ⟨by omega, by omega, by omega⟩, hsub, Int.toNat_natCast]

/-- A round of the loop at block `j` appends the hash of chunk `j`, unless the end of the block
overflows. -/
theorem hashLoop_step (sum64 : Bytes → UInt64) {B j fuel : ℕ} {str : Bytes}
    (hwrap : wrapInt ((j * B : ℕ) + (B : ℤ)) = ((j + 1) * B : ℕ)) (hj : j * B < str.length)
    (hashes : List UInt64) :
    hashLoop sum64 B str (fuel + 1) (j * B : ℕ) hashes =
      hashLoop sum64 B str fuel ((j + 1) * B : ℕ)
        (hashes ++ [sum64 (Chunks.chunk B str j)]) := by
  have hnext : (j + 1) * B = j * B + B := by ring
  have hlt : ((j * B : ℕ) : ℤ) < str.length := by exact_mod_cast hj
  have hblock : slice str (j * B : ℕ) (blockEnd B str.length (j * B : ℕ)) =
      .ok (Chunks.chunk B str j) := by
    rw [blockEnd, hwrap]
    by_cases hend : (((j + 1) * B : ℕ) : ℤ) > str.length
    · have hlen : (str.drop (j * B)).length ≤ B := by rw [List.length_drop]; omega
      rw [if_pos hend, slice_eq (by omega) (le_refl _), Chunks.chunk,
        List.take_of_length_le (by rw [List.length_drop]), List.take_of_length_le hlen]
    · rw [if_neg hend, slice_eq (by omega) (by omega), Chunks.chunk, hnext,
        Nat.add_sub_cancel_left]
  rw [hashLoop, if_pos hlt, hblock, hwrap]

/-- The loop from block `j` hashes the remaining chunks and stops behind the text. -/
theorem hashLoop_eq (sum64 : Bytes → UInt64) {B fuel j : ℕ} {str : Bytes} (hB : 1 ≤ B)
    (hrange : (str.length : ℤ) + B ≤ maxInt + 1) (hfuel : str.length - j * B ≤ fuel)
    (hashes : List UInt64) :
    ∃ offset : ℤ, (str.length : ℤ) ≤ offset ∧
      hashLoop sum64 B str fuel (j * B : ℕ) hashes =
        .ok (offset, hashes ++ ((Chunks.chunks B str).drop j).map sum64) := by
  induction fuel generalizing j hashes with
  | zero =>
      have hle : str.length ≤ j * B := by omega
      refine ⟨(j * B : ℕ), Int.ofNat_le.mpr hle, ?_⟩
      rw [Chunks.drop_chunks_eq_nil hB hle, hashLoop, List.map_nil, List.append_nil]
  | succ fuel ih =>
      by_cases hj : j * B < str.length
      · have hfuel' : str.length - (j + 1) * B ≤ fuel := by
          rw [Nat.add_mul, Nat.one_mul]
          omega
        have hwrap : wrapInt ((j * B : ℕ) + (B : ℤ)) = ((j + 1) * B : ℕ) := by
          rw [show (j + 1) * B = j * B + B by ring, Nat.cast_add]
          exact wrapInt_of_range (by omega) (by omega)
        obtain ⟨offset, hle, heq⟩ := ih hfuel' (hashes ++ [sum64 (Chunks.chunk B str j)])
        refine ⟨offset, hle, ?_⟩
        rw [hashLoop_step sum64 hwrap hj, heq, Chunks.drop_chunks_eq_cons hB hj, List.map_cons,
          List.append_assoc, List.singleton_append]
      · have hle : str.length ≤ j * B := Nat.le_of_not_lt hj
        have hnot : ¬ ((j * B : ℕ) : ℤ) < str.length := by exact_mod_cast hj
        refine ⟨(j * B : ℕ), Int.ofNat_le.mpr hle, ?_⟩
        rw [Chunks.drop_chunks_eq_nil hB hle, hashLoop, if_neg hnot, List.map_nil, List.append_nil]

/-- **`HashPrefix` hashes the chunks** of the flattened messages when text length
and block size stay within the `int` range. -/
theorem hashPrefix_eq (bh : BlockHasher) (sum64 : Bytes → UInt64) (messages : List Message)
    (hrange : ((flat messages).length : ℤ) + bh.blockSize ≤ maxInt + 1) :
    bh.hashPrefix sum64 messages =
      .ok ((Chunks.chunks bh.blockSize.toNat (flat messages)).map sum64) := by
  obtain ⟨blockSize, hpos, hmax⟩ := bh
  obtain ⟨B, rfl⟩ := Int.eq_ofNat_of_zero_le (show 0 ≤ blockSize by omega)
  simp only [BlockHasher.hashPrefix, Int.toNat_natCast] at hrange ⊢
  split
  · next h0 =>
      have hnil : flat messages = [] := List.eq_nil_of_length_eq_zero (by omega)
      simp [hnil, Chunks.chunks_nil (show 1 ≤ B by omega)]
  · have hwrap : wrapInt ((flat messages).length + (B : ℤ) - 1) = (flat messages).length + B - 1 :=
      wrapInt_of_range (by omega) (by omega)
    have hcount : ¬ (wrapInt ((flat messages).length + (B : ℤ) - 1)).tdiv B < 0 := by
      rw [hwrap]
      exact Int.not_lt.mpr (Int.tdiv_nonneg (by omega) (by omega))
    obtain ⟨offset, -, heq⟩ := hashLoop_eq (j := 0) sum64 (by omega : 1 ≤ B) hrange
      (Nat.sub_le _ _) []
    rw [Nat.zero_mul, Nat.cast_zero] at heq
    rw [if_neg hcount, heq]
    simp

/-! ## With overflow -/

/-- A slice that is in bounds starts no later than it ends. -/
theorem le_of_slice {str block : Bytes} {lo hi : ℤ} (h : slice str lo hi = .ok block) :
    lo ≤ hi := by
  unfold slice at h
  split at h
  · next hbounds => exact hbounds.2.1
  · contradiction

/-- The loop from block `j` hashes the remaining chunks, if it does not panic. -/
theorem hashLoop_ok {sum64 : Bytes → UInt64} {B fuel j : ℕ} {str : Bytes} (hB : 1 ≤ B)
    (hmax : (B : ℤ) ≤ maxInt) (hfuel : str.length - j * B ≤ fuel) {hashes : List UInt64}
    {r : ℤ × List UInt64} (h : hashLoop sum64 B str fuel (j * B : ℕ) hashes = .ok r) :
    r.2 = hashes ++ ((Chunks.chunks B str).drop j).map sum64 := by
  induction fuel generalizing j hashes with
  | zero =>
      rw [hashLoop, Except.ok.injEq] at h
      rw [← h, Chunks.drop_chunks_eq_nil hB (by omega), List.map_nil, List.append_nil]
  | succ fuel ih =>
      by_cases hj : j * B < str.length
      · have hnext : (j + 1) * B = j * B + B := by ring
        have hwrap : wrapInt ((j * B : ℕ) + (B : ℤ)) = ((j + 1) * B : ℕ) := by
          -- the end of the block is not before its start, or the slice would have panicked
          have hslice := h
          rw [hashLoop, if_pos (by exact_mod_cast hj)] at hslice
          split at hslice
          · cases hslice
          · next block hblock =>
              have hle := le_of_slice hblock
              have hend : ((j * B : ℕ) : ℤ) ≤ wrapInt ((j * B : ℕ) + (B : ℤ)) := by
                unfold blockEnd at hle
                dsimp only at hle
                split at hle <;> omega
              rw [wrapInt_add_of_le (by omega) (by omega) hmax hend, hnext, Nat.cast_add]
        rw [hashLoop_step sum64 hwrap hj] at h
        rw [ih (by omega) h, Chunks.drop_chunks_eq_cons hB hj, List.map_cons, List.append_assoc,
          List.singleton_append]
      · have hnot : ¬ ((j * B : ℕ) : ℤ) < str.length := by exact_mod_cast hj
        rw [hashLoop, if_neg hnot, Except.ok.injEq] at h
        rw [← h, Chunks.drop_chunks_eq_nil hB (by omega), List.map_nil, List.append_nil]

/-- **What `HashPrefix` returns** is always the hash of each chunk. -/
theorem hashPrefix_ok {bh : BlockHasher} {sum64 : Bytes → UInt64} {messages : List Message}
    {hashes : List UInt64} (h : bh.hashPrefix sum64 messages = .ok hashes) :
    hashes = (Chunks.chunks bh.blockSize.toNat (flat messages)).map sum64 := by
  obtain ⟨blockSize, hpos, hmax⟩ := bh
  obtain ⟨B, rfl⟩ := Int.eq_ofNat_of_zero_le (show 0 ≤ blockSize by omega)
  simp only [BlockHasher.hashPrefix, Int.toNat_natCast] at h ⊢
  split at h
  · next h0 =>
      have hnil : flat messages = [] := List.eq_nil_of_length_eq_zero (by omega)
      rw [Except.ok.injEq] at h
      simp [hnil, Chunks.chunks_nil (show 1 ≤ B by omega), ← h]
  · split at h
    · contradiction
    · split at h
      · contradiction
      · next r hloop =>
          rw [Except.ok.injEq] at h
          subst h
          have hfirst : hashLoop sum64 B (flat messages) (flat messages).length (0 * B : ℕ) [] =
              .ok r := by
            rw [Nat.zero_mul, Nat.cast_zero]
            exact hloop
          simpa using hashLoop_ok (by omega) hmax (Nat.sub_le _ _) hfirst

/-- A fingerprint has one hash for each block, the final partial one included. -/
theorem length_hashPrefix {bh : BlockHasher} {sum64 : Bytes → UInt64} {messages : List Message}
    {hashes : List UInt64} (h : bh.hashPrefix sum64 messages = .ok hashes) :
    hashes.length = Chunks.numChunks bh.blockSize.toNat (flat messages).length := by
  rw [hashPrefix_ok h, List.length_map, Chunks.length_chunks]

end KvRouter.Tokenizer
