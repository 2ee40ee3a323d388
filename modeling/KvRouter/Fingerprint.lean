import KvRouter.Tokenizer
import Mathlib.Data.Set.Function

/-!
# KvRouter.Fingerprint

What the fingerprint of a conversation determines.  `HashPrefix` joins roles and
contents without framing between the messages, so it determines the flattened
text and no more: two lists have the same fingerprint iff their texts are the
same (`fingerprint_iff`), and there are different lists with the same text
(`fingerprint_unframed`).
-/

namespace KvRouter.Tokenizer

/-- The blocks that are hashed for a message list. -/
def blocks (bh : BlockHasher) (messages : List Message) : List Bytes :=
  Chunks.chunks bh.blockSize.toNat (flat messages)

/-- The hash has no collision among some blocks. -/
def CollisionFree (sum64 : Bytes → UInt64) (blocks : List Bytes) : Prop :=
  ∀ x ∈ blocks, ∀ y ∈ blocks, sum64 x = sum64 y → x = y

/-- Hashing block by block is injective on lists of blocks without collisions. -/
theorem map_sum64_inj {sum64 : Bytes → UInt64} {xs ys : List Bytes}
    (hfree : CollisionFree sum64 (xs ++ ys)) : xs.map sum64 = ys.map sum64 ↔ xs = ys := by
  constructor
  · intro h
    induction xs generalizing ys with
    | nil => simpa using h.symm
    | cons x xs ih =>
        cases ys with
        | nil => simp at h
        | cons y ys =>
            rw [List.map_cons, List.map_cons, List.cons.injEq] at h
            have hhead : x = y := hfree x (by simp) y (by simp) h.1
            have htail : xs = ys :=
              ih (fun a ha b hb => hfree a (by grind) b (by grind)) h.2
            rw [hhead, htail]
  · intro h
    rw [h]

/-- **A fingerprint determines exactly the flattened text**, where the hash does not collide on
the blocks that occur. -/
theorem fingerprint_iff (bh : BlockHasher) (sum64 : Bytes → UInt64) (M M' : List Message)
    (hfree : CollisionFree sum64 (blocks bh M ++ blocks bh M')) {hashes hashes' : List UInt64}
    (h : bh.hashPrefix sum64 M = .ok hashes) (h' : bh.hashPrefix sum64 M' = .ok hashes') :
    hashes = hashes' ↔ flat M = flat M' := by
  have hpos : 1 ≤ bh.blockSize.toNat := bh.one_le_toNat
  rw [hashPrefix_ok h, hashPrefix_ok h', ← blocks, ← blocks, map_sum64_inj hfree, blocks, blocks,
    Chunks.chunks_inj hpos]

/-- "u:hi" and "u:ho" in blocks of two bytes. -/
theorem fingerprint_iff_sample :
    let bh : BlockHasher := ⟨2, by decide, by decide⟩
    -- the digests of "u:", "hi" and "ho"
    let sum64 (block : Bytes) : UInt64 :=
      if block = [117, 58] then 0xae3b5ccb72b6e488
      else if block = [104, 105] then 0xea8842e9ea2638fa
      else 0xd135e3f0d07663d5
    let M : List Message := [⟨[117], [104, 105]⟩]
    let M' : List Message := [⟨[117], [104, 111]⟩]
    ∃ hashes hashes', bh.hashPrefix sum64 M = .ok hashes ∧ bh.hashPrefix sum64 M' = .ok hashes' ∧
      hashes.length = 2 ∧ (hashes = hashes' ↔ flat M = flat M') := by
  intro bh sum64 M M'
  have h : bh.hashPrefix sum64 M = .ok [0xae3b5ccb72b6e488, 0xea8842e9ea2638fa] := by decide
  have h' : bh.hashPrefix sum64 M' = .ok [0xae3b5ccb72b6e488, 0xd135e3f0d07663d5] := by decide
  refine ⟨_, _, h, h', rfl, fingerprint_iff bh sum64 M M' ?_ h h'⟩
  unfold CollisionFree
  decide

/-- "user:a" followed by "x:y" and "user:ax:y" have one text, and so one fingerprint under every
hash. -/
theorem fingerprint_unframed :
    let bh : BlockHasher := ⟨16, by decide, by decide⟩
    let M : List Message := [⟨[117, 115, 101, 114], [97]⟩, ⟨[120], [121]⟩]
    let M' : List Message := [⟨[117, 115, 101, 114], [97, 120, 58, 121]⟩]
    M ≠ M' ∧ ∀ sum64 : Bytes → UInt64, CollisionFree sum64 (blocks bh M ++ blocks bh M') ∧
      ∃ hashes, bh.hashPrefix sum64 M = .ok hashes ∧ bh.hashPrefix sum64 M' = .ok hashes := by
  refine ⟨by decide, fun sum64 => ⟨?_, _, rfl, rfl⟩⟩
  -- both texts are the same single block
  intro x hx y hy _
  have hx' : x = [117, 115, 101, 114, 58, 97, 120, 58, 121] := by
    simpa [blocks, Chunks.chunks, Chunks.chunk, Chunks.numChunks, flat, List.range_succ] using hx
  have hy' : y = [117, 115, 101, 114, 58, 97, 120, 58, 121] := by
    simpa [blocks, Chunks.chunks, Chunks.chunk, Chunks.numChunks, flat, List.range_succ] using hy
  rw [hx', hy']

end KvRouter.Tokenizer
