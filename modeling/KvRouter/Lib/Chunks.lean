import KvRouter.Lib.Prefix
import Mathlib.Algebra.Order.Floor.Div
import Mathlib.Data.List.Basic
import Mathlib.Tactic.Common

/-!
# Fixed-size chunks of a list

`chunks B s` cuts `s` into consecutive chunks of `B` elements, the last one
possibly shorter.  Chunk `j` covers the positions from `j * B`, so two lists
agree on every chunk that lies within a common prefix
(`take_chunks_append`), and on no other unless they are the same
(`lcp_chunks`).
-/

namespace Chunks

variable {α : Type*}

/-- The elements of chunk `j`. -/
def chunk (B : ℕ) (s : List α) (j : ℕ) : List α := (s.drop (j * B)).take B

/-- How many chunks `n` elements make. -/
def numChunks (B n : ℕ) : ℕ := (n + B - 1) / B

def chunks (B : ℕ) (s : List α) : List (List α) :=
  (List.range (numChunks B s.length)).map (chunk B s)

@[simp] theorem length_chunks (B : ℕ) (s : List α) :
    (chunks B s).length = numChunks B s.length := by
  simp [chunks]

/-- Chunk `j` exists exactly when it starts inside the list. -/
theorem lt_numChunks_iff {B n j : ℕ} (hB : 1 ≤ B) : j < numChunks B n ↔ j * B < n := by
  rw [numChunks, Nat.lt_iff_add_one_le, Nat.le_div_iff_mul_le hB, Nat.add_mul, Nat.one_mul]
  omega

/-- The number of chunks is a division that rounds up. -/
theorem numChunks_eq_ceilDiv (B n : ℕ) : numChunks B n = n ⌈/⌉ B :=
  (Nat.ceilDiv_eq_add_pred_div n B).symm

theorem div_le_numChunks (B n : ℕ) (hB : 1 ≤ B) : n / B ≤ numChunks B n :=
  Nat.div_le_div_right (by omega)

theorem numChunks_pos {B n : ℕ} (hB : 1 ≤ B) (hn : 0 < n) : 0 < numChunks B n := by
  rw [lt_numChunks_iff hB]
  omega

theorem chunks_nil {B : ℕ} (hB : 1 ≤ B) : chunks B ([] : List α) = [] := by
  have hzero : numChunks B 0 = 0 := by
    rw [numChunks, Nat.zero_add]
    exact Nat.div_eq_of_lt (by omega)
  simp [chunks, hzero]

/-- Behind the end of the list there are no chunks. -/
theorem drop_chunks_eq_nil {B j : ℕ} {s : List α} (hB : 1 ≤ B) (h : s.length ≤ j * B) :
    (chunks B s).drop j = [] := by
  rw [List.drop_eq_nil_iff, length_chunks]
  apply Nat.le_of_not_lt
  rw [lt_numChunks_iff hB]
  omega

/-- The chunks from `j` on begin with chunk `j`. -/
theorem drop_chunks_eq_cons {B j : ℕ} {s : List α} (hB : 1 ≤ B) (h : j * B < s.length) :
    (chunks B s).drop j = chunk B s j :: (chunks B s).drop (j + 1) := by
  have hj : j < (chunks B s).length := by rwa [length_chunks, lt_numChunks_iff hB]
  rw [List.drop_eq_getElem_cons hj]
  simp [chunks]

/-- The chunks from the `j`-th on make up the list from their start on. -/
theorem flatten_drop_chunks {B : ℕ} (hB : 1 ≤ B) (s : List α) (j : ℕ) :
    ((chunks B s).drop j).flatten = s.drop (j * B) := by
  induction hn : s.length - j * B using Nat.strongRecOn generalizing j with
  | _ n ih =>
      by_cases hj : j * B < s.length
      · have hnext : (j + 1) * B = j * B + B := by rw [Nat.add_mul, Nat.one_mul]
        have hrest := ih (s.length - (j + 1) * B) (by omega) (j + 1) rfl
        rw [drop_chunks_eq_cons hB hj, List.flatten_cons, hrest, chunk, hnext, ← List.drop_drop,
          List.take_append_drop]
      · rw [drop_chunks_eq_nil hB (by omega), List.flatten_nil, List.drop_eq_nil_of_le (by omega)]

/-- **Chunks determine the list.** -/
theorem chunks_inj {B : ℕ} (hB : 1 ≤ B) {s t : List α} : chunks B s = chunks B t ↔ s = t := by
  constructor
  · intro h
    have hs := flatten_drop_chunks hB s 0
    rw [h, flatten_drop_chunks hB t 0] at hs
    simpa using hs.symm
  · intro h
    rw [h]

/-- The first chunks are those of the elements they cover. -/
theorem take_chunks {B : ℕ} (hB : 1 ≤ B) (s : List α) (n : ℕ) :
    (chunks B s).take n = chunks B (s.take (n * B)) := by
  have hcount (j : ℕ) : j < numChunks B (s.take (n * B)).length ↔
      j < n ∧ j < numChunks B s.length := by
    rw [lt_numChunks_iff hB, lt_numChunks_iff hB, List.length_take, lt_min_iff,
      Nat.mul_lt_mul_right hB]
  apply List.ext_getElem?
  intro j
  rw [List.getElem?_take]
  by_cases hj : j < n ∧ j < numChunks B s.length
  · have hB' : B ≤ n * B - j * B := by
      rw [← Nat.sub_mul]
      exact Nat.le_mul_of_pos_left B (by omega)
    have hchunk : chunk B (s.take (n * B)) j = chunk B s j := by
      rw [chunk, List.drop_take, List.take_take, min_eq_left hB', chunk]
    simp only [chunks, List.getElem?_map, List.getElem?_range hj.2,
      List.getElem?_range ((hcount j).mpr hj), if_pos hj.1, Option.map_some, hchunk]
  · have hnone : (chunks B (s.take (n * B)))[j]? = none := by
      rw [List.getElem?_eq_none_iff, length_chunks]
      exact Nat.le_of_not_lt (mt (hcount j).mp hj)
    rw [hnone, ite_eq_right_iff, List.getElem?_eq_none_iff, length_chunks]
    exact fun hn => Nat.le_of_not_lt fun hlt => hj ⟨hn, hlt⟩

/-- **Two lists share the chunks of their common prefix**, and the last one as well if they are
the same. -/
theorem lcp_chunks [DecidableEq α] {B : ℕ} (hB : 1 ≤ B) (s t : List α) :
    Prefix.lcp (chunks B s) (chunks B t) =
      if s = t then numChunks B s.length else Prefix.lcp s t / B := by
  split
  · next heq => rw [heq, Prefix.lcp_self, length_chunks]
  · next hne =>
      apply eq_of_forall_le_iff
      intro n
      rw [Nat.le_div_iff_mul_le hB, Prefix.le_lcp_iff, Prefix.le_lcp_iff, take_chunks hB,
        take_chunks hB, chunks_inj hB, length_chunks, length_chunks]
      constructor
      · intro h
        obtain ⟨-, -, htake⟩ := h
        have hlen := congrArg List.length htake
        rw [List.length_take, List.length_take] at hlen
        -- a prefix that covers one of them covers both, and then they are the same
        have hcover : ¬ (s.length ≤ n * B ∧ t.length ≤ n * B) := fun hle =>
          hne (by rwa [List.take_of_length_le hle.1, List.take_of_length_le hle.2] at htake)
        exact ⟨by omega, by omega, htake⟩
      · intro h
        obtain ⟨hs, ht, htake⟩ := h
        have hle (k : ℕ) (hk : n * B ≤ k) : n ≤ numChunks B k :=
          Nat.le_trans ((Nat.le_div_iff_mul_le hB).mpr hk) (div_le_numChunks B k hB)
        exact ⟨hle _ hs, hle _ ht, htake⟩

/-- Lists with a common prefix `s` share the chunks that lie within it. -/
theorem take_chunks_append {B k : ℕ} (hB : 1 ≤ B) (s t : List α) (hk : k ≤ s.length / B) :
    (chunks B (s ++ t)).take k = (chunks B s).take k := by
  have hk' : k * B ≤ s.length := (Nat.le_div_iff_mul_le hB).mp hk
  rw [take_chunks hB, take_chunks hB, List.take_append_of_le_length hk']

end Chunks
