import Mathlib.Data.List.Basic

/-!
# Channels

A Go `chan α` with a buffer, as a sender and a receiver find it.  An operation
that would block is `none`.  A send on a closed channel and a second `close`
panic in Go; here they are `none` as well, so a program that comes to one is
stuck.
-/

/-- A buffered channel. -/
structure Channel (α : Type) where
  capacity : ℕ
  buffer : List α
  closed : Bool
deriving DecidableEq

namespace Channel

variable {α : Type} {c c' : Channel α} {x : α}

/-- `make(chan α, n)`. -/
def make (n : ℕ) : Channel α := ⟨n, [], false⟩

/-- `c <- x`. -/
def send (c : Channel α) (x : α) : Option (Channel α) :=
  if c.closed = false ∧ c.buffer.length < c.capacity then
    some { c with buffer := c.buffer ++ [x] }
  else none

/-- A `select` with the send and an empty `default`. -/
def offer (c : Channel α) (x : α) : Channel α := (c.send x).getD c

/-- `x, ok := <-c`: `none` in the first component once the channel is closed and empty. -/
def recv (c : Channel α) : Option (Option α × Channel α) :=
  match c.buffer with
  | x :: rest => some (some x, { c with buffer := rest })
  | [] => if c.closed then some (none, c) else none

/-- `close(c)`. -/
def close (c : Channel α) : Option (Channel α) :=
  if c.closed then none else some { c with closed := true }

@[simp] theorem close_open (n : ℕ) (l : List α) : close ⟨n, l, false⟩ = some ⟨n, l, true⟩ := rfl

@[simp] theorem recv_cons (n : ℕ) (x : α) (rest : List α) (b : Bool) :
    recv ⟨n, x :: rest, b⟩ = some (some x, ⟨n, rest, b⟩) := rfl

@[simp] theorem recv_closed (n : ℕ) :
    recv (⟨n, [], true⟩ : Channel α) = some (none, ⟨n, [], true⟩) :=
  rfl

@[simp] theorem recv_empty (n : ℕ) : recv (⟨n, [], false⟩ : Channel α) = none := rfl

@[simp] theorem capacity_offer (c : Channel α) (x : α) : (c.offer x).capacity = c.capacity := by
  unfold offer send
  split <;> rfl

@[simp] theorem closed_offer (c : Channel α) (x : α) : (c.offer x).closed = c.closed := by
  unfold offer send
  split <;> rfl

/-- A receive changes neither the capacity nor whether the channel is closed. -/
theorem recv_eq_some {y : Option α} (h : c.recv = some (y, c')) :
    c'.capacity = c.capacity ∧ c'.closed = c.closed := by
  unfold recv at h
  split at h
  · cases h
    exact ⟨rfl, rfl⟩
  · split at h
    · cases h
      exact ⟨rfl, rfl⟩
    · contradiction

/-- A receive from an open channel takes something out of it. -/
theorem buffer_ne_nil_of_recv {y : Option α} (hopen : c.closed = false)
    (h : c.recv = some (y, c')) : c.buffer ≠ [] := by
  intro hempty
  simp [recv, hempty, hopen] at h

/-- An offer leaves something to receive, unless there is no room for anything. -/
theorem offer_buffer_ne_nil (hopen : c.closed = false) (hroom : 0 < c.capacity) (x : α) :
    (c.offer x).buffer ≠ [] := by
  unfold offer send
  split
  · simp
  · next hfull =>
      intro hempty
      simp only [Option.getD_none] at hempty
      exact hfull ⟨hopen, by simpa [hempty] using hroom⟩

end Channel
