import Mathlib.Data.List.Basic
import Mathlib.Tactic.Common

/-!
# Percent-encoding

Byte strings in which some bytes are written as `%` and two hexadecimal digits.

* `Mode` — which bytes stand for themselves, and whether a space is a plus;
* `unescape_escape` — an escaped string reads back as it was;
* `mem_escape` — the bytes that an escaped string is made of.
-/

namespace Percent

/-- A digit of `0123456789ABCDEF`. -/
def upperHex (n : ℕ) : UInt8 := UInt8.ofNat (if n < 10 then 48 + n else 55 + n)

/-- The value of a hexadecimal digit. -/
def hexValue (c : UInt8) : Option ℕ :=
  if 48 ≤ c ∧ c ≤ 57 then some (c.toNat - 48)
  else if 97 ≤ c ∧ c ≤ 102 then some (c.toNat - 87)
  else if 65 ≤ c ∧ c ≤ 70 then some (c.toNat - 55)
  else none

/-- A hexadecimal digit is read as what was written. -/
theorem hexValue_upperHex : ∀ n < 16, hexValue (upperHex n) = some n := by decide

/-- How a string is escaped. -/
structure Mode where
  keep : UInt8 → Bool
  plus : Bool
  keep_percent : keep '%'.toUInt8 = false
  keep_plus : plus = true → keep '+'.toUInt8 = false
  keep_hex : ∀ n < 16, keep (upperHex n) = true

variable (m : Mode)

def Mode.escapeByte (c : UInt8) : List UInt8 :=
  if m.plus ∧ c = ' '.toUInt8 then ['+'.toUInt8]
  else if m.keep c then [c]
  else ['%'.toUInt8, upperHex (c.toNat / 16), upperHex (c.toNat % 16)]

def Mode.escape (s : List UInt8) : List UInt8 := s.flatMap m.escapeByte

/-- `none` where a `%` is not followed by two digits. -/
def Mode.unescape : List UInt8 → Option (List UInt8)
  | [] => some []
  | c :: s =>
      if c = '%'.toUInt8 then
        match s with
        | a :: b :: rest =>
            match hexValue a, hexValue b with
            | some x, some y => (Mode.unescape rest).map (UInt8.ofNat (x * 16 + y) :: ·)
            | _, _ => none
        | _ => none
      else
        (Mode.unescape s).map ((if m.plus ∧ c = '+'.toUInt8 then ' '.toUInt8 else c) :: ·)

/-- A byte that is not a percent sign stands for itself, or for a space. -/
theorem unescape_cons {c : UInt8} (hc : c ≠ '%'.toUInt8) (s : List UInt8) :
    m.unescape (c :: s) =
      (m.unescape s).map ((if m.plus ∧ c = '+'.toUInt8 then ' '.toUInt8 else c) :: ·) := by
  cases s with
  | nil => simp [Mode.unescape, hc]
  | cons a s => cases s <;> simp [Mode.unescape, hc]

/-- An escaped byte is read as that byte. -/
theorem unescape_escapeByte (c : UInt8) (s : List UInt8) :
    m.unescape (m.escapeByte c ++ s) = (m.unescape s).map (c :: ·) := by
  unfold Mode.escapeByte
  split
  · next hspace =>
      rw [List.singleton_append, unescape_cons m (by decide), if_pos ⟨hspace.1, rfl⟩, hspace.2]
  · next hspace =>
      split
      · next hkeep =>
          have hpercent : c ≠ '%'.toUInt8 := fun heq => by
            simp [heq, m.keep_percent] at hkeep
          have hplus : ¬(m.plus = true ∧ c = '+'.toUInt8) := fun ⟨hp, heq⟩ => by
            simp [heq, m.keep_plus hp] at hkeep
          rw [List.singleton_append, unescape_cons m hpercent, if_neg hplus]
      · have hc : c.toNat < 256 := c.toNat_lt
        have hhigh := hexValue_upperHex (c.toNat / 16) (by omega)
        have hlow := hexValue_upperHex (c.toNat % 16) (by omega)
        have hvalue : c.toNat / 16 * 16 + c.toNat % 16 = c.toNat := Nat.div_add_mod' _ _
        simp [Mode.unescape, hhigh, hlow, hvalue]

/-- **An escaped string reads back as it was.** -/
theorem unescape_escape (s : List UInt8) : m.unescape (m.escape s) = some s := by
  induction s with
  | nil => rfl
  | cons c s ih =>
      have hcons : m.escape (c :: s) = m.escapeByte c ++ m.escape s := List.flatMap_cons
      rw [hcons, unescape_escapeByte, ih, Option.map_some]

/-- The bytes of an escaped string. -/
theorem mem_escape {s : List UInt8} {c : UInt8} (h : c ∈ m.escape s) :
    m.keep c = true ∨ c = '%'.toUInt8 ∨ m.plus = true ∧ c = '+'.toUInt8 := by
  obtain ⟨b, -, hb⟩ := List.mem_flatMap.mp h
  unfold Mode.escapeByte at hb
  have hb256 : b.toNat < 256 := b.toNat_lt
  split at hb
  · next hspace =>
      rw [List.mem_singleton] at hb
      exact Or.inr (Or.inr ⟨hspace.1, hb⟩)
  · split at hb
    · next hkeep =>
        rw [List.mem_singleton] at hb
        exact Or.inl (hb ▸ hkeep)
    · have hhigh := m.keep_hex (b.toNat / 16) (by omega)
      have hlow := m.keep_hex (b.toNat % 16) (by omega)
      simp only [List.mem_cons, List.not_mem_nil, or_false] at hb
      obtain rfl | rfl | rfl := hb
      · exact Or.inr (Or.inl rfl)
      · exact Or.inl hhigh
      · exact Or.inl hlow

end Percent
