import Mathlib.Tactic.Ring
import Mathlib.Algebra.Order.Group.Nat

namespace BlobstreamX.Merkle

/-- `get_split_point`, the exponent being the integer logarithm where the source takes
`(length as f64).log2() as usize`. A length below one panics and is never passed. -/
def getSplitPoint (length : Nat) : Nat :=
  let bitlen := Nat.log2 length
  let k := 1 <<< bitlen
  if k = length then k >>> 1 else k

/-- `k` is the split point of `n`: a power of two strictly below `n` that covers half of it. -/
structure IsSplit (k n : Nat) : Prop where
  pow : ∃ b, k = 2 ^ b
  lt : k < n
  le_two_mul : n ≤ 2 * k

theorem IsSplit.unique {k k' n : Nat} (h : IsSplit k n) (h' : IsSplit k' n) : k = k' := by
  obtain ⟨⟨b, rfl⟩, hlt, hle⟩ := h
  obtain ⟨⟨c, rfl⟩, hlt', hle'⟩ := h'
  have hbc : b ≤ c := by
    by_contra hc
    have : 2 ^ (c + 1) ≤ 2 ^ b := Nat.pow_le_pow_right (by omega) (by omega)
    rw [Nat.pow_succ] at this
    omega
  have hcb : c ≤ b := by
    by_contra hc
    have : 2 ^ (b + 1) ≤ 2 ^ c := Nat.pow_le_pow_right (by omega) (by omega)
    rw [Nat.pow_succ] at this
    omega
  rw [Nat.le_antisymm hbc hcb]

theorem getSplitPoint_isSplit {n : Nat} (hn : 2 ≤ n) : IsSplit (getSplitPoint n) n := by
  have hlo := Nat.log2_self_le (n := n) (by omega)
  have hhi := Nat.lt_log2_self (n := n)
  rw [Nat.pow_succ] at hhi
  unfold getSplitPoint
  simp only [Nat.one_shiftLeft, Nat.shiftRight_eq_div_pow, Nat.pow_one]
  split
  · rename_i he
    obtain ⟨b, hb⟩ : ∃ b, n.log2 = b + 1 := by
      cases hl : n.log2 with
      | zero => rw [hl] at he; omega
      | succ b => exact ⟨b, rfl⟩
    rw [hb, Nat.pow_succ] at he hlo hhi ⊢
    exact ⟨⟨b, by omega⟩, by omega, by omega⟩
  · exact ⟨⟨n.log2, rfl⟩, by omega, by omega⟩

theorem IsSplit.pos {k n : Nat} (h : IsSplit k n) : 0 < k := by
  obtain ⟨⟨b, rfl⟩, -⟩ := h
  exact Nat.two_pow_pos b

theorem getSplitPoint_pos {n : Nat} (hn : 2 ≤ n) : 0 < getSplitPoint n :=
  (getSplitPoint_isSplit hn).pos

theorem getSplitPoint_lt {n : Nat} (hn : 2 ≤ n) : getSplitPoint n < n :=
  (getSplitPoint_isSplit hn).lt

theorem getSplitPoint_eq_of_isSplit {k n : Nat} (h : IsSplit k n) : getSplitPoint n = k :=
  (getSplitPoint_isSplit (by have := h.pos; have := h.lt; omega)).unique h

theorem getSplitPoint_two_pow (b : Nat) : getSplitPoint (2 ^ (b + 1)) = 2 ^ b := by
  have := Nat.two_pow_pos b
  exact getSplitPoint_eq_of_isSplit ⟨⟨b, rfl⟩, by rw [Nat.pow_succ]; omega, by rw [Nat.pow_succ]; omega⟩

/-- Halving a tree (rounding up) halves its split point. -/
theorem getSplitPoint_half {n : Nat} (hn : 3 ≤ n) :
    getSplitPoint ((n + 1) / 2) = getSplitPoint n / 2 ∧ 2 ∣ getSplitPoint n := by
  obtain ⟨⟨b, hb⟩, hlt, hle⟩ := getSplitPoint_isSplit (n := n) (by omega)
  cases b with
  | zero => simp at hb; omega
  | succ c =>
    have hk : getSplitPoint n / 2 = 2 ^ c := by rw [hb, Nat.pow_succ]; omega
    refine ⟨?_, ⟨2 ^ c, by rw [hb, Nat.pow_succ, Nat.mul_comm]⟩⟩
    rw [hk]
    apply getSplitPoint_eq_of_isSplit
    rw [hb, Nat.pow_succ] at hlt hle
    exact ⟨⟨c, rfl⟩, by omega, by omega⟩

/-- `length as f64`: the nearest double, ties to an even significand. -/
def usizeAsF64 (length : Nat) : Nat :=
  let shift := Nat.log2 length - 52
  let significand := length >>> shift
  let rest := length % 2 ^ shift
  let roundUp := 2 ^ shift < 2 * rest ∨ (2 * rest = 2 ^ shift ∧ significand % 2 = 1)
  (if roundUp then significand + 1 else significand) <<< shift

/-- `get_split_point` as the source computes it, `log2` being the platform's `f64::log2`
truncated by `as usize`. -/
def getSplitPointF64 (log2 : Nat → Nat) (length : Nat) : Nat :=
  let bitlen := log2 (usizeAsF64 length)
  let k := 1 <<< bitlen
  if k = length then k >>> 1 else k

theorem usizeAsF64_of_lt {n : Nat} (h : n < 2 ^ 53) : usizeAsF64 n = n := by
  have hshift : Nat.log2 n - 52 = 0 := by
    rcases Nat.eq_zero_or_pos n with rfl | hn
    · rw [Nat.log2_zero]
    · have := (Nat.log2_lt hn.ne').mpr h
      omega
  simp [usizeAsF64, hshift, Nat.mod_one]

/-- Below `2 ^ 49 - 1`, where a correctly rounded `f64::log2` truncates to the integer
logarithm, the `f64` computation is the integer rule. -/
theorem getSplitPointF64_eq_getSplitPoint {log2 : Nat → Nat}
    (hlog2 : ∀ x, x < 2 ^ 49 - 1 → log2 x = Nat.log2 x) {n : Nat} (h : n < 2 ^ 49 - 1) :
    getSplitPointF64 log2 n = getSplitPoint n := by
  rw [getSplitPointF64, getSplitPoint, usizeAsF64_of_lt (by omega), hlog2 n h]

theorem usizeAsF64_two_pow_54_sub_one : usizeAsF64 (2 ^ 54 - 1) = 2 ^ 54 := by
  have hlog : Nat.log2 (2 ^ 54 - 1) = 53 := by
    have h₁ := (Nat.log2_lt (show 2 ^ 54 - 1 ≠ 0 by decide)).mpr (show 2 ^ 54 - 1 < 2 ^ 54 by decide)
    have h₂ := (Nat.le_log2 (show 2 ^ 54 - 1 ≠ 0 by decide)).mpr (show 2 ^ 53 ≤ 2 ^ 54 - 1 by decide)
    omega
  rw [usizeAsF64, hlog]
  decide

/-- The cast rounds `2 ^ 54 - 1` up to `2 ^ 54`, so the split point computed through `f64` is past
the length. -/
theorem getSplitPointF64_overshoots (log2 : Nat → Nat) (hlog2 : ∀ e ≤ 64, log2 (2 ^ e) = e) :
    getSplitPointF64 log2 (2 ^ 54 - 1) = 2 ^ 54 ∧
      2 ^ 54 - 1 < getSplitPointF64 log2 (2 ^ 54 - 1) ∧ getSplitPoint (2 ^ 54 - 1) = 2 ^ 53 := by
  have hk : getSplitPointF64 log2 (2 ^ 54 - 1) = 2 ^ 54 := by
    rw [getSplitPointF64, usizeAsF64_two_pow_54_sub_one, hlog2 54 (by omega)]
    decide
  exact ⟨hk, by rw [hk]; omega,
    getSplitPoint_eq_of_isSplit ⟨⟨53, rfl⟩, by decide, by decide⟩⟩

theorem getSplitPointF64_overshoots_log2 :
    (∀ e ≤ 64, Nat.log2 (2 ^ e) = e) ∧
    getSplitPointF64 Nat.log2 (2 ^ 54 - 1) = 2 ^ 54 ∧
      2 ^ 54 - 1 < getSplitPointF64 Nat.log2 (2 ^ 54 - 1) ∧ getSplitPoint (2 ^ 54 - 1) = 2 ^ 53 :=
  ⟨fun _ _ => Nat.log2_two_pow, getSplitPointF64_overshoots Nat.log2 fun _ _ => Nat.log2_two_pow⟩

end BlobstreamX.Merkle
