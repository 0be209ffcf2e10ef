import Mathlib.Data.Fin.Basic
import Mathlib.Algebra.BigOperators.Group.List
import Mathlib.Algebra.Order.Ring.Nat

namespace BlobstreamX.Circuit

/-- The value of a `U32Target`: a field element range-checked below `2 ^ 32`. -/
abbrev U32 := Fin (2 ^ 32)

/-- `I64Target`: two `U32Target` limbs, the low one first. -/
structure I64 where
  lo : U32
  hi : U32
  deriving DecidableEq, Repr

namespace I64

def val (x : I64) : Nat := x.lo.val + 2 ^ 32 * x.hi.val

/-- The limbs of `n`, when `n` fits in 64 bits. -/
def ofNat? (n : Nat) : Option I64 :=
  if h : n < 2 ^ 64 then
    some ⟨⟨n % 2 ^ 32, Nat.mod_lt _ (by decide)⟩, ⟨n / 2 ^ 32, by omega⟩⟩
  else none

theorem val_lt (x : I64) : x.val < 2 ^ 64 := by
  unfold val
  omega

theorem ext_val {x y : I64} (h : x.val = y.val) : x = y := by
  obtain ⟨⟨xl, _⟩, ⟨xh, _⟩⟩ := x
  obtain ⟨⟨yl, _⟩, ⟨yh, _⟩⟩ := y
  simp only [val] at h
  obtain ⟨rfl, rfl⟩ : xl = yl ∧ xh = yh := by omega
  rfl

theorem ofNat?_eq_some_iff {n : Nat} {x : I64} : ofNat? n = some x ↔ x.val = n := by
  unfold ofNat?
  split
  · refine ⟨fun h => ?_, fun h => congrArg some (ext_val ?_)⟩ <;>
      [(cases h; simp only [val]; omega); (simp only [val] at h ⊢; omega)]
  · exact ⟨nofun, fun h => absurd (h ▸ x.val_lt) ‹_›⟩

theorem ofNat?_eq_none_iff {n : Nat} : ofNat? n = none ↔ 2 ^ 64 ≤ n := by
  unfold ofNat?
  split <;> simp <;> omega

@[simp] theorem ofNat?_val (x : I64) : ofNat? x.val = some x := ofNat?_eq_some_iff.mpr rfl

theorem ofNat?_bind_add (n m : Nat) :
    (ofNat? n).bind (fun x => ofNat? (x.val + m)) = ofNat? (n + m) := by
  cases h : ofNat? n with
  | none => exact (ofNat?_eq_none_iff.mpr (by have := ofNat?_eq_none_iff.mp h; omega)).symm
  | some x => rw [Option.some_bind, ofNat?_eq_some_iff.mp h]

end I64

theorem mul_add_lt {x y z : Nat} (hx : x < 2 ^ 32) (hy : y < 2 ^ 32) (hz : z < 2 ^ 32) :
    x * y + z < 2 ^ 32 * 2 ^ 32 := by
  have : x * y ≤ (2 ^ 32 - 1) * (2 ^ 32 - 1) := Nat.mul_le_mul (by omega) (by omega)
  omega

/-- `mul_add_u32`: `x * y + z`, below `2 ^ 64`, as its low and high limbs. -/
def mulAddU32 (x y z : U32) : U32 × U32 :=
  (⟨(x.val * y.val + z.val) % 2 ^ 32, Nat.mod_lt _ (by decide)⟩,
    ⟨(x.val * y.val + z.val) / 2 ^ 32, Nat.div_lt_of_lt_mul (mul_add_lt x.isLt y.isLt z.isLt)⟩)

def mulU32 (x y : U32) : U32 × U32 := mulAddU32 x y 0

def addU32 (x y : U32) : U32 × U32 := mulAddU32 x 1 y

/-- `add_many_u32`: the sum's low limb and its carry, which the gate range-checks as a limb. -/
def addManyU32 (xs : List U32) : Option (U32 × U32) :=
  if h : (xs.map Fin.val).sum / 2 ^ 32 < 2 ^ 32 then
    some (⟨(xs.map Fin.val).sum % 2 ^ 32, Nat.mod_lt _ (by decide)⟩, ⟨_, h⟩)
  else none

/-- `sub_u32`: `x - y - borrow` modulo `2 ^ 32` and the borrow out. -/
def subU32 (x y borrow : U32) : Option (U32 × U32) :=
  if h : y.val + borrow.val ≤ x.val then
    some (⟨x.val - y.val - borrow.val, by omega⟩, 0)
  else if h : y.val + borrow.val ≤ x.val + 2 ^ 32 then
    some (⟨x.val + 2 ^ 32 - y.val - borrow.val, by omega⟩, 1)
  else none

def assertZeroU32 (x : U32) : Option Unit := if x = 0 then some () else none

@[simp] theorem val_mulAddU32_fst (x y z : U32) :
    (mulAddU32 x y z).1.val = (x.val * y.val + z.val) % 2 ^ 32 := rfl

@[simp] theorem val_mulAddU32_snd (x y z : U32) :
    (mulAddU32 x y z).2.val = (x.val * y.val + z.val) / 2 ^ 32 := rfl

@[simp] theorem assertZeroU32_eq (x : U32) :
    assertZeroU32 x = if x.val = 0 then some () else none := by
  simp [assertZeroU32, Fin.ext_iff]

theorem val_mulAddU32 (x y z : U32) :
    (mulAddU32 x y z).1.val + 2 ^ 32 * (mulAddU32 x y z).2.val = x.val * y.val + z.val :=
  Nat.mod_add_div _ _

theorem val_mulU32 (x y : U32) :
    (mulU32 x y).1.val + 2 ^ 32 * (mulU32 x y).2.val = x.val * y.val :=
  val_mulAddU32 x y 0

theorem val_addU32 (x y : U32) :
    (addU32 x y).1.val + 2 ^ 32 * (addU32 x y).2.val = x.val + y.val := by
  rw [addU32, val_mulAddU32, Fin.val_one', Nat.one_mod_eq_one.mpr (by decide), Nat.mul_one]

theorem mulAddU32_zero (x z : U32) : mulAddU32 x 0 z = (z, 0) := by
  refine Prod.ext (Fin.ext ?_) (Fin.ext ?_)
  · simp
  · simp; omega

theorem mulAddU32_one (x z : U32) : mulAddU32 x 1 z = addU32 x z := rfl

theorem subU32_zero (x y : U32) :
    ∃ r b, subU32 x y 0 = some (r, b) ∧ (b = 0 ↔ y.val ≤ x.val) ∧ (r = 0 ↔ x = y) := by
  have h0 : (0 : U32).val = 0 := rfl
  have h1 : (1 : U32).val = 1 := rfl
  unfold subU32
  split_ifs with h₁ h₂
  · exact ⟨_, _, rfl, by simp_all, by simp only [Fin.ext_iff, h0]; omega⟩
  · exact ⟨_, _, rfl, by simp only [Fin.ext_iff, h0, h1]; omega,
      by simp only [Fin.ext_iff, h0]; omega⟩
  · omega

/-- `mul_i64_by_u32`: the product, constrained to fit in 64 bits. -/
def mulI64ByU32 (a : I64) (b : U32) : Option I64 := do
  let (lowerProduct, lowerCarry) := mulU32 a.lo b
  let (upperProduct, upperCarry) := mulU32 a.hi b
  assertZeroU32 upperCarry
  let (upperSum, upperCarry) := addU32 upperProduct lowerCarry
  assertZeroU32 upperCarry
  pure ⟨lowerProduct, upperSum⟩

/-- `is_i64_gte`: `a >= b`, from the borrows and the zero test of the limb differences. -/
def isI64Gte (a b : I64) : Option Bool := do
  let zeroU32 : U32 := 0
  let (resultHigh, underflowHigh) ← subU32 a.hi b.hi zeroU32
  let noUnderflowHigh := decide (underflowHigh = zeroU32)
  let upperEqual := decide (resultHigh = zeroU32)
  let upperNotEqual := !upperEqual
  let (_, underflowLow) ← subU32 a.lo b.lo zeroU32
  let noUnderflowLow := decide (underflowLow = zeroU32)
  let upperPass := upperNotEqual && noUnderflowHigh
  let lowerPass := upperEqual && noUnderflowLow
  pure (upperPass || lowerPass)

/-- `get_total_voting_power`: the low and the high limbs summed apart, then the low sum's carry
added to the high sum. -/
def getTotalVotingPower (validatorVotingPower : List I64) : Option I64 := do
  let (sumLowerLow, sumLowerHigh) ← addManyU32 (validatorVotingPower.map I64.lo)
  let (sumUpperLow, sumUpperHigh) ← addManyU32 (validatorVotingPower.map I64.hi)
  assertZeroU32 sumUpperHigh
  let (carrySumLow, carrySumHigh) := addU32 sumLowerHigh sumUpperLow
  assertZeroU32 carrySumHigh
  pure ⟨sumLowerLow, carrySumLow⟩

/-- `voting_power_greater_than_threshold`: `accumulated * denominator >= total * numerator`. -/
def votingPowerGreaterThanThreshold (accumulatedPower totalVotingPower : I64)
    (thresholdNumerator thresholdDenominator : U32) : Option Bool := do
  let scaledAccumulatedVp ← mulI64ByU32 accumulatedPower thresholdDenominator
  let scaledTotalVp ← mulI64ByU32 totalVotingPower thresholdNumerator
  isI64Gte scaledAccumulatedVp scaledTotalVp

/-- One pass of the loop of `check_voting_power`: `voting_power * enabled` added to the
accumulator. -/
def accumulateVotingPower (acc votingPower : I64) (enabled : U32) : Option I64 := do
  let (sumLowerLow, sumLowerHigh) := mulAddU32 votingPower.lo enabled acc.lo
  let (carrySumLow, carrySumHigh) := addU32 sumLowerHigh votingPower.hi
  assertZeroU32 carrySumHigh
  let (sumUpperLow, sumUpperHigh) := mulAddU32 carrySumLow enabled acc.hi
  assertZeroU32 sumUpperHigh
  pure ⟨sumLowerLow, sumUpperLow⟩

def checkVotingPower (validatorVotingPower : List I64) (validatorEnabled : List U32)
    (totalVotingPower : I64) (thresholdNumerator thresholdDenominator : U32) : Option Bool := do
  let accumulatedVotingPower ← (validatorVotingPower.zip validatorEnabled).foldlM
    (fun acc p => accumulateVotingPower acc p.1 p.2) ⟨0, 0⟩
  votingPowerGreaterThanThreshold accumulatedVotingPower totalVotingPower thresholdNumerator
    thresholdDenominator

/-- `validators_enabled_u32` in `step`: an enabled flag selected into a `U32Target`. -/
def enabledU32 (enabled : Bool) : U32 := if enabled then 1 else 0

/-- The end of `mul_i64_by_u32`, of `get_total_voting_power` and of a pass of
`check_voting_power`: unsatisfiable when the limbs and carries make up an `n` that does not fit. -/
theorem assertZeroU32_two_eq {lo hi c₁ c₂ : U32} {n : Nat}
    (h : lo.val + 2 ^ 32 * hi.val + 2 ^ 64 * (c₁.val + c₂.val) = n) :
    (do assertZeroU32 c₁; assertZeroU32 c₂; pure (⟨lo, hi⟩ : I64) : Option I64) =
      I64.ofNat? n := by
  have := lo.isLt
  have := hi.isLt
  simp only [assertZeroU32_eq, I64.ofNat?]
  split_ifs <;> simp only [Option.bind_eq_bind, Option.some_bind, Option.none_bind, reduceCtorEq,
    Option.pure_def, Option.some.injEq, I64.mk.injEq, Fin.ext_iff] <;> omega

theorem mulI64ByU32_eq (a : I64) (b : U32) : mulI64ByU32 a b = I64.ofNat? (a.val * b.val) := by
  have hN : a.val * b.val = a.lo.val * b.val + 2 ^ 32 * (a.hi.val * b.val) := by
    unfold I64.val; rw [Nat.add_mul, Nat.mul_assoc]
  have e₁ := val_mulU32 a.lo b
  have e₂ := val_mulU32 a.hi b
  have e₃ := val_addU32 (mulU32 a.hi b).1 (mulU32 a.lo b).2
  simp only [mulI64ByU32]
  exact assertZeroU32_two_eq (by omega)

theorem isI64Gte_eq (a b : I64) : isI64Gte a b = some (decide (b.val ≤ a.val)) := by
  obtain ⟨rh, bh, hsh, hbh, hrh⟩ := subU32_zero a.hi b.hi
  obtain ⟨rl, bl, hsl, hbl, -⟩ := subU32_zero a.lo b.lo
  simp only [isI64Gte, hsh, hsl, Option.bind_eq_bind, Option.some_bind, Option.pure_def,
    Option.some.injEq]
  simp only [hbh, hbl, hrh, I64.val, Fin.ext_iff]
  by_cases h : a.hi.val = b.hi.val <;> simp [h]
  omega

theorem sum_map_val (vps : List I64) :
    (vps.map I64.val).sum =
      ((vps.map I64.lo).map Fin.val).sum + 2 ^ 32 * ((vps.map I64.hi).map Fin.val).sum := by
  induction vps with
  | nil => rfl
  | cons v vps ih => simp only [List.map_cons, List.sum_cons, ih, I64.val]; omega

theorem addManyU32_eq_some_iff {xs : List U32} {l c : U32} :
    addManyU32 xs = some (l, c) ↔ (xs.map Fin.val).sum = l.val + 2 ^ 32 * c.val := by
  unfold addManyU32
  split
  · simp only [Option.some.injEq, Prod.mk.injEq, Fin.ext_iff]
    omega
  · simp only [reduceCtorEq, false_iff]
    omega

theorem addManyU32_eq_none_iff {xs : List U32} :
    addManyU32 xs = none ↔ 2 ^ 64 ≤ (xs.map Fin.val).sum := by
  unfold addManyU32
  split <;> simp <;> omega

/-- `get_total_voting_power` has an assignment exactly when the total fits in 64 bits. -/
theorem getTotalVotingPower_eq (vps : List I64) :
    getTotalVotingPower vps = I64.ofNat? (vps.map I64.val).sum := by
  rw [sum_map_val, getTotalVotingPower]
  cases h₁ : addManyU32 (vps.map I64.lo) with
  | none =>
    exact (I64.ofNat?_eq_none_iff.mpr (by have := addManyU32_eq_none_iff.mp h₁; omega)).symm
  | some p₁ =>
    cases h₂ : addManyU32 (vps.map I64.hi) with
    | none =>
      exact (I64.ofNat?_eq_none_iff.mpr (by have := addManyU32_eq_none_iff.mp h₂; omega)).symm
    | some p₂ =>
      obtain ⟨l₁, c₁⟩ := p₁
      obtain ⟨l₂, c₂⟩ := p₂
      rw [addManyU32_eq_some_iff] at h₁ h₂
      have e := val_addU32 c₁ l₂
      simp only [Option.bind_eq_bind, Option.some_bind]
      exact assertZeroU32_two_eq (by omega)

theorem votingPowerGreaterThanThreshold_eq (acc total : I64) (n d : U32) :
    votingPowerGreaterThanThreshold acc total n d =
      if acc.val * d.val < 2 ^ 64 ∧ total.val * n.val < 2 ^ 64 then
        some (decide (total.val * n.val ≤ acc.val * d.val))
      else none := by
  simp only [votingPowerGreaterThanThreshold, mulI64ByU32_eq, Option.bind_eq_bind]
  cases h₁ : I64.ofNat? (acc.val * d.val) with
  | none => rw [if_neg (by have := I64.ofNat?_eq_none_iff.mp h₁; omega)]; rfl
  | some x =>
    cases h₂ : I64.ofNat? (total.val * n.val) with
    | none => rw [if_neg (by have := I64.ofNat?_eq_none_iff.mp h₂; omega)]; rfl
    | some y =>
      rw [I64.ofNat?_eq_some_iff] at h₁ h₂
      rw [if_pos ⟨h₁ ▸ x.val_lt, h₂ ▸ y.val_lt⟩, Option.some_bind, Option.some_bind, isI64Gte_eq,
        h₁, h₂]

theorem accumulateVotingPower_enabledU32 (acc v : I64) (b : Bool) :
    accumulateVotingPower acc v (enabledU32 b) = I64.ofNat? (acc.val + if b then v.val else 0) := by
  cases b with
  | false =>
    have : v.hi.val / 4294967296 = 0 := Nat.div_eq_of_lt v.hi.isLt
    simp [accumulateVotingPower, enabledU32, mulAddU32_zero, addU32, this]
  | true =>
    have e₁ := val_addU32 v.lo acc.lo
    have e₂ := val_addU32 (addU32 v.lo acc.lo).2 v.hi
    have e₃ := val_addU32 (addU32 (addU32 v.lo acc.lo).2 v.hi).1 acc.hi
    simp only [accumulateVotingPower, enabledU32, if_true, mulAddU32_one]
    exact assertZeroU32_two_eq (by simp only [I64.val]; omega)

/-- The voting power of the validators whose flag is set. -/
def enabledVotingPower (vps : List I64) (flags : List Bool) : Nat :=
  ((vps.zip flags).map fun p => if p.2 then p.1.val else 0).sum

theorem foldlM_accumulateVotingPower (pairs : List (I64 × Bool)) (acc : I64) :
    (pairs.map (Prod.map id enabledU32)).foldlM (fun acc p => accumulateVotingPower acc p.1 p.2)
      acc = I64.ofNat? (acc.val + (pairs.map fun p => if p.2 then p.1.val else 0).sum) := by
  induction pairs generalizing acc with
  | nil => simp
  | cons p pairs ih =>
    simp only [List.map_cons, List.foldlM_cons, List.sum_cons, Prod.map_fst, Prod.map_snd, id,
      accumulateVotingPower_enabledU32, ih, Option.bind_eq_bind, I64.ofNat?_bind_add,
      Nat.add_assoc]

/-- `check_voting_power` with `step`'s flags is satisfiable exactly when the enabled power and both
scaled sides fit in 64 bits; its bit is then `d * enabled >= n * total`. -/
theorem checkVotingPower_enabledU32 (vps : List I64) (flags : List Bool) (total : I64)
    (n d : U32) :
    checkVotingPower vps (flags.map enabledU32) total n d =
      if enabledVotingPower vps flags < 2 ^ 64 ∧ d.val * enabledVotingPower vps flags < 2 ^ 64 ∧
          n.val * total.val < 2 ^ 64 then
        some (decide (n.val * total.val ≤ d.val * enabledVotingPower vps flags))
      else none := by
  have h0 : (⟨0, 0⟩ : I64).val = 0 := rfl
  simp only [checkVotingPower, List.zip_map_right, Option.bind_eq_bind]
  rw [foldlM_accumulateVotingPower, h0, Nat.zero_add]
  change (I64.ofNat? (enabledVotingPower vps flags)).bind _ = _
  generalize enabledVotingPower vps flags = S
  cases h : I64.ofNat? S with
  | none => rw [if_neg (by have := I64.ofNat?_eq_none_iff.mp h; omega)]; rfl
  | some acc =>
    rw [I64.ofNat?_eq_some_iff] at h
    rw [Option.some_bind, votingPowerGreaterThanThreshold_eq, h, Nat.mul_comm S,
      Nat.mul_comm total.val]
    simp only [h ▸ acc.val_lt, true_and]

/-- The voting-power gadgets of `validator.rs` never wrap: each is unsatisfiable where a value
would not fit in 64 bits. -/
theorem votingPower_constraints_exact (vps : List I64) (flags : List Bool) (total : I64)
    (n d : U32) :
    getTotalVotingPower vps = I64.ofNat? (vps.map I64.val).sum ∧
      checkVotingPower vps (flags.map enabledU32) total n d =
        if enabledVotingPower vps flags < 2 ^ 64 ∧ d.val * enabledVotingPower vps flags < 2 ^ 64 ∧
            n.val * total.val < 2 ^ 64 then
          some (decide (n.val * total.val ≤ d.val * enabledVotingPower vps flags))
        else none :=
  ⟨getTotalVotingPower_eq vps, checkVotingPower_enabledU32 vps flags total n d⟩

end BlobstreamX.Circuit
