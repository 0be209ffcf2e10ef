import BlobstreamX.Circuit.Validator

namespace BlobstreamX.Circuit

open BlobstreamX.Merkle

/-- The protobuf varint of `v`: seven-bit groups, least significant first, the top bit of each
byte set when another byte follows. -/
def encodeVarint (v : Nat) : List Nat :=
  if v < 128 then [v] else (v % 128 + 128) :: encodeVarint (v / 128)
termination_by v
decreasing_by omega

def decodeVarint : List Nat → Option (Nat × List Nat)
  | [] => none
  | b :: bs =>
    if b < 128 then some (b, bs)
    else (decodeVarint bs).map fun (v, rest) => (b % 128 + 128 * v, rest)

theorem encodeVarint_of_lt {v : Nat} (h : v < 128) : encodeVarint v = [v] := by
  rw [encodeVarint, if_pos h]

theorem encodeVarint_of_le {v : Nat} (h : 128 ≤ v) :
    encodeVarint v = (v % 128 + 128) :: encodeVarint (v / 128) := by
  rw [encodeVarint, if_neg (by omega)]

/-- Decoding a varint gives its value back and leaves what follows it untouched. -/
theorem decodeVarint_encodeVarint (v : Nat) (rest : List Nat) :
    decodeVarint (encodeVarint v ++ rest) = some (v, rest) := by
  induction v using Nat.strongRecOn with
  | ind v ih =>
    by_cases hv : v < 128
    · simp [encodeVarint_of_lt hv, decodeVarint, hv]
    · rw [encodeVarint_of_le (by omega), List.cons_append, decodeVarint, if_neg (by omega),
        ih _ (by omega)]
      simp only [Option.map_some', Option.some.injEq, Prod.mk.injEq, and_true]
      omega

theorem encodeVarint_lt_256 (v : Nat) : ∀ b ∈ encodeVarint v, b < 256 := by
  induction v using Nat.strongRecOn with
  | ind v ih =>
    by_cases hv : v < 128
    · simp only [encodeVarint_of_lt hv, List.mem_singleton, forall_eq]
      omega
    · rw [encodeVarint_of_le (by omega)]
      rintro b (_ | ⟨_, hb⟩)
      · omega
      · exact ih _ (by omega) b hb

theorem length_encodeVarint_pos (v : Nat) : 0 < (encodeVarint v).length := by
  rw [encodeVarint]; split <;> simp

theorem lt_pow_length_encodeVarint (v : Nat) :
    v < 128 ^ (encodeVarint v).length ∧
      ((encodeVarint v).length = 1 ∨ 128 ^ ((encodeVarint v).length - 1) ≤ v) := by
  induction v using Nat.strongRecOn with
  | ind v ih =>
    by_cases hv : v < 128
    · simp [encodeVarint_of_lt hv, hv]
    · obtain ⟨hlt, hge⟩ := ih (v / 128) (by omega)
      have hpos := length_encodeVarint_pos (v / 128)
      rw [encodeVarint_of_le (by omega), List.length_cons, Nat.add_sub_cancel]
      generalize (encodeVarint (v / 128)).length = n at hlt hge hpos ⊢
      obtain ⟨m, rfl⟩ := Nat.exists_eq_add_of_lt hpos
      simp only [Nat.zero_add, Nat.add_sub_cancel, Nat.pow_succ] at hlt hge ⊢
      rcases hge with h | h
      · obtain rfl : m = 0 := by omega
        simp only [pow_zero, Nat.one_mul] at hlt ⊢
        omega
      · omega

theorem length_encodeVarint_le {v k : Nat} (hk : 0 < k) (hv : v < 128 ^ k) :
    (encodeVarint v).length ≤ k := by
  by_contra h
  rcases (lt_pow_length_encodeVarint v).2 with h' | h'
  · omega
  · have := Nat.pow_le_pow_right (show 0 < 128 by omega) (show k ≤ (encodeVarint v).length - 1 by omega)
    omega

theorem group_length_encodeVarint (v : Nat) :
    ((encodeVarint v).length - 1 = 0 ∨ v / 128 ^ ((encodeVarint v).length - 1) % 128 ≠ 0) ∧
      ∀ i, (encodeVarint v).length - 1 < i → v / 128 ^ i % 128 = 0 := by
  obtain ⟨hlt, hge⟩ := lt_pow_length_encodeVarint v
  have hpos := length_encodeVarint_pos v
  refine ⟨hge.imp (fun h => by omega) fun h => ?_, fun i hi => ?_⟩
  · have h₁ : 1 ≤ v / 128 ^ ((encodeVarint v).length - 1) :=
      (Nat.le_div_iff_mul_le (Nat.pow_pos (by omega))).mpr (by omega)
    have h₂ : v / 128 ^ ((encodeVarint v).length - 1) < 128 := Nat.div_lt_of_lt_mul (by
      rw [← Nat.pow_succ, Nat.succ_eq_add_one, Nat.sub_add_cancel (show 1 ≤ _ from hpos)]
      exact hlt)
    omega
  · rw [Nat.div_eq_of_lt (lt_of_lt_of_le hlt (Nat.pow_le_pow_right (by omega) (by omega)))]

/-- The varint of `v` followed by zero bytes up to `VOTING_POWER_BYTES_LENGTH_MAX` bytes. -/
def encodeVarintPadded (v : Nat) : List Nat :=
  encodeVarint v ++ List.replicate (VOTING_POWER_BYTES_LENGTH_MAX - (encodeVarint v).length) 0

theorem map_range_varintByte (k : Nat) : ∀ v, v < 128 ^ (k + 1) →
    (List.range (k + 1)).map (fun i => v / 128 ^ i % 128 +
      if i + 1 < (encodeVarint v).length then 128 else 0) =
      encodeVarint v ++ List.replicate (k + 1 - (encodeVarint v).length) 0 := by
  induction k with
  | zero =>
    intro v hv
    have hv : v < 128 := by simpa using hv
    simp [encodeVarint_of_lt hv, Nat.mod_eq_of_lt hv, List.range_succ]
  | succ k ih =>
    intro v hv
    rw [List.range_succ_eq_map, List.map_cons, List.map_map]
    by_cases hsmall : v < 128
    · have hz : ∀ i, v / 128 ^ (i + 1) = 0 := fun i =>
        Nat.div_eq_of_lt (lt_of_lt_of_le hsmall (Nat.le_self_pow (by omega) _))
      simp [encodeVarint_of_lt hsmall, Nat.mod_eq_of_lt hsmall, Function.comp_def, hz,
        List.replicate_succ]
    · have hlen : (encodeVarint v).length = (encodeVarint (v / 128)).length + 1 := by
        rw [encodeVarint_of_le (by omega), List.length_cons]
      have htail : ((fun i => v / 128 ^ i % 128 + if i + 1 < (encodeVarint v).length then 128 else 0) ∘
          Nat.succ) = fun i => v / 128 / 128 ^ i % 128 +
            if i + 1 < (encodeVarint (v / 128)).length then 128 else 0 := by
        funext i
        simp only [Function.comp_apply, hlen, Nat.pow_succ', ← Nat.div_div_eq_div_mul,
          Nat.add_lt_add_iff_right]
      rw [htail, ih (v / 128) (by rw [Nat.pow_succ] at hv; omega), encodeVarint_of_le (by omega)]
      have hpos := length_encodeVarint_pos (v / 128)
      simp only [List.length_cons, pow_zero, Nat.div_one, List.cons_append]
      rw [if_pos (by omega), Nat.add_sub_add_right]

theorem getD_u32ToBitsLe (x : U32) {k : Nat} (hk : k < 32) :
    (u32ToBitsLe x).getD k false = x.val.testBit k := by
  simp [u32ToBitsLe, List.getD_eq_getElem?_getD, List.getElem?_range hk]

theorem getD_votingPowerBits (vp : I64) {k : Nat} (hk : k < 64) :
    (u32ToBitsLe vp.lo ++ u32ToBitsLe vp.hi).getD k false = vp.val.testBit k := by
  rw [I64.val, Nat.add_comm, Nat.testBit_mul_pow_two_add _ vp.lo.isLt]
  by_cases h : k < 32
  · rw [List.getD_append _ _ _ _ (by simpa [u32ToBitsLe] using h), getD_u32ToBitsLe _ h, if_pos h]
  · rw [List.getD_append_right _ _ _ _ (by simp [u32ToBitsLe]; omega), if_neg h]
    simp only [u32ToBitsLe, List.length_map, List.length_range]
    exact getD_u32ToBitsLe _ (by omega)

theorem testBit_septet (v i : Nat) {j : Nat} (hj : j < 7) :
    (v / 128 ^ i % 128).testBit j = v.testBit (i * 7 + j) := by
  rw [show (128 : Nat) ^ i = 2 ^ (i * 7) by rw [Nat.pow_mul'], ← Nat.shiftRight_eq_div_pow,
    show (128 : Nat) = 2 ^ 7 from rfl, Nat.testBit_mod_two_pow, Nat.testBit_shiftRight]
  simp [hj]

theorem any_testBit_range {s k : Nat} (hs : s < 2 ^ k) :
    ((List.range k).map s.testBit).any id = decide (s ≠ 0) := by
  rw [Bool.eq_iff_iff, List.any_eq_true, decide_eq_true_iff]
  simp only [List.mem_map, List.mem_range, id_eq, exists_exists_and_eq_and]
  constructor
  · rintro ⟨j, -, hj⟩ rfl
    simp at hj
  · intro h
    obtain ⟨j, hj⟩ := Nat.ne_zero_implies_bit_true h
    refine ⟨j, ?_, hj⟩
    by_contra hjk
    rw [Nat.testBit_lt_two_pow (lt_of_lt_of_le hs (Nat.pow_le_pow_right (by omega) (by omega)))] at hj
    exact Bool.false_ne_true hj

theorem byteBitsLe_septet {s : Nat} (hs : s < 128) (p : Prop) [Decidable p] :
    byteBitsLe (s + if p then 128 else 0) = (List.range 7).map s.testBit ++ [decide p] := by
  have hbit : ∀ j, (s + if p then 128 else 0).testBit j = if j < 7 then s.testBit j else
      (if p then 1 else 0 : Nat).testBit (j - 7) := fun j => by
    rw [← Nat.testBit_mul_pow_two_add _ (show s < 2 ^ 7 from hs)]
    by_cases hp : p <;> simp [hp, Nat.add_comm]
  rw [byteBitsLe, List.range_succ, List.map_append]
  congr 1
  · exact List.map_congr_left fun j hj => by rw [hbit, if_pos (List.mem_range.mp hj)]
  · simp only [List.map_cons, List.map_nil, hbit]
    by_cases hp : p <;> simp [hp]

/-- The loop that keeps the index of the last nonzero septet ends on `m` when septet `m` is
nonzero (or `m` is the start) and every later septet is zero. -/
theorem foldl_lastIndex (P : Nat → Bool) {m : Nat} (hm : m = 0 ∨ P m = true) :
    ∀ n, m < n → (∀ i, m < i → i < n → P i = false) →
      (List.range n).foldl (fun idx i => if P i then i else idx) 0 = m
  | 0, h, _ => absurd h (Nat.not_lt_zero _)
  | n + 1, h, hgt => by
    rw [List.range_succ, List.foldl_append, List.foldl_cons, List.foldl_nil]
    rcases Nat.lt_succ_iff_lt_or_eq.mp h with hlt | rfl
    · rw [hgt n hlt (by omega), if_neg Bool.false_ne_true,
        foldl_lastIndex P hm n hlt fun i h₁ h₂ => hgt i h₁ (by omega)]
    · rcases hm with rfl | hm
      · split <;> rfl
      · rw [if_pos hm]

/-- The continuation bit of byte `i` is set exactly when `i + 1 ≤ last`; otherwise the field
subtraction wraps. -/
theorem any_range_fieldSub {x k : Nat} (hx : x < 9) (hk : k ≤ 9) :
    ((List.range 9).any fun j => decide (fieldSub x k = j)) = decide (k ≤ x) := by
  have hp : FIELD_ORDER = 18446744069414584321 := rfl
  rw [Bool.eq_iff_iff, List.any_eq_true, decide_eq_true_iff]
  simp only [List.mem_range, decide_eq_true_eq, exists_eq_right']
  by_cases h : k ≤ x
  · rw [fieldSub_of_le (by omega) h]; omega
  · rw [fieldSub_of_lt (by omega) (by omega)]; omega

theorem marshalInt64Varint_eq_some {vp : I64} (hv : vp.val < 2 ^ 63) :
    marshalInt64Varint vp = some ((encodeVarintPadded vp.val).flatMap byteBitsLe) := by
  have hseptet : ∀ i < 9, ((List.range 7).map fun j =>
      (u32ToBitsLe vp.lo ++ u32ToBitsLe vp.hi).getD (i * 7 + j) false) =
        (List.range 7).map (vp.val / 128 ^ i % 128).testBit := fun i hi =>
    List.map_congr_left fun j hj => by
      have hj := List.mem_range.mp hj
      rw [getD_votingPowerBits vp (by omega), testBit_septet _ _ hj]
  have hsep : ∀ i, vp.val / 128 ^ i % 128 < 2 ^ 7 := fun i => Nat.mod_lt _ (by omega)
  have hpos := length_encodeVarint_pos vp.val
  have hle := length_encodeVarint_le (show 0 < 9 by omega) (show vp.val < 128 ^ 9 by omega)
  obtain ⟨hm, hgt⟩ := group_length_encodeVarint vp.val
  -- the loop over the septets ends on the varint's last byte
  have hlast : (List.range 9).foldl (fun idx i => if ((List.range 7).map fun j =>
      (u32ToBitsLe vp.lo ++ u32ToBitsLe vp.hi).getD (i * 7 + j) false).any id = true then i else idx) 0 =
        (encodeVarint vp.val).length - 1 := by
    refine foldl_lastIndex _ (hm.imp id fun h => ?_) 9 (by omega) fun i h₁ h₂ => ?_
    · rw [hseptet _ (by omega), any_testBit_range (hsep _)]
      exact decide_eq_true h
    · rw [hseptet i h₂, any_testBit_range (hsep i), hgt i h₁]
      rfl
  unfold marshalInt64Varint encodeVarintPadded
  simp only [VOTING_POWER_BYTES_LENGTH_MAX, getD_votingPowerBits vp (show 63 < 64 by omega),
    Nat.testBit_lt_two_pow hv, Bool.false_eq_true, if_false, hlast]
  refine congrArg some ?_
  have hmap := map_range_varintByte 8 vp.val (by omega)
  simp only [Nat.reduceAdd] at hmap
  rw [← hmap, List.flatMap_map]
  refine List.flatMap_congr fun i hi => ?_
  have hi := List.mem_range.mp hi
  rw [hseptet i hi, any_range_fieldSub (by omega) (by omega), byteBitsLe_septet (hsep i)]
  congr 3
  exact propext (by omega)

/-- The constraints of `marshal_int64_varint` fail exactly when the top bit of the power is set. -/
theorem marshalInt64Varint_eq_none_iff (vp : I64) : marshalInt64Varint vp = none ↔ 2 ^ 63 ≤ vp.val := by
  have hv := vp.val_lt
  unfold marshalInt64Varint
  simp only
  rw [getD_votingPowerBits vp (by omega), Nat.testBit_to_div_mod]
  split <;> rename_i h <;> simp only [decide_eq_true_eq] at h
  · simp only [true_iff]; omega
  · simp only [reduceCtorEq, false_iff]; omega

/-- The canonical protobuf encoding of a validator: `10 34 10 32 ‖ pubkey ‖ 16 ‖ varint`. -/
def encodeValidator (pubkey : List Bool) (votingPower : Nat) : List Bool :=
  [10, 34, 10, 32].flatMap byteBitsLe ++ pubkey ++ (16 :: encodeVarint votingPower).flatMap byteBitsLe

theorem marshalTendermintValidator_eq_some (pubkey : List Bool) {vp : I64} (hv : vp.val < 2 ^ 63) :
    marshalTendermintValidator pubkey vp = some ([10, 34, 10, 32].flatMap byteBitsLe ++ pubkey ++
      (16 :: encodeVarintPadded vp.val).flatMap byteBitsLe) := by
  simp only [marshalTendermintValidator, marshalInt64Varint_eq_some hv, Option.bind_eq_bind,
    Option.some_bind, Option.pure_def, List.flatMap_cons, List.append_assoc]

@[simp] theorem length_byteBitsLe (b : Nat) : (byteBitsLe b).length = 8 := by
  simp [byteBitsLe]

theorem length_flatMap_byteBitsLe (bs : List Nat) : (bs.flatMap byteBitsLe).length = 8 * bs.length := by
  induction bs with
  | nil => rfl
  | cons b bs ih => simp only [List.flatMap_cons, List.length_append, length_byteBitsLe, ih,
      List.length_cons]; omega

theorem take_flatMap_byteBitsLe : ∀ (bs : List Nat) (n : Nat),
    (bs.flatMap byteBitsLe).take (8 * n) = (bs.take n).flatMap byteBitsLe
  | [], _ => by simp
  | _ :: _, 0 => by simp
  | b :: bs, n + 1 => by
    rw [List.flatMap_cons, Nat.mul_succ, Nat.add_comm, List.take_append_eq_append_take,
      List.take_of_length_le (by simp), length_byteBitsLe, Nat.add_sub_cancel_left,
      take_flatMap_byteBitsLe bs n, List.take_succ_cons, List.flatMap_cons]

theorem byteBitsLe_injective {x y : Nat} (hx : x < 256) (hy : y < 256)
    (h : byteBitsLe x = byteBitsLe y) : x = y := by
  refine Nat.eq_of_testBit_eq fun i => ?_
  by_cases hi : i < 8
  · have := congrArg (fun l => l.getD i false) h
    simpa [byteBitsLe, List.getD_eq_getElem?_getD, List.getElem?_range hi] using this
  · have h8 : 2 ^ 8 ≤ 2 ^ i := Nat.pow_le_pow_right (by omega) (by omega)
    rw [Nat.testBit_lt_two_pow (by omega), Nat.testBit_lt_two_pow (by omega)]

theorem flatMap_byteBitsLe_injective : ∀ {xs ys : List Nat}, (∀ x ∈ xs, x < 256) →
    (∀ y ∈ ys, y < 256) → xs.flatMap byteBitsLe = ys.flatMap byteBitsLe → xs = ys
  | [], [], _, _, _ => rfl
  | [], y :: ys, _, _, h => by simp [List.flatMap_cons, byteBitsLe] at h
  | x :: xs, [], _, _, h => by simp [List.flatMap_cons, byteBitsLe] at h
  | x :: xs, y :: ys, hx, hy, h => by
    rw [List.flatMap_cons, List.flatMap_cons] at h
    obtain ⟨h₁, h₂⟩ := List.append_inj h (by simp)
    rw [byteBitsLe_injective (hx x (by simp)) (hy y (by simp)) h₁,
      flatMap_byteBitsLe_injective (fun x h => hx x (by simp [h])) (fun y h => hy y (by simp [h])) h₂]

theorem take_encodeVarint_append_eq_iff {v v' m k : Nat} (hm : m ≤ (encodeVarint v).length + k) :
    (encodeVarint v ++ List.replicate k 0).take m = encodeVarint v' ↔
      m = (encodeVarint v).length ∧ v' = v := by
  constructor
  · intro h
    have hsplit := List.take_append_drop m (encodeVarint v ++ List.replicate k 0)
    rw [h] at hsplit
    have hdec := decodeVarint_encodeVarint v' ((encodeVarint v ++ List.replicate k 0).drop m)
    rw [hsplit, decodeVarint_encodeVarint] at hdec
    obtain ⟨rfl, -⟩ := Prod.mk.inj (Option.some.inj hdec)
    have hlen := congrArg List.length h
    rw [List.length_take, List.length_append, List.length_replicate] at hlen
    exact ⟨by omega, rfl⟩
  · rintro ⟨rfl, rfl⟩
    exact List.take_left' rfl

theorem lt_256_of_mem_encodeVarintPadded {v b : Nat} (hb : b ∈ encodeVarintPadded v) : b < 256 := by
  rcases List.mem_append.mp hb with hb | hb
  · exact encodeVarint_lt_256 v b hb
  · rw [List.eq_of_mem_replicate hb]; omega

/-- The first `L` bytes of a marshalled validator, `38 ≤ L ≤ 46`, are a canonical encoding only at
`L = 37 + |varint v|`, and then of `(pubkey, v)` alone. -/
theorem take_marshalled_eq_encodeValidator_iff {pubkey pubkey' : List Bool}
    (hpk : pubkey.length = PUBKEY_BYTES_LEN * 8) (hpk' : pubkey'.length = PUBKEY_BYTES_LEN * 8)
    {v v' L : Nat} (hv : (encodeVarint v).length ≤ VOTING_POWER_BYTES_LENGTH_MAX)
    (hL : VALIDATOR_BYTE_LENGTH_MIN ≤ L) (hL' : L ≤ VALIDATOR_BYTE_LENGTH_MAX) :
    ([10, 34, 10, 32].flatMap byteBitsLe ++ pubkey ++
        (16 :: encodeVarintPadded v).flatMap byteBitsLe).take (L * 8) = encodeValidator pubkey' v' ↔
      L = 37 + (encodeVarint v).length ∧ pubkey' = pubkey ∧ v' = v := by
  simp only [PUBKEY_BYTES_LEN, VOTING_POWER_BYTES_LENGTH_MAX, VALIDATOR_BYTE_LENGTH_MIN,
    VALIDATOR_BYTE_LENGTH_MAX] at hpk hpk' hv hL hL'
  have hpre : ∀ pk : List Bool, pk.length = 256 →
      ([10, 34, 10, 32].flatMap byteBitsLe ++ pk).length = 288 := fun pk h => by
    rw [List.length_append, h, length_flatMap_byteBitsLe]; rfl
  rw [List.take_append_eq_append_take, List.take_of_length_le (by rw [hpre _ hpk]; omega), hpre _ hpk,
    show L * 8 - 288 = 8 * (L - 37 + 1) by omega, take_flatMap_byteBitsLe, List.take_succ_cons,
    encodeValidator]
  constructor
  · intro h
    obtain ⟨h₁, h₂⟩ := List.append_inj h (by rw [hpre _ hpk, hpre _ hpk'])
    have h₃ := flatMap_byteBitsLe_injective (fun b hb => ?_) (fun b hb => ?_) h₂
    · obtain ⟨hm, rfl⟩ := (take_encodeVarint_append_eq_iff
        (by simp only [VOTING_POWER_BYTES_LENGTH_MAX]; omega)).mp (List.cons.inj h₃).2
      exact ⟨by omega, (List.append_cancel_left h₁).symm, rfl⟩
    · rcases List.mem_cons.mp hb with rfl | hb
      · omega
      · exact lt_256_of_mem_encodeVarintPadded (List.mem_of_mem_take hb)
    · rcases List.mem_cons.mp hb with rfl | hb
      · omega
      · exact encodeVarint_lt_256 v' b hb
  · rintro ⟨rfl, rfl, rfl⟩
    rw [Nat.add_sub_cancel_left, encodeVarintPadded, List.take_left' rfl]

/-- `marshal_tendermint_validator` writes the canonical encoding of a validator with power below
`2 ^ 63`, then zero bytes, and of its prefixes only the canonical one is an encoding. -/
theorem marshalTendermintValidator_canonical (pubkey : List Bool) (vp : I64)
    (hpk : pubkey.length = PUBKEY_BYTES_LEN * 8) :
    ((marshalInt64Varint vp).isSome ↔ vp.val < 2 ^ 63) ∧
    (vp.val < 2 ^ 63 →
      1 ≤ (encodeVarint vp.val).length ∧
      (encodeVarint vp.val).length ≤ VOTING_POWER_BYTES_LENGTH_MAX ∧
      marshalInt64Varint vp = some ((encodeVarintPadded vp.val).flatMap byteBitsLe) ∧
      ∃ out, marshalTendermintValidator pubkey vp = some out ∧
        out = [10, 34, 10, 32].flatMap byteBitsLe ++ pubkey ++
          (16 :: encodeVarintPadded vp.val).flatMap byteBitsLe ∧
        ∀ L, VALIDATOR_BYTE_LENGTH_MIN ≤ L → L ≤ VALIDATOR_BYTE_LENGTH_MAX →
          ∀ pubkey' votingPower', pubkey'.length = PUBKEY_BYTES_LEN * 8 →
            (out.take (L * 8) = encodeValidator pubkey' votingPower' ↔
              L = 37 + (encodeVarint vp.val).length ∧ pubkey' = pubkey ∧
                votingPower' = vp.val)) := by
  refine ⟨?_, fun hv => ?_⟩
  · rw [← not_iff_not, Option.not_isSome_iff_eq_none, marshalInt64Varint_eq_none_iff]
    omega
  have hle := length_encodeVarint_le (show 0 < 9 by omega) (show vp.val < 128 ^ 9 by omega)
  exact ⟨length_encodeVarint_pos _, hle, marshalInt64Varint_eq_some hv, _,
    marshalTendermintValidator_eq_some pubkey hv, rfl,
    fun L hL hL' _ _ hpk' => take_marshalled_eq_encodeValidator_iff hpk hpk' hle hL hL'⟩

theorem marshalTendermintValidator_canonical_three_hundred :
    (List.replicate 256 false).length = PUBKEY_BYTES_LEN * 8 ∧
    ((marshalInt64Varint ⟨300, 0⟩).isSome ↔ (⟨300, 0⟩ : I64).val < 2 ^ 63) ∧
    ((⟨300, 0⟩ : I64).val < 2 ^ 63 →
      1 ≤ (encodeVarint (⟨300, 0⟩ : I64).val).length ∧
      (encodeVarint (⟨300, 0⟩ : I64).val).length ≤ VOTING_POWER_BYTES_LENGTH_MAX ∧
      marshalInt64Varint ⟨300, 0⟩ =
        some ((encodeVarintPadded (⟨300, 0⟩ : I64).val).flatMap byteBitsLe) ∧
      ∃ out, marshalTendermintValidator (List.replicate 256 false) ⟨300, 0⟩ = some out ∧
        out = [10, 34, 10, 32].flatMap byteBitsLe ++ List.replicate 256 false ++
          (16 :: encodeVarintPadded (⟨300, 0⟩ : I64).val).flatMap byteBitsLe ∧
        ∀ L, VALIDATOR_BYTE_LENGTH_MIN ≤ L → L ≤ VALIDATOR_BYTE_LENGTH_MAX →
          ∀ pubkey' votingPower', pubkey'.length = PUBKEY_BYTES_LEN * 8 →
            (out.take (L * 8) = encodeValidator pubkey' votingPower' ↔
              L = 37 + (encodeVarint (⟨300, 0⟩ : I64).val).length ∧
                pubkey' = List.replicate 256 false ∧ votingPower' = (⟨300, 0⟩ : I64).val)) :=
  ⟨List.length_replicate _ _, marshalTendermintValidator_canonical _ _ (List.length_replicate _ _)⟩

end BlobstreamX.Circuit
