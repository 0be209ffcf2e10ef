import BlobstreamX.Circuit.Commitment

namespace BlobstreamX.Circuit

open BlobstreamX.Merkle

/-- The order of the Goldilocks field that the circuits are built over. -/
def FIELD_ORDER : Nat := 2 ^ 64 - 2 ^ 32 + 1

/-- `sub` on two field elements, wrapping modulo the field order. -/
def fieldSub (a b : Nat) : Nat := (a + FIELD_ORDER - b) % FIELD_ORDER

def rangeCheck (x n : Nat) : Bool := decide (x < 2 ^ n)

/-- The shortest and the longest protobuf encoding of a validator, in bytes. -/
def VALIDATOR_BYTE_LENGTH_MIN : Nat := 38
def VALIDATOR_BYTE_LENGTH_MAX : Nat := 46

def NUM_POSSIBLE_VALIDATOR_BYTE_LENGTHS : Nat :=
  VALIDATOR_BYTE_LENGTH_MAX - VALIDATOR_BYTE_LENGTH_MIN + 1

def PUBKEY_BYTES_LEN : Nat := 32

def VOTING_POWER_BYTES_LENGTH_MAX : Nat := 9

def VALIDATOR_MESSAGE_BYTES_LENGTH_MAX : Nat := 124

def PROTOBUF_HASH_SIZE_BITS : Nat := HASH_SIZE_BITS + 8 * 2

/-- A constant byte as the marshaller writes it: bit `j` is `(byte >> j) & 1`. -/
def byteBitsLe (byte : Nat) : List Bool := (List.range 8).map byte.testBit

/-- `marshal_int64_varint`: the power's 64 bits, the top one asserted zero, then nine septets each
followed by its continuation bit, set when `last_seen_non_zero_septet_idx - (i + 1)` is below 9. -/
def marshalInt64Varint (votingPower : I64) : Option (List Bool) :=
  let votingPowerBits := u32ToBitsLe votingPower.lo ++ u32ToBitsLe votingPower.hi
  if votingPowerBits.getD 63 false then none
  else
    let septet (i : Nat) : List Bool :=
      (List.range 7).map fun j => votingPowerBits.getD (i * 7 + j) false
    let lastSeenNonZeroSeptetIdx := (List.range VOTING_POWER_BYTES_LENGTH_MAX).foldl
      (fun idx i => if (septet i).any id then i else idx) 0
    some ((List.range VOTING_POWER_BYTES_LENGTH_MAX).flatMap fun i =>
      septet i ++ [(List.range VOTING_POWER_BYTES_LENGTH_MAX).any fun j =>
        fieldSub lastSeenNonZeroSeptetIdx (i + 1) = j])

/-- `marshal_tendermint_validator`: `10 34 10 32 ‖ pubkey ‖ 16 ‖ varint`, the constant bytes
written least significant bit first. -/
def marshalTendermintValidator (pubkey : List Bool) (votingPower : I64) : Option (List Bool) := do
  let votingPowerBits ← marshalInt64Varint votingPower
  pure ([10, 34, 10, 32].flatMap byteBitsLe ++ pubkey ++ byteBitsLe 16 ++ votingPowerBits)

variable (sha : List Bool → Digest)

/-- The hasher of `validator.rs` on bit messages, the `sha256` gadget being `sha`: a leaf is
`sha256(0x00 ‖ leaf)`, an inner node `sha256(0x01 ‖ left ‖ right)` (`inner_hash`). -/
def sha256Hasher : MerkleHash (List Bool) (List Bool) where
  emptyHash := digestBits (sha [])
  leafHash leaf := digestBits (sha (byteBits 0 ++ leaf))
  innerHash left right := digestBits (sha (byteBits 1 ++ left ++ right))

/-- `hash_validator_leaf`: both range checks, then the leaf hash of the first `38 + j` bytes
selected at `j = validator_byte_length - 38` over an all-zero start. -/
def hashValidatorLeaf (validator : List Bool) (validatorByteLength : Nat) : Option (List Bool) :=
  let diffWithMinLength := fieldSub validatorByteLength VALIDATOR_BYTE_LENGTH_MIN
  let diffWithMaxLength := fieldSub VALIDATOR_BYTE_LENGTH_MAX validatorByteLength
  if rangeCheck diffWithMinLength 4 && rangeCheck diffWithMaxLength 4 then
    let lengthIndex := fieldSub validatorByteLength VALIDATOR_BYTE_LENGTH_MIN
    some ((List.range NUM_POSSIBLE_VALIDATOR_BYTE_LENGTHS).foldl (fun ret j =>
      if lengthIndex = j then
        (sha256Hasher sha).leafHash (validator.take ((VALIDATOR_BYTE_LENGTH_MIN + j) * 8))
      else ret) (List.replicate HASH_SIZE_BITS false))
  else none

def hashValidatorLeaves (validatorSetSizeMax : Nat) (validators : List (List Bool))
    (validatorByteLengths : List Nat) : Option (List (List Bool)) :=
  if validators.length = validatorSetSizeMax ∧ validatorByteLengths.length = validatorSetSizeMax
  then (validators.zip validatorByteLengths).mapM fun p => hashValidatorLeaf sha p.1 p.2
  else none

/-- `hash_validator_set`: the leaf hashes go through the layer loop from `VALIDATOR_SET_SIZE_MAX`
down to one node. -/
def hashValidatorSet (validatorSetSizeMax : Nat) (validators : List (List Bool))
    (validatorByteLengths : List Nat) (validatorEnabled : List Bool) : Option (List Bool) :=
  if validators.length = validatorSetSizeMax ∧ validatorByteLengths.length = validatorSetSizeMax ∧
      validatorEnabled.length = validatorSetSizeMax then do
    let leaves ← hashValidatorLeaves sha validatorSetSizeMax validators validatorByteLengths
    let layers ← hashMerkleLayers (sha256Hasher sha) leaves validatorEnabled validatorSetSizeMax
    layers.1.head?
  else none

/-- The comparison of `verify_hash_in_message`: the header hash against the message's bits from
byte 25 when the round is present, from byte 16 when it is not. -/
def hashInMessage (message headerHash : List Bool) (roundPresentInMessage : Bool) : Bool :=
  (List.range HASH_SIZE_BITS).all fun i =>
    let roundMissingEq := headerHash.getD i false == message.getD (16 * 8 + i) false
    let roundPresentEq := headerHash.getD i false == message.getD (25 * 8 + i) false
    if roundPresentInMessage then roundPresentEq else roundMissingEq

def verifyHashInMessage (message headerHash : List Bool) (roundPresentInMessage : Bool) :
    Option (List Bool) :=
  if hashInMessage message headerHash roundPresentInMessage then some headerHash else none

@[simp] theorem length_bytesBits (bs : List Nat) : (bytesBits bs).length = 8 * bs.length := by
  induction bs with
  | nil => rfl
  | cons b bs ih => simp [ih]; omega

@[simp] theorem length_digestBits (d : Digest) : (digestBits d).length = HASH_SIZE_BITS := by
  simp [digestBits, HASH_SIZE_BITS]

@[simp] theorem sha256Hasher_leafHash (leaf : List Bool) :
    (sha256Hasher sha).leafHash leaf = digestBits (sha (byteBits 0 ++ leaf)) := by
  dsimp only [sha256Hasher]

@[simp] theorem sha256Hasher_innerHash (left right : List Bool) :
    (sha256Hasher sha).innerHash left right = digestBits (sha (byteBits 1 ++ left ++ right)) := by
  dsimp only [sha256Hasher]

theorem length_merkleRoot_sha256Hasher {hs : List (List Bool)} (h : 2 ≤ hs.length) :
    (merkleRoot (sha256Hasher sha) hs).length = HASH_SIZE_BITS := by
  rw [merkleRoot_of_two_le _ h, sha256Hasher_innerHash, length_digestBits]

theorem foldl_select {γ : Type} (f : Nat → γ) (init : γ) (k : Nat) :
    ∀ n, (List.range n).foldl (fun ret j => if k = j then f j else ret) init =
      if k < n then f k else init
  | 0 => by simp
  | n + 1 => by
    rw [List.range_succ, List.foldl_append, foldl_select f init k n]
    by_cases hk : k = n
    · simp [hk]
    · simp only [List.foldl_cons, List.foldl_nil, hk, if_false]
      by_cases hkn : k < n
      · rw [if_pos hkn, if_pos (by omega)]
      · rw [if_neg hkn, if_neg (by omega)]

theorem fieldSub_of_le {a b : Nat} (ha : a < FIELD_ORDER) (hb : b ≤ a) : fieldSub a b = a - b := by
  unfold fieldSub
  rw [show a + FIELD_ORDER - b = a - b + FIELD_ORDER by omega, Nat.add_mod_right,
    Nat.mod_eq_of_lt (by omega)]

theorem fieldSub_of_lt {a b : Nat} (hb : b < FIELD_ORDER) (hab : a < b) :
    fieldSub a b = a + FIELD_ORDER - b := by
  unfold fieldSub
  exact Nat.mod_eq_of_lt (by omega)

/-- The range checks admit exactly the byte lengths 38 to 46 of a field element; the loop then
hashes the first `validator_byte_length` bytes. -/
theorem hashValidatorLeaf_eq (validator : List Bool) {len : Nat} (hlen : len < FIELD_ORDER) :
    hashValidatorLeaf sha validator len =
      if VALIDATOR_BYTE_LENGTH_MIN ≤ len ∧ len ≤ VALIDATOR_BYTE_LENGTH_MAX then
        some ((sha256Hasher sha).leafHash (validator.take (len * 8)))
      else none := by
  have hp : FIELD_ORDER = 18446744069414584321 := rfl
  unfold hashValidatorLeaf
  simp only [VALIDATOR_BYTE_LENGTH_MIN, VALIDATOR_BYTE_LENGTH_MAX, NUM_POSSIBLE_VALIDATOR_BYTE_LENGTHS,
    rangeCheck, foldl_select]
  by_cases h₁ : 38 ≤ len
  · by_cases h₂ : len ≤ 46
    · simp only [fieldSub_of_le hlen h₁, fieldSub_of_le (show 46 < FIELD_ORDER by omega) h₂]
      rw [if_pos (by simp; omega), if_pos (by omega), if_pos ⟨h₁, h₂⟩,
        show 38 + (len - 38) = len by omega]
    · simp only [fieldSub_of_le hlen h₁, fieldSub_of_lt (show len < FIELD_ORDER from hlen)
        (show 46 < len by omega)]
      rw [if_neg (by simp; omega), if_neg (by omega)]
  · simp only [fieldSub_of_lt (show 38 < FIELD_ORDER by omega) (show len < 38 by omega)]
    rw [if_neg (by simp; omega), if_neg (by omega)]

theorem hashValidatorLeaf_exact (validator : List Bool)
    (hv : validator.length = VALIDATOR_BYTE_LENGTH_MAX * 8) {len : Nat} (hlen : len < FIELD_ORDER) :
    ((hashValidatorLeaf sha validator len).isSome ↔
      VALIDATOR_BYTE_LENGTH_MIN ≤ len ∧ len ≤ VALIDATOR_BYTE_LENGTH_MAX) ∧
    ∀ h, hashValidatorLeaf sha validator len = some h →
      h = digestBits (sha (byteBits 0 ++ validator.take (len * 8))) ∧
      (validator.take (len * 8)).length = len * 8 := by
  rw [hashValidatorLeaf_eq sha validator hlen, sha256Hasher_leafHash]
  split <;> rename_i hr
  · refine ⟨by simp [hr], fun h hh => ⟨(Option.some.inj hh).symm, ?_⟩⟩
    rw [List.length_take, hv]
    simp only [VALIDATOR_BYTE_LENGTH_MAX] at hr ⊢
    omega
  · exact ⟨by simp [hr], fun h hh => by cases hh⟩

theorem hashValidatorLeaf_exact_forty :
    (List.replicate 368 false).length = VALIDATOR_BYTE_LENGTH_MAX * 8 ∧ 40 < FIELD_ORDER ∧
    (((hashValidatorLeaf lengthDigest (List.replicate 368 false) 40).isSome ↔
      VALIDATOR_BYTE_LENGTH_MIN ≤ 40 ∧ 40 ≤ VALIDATOR_BYTE_LENGTH_MAX) ∧
    ∀ h, hashValidatorLeaf lengthDigest (List.replicate 368 false) 40 = some h →
      h = digestBits (lengthDigest (byteBits 0 ++ (List.replicate 368 false).take (40 * 8))) ∧
      ((List.replicate 368 false).take (40 * 8)).length = 40 * 8) :=
  ⟨List.length_replicate _ _, by decide,
    hashValidatorLeaf_exact lengthDigest _ (List.length_replicate _ _) (by decide)⟩

theorem length_of_mapM_eq_some {γ δ : Type} {f : γ → Option δ} :
    ∀ {l : List γ} {l' : List δ}, l.mapM f = some l' → l'.length = l.length
  | [], l', h => by
    simp only [List.mapM_nil, Option.pure_def, Option.some.injEq] at h
    simp [← h]
  | a :: l, l', h => by
    simp only [List.mapM_cons, Option.bind_eq_bind, Option.bind_eq_some, Option.pure_def,
      Option.some.injEq] at h
    obtain ⟨b, -, bs, hbs, rfl⟩ := h
    simp [length_of_mapM_eq_some hbs]

theorem exists_of_mem_mapM_eq_some {γ δ : Type} {f : γ → Option δ} :
    ∀ {l : List γ} {l' : List δ}, l.mapM f = some l' → ∀ y ∈ l', ∃ x ∈ l, f x = some y
  | [], l', h, y, hy => by
    simp only [List.mapM_nil, Option.pure_def, Option.some.injEq] at h
    simp [← h] at hy
  | a :: l, l', h, y, hy => by
    simp only [List.mapM_cons, Option.bind_eq_bind, Option.bind_eq_some, Option.pure_def,
      Option.some.injEq] at h
    obtain ⟨b, hb, bs, hbs, rfl⟩ := h
    rcases List.mem_cons.mp hy with rfl | hy
    · exact ⟨a, List.mem_cons_self _ _, hb⟩
    · obtain ⟨x, hx, hfx⟩ := exists_of_mem_mapM_eq_some hbs y hy
      exact ⟨x, List.mem_cons_of_mem _ hx, hfx⟩

theorem mapM_map_eq_some {γ δ ε : Type} {f : δ → Option ε} {h : γ → δ} {g : γ → ε} :
    ∀ {l : List γ}, (∀ x ∈ l, f (h x) = some (g x)) → (l.map h).mapM f = some (l.map g)
  | [], _ => rfl
  | a :: l, hl => by
    simp only [List.map_cons, List.mapM_cons, hl a (List.mem_cons_self _ _),
      mapM_map_eq_some fun x hx => hl x (List.mem_cons_of_mem _ hx), Option.bind_eq_bind,
      Option.some_bind, Option.pure_def]

theorem length_of_hashValidatorLeaves {N : Nat} {validators : List (List Bool)}
    {lens : List Nat} {leaves : List (List Bool)}
    (h : hashValidatorLeaves sha N validators lens = some leaves) : leaves.length = N := by
  unfold hashValidatorLeaves at h
  split at h
  · rw [length_of_mapM_eq_some h, List.length_zip]
    omega
  · cases h

/-- With every slot enabled, `hash_validator_set` over `2 ^ d` validators is the simple Merkle root
of their leaf hashes. -/
theorem hashValidatorSet_all_enabled {d : Nat} {validators : List (List Bool)} {lens : List Nat}
    {leaves : List (List Bool)} (hv : validators.length = 2 ^ d) (hl : lens.length = 2 ^ d)
    (hleaves : hashValidatorLeaves sha (2 ^ d) validators lens = some leaves) :
    hashValidatorSet sha (2 ^ d) validators lens (List.replicate (2 ^ d) true) =
      some (merkleRoot (sha256Hasher sha) leaves) := by
  have hlen := length_of_hashValidatorLeaves sha hleaves
  have hmask : List.replicate (2 ^ d) true = prefixEnabled (2 ^ d) (2 ^ d) := by
    simp [prefixEnabled]
  obtain ⟨t₁, t₂, h⟩ := hashMerkleLayers_eq (sha256Hasher sha)
    (show leaves.length = (List.replicate (2 ^ d) true).length by simp [hlen]) hlen.ge
  rw [List.take_of_length_le hlen.le, List.take_of_length_le (by simp), hmask,
    layerUps_prefixEnabled _ d hlen (Nat.two_pow_pos d) le_rfl, List.take_of_length_le hlen.le] at h
  rw [hashValidatorSet, if_pos ⟨hv, hl, List.length_replicate _ _⟩, hleaves, Option.bind_eq_bind,
    Option.some_bind, hmask, h]
  rfl

theorem all_range_getD_eq {a b : List Bool} {off n : Nat} (ha : a.length = n)
    (hb : off + n ≤ b.length) :
    ((List.range n).all fun i => a.getD i false == b.getD (off + i) false) =
      decide (a = (b.drop off).take n) := by
  rw [Bool.eq_iff_iff, List.all_eq_true, decide_eq_true_iff]
  simp only [List.mem_range, beq_iff_eq, List.getD_eq_getElem?_getD]
  constructor
  · intro h
    refine List.ext_getElem? fun i => ?_
    rw [List.getElem?_take, List.getElem?_drop]
    split <;> rename_i hi
    · have := h i hi
      rw [List.getElem?_eq_getElem (by omega), List.getElem?_eq_getElem (by omega)] at this ⊢
      exact congrArg some this
    · exact List.getElem?_eq_none (by omega)
  · rintro rfl i hi
    rw [List.getElem?_take_of_lt hi, List.getElem?_drop]

/-- The constraints of `verify_hash_in_message` hold exactly when the hash is the message's bytes
25 to 57 if the round is present, 16 to 48 if it is not. -/
theorem verifyHashInMessage_offset (message headerHash : List Bool) (roundPresent : Bool)
    (hm : message.length = VALIDATOR_MESSAGE_BYTES_LENGTH_MAX * 8)
    (hh : headerHash.length = HASH_SIZE_BITS) :
    verifyHashInMessage message headerHash roundPresent =
      if headerHash = (message.drop ((if roundPresent then 25 else 16) * 8)).take HASH_SIZE_BITS
      then some headerHash else none := by
  simp only [VALIDATOR_MESSAGE_BYTES_LENGTH_MAX, HASH_SIZE_BITS] at hm hh
  unfold verifyHashInMessage hashInMessage
  cases roundPresent <;> simp only [Bool.false_eq_true, if_false, if_true, HASH_SIZE_BITS]
  · rw [all_range_getD_eq hh (show 16 * 8 + 256 ≤ message.length by omega)]
    simp only [decide_eq_true_eq]
  · rw [all_range_getD_eq hh (show 25 * 8 + 256 ≤ message.length by omega)]
    simp only [decide_eq_true_eq]

theorem verifyHashInMessage_offset_round_present :
    (List.replicate 992 false).length = VALIDATOR_MESSAGE_BYTES_LENGTH_MAX * 8 ∧
    (List.replicate 256 true).length = HASH_SIZE_BITS ∧
    verifyHashInMessage (List.replicate 992 false) (List.replicate 256 true) true =
      if List.replicate 256 true =
          ((List.replicate 992 false).drop ((if true then 25 else 16) * 8)).take HASH_SIZE_BITS
      then some (List.replicate 256 true) else none :=
  ⟨List.length_replicate _ _, List.length_replicate _ _,
    verifyHashInMessage_offset _ _ _ (List.length_replicate _ _) (List.length_replicate _ _)⟩

end BlobstreamX.Circuit
