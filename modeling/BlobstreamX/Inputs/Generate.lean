import BlobstreamX.Circuit.BitOrder
import BlobstreamX.Merkle.Proofs

namespace BlobstreamX.Inputs

open BlobstreamX.Merkle
open BlobstreamX.Circuit (Digest bytesBits digestBytes validatorBytes LAST_BLOCK_ID_INDEX
  DATA_HASH_INDEX VALIDATORS_HASH_INDEX NEXT_VALIDATORS_HASH_INDEX HEADER_FIELDS)

/-- A validator of the block's set (`validator::Info`): its address, key bytes and power. -/
structure ValidatorInfo where
  address : List Nat
  pubKey : List Nat
  power : Nat
  deriving DecidableEq, Repr

/-- A commit signature (`CommitSig`). A vote for the block carries its signature and sign bytes;
the generator reads nothing else of a nil or an absent vote. -/
inductive CommitSig (σ : Type) where
  | commit (signature : σ) (signBytes : List Nat)
  | nilOrAbsent

/-- A signed block (`SignedBlock`), as `generate_step_inputs` reads it. -/
structure SignedBlock (σ : Type) where
  headerFields : List (List Nat)
  lastBlockIdHash : List Nat
  validators : List ValidatorInfo
  signatures : List (CommitSig σ)
  round : Nat

structure Validator (σ : Type) where
  pubkey : List Nat
  signature : σ
  message : List Nat
  messageBitLength : Nat
  votingPower : Nat
  validatorByteLength : Nat
  enabled : Bool
  signed : Bool

structure InclusionProof where
  encLeaf : List Nat
  path : List Bool
  proof : List Digest

structure CelestiaBlockProof (σ : Type) where
  validators : List (Validator σ)
  header : List Nat
  prevHeader : List Nat
  dataHashProof : InclusionProof
  validatorHashProof : InclusionProof
  nextValidatorsHashProof : InclusionProof
  lastBlockIdProof : InclusionProof
  roundPresent : Bool

variable (sha : List Bool → Digest)

/-- Tendermint's hasher on bytes (`merkle.rs` over `Sha256`), SHA-256 being `sha` on the bits of
the message. -/
def tendermintHasher : MerkleHash (List Nat) Digest where
  emptyHash := sha []
  leafHash leaf := sha (bytesBits (0 :: leaf))
  innerHash left right := sha (bytesBits (1 :: digestBytes left ++ digestBytes right))

/-- `Header::hash`: the simple Merkle hash of the header's field encodings. -/
def headerHash (headerFields : List (List Nat)) : Digest :=
  simpleHashFromByteVectors (tendermintHasher sha) headerFields

/-- `ValidatorSet::hash`: the simple Merkle hash of the validators' bytes. -/
def validatorsHash (validators : List ValidatorInfo) : Digest :=
  simpleHashFromByteVectors (tendermintHasher sha)
    (validators.map fun v => validatorBytes v.pubKey v.power)

/-- The loop of `generate_step_inputs` that doubles `total = 2 ^ k` from 1 while it is below `n`. -/
def closestPowerOfTwo.loop (n k : Nat) : Nat :=
  if 2 ^ k < n then loop n (k + 1) else 2 ^ k
termination_by n - k
decreasing_by have := Nat.lt_two_pow k; omega

def closestPowerOfTwo (n : Nat) : Nat := closestPowerOfTwo.loop n 0

variable {σ : Type} (zeroKey : List Nat) (zeroSignature : σ)

/-- The entry of a commit signature: a vote for the block gives its signature and sign bytes, any
other vote the all-zero signature over 32 zero bytes. Only a vote for the block is signed. -/
def signatureEntry (validator : ValidatorInfo) : CommitSig σ → Validator σ
  | .commit signature signBytes =>
    { pubkey := validator.pubKey, signature := signature, message := signBytes,
      messageBitLength := signBytes.length * 8, votingPower := validator.power,
      validatorByteLength := (validatorBytes validator.pubKey validator.power).length,
      enabled := true, signed := true }
  | .nilOrAbsent =>
    { pubkey := validator.pubKey, signature := zeroSignature, message := List.replicate 32 0,
      messageBitLength := 256, votingPower := validator.power,
      validatorByteLength := (validatorBytes validator.pubKey validator.power).length,
      enabled := true, signed := false }

/-- The entry of a slot past the signatures: `zeroKey`, no power, byte length 38, disabled. -/
def emptyEntry : Validator σ :=
  { pubkey := zeroKey, signature := zeroSignature, message := List.replicate 32 0,
    messageBitLength := 256, votingPower := 0, validatorByteLength := 38, enabled := false,
    signed := false }

/-- One pass of the loop over the commit's signatures. Indexing past the set panics. -/
def addSignatureEntry (block : SignedBlock σ) (validators : List (Validator σ)) (i : Nat) :
    Option (List (Validator σ)) := do
  let blockValidator ← block.validators[i]?
  match block.validators.find? (·.address == blockValidator.address) with
  | none => pure validators
  | some validator =>
    let signature ← block.signatures[i]?
    pure (validators ++ [signatureEntry zeroSignature validator signature])

def signatureEntries (block : SignedBlock σ) : Option (List (Validator σ)) :=
  (List.range block.signatures.length).foldlM (addSignatureEntry zeroSignature block) []

def headerInclusionProof (headerFields : List (List Nat)) (proofs : List (Proof Digest))
    (total index : Nat) : Option InclusionProof := do
  let proof ← proofs[index]?
  let encLeaf ← headerFields[index]?
  pure ⟨encLeaf, getPathIndices index total, proof.aunts⟩

/-- `generate_step_inputs`. Each `assert_eq!` and `unwrap` that fails is `none`. -/
def generateStepInputs (block : SignedBlock σ) : Option (CelestiaBlockProof σ) := do
  let total := closestPowerOfTwo block.validators.length
  let signed ← signatureEntries zeroSignature block
  let validators := signed ++
    List.replicate (total - block.signatures.length) (emptyEntry zeroKey zeroSignature)
  let proofs := (proofsFromByteSlices (tendermintHasher sha) block.headerFields).2
  let total := (← proofs[0]?).total
  let dataHashProof ← headerInclusionProof block.headerFields proofs total DATA_HASH_INDEX
  let validatorHashProof ← headerInclusionProof block.headerFields proofs total VALIDATORS_HASH_INDEX
  let nextValidatorsHashProof ←
    headerInclusionProof block.headerFields proofs total NEXT_VALIDATORS_HASH_INDEX
  let encLastBlockIdProof ← proofs[LAST_BLOCK_ID_INDEX]?
  let encLeaf ← block.headerFields[LAST_BLOCK_ID_INDEX]?
  guard (digestBytes ((tendermintHasher sha).leafHash encLeaf) =
    digestBytes encLastBlockIdProof.leafHash)
  let computedRoot ← computeHashFromAunts (tendermintHasher sha) LAST_BLOCK_ID_INDEX HEADER_FIELDS
    ((tendermintHasher sha).leafHash encLeaf) encLastBlockIdProof.aunts
  guard (digestBytes computedRoot = digestBytes (headerHash sha block.headerFields))
  guard (34 ≤ encLeaf.length ∧ block.lastBlockIdHash = (encLeaf.drop 2).take 32)
  pure {
    validators := validators
    header := digestBytes (headerHash sha block.headerFields)
    prevHeader := block.lastBlockIdHash
    dataHashProof := dataHashProof
    validatorHashProof := validatorHashProof
    nextValidatorsHashProof := nextValidatorsHashProof
    lastBlockIdProof := ⟨encLeaf, getPathIndices LAST_BLOCK_ID_INDEX total, encLastBlockIdProof.aunts⟩
    roundPresent := decide (0 < block.round) }

theorem closestPowerOfTwo_loop_spec (n : Nat) :
    ∀ k, (∀ j < k, 2 ^ j < n) →
      ∃ m, closestPowerOfTwo.loop n k = 2 ^ m ∧ n ≤ 2 ^ m ∧ ∀ j < m, 2 ^ j < n := by
  intro k
  induction k using closestPowerOfTwo.loop.induct n with
  | case1 k h ih =>
    intro hk
    rw [closestPowerOfTwo.loop, if_pos h]
    exact ih fun j hj => (Nat.lt_succ_iff_lt_or_eq.mp hj).elim (hk j) (· ▸ h)
  | case2 k h =>
    intro hk
    rw [closestPowerOfTwo.loop, if_neg h]
    exact ⟨k, rfl, Nat.not_lt.mp h, hk⟩

/-- The loop finds the least power of two that is at least `n`. -/
theorem closestPowerOfTwo_isLeast (n : Nat) :
    ∃ k, closestPowerOfTwo n = 2 ^ k ∧ n ≤ 2 ^ k ∧ ∀ j < k, 2 ^ j < n :=
  closestPowerOfTwo_loop_spec n 0 fun _ h => absurd h (Nat.not_lt_zero _)

theorem le_closestPowerOfTwo (n : Nat) : n ≤ closestPowerOfTwo n := by
  obtain ⟨m, hm, hn, -⟩ := closestPowerOfTwo_loop_spec n 0 fun _ h => absurd h (Nat.not_lt_zero _)
  rw [closestPowerOfTwo, hm]
  exact hn

/-- What `generate_step_inputs` needs of a block: 14 fields, no more signatures than validators,
distinct addresses, and the previous header's hash at bytes 2 to 34 of the block id leaf. -/
structure SignedBlock.WellFormed (block : SignedBlock σ) : Prop where
  headerFields : block.headerFields.length = HEADER_FIELDS
  signatures : block.signatures.length ≤ block.validators.length
  addresses : (block.validators.map (·.address)).Nodup
  lastBlockId : 34 ≤ (block.headerFields.getD LAST_BLOCK_ID_INDEX []).length ∧
    block.lastBlockIdHash = ((block.headerFields.getD LAST_BLOCK_ID_INDEX []).drop 2).take 32

theorem exists_find?_address {vals : List ValidatorInfo} {i : Nat} (hi : i < vals.length) :
    ∃ v, vals.find? (·.address == vals[i].address) = some v :=
  Option.isSome_iff_exists.mp (List.find?_isSome (p := fun v => v.address == vals[i].address).mpr
    ⟨vals[i], List.getElem_mem hi, beq_self_eq_true _⟩)

theorem find?_address {vals : List ValidatorInfo} (hnd : (vals.map (·.address)).Nodup) {i : Nat}
    (hi : i < vals.length) : vals.find? (·.address == vals[i].address) = some vals[i] := by
  obtain ⟨v, hv⟩ := exists_find?_address hi
  have hva : v.address = vals[i].address := by simpa using List.find?_some hv
  rw [hv, List.inj_on_of_nodup_map hnd (List.mem_of_find?_eq_some hv) (List.getElem_mem hi) hva]

theorem foldlM_addSignatureEntry (block : SignedBlock σ)
    (hnd : (block.validators.map (·.address)).Nodup) :
    ∀ {k}, k ≤ block.signatures.length → k ≤ block.validators.length →
      (List.range k).foldlM (addSignatureEntry zeroSignature block) [] =
        some ((List.zipWith (signatureEntry zeroSignature) block.validators block.signatures).take k)
  | 0, _, _ => rfl
  | k + 1, hs, hv => by
    have hvk : block.validators[k]? = some block.validators[k] := List.getElem?_eq_getElem _
    have hsk : block.signatures[k]? = some block.signatures[k] := List.getElem?_eq_getElem _
    rw [List.range_succ, List.foldlM_append, foldlM_addSignatureEntry block hnd (by omega) (by omega),
      List.take_succ, List.getElem?_zipWith, hvk, hsk]
    simp only [addSignatureEntry, Option.pure_def, Option.bind_eq_bind, List.foldlM_cons,
      List.foldlM_nil, Option.some_bind, hvk, hsk, find?_address hnd (show k < _ by omega),
      Option.toList_some]

theorem map_length_addSignatureEntry (block : SignedBlock σ) (validators : List (Validator σ))
    {i : Nat} (hs : i < block.signatures.length) :
    (addSignatureEntry zeroSignature block validators i).map List.length =
      if i < block.validators.length then some (validators.length + 1) else none := by
  by_cases hi : i < block.validators.length
  · obtain ⟨v, hv⟩ := exists_find?_address hi
    simp [addSignatureEntry, hi, hs, hv]
  · simp [addSignatureEntry, hi, List.getElem?_eq_none (Nat.le_of_not_lt hi)]

theorem map_length_foldlM_addSignatureEntry (block : SignedBlock σ) :
    ∀ {k}, k ≤ block.signatures.length →
      ((List.range k).foldlM (addSignatureEntry zeroSignature block) []).map List.length =
        if k ≤ block.validators.length then some k else none
  | 0, _ => by simp
  | k + 1, hs => by
    have ih := map_length_foldlM_addSignatureEntry block (k := k) (by omega)
    rw [List.range_succ, List.foldlM_append]
    cases hk : (List.range k).foldlM (addSignatureEntry zeroSignature block) [] with
    | none =>
      rw [hk, Option.map_none'] at ih
      have hkv : ¬k ≤ block.validators.length := fun h => by rw [if_pos h] at ih; cases ih
      rw [Option.bind_eq_bind, Option.none_bind, Option.map_none', if_neg (by omega)]
    | some acc =>
      rw [hk, Option.map_some'] at ih
      have hkv : k ≤ block.validators.length := by
        by_contra h
        rw [if_neg h] at ih
        cases ih
      rw [if_pos hkv] at ih
      have hstep := map_length_addSignatureEntry zeroSignature block acc (i := k) (by omega)
      rw [Option.some.inj ih] at hstep
      simpa only [Option.bind_eq_bind, Option.some_bind, List.foldlM_cons, List.foldlM_nil,
        bind_pure, Nat.lt_iff_add_one_le] using hstep

/-- The loop gives one entry per signature, never skipping a vote, and panics exactly when the
commit has more signatures than the set has validators. -/
theorem map_length_signatureEntries (block : SignedBlock σ) :
    (signatureEntries zeroSignature block).map List.length =
      if block.signatures.length ≤ block.validators.length then some block.signatures.length
      else none :=
  map_length_foldlM_addSignatureEntry zeroSignature block le_rfl

theorem signatureEntries_eq {block : SignedBlock σ} (hwf : block.WellFormed) :
    signatureEntries zeroSignature block =
      some (List.zipWith (signatureEntry zeroSignature) block.validators block.signatures) := by
  rw [signatureEntries, foldlM_addSignatureEntry zeroSignature block hwf.addresses le_rfl hwf.signatures,
    List.take_of_length_le (by simp)]

/-- A header field's proof opens it at its position of the header tree against the header hash. -/
structure OpensAt (headerFields : List (List Nat)) (index : Nat) (q : InclusionProof) : Prop where
  encLeaf : headerFields[index]? = some q.encLeaf
  path : q.path = getPathIndices index HEADER_FIELDS
  root : computeHashFromAunts (tendermintHasher sha) index HEADER_FIELDS
    ((tendermintHasher sha).leafHash q.encLeaf) q.proof = some (headerHash sha headerFields)

theorem headerInclusionProof_opensAt {headerFields : List (List Nat)}
    (hlen : headerFields.length = HEADER_FIELDS) {index : Nat} (hi : index < HEADER_FIELDS) :
    ∃ q, headerInclusionProof headerFields (proofsFromByteSlices (tendermintHasher sha)
        headerFields).2 HEADER_FIELDS index = some q ∧ OpensAt sha headerFields index q := by
  have hne : headerFields ≠ [] := List.ne_nil_of_length_pos (by rw [hlen]; exact hi.trans_le' (by omega))
  obtain ⟨p, hp, htot, -, hleaf, hroot⟩ :=
    proofsFromByteSlices_proof (tendermintHasher sha) hne (show index < _ by omega)
  have hfield : headerFields[index]? = some headerFields[index] := List.getElem?_eq_getElem _
  refine ⟨_, by rw [headerInclusionProof, hp, hfield]; rfl, hfield, rfl, ?_⟩
  show computeHashFromAunts _ index HEADER_FIELDS _ p.aunts = _
  rw [← hleaf, ← hlen, hroot, proofsFromByteSlices_root _ hne]
  rfl

/-- What `generate_step_inputs` returns for a block: the paired and padded entries, the header and
previous header hashes, and four proofs that open their fields. -/
structure StepInputsOf (block : SignedBlock σ) (p : CelestiaBlockProof σ) : Prop where
  validators : p.validators =
    List.zipWith (signatureEntry zeroSignature) block.validators block.signatures ++
      List.replicate (closestPowerOfTwo block.validators.length - block.signatures.length)
        (emptyEntry zeroKey zeroSignature)
  header : p.header = digestBytes (headerHash sha block.headerFields)
  prevHeader : p.prevHeader = block.lastBlockIdHash
  dataHash : OpensAt sha block.headerFields DATA_HASH_INDEX p.dataHashProof
  validatorsHash : OpensAt sha block.headerFields VALIDATORS_HASH_INDEX p.validatorHashProof
  nextValidatorsHash :
    OpensAt sha block.headerFields NEXT_VALIDATORS_HASH_INDEX p.nextValidatorsHashProof
  lastBlockId : OpensAt sha block.headerFields LAST_BLOCK_ID_INDEX p.lastBlockIdProof
  roundPresent : p.roundPresent = decide (0 < block.round)

/-- On a well-formed block `generate_step_inputs` passes its own assertions and returns
`StepInputsOf`. -/
theorem generateStepInputs_spec {block : SignedBlock σ} (hwf : block.WellFormed) :
    ∃ p, generateStepInputs sha zeroKey zeroSignature block = some p ∧
      StepInputsOf sha zeroKey zeroSignature block p := by
  have hlen := hwf.headerFields
  have hne : block.headerFields ≠ [] := List.ne_nil_of_length_pos (by rw [hlen]; decide)
  have h4 : LAST_BLOCK_ID_INDEX < block.headerFields.length := by rw [hlen]; decide
  obtain ⟨p₀, hp₀, htot, -⟩ :=
    proofsFromByteSlices_proof (tendermintHasher sha) hne (show 0 < _ by rw [hlen]; decide)
  obtain ⟨p₄, hp₄, -, -, hleaf, hroot⟩ := proofsFromByteSlices_proof (tendermintHasher sha) hne h4
  rw [hleaf, hlen, proofsFromByteSlices_root _ hne] at hroot
  obtain ⟨qd, hqd, hod⟩ :=
    headerInclusionProof_opensAt sha hlen (show DATA_HASH_INDEX < HEADER_FIELDS by decide)
  obtain ⟨qv, hqv, hov⟩ :=
    headerInclusionProof_opensAt sha hlen (show VALIDATORS_HASH_INDEX < HEADER_FIELDS by decide)
  obtain ⟨qn, hqn, hon⟩ :=
    headerInclusionProof_opensAt sha hlen (show NEXT_VALIDATORS_HASH_INDEX < HEADER_FIELDS by decide)
  have hf4 : block.headerFields[LAST_BLOCK_ID_INDEX]? = some block.headerFields[LAST_BLOCK_ID_INDEX] :=
    List.getElem?_eq_getElem h4
  have hlast := hwf.lastBlockId
  rw [List.getD_eq_getElem _ _ h4] at hlast
  have hgen : generateStepInputs sha zeroKey zeroSignature block = some
      { validators := List.zipWith (signatureEntry zeroSignature) block.validators block.signatures ++
          List.replicate (closestPowerOfTwo block.validators.length - block.signatures.length)
            (emptyEntry zeroKey zeroSignature)
        header := digestBytes (headerHash sha block.headerFields)
        prevHeader := block.lastBlockIdHash
        dataHashProof := qd
        validatorHashProof := qv
        nextValidatorsHashProof := qn
        lastBlockIdProof := ⟨block.headerFields[LAST_BLOCK_ID_INDEX],
          getPathIndices LAST_BLOCK_ID_INDEX HEADER_FIELDS, p₄.aunts⟩
        roundPresent := decide (0 < block.round) } := by
    simp only [generateStepInputs, signatureEntries_eq zeroSignature hwf, hp₀, htot, hlen, hqd, hqv,
      hqn, hp₄, hf4, hroot, hlast, hleaf, headerHash, and_self, guard_true, Option.bind_eq_bind,
      Option.some_bind, Option.pure_def]
  exact ⟨_, hgen, rfl, rfl, rfl, hod, hov, hon, ⟨hf4, rfl, hroot⟩, rfl⟩

end BlobstreamX.Inputs
