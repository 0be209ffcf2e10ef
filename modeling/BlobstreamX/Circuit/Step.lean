import BlobstreamX.Circuit.Header
import BlobstreamX.Circuit.Validator

namespace BlobstreamX.Circuit

open BlobstreamX.Merkle

/-- Where the hash starts in a protobuf-encoded hash or block id. -/
def HASH_START_BYTE : Nat := 2

/-- A validator's part of the witness (`ValidatorTarget`), its signature of type `σ`. -/
structure ValidatorWitness (σ : Type) where
  pubkey : List Bool
  signature : σ
  message : List Bool
  messageBitLength : Nat
  votingPower : I64
  validatorByteLength : Nat
  enabled : Bool
  signed : Bool

/-- `HashInclusionProofTarget` and `BlockIDInclusionProofTarget`. `step` reads no path from the
witness: it fixes each field's path. -/
structure InclusionProof where
  encLeaf : List Bool
  path : List Bool
  proof : List (List Bool)

structure CelestiaBlockProof (σ : Type) where
  validators : List (ValidatorWitness σ)
  header : List Bool
  prevHeader : List Bool
  dataHashProof : InclusionProof
  validatorHashProof : InclusionProof
  nextValidatorsHashProof : InclusionProof
  lastBlockIdProof : InclusionProof
  roundPresent : Bool

/-- The sizes of the circuit's arrays; `PROTOBUF_BLOCK_ID_SIZE_BITS` is defined outside the
repository and left free. -/
structure CelestiaBlockProof.WellSized {σ : Type} (N : Nat) (w : CelestiaBlockProof σ) : Prop where
  validators : w.validators.length = N
  pubkey : ∀ v ∈ w.validators, v.pubkey.length = PUBKEY_BYTES_LEN * 8
  message : ∀ v ∈ w.validators, v.message.length = VALIDATOR_MESSAGE_BYTES_LENGTH_MAX * 8
  header : w.header.length = HASH_SIZE_BITS
  prevHeader : w.prevHeader.length = HASH_SIZE_BITS
  encLeaf : ∀ p ∈ [w.dataHashProof, w.validatorHashProof, w.nextValidatorsHashProof],
    p.encLeaf.length = PROTOBUF_HASH_SIZE_BITS
  proof : ∀ p ∈ [w.dataHashProof, w.validatorHashProof, w.nextValidatorsHashProof,
      w.lastBlockIdProof], p.path.length = HEADER_PROOF_DEPTH ∧
    p.proof.length = HEADER_PROOF_DEPTH ∧ ∀ a ∈ p.proof, a.length = HASH_SIZE_BITS

/-- `extract_hash_from_protobuf::<HASH_START_BYTE, _>`: the bits from byte `HASH_START_BYTE` on. -/
def extractHashFromProtobuf (encLeaf : List Bool) : List Bool :=
  (encLeaf.drop (HASH_START_BYTE * 8)).take HASH_SIZE_BITS

def resizeMessage (message : List Bool) : List Bool :=
  message.take (VALIDATOR_MESSAGE_BYTES_LENGTH_MAX * 8) ++
    List.replicate (VALIDATOR_MESSAGE_BYTES_LENGTH_MAX * 8 - message.length) false

variable {σ : Type} (sha : List Bool → Digest) (validSig : List Bool → List Bool → Nat → σ → Bool)

/-- `verify_signatures`: every validator marked signed has a valid signature over its message. -/
def verifySignatures (validators : List (ValidatorWitness σ)) : Bool :=
  validators.all fun v =>
    !v.signed || validSig v.pubkey (resizeMessage v.message) v.messageBitLength v.signature

/-- `leaf_hash` of an encoded header field, then `get_root_from_merkle_proof` along `path`. -/
def headerFromProof (p : InclusionProof) (path : List Bool) : Option (List Bool) :=
  getRootFromMerkleProof (sha256Hasher sha) p.proof path ((sha256Hasher sha).leafHash p.encLeaf)

/-- `TendermintStep::step`: `some ()` exactly when the witness satisfies every constraint. -/
def step (validatorSetSizeMax : Nat) (w : CelestiaBlockProof σ) : Option Unit := do
  let validators := w.validators
  let marshalledValidators ← validators.mapM fun v =>
    marshalTendermintValidator v.pubkey v.votingPower
  let validatorsHash ← hashValidatorSet sha validatorSetSizeMax marshalledValidators
    (validators.map (·.validatorByteLength)) (validators.map (·.enabled))
  let validatorVotingPower := validators.map (·.votingPower)
  let totalVotingPower ← getTotalVotingPower validatorVotingPower
  let checkVotingPowerBool ← checkVotingPower validatorVotingPower
    ((validators.map (·.enabled)).map enabledU32) totalVotingPower 2 3
  guard (validatorsHash = extractHashFromProtobuf w.validatorHashProof.encLeaf ∧
    checkVotingPowerBool = true ∧ verifySignatures validSig validators = true ∧
    (validators.all fun v => hashInMessage v.message w.header w.roundPresent == v.signed) = true ∧
    headerFromProof sha w.dataHashProof dataHashPath = some w.header ∧
    headerFromProof sha w.validatorHashProof valHashPath = some w.header ∧
    headerFromProof sha w.nextValidatorsHashProof nextValHashPath = some w.header ∧
    headerFromProof sha w.lastBlockIdProof lastBlockIdPath = some w.header ∧
    w.prevHeader = extractHashFromProtobuf w.lastBlockIdProof.encLeaf)

/-- What `step` asks of a witness, one field per group of constraints. -/
structure StepAccepted (N : Nat) (w : CelestiaBlockProof σ) : Prop where
  validatorsHash : ∃ ms, (w.validators.mapM fun v =>
      marshalTendermintValidator v.pubkey v.votingPower) = some ms ∧
    hashValidatorSet sha N ms (w.validators.map (·.validatorByteLength))
      (w.validators.map (·.enabled)) = some (extractHashFromProtobuf w.validatorHashProof.encLeaf)
  votingPower : ∃ total, getTotalVotingPower (w.validators.map (·.votingPower)) = some total ∧
    checkVotingPower (w.validators.map (·.votingPower))
      ((w.validators.map (·.enabled)).map enabledU32) total 2 3 = some true
  signatures : verifySignatures validSig w.validators = true
  signed : ∀ v ∈ w.validators, hashInMessage v.message w.header w.roundPresent = v.signed
  dataHash : headerFromProof sha w.dataHashProof dataHashPath = some w.header
  validatorsHashIncluded : headerFromProof sha w.validatorHashProof valHashPath = some w.header
  nextValidatorsHash : headerFromProof sha w.nextValidatorsHashProof nextValHashPath = some w.header
  lastBlockId : headerFromProof sha w.lastBlockIdProof lastBlockIdPath = some w.header
  prevHeader : w.prevHeader = extractHashFromProtobuf w.lastBlockIdProof.encLeaf

theorem step_eq_some_iff (N : Nat) (w : CelestiaBlockProof σ) :
    step sha validSig N w = some () ↔ StepAccepted sha validSig N w := by
  simp only [step, Option.bind_eq_bind, Option.bind_eq_some, Option.guard_eq_some', exists_const,
    exists_and_left, List.all_eq_true, beq_iff_eq]
  constructor
  · rintro ⟨ms, hm, _, hv, total, ht, _, hc, rfl, rfl, hs, hh, hd, hvi, hn, hl, hp⟩
    exact ⟨⟨ms, hm, hv⟩, ⟨total, ht, hc⟩, hs, hh, hd, hvi, hn, hl, hp⟩
  · rintro ⟨⟨ms, hm, hv⟩, ⟨total, ht, hc⟩, hs, hh, hd, hvi, hn, hl, hp⟩
    exact ⟨ms, hm, _, hv, total, ht, _, hc, rfl, rfl, hs, hh, hd, hvi, hn, hl, hp⟩

/-- The voting power of all validators, of the enabled ones, and of those enabled and signed. -/
def totalPower (validators : List (ValidatorWitness σ)) : Nat :=
  ((validators.map (·.votingPower)).map I64.val).sum

def enabledPower (validators : List (ValidatorWitness σ)) : Nat :=
  enabledVotingPower (validators.map (·.votingPower)) (validators.map (·.enabled))

def signedPower (validators : List (ValidatorWitness σ)) : Nat :=
  enabledVotingPower (validators.map (·.votingPower)) (validators.map fun v => v.enabled && v.signed)

theorem supermajority_of_checkVotingPower {vps : List I64} {en : List Bool} {total : I64}
    (ht : getTotalVotingPower vps = some total)
    (hc : checkVotingPower vps (en.map enabledU32) total 2 3 = some true) :
    2 * (vps.map I64.val).sum ≤ 3 * enabledVotingPower vps en := by
  rw [getTotalVotingPower_eq, I64.ofNat?_eq_some_iff] at ht
  rw [checkVotingPower_enabledU32] at hc
  split_ifs at hc
  simpa only [Option.some.injEq, decide_eq_true_eq, ht] using hc

variable {validSig} {N : Nat} {w : CelestiaBlockProof σ}

/-- `0x0a 0x20 ‖ hash`: a hash as the protobuf field that a header leaf encodes. -/
def protobufHash (hash : List Bool) : List Bool := bytesBits [10, 32] ++ hash

theorem extractHashFromProtobuf_protobufHash {hash : List Bool} (h : hash.length = HASH_SIZE_BITS) :
    extractHashFromProtobuf (protobufHash hash) = hash := by
  rw [extractHashFromProtobuf, protobufHash, List.drop_append_of_le_length (by rfl),
    List.drop_eq_nil_of_le (by rfl), List.nil_append, List.take_of_length_le h.le]

theorem hashInMessage_complement {headerHash : List Bool} (hne : headerHash ≠ [])
    (post : List Bool) :
    hashInMessage (List.replicate (16 * 8) false ++ headerHash.map (!·) ++ post) headerHash false =
      false := by
  obtain ⟨b, t, rfl⟩ := List.exists_cons_of_ne_nil hne
  have hw : (List.replicate (16 * 8) false ++ (b :: t).map (!·) ++ post).getD (16 * 8 + 0) false =
      !b := by
    rw [List.append_assoc, List.getD_append_right _ _ _ _ (by simp)]
    simp
  rw [hashInMessage, List.all_eq_false]
  refine ⟨0, List.mem_range.2 (by decide), ?_⟩
  show ¬((b :: t).getD 0 false ==
    (List.replicate (16 * 8) false ++ (b :: t).map (!·) ++ post).getD (16 * 8 + 0) false) = true
  rw [hw]
  cases b <;> exact Bool.false_ne_true

/-- A validator of power one, enabled and not signed, whose message holds the complement of
`header` where the header hash belongs. -/
def unsignedValidator [Inhabited σ] (header : List Bool) : ValidatorWitness σ where
  pubkey := List.replicate (PUBKEY_BYTES_LEN * 8) false
  signature := default
  message := List.replicate (16 * 8) false ++ header.map (!·) ++
    List.replicate (VALIDATOR_MESSAGE_BYTES_LENGTH_MAX * 8 - 16 * 8 - HASH_SIZE_BITS) false
  messageBitLength := VALIDATOR_MESSAGE_BYTES_LENGTH_MAX * 8
  votingPower := ⟨1, 0⟩
  validatorByteLength := VALIDATOR_BYTE_LENGTH_MIN
  enabled := true
  signed := false

def unsignedMarshalled : List Bool :=
  (marshalTendermintValidator (List.replicate (PUBKEY_BYTES_LEN * 8) false) ⟨1, 0⟩).getD []

def unsignedValidatorsHash : List Bool :=
  merkleRoot (sha256Hasher sha) (List.replicate 4
    ((sha256Hasher sha).leafHash (unsignedMarshalled.take (VALIDATOR_BYTE_LENGTH_MIN * 8))))

def unsignedField : List Bool := protobufHash (unsignedValidatorsHash sha)

def unsignedSubtree : Nat → List Bool
  | 0 => (sha256Hasher sha).leafHash (unsignedField sha)
  | k + 1 => (sha256Hasher sha).innerHash (unsignedSubtree k) (unsignedSubtree k)

/-- The header tree of fourteen copies of the encoded validator-set hash: eight beside six. -/
def unsignedHeader : List Bool :=
  (sha256Hasher sha).innerHash (unsignedSubtree sha 3)
    ((sha256Hasher sha).innerHash (unsignedSubtree sha 2) (unsignedSubtree sha 1))

/-- A block of four unsigned validators over that header. -/
def unsignedBlock [Inhabited σ] : CelestiaBlockProof σ :=
  let aunts := [unsignedSubtree sha 0, unsignedSubtree sha 1, unsignedSubtree sha 2,
    (sha256Hasher sha).innerHash (unsignedSubtree sha 2) (unsignedSubtree sha 1)]
  { validators := List.replicate 4 (unsignedValidator (unsignedHeader sha))
    header := unsignedHeader sha
    prevHeader := unsignedValidatorsHash sha
    dataHashProof := ⟨unsignedField sha, dataHashPath, aunts⟩
    validatorHashProof := ⟨unsignedField sha, valHashPath, aunts⟩
    nextValidatorsHashProof := ⟨unsignedField sha, nextValHashPath,
      [unsignedSubtree sha 0, unsignedSubtree sha 1, unsignedSubtree sha 1, unsignedSubtree sha 3]⟩
    lastBlockIdProof := ⟨unsignedField sha, lastBlockIdPath, aunts⟩
    roundPresent := false }

theorem length_unsignedValidatorsHash : (unsignedValidatorsHash sha).length = HASH_SIZE_BITS :=
  length_merkleRoot_sha256Hasher sha (by simp)

theorem length_unsignedSubtree (k : Nat) : (unsignedSubtree sha k).length = HASH_SIZE_BITS := by
  cases k <;> simp [unsignedSubtree]

theorem length_unsignedHeader : (unsignedHeader sha).length = HASH_SIZE_BITS := by
  simp [unsignedHeader]

theorem unsignedBlock_wellSized [Inhabited σ] : (unsignedBlock (σ := σ) sha).WellSized 4 := by
  refine ⟨rfl, fun v hv => ?_, fun v hv => ?_, by simp [unsignedBlock, length_unsignedHeader],
    length_unsignedValidatorsHash sha, ?_, ?_⟩
  · rw [List.eq_of_mem_replicate hv]
    exact List.length_replicate _ _
  · rw [List.eq_of_mem_replicate hv]
    simp only [unsignedValidator, List.length_append, List.length_replicate, List.length_map,
      length_unsignedHeader]
    rfl
  · simp [unsignedBlock, unsignedField, protobufHash, length_unsignedValidatorsHash,
      PROTOBUF_HASH_SIZE_BITS, HASH_SIZE_BITS]
  · simp [unsignedBlock, length_unsignedSubtree, HEADER_PROOF_DEPTH, dataHashPath, valHashPath,
      nextValHashPath, lastBlockIdPath]

theorem unsignedBlock_openings [Inhabited σ] :
    headerFromProof sha (unsignedBlock (σ := σ) sha).dataHashProof dataHashPath =
        some (unsignedBlock (σ := σ) sha).header ∧
      headerFromProof sha (unsignedBlock (σ := σ) sha).validatorHashProof valHashPath =
        some (unsignedBlock (σ := σ) sha).header ∧
      headerFromProof sha (unsignedBlock (σ := σ) sha).nextValidatorsHashProof nextValHashPath =
        some (unsignedBlock (σ := σ) sha).header ∧
      headerFromProof sha (unsignedBlock (σ := σ) sha).lastBlockIdProof lastBlockIdPath =
        some (unsignedBlock (σ := σ) sha).header := by
  have h₀ : (sha256Hasher sha).leafHash (unsignedField sha) = unsignedSubtree sha 0 := rfl
  have hs : ∀ k, (sha256Hasher sha).innerHash (unsignedSubtree sha k) (unsignedSubtree sha k) =
      unsignedSubtree sha (k + 1) := fun _ => rfl
  simp only [headerFromProof, unsignedBlock, getRootFromMerkleProof, dataHashPath, valHashPath,
    nextValHashPath, lastBlockIdPath, h₀, hs, reduceIte, Bool.false_eq_true]
  exact ⟨rfl, rfl, rfl, rfl⟩

theorem unsignedBlock_accepted [Inhabited σ] :
    StepAccepted sha validSig 4 (unsignedBlock (σ := σ) sha) := by
  have hvs : (unsignedBlock (σ := σ) sha).validators =
      List.replicate 4 (unsignedValidator (unsignedHeader sha)) := rfl
  have hmar : (List.replicate 4 (unsignedValidator (σ := σ) (unsignedHeader sha))).mapM
      (fun v => marshalTendermintValidator v.pubkey v.votingPower) =
      some (List.replicate 4 unsignedMarshalled) := by
    have h₁ : marshalTendermintValidator (unsignedValidator (σ := σ) (unsignedHeader sha)).pubkey
        (unsignedValidator (σ := σ) (unsignedHeader sha)).votingPower =
        some unsignedMarshalled := by
      show marshalTendermintValidator (List.replicate (PUBKEY_BYTES_LEN * 8) false) ⟨1, 0⟩ = _
      unfold unsignedMarshalled
      rfl
    simp only [List.replicate, List.mapM_cons, List.mapM_nil, h₁, Option.bind_eq_bind,
      Option.some_bind, Option.pure_def]
  have hprev := extractHashFromProtobuf_protobufHash (length_unsignedValidatorsHash sha)
  have hleaves : hashValidatorLeaves sha (2 ^ 2) (List.replicate 4 unsignedMarshalled)
      (List.replicate 4 VALIDATOR_BYTE_LENGTH_MIN) = some (List.replicate 4
        ((sha256Hasher sha).leafHash (unsignedMarshalled.take (VALIDATOR_BYTE_LENGTH_MIN * 8)))) :=
    rfl
  obtain ⟨hd, hvi, hn, hl⟩ := unsignedBlock_openings (σ := σ) sha
  refine ⟨⟨List.replicate 4 unsignedMarshalled, by rw [hvs]; exact hmar, ?_⟩,
    ⟨⟨4, 0⟩, by simp only [hvs, List.map_replicate, unsignedValidator]; decide,
      by simp only [hvs, List.map_replicate, unsignedValidator]; decide⟩, rfl, fun v hv => ?_, hd, hvi, hn, hl,
    hprev.symm⟩
  · exact (hashValidatorSet_all_enabled sha rfl rfl hleaves).trans (congrArg some hprev.symm)
  · rw [hvs] at hv
    rw [List.eq_of_mem_replicate hv]
    simp only [unsignedBlock, unsignedValidator]
    exact hashInMessage_complement
      (List.ne_nil_of_length_pos (by rw [length_unsignedHeader]; decide)) _

theorem unsignedBlock_header [Inhabited σ] :
    (unsignedBlock (σ := σ) sha).header = simpleHashFromByteVectors (sha256Hasher sha)
      (List.replicate HEADER_FIELDS (unsignedBlock (σ := σ) sha).validatorHashProof.encLeaf) := by
  have s14 : getSplitPoint 14 = 8 :=
    getSplitPoint_eq_of_isSplit ⟨⟨3, rfl⟩, by decide, by decide⟩
  have s6 : getSplitPoint 6 = 4 := getSplitPoint_eq_of_isSplit ⟨⟨2, rfl⟩, by decide, by decide⟩
  have s8 : getSplitPoint 8 = 4 := getSplitPoint_two_pow 2
  have s4 : getSplitPoint 4 = 2 := getSplitPoint_two_pow 1
  have s2 : getSplitPoint 2 = 1 := getSplitPoint_two_pow 0
  simp (disch := simp) only [simpleHashFromByteVectors, List.map_replicate, HEADER_FIELDS,
    merkleRoot_of_two_le, List.length_replicate, s14, s8, s6, s4, s2, List.take_replicate,
    List.drop_replicate, List.replicate_one, merkleRoot_singleton, Nat.reduceSub, Nat.min_def,
    Nat.reduceLeDiff, if_true]
  rfl

/-- `step` never weighs the signed validators: for every hash and signature scheme it accepts a
block of four enabled validators of which none signed. -/
theorem step_accepts_unsigned_block [Inhabited σ] :
    ∃ w : CelestiaBlockProof σ, step sha validSig 4 w = some () ∧ w.WellSized 4 ∧
      w.header = simpleHashFromByteVectors (sha256Hasher sha)
        (List.replicate HEADER_FIELDS w.validatorHashProof.encLeaf) ∧
      (∀ v ∈ w.validators, v.enabled = true ∧ v.signed = false) ∧
      3 * signedPower w.validators < 2 * enabledPower w.validators := by
  refine ⟨unsignedBlock sha, (step_eq_some_iff sha validSig 4 _).mpr (unsignedBlock_accepted sha),
    unsignedBlock_wellSized sha, unsignedBlock_header sha, fun v hv => ?_, ?_⟩
  · rw [show (unsignedBlock (σ := σ) sha).validators = List.replicate 4 _ from rfl] at hv
    rw [List.eq_of_mem_replicate hv]
    exact ⟨rfl, rfl⟩
  · show 3 * 0 < 2 * 4
    decide

/-- The enabled validators hold two thirds of the power of all validators, signed or not. -/
theorem StepAccepted.enabled_supermajority (h : StepAccepted sha validSig N w) :
    2 * totalPower w.validators ≤ 3 * enabledPower w.validators := by
  obtain ⟨total, ht, hc⟩ := h.votingPower
  exact supermajority_of_checkVotingPower ht hc

theorem StepAccepted.enabled_supermajority_unsignedBlock :
    StepAccepted lengthDigest (fun _ _ _ (_ : Unit) => true) 4 (unsignedBlock lengthDigest) ∧
      2 * totalPower (unsignedBlock (σ := Unit) lengthDigest).validators ≤
        3 * enabledPower (unsignedBlock (σ := Unit) lengthDigest).validators :=
  have h : StepAccepted lengthDigest (fun _ _ _ (_ : Unit) => true) 4
      (unsignedBlock lengthDigest) := unsignedBlock_accepted _
  ⟨h, StepAccepted.enabled_supermajority _ h⟩

theorem computeHashFromAunts_of_headerFromProof {idx : Nat} {path : List Bool} {p : InclusionProof}
    {R : List Bool} (hidx : idx < HEADER_FIELDS) (hpath : leafPath idx HEADER_FIELDS = path)
    (hlen : p.proof.length = path.length) (h : headerFromProof sha p path = some R) :
    computeHashFromAunts (sha256Hasher sha) idx HEADER_FIELDS
      ((sha256Hasher sha).leafHash p.encLeaf) p.proof = some R :=
  (computeHashFromAunts_eq_some_iff _ hidx _ _ _).mpr ⟨hpath ▸ hlen, hpath ▸ h⟩

/-- In an accepted block of the circuit's sizes, each opened field sits at its own position of
the 14-leaf header tree whose root is the header. -/
theorem StepAccepted.fields_in_header (h : StepAccepted sha validSig N w) (hs : w.WellSized N) :
    computeHashFromAunts (sha256Hasher sha) DATA_HASH_INDEX HEADER_FIELDS
        ((sha256Hasher sha).leafHash w.dataHashProof.encLeaf) w.dataHashProof.proof =
      some w.header ∧
    computeHashFromAunts (sha256Hasher sha) VALIDATORS_HASH_INDEX HEADER_FIELDS
        ((sha256Hasher sha).leafHash w.validatorHashProof.encLeaf) w.validatorHashProof.proof =
      some w.header ∧
    computeHashFromAunts (sha256Hasher sha) NEXT_VALIDATORS_HASH_INDEX HEADER_FIELDS
        ((sha256Hasher sha).leafHash w.nextValidatorsHashProof.encLeaf)
        w.nextValidatorsHashProof.proof = some w.header ∧
    computeHashFromAunts (sha256Hasher sha) LAST_BLOCK_ID_INDEX HEADER_FIELDS
        ((sha256Hasher sha).leafHash w.lastBlockIdProof.encLeaf) w.lastBlockIdProof.proof =
      some w.header :=
  ⟨computeHashFromAunts_of_headerFromProof sha (by decide) leafPath_dataHash
      (hs.proof _ (by simp)).2.1 h.dataHash,
    computeHashFromAunts_of_headerFromProof sha (by decide) leafPath_validatorsHash
      (hs.proof _ (by simp)).2.1 h.validatorsHashIncluded,
    computeHashFromAunts_of_headerFromProof sha (by decide) leafPath_nextValidatorsHash
      (hs.proof _ (by simp)).2.1 h.nextValidatorsHash,
    computeHashFromAunts_of_headerFromProof sha (by decide) leafPath_lastBlockId
      (hs.proof _ (by simp)).2.1 h.lastBlockId⟩

theorem StepAccepted.fields_in_header_unsignedBlock :
    StepAccepted lengthDigest (fun _ _ _ (_ : Unit) => true) 4 (unsignedBlock lengthDigest) ∧
    (unsignedBlock (σ := Unit) lengthDigest).WellSized 4 ∧
    computeHashFromAunts (sha256Hasher lengthDigest) DATA_HASH_INDEX HEADER_FIELDS
        ((sha256Hasher lengthDigest).leafHash
          (unsignedBlock (σ := Unit) lengthDigest).dataHashProof.encLeaf)
        (unsignedBlock (σ := Unit) lengthDigest).dataHashProof.proof =
      some (unsignedBlock (σ := Unit) lengthDigest).header ∧
    computeHashFromAunts (sha256Hasher lengthDigest) VALIDATORS_HASH_INDEX HEADER_FIELDS
        ((sha256Hasher lengthDigest).leafHash
          (unsignedBlock (σ := Unit) lengthDigest).validatorHashProof.encLeaf)
        (unsignedBlock (σ := Unit) lengthDigest).validatorHashProof.proof =
      some (unsignedBlock (σ := Unit) lengthDigest).header ∧
    computeHashFromAunts (sha256Hasher lengthDigest) NEXT_VALIDATORS_HASH_INDEX HEADER_FIELDS
        ((sha256Hasher lengthDigest).leafHash
          (unsignedBlock (σ := Unit) lengthDigest).nextValidatorsHashProof.encLeaf)
        (unsignedBlock (σ := Unit) lengthDigest).nextValidatorsHashProof.proof =
      some (unsignedBlock (σ := Unit) lengthDigest).header ∧
    computeHashFromAunts (sha256Hasher lengthDigest) LAST_BLOCK_ID_INDEX HEADER_FIELDS
        ((sha256Hasher lengthDigest).leafHash
          (unsignedBlock (σ := Unit) lengthDigest).lastBlockIdProof.encLeaf)
        (unsignedBlock (σ := Unit) lengthDigest).lastBlockIdProof.proof =
      some (unsignedBlock (σ := Unit) lengthDigest).header :=
  have h : StepAccepted lengthDigest (fun _ _ _ (_ : Unit) => true) 4
      (unsignedBlock lengthDigest) := unsignedBlock_accepted _
  ⟨h, unsignedBlock_wellSized _, StepAccepted.fields_in_header _ h (unsignedBlock_wellSized _)⟩

end BlobstreamX.Circuit
