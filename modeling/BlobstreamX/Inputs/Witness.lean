import BlobstreamX.Inputs.Generate
import Mathlib.Algebra.Order.BigOperators.Group.List

namespace BlobstreamX.Inputs

open BlobstreamX.Merkle BlobstreamX.Circuit

/-- `for i in 0..n { pw.set_bool_target(targets[i], values[i]) }`: reading past `values` panics. -/
def setTargets {α : Type} (n : Nat) (values : List α) : Option (List α) :=
  if n ≤ values.length then some (values.take n) else none

variable {σ : Type}

/-- The values the test gives one validator's targets: the message's bits padded with `false`, and
the voting power's low and high 32 bits (`as u32`). -/
def validatorTargets (v : Validator σ) : ValidatorWitness σ where
  pubkey := bytesBits v.pubkey
  signature := v.signature
  message := bytesBits v.message ++
    List.replicate (VALIDATOR_MESSAGE_BYTES_LENGTH_MAX * 8 - (bytesBits v.message).length) false
  messageBitLength := v.messageBitLength
  votingPower := ⟨⟨v.votingPower % 2 ^ 32, Nat.mod_lt _ (by decide)⟩,
    ⟨v.votingPower / 2 ^ 32 % 2 ^ 32, Nat.mod_lt _ (by decide)⟩⟩
  validatorByteLength := v.validatorByteLength
  enabled := v.enabled
  signed := v.signed

/-- Setting one validator's targets: a message longer than its target panics. -/
def assignValidator (v : Validator σ) : Option (ValidatorWitness σ) :=
  if (bytesBits v.message).length ≤ VALIDATOR_MESSAGE_BYTES_LENGTH_MAX * 8 then
    some (validatorTargets v)
  else none

def assignInclusionProof (encLeafBits : Nat) (p : InclusionProof) :
    Option Circuit.InclusionProof := do
  let encLeaf ← setTargets encLeafBits (bytesBits p.encLeaf)
  let path ← setTargets HEADER_PROOF_DEPTH p.path
  let proof ← setTargets HEADER_PROOF_DEPTH p.proof
  pure ⟨encLeaf, path, proof.map digestBits⟩

/-- The assignment of `test_step_template` for `VALIDATOR_SET_SIZE_MAX = validatorSetSizeMax`, the
block id leaf being `blockIdSizeBits` bits long. -/
def assignStepInputs (validatorSetSizeMax blockIdSizeBits : Nat) (p : CelestiaBlockProof σ) :
    Option (Circuit.CelestiaBlockProof σ) := do
  let header ← setTargets HASH_SIZE_BITS (bytesBits p.header)
  let dataHashProof ← assignInclusionProof PROTOBUF_HASH_SIZE_BITS p.dataHashProof
  let validatorHashProof ← assignInclusionProof PROTOBUF_HASH_SIZE_BITS p.validatorHashProof
  let nextValidatorsHashProof ←
    assignInclusionProof PROTOBUF_HASH_SIZE_BITS p.nextValidatorsHashProof
  let lastBlockIdProof ← assignInclusionProof blockIdSizeBits p.lastBlockIdProof
  let validators ← (← setTargets validatorSetSizeMax p.validators).mapM assignValidator
  pure {
    validators := validators
    header := header
    prevHeader := extractHashFromProtobuf lastBlockIdProof.encLeaf
    dataHashProof := dataHashProof
    validatorHashProof := validatorHashProof
    nextValidatorsHashProof := nextValidatorsHashProof
    lastBlockIdProof := lastBlockIdProof
    roundPresent := p.roundPresent }

theorem setTargets_of_length {α : Type} {n : Nat} {values : List α} (h : values.length = n) :
    setTargets n values = some values := by
  rw [setTargets, if_pos h.ge, List.take_of_length_le h.le]

theorem bytesBits_take (bs : List Nat) (k : Nat) :
    (bytesBits bs).take (8 * k) = bytesBits (bs.take k) := by
  induction bs generalizing k with
  | nil => simp
  | cons b bs ih =>
    cases k with
    | zero => simp
    | succ k => simp [Nat.mul_succ, Nat.add_comm (8 * k), List.take_append_eq_append_take, ih]

theorem bytesBits_drop (bs : List Nat) (k : Nat) :
    (bytesBits bs).drop (8 * k) = bytesBits (bs.drop k) := by
  induction bs generalizing k with
  | nil => simp
  | cons b bs ih =>
    cases k with
    | zero => simp
    | succ k => simp [Nat.mul_succ, Nat.add_comm (8 * k), List.drop_append_eq_append_drop, ih]

@[simp] theorem length_validatorTargets_message (v : Validator σ) :
    (validatorTargets v).message.length =
      max (8 * v.message.length) (VALIDATOR_MESSAGE_BYTES_LENGTH_MAX * 8) := by
  simp only [validatorTargets, List.length_append, length_bytesBits, List.length_replicate]
  omega

theorem val_votingPower_validatorTargets (v : Validator σ) (h : v.votingPower < 2 ^ 64) :
    (validatorTargets v).votingPower.val = v.votingPower := by
  simp only [validatorTargets, I64.val]
  omega

theorem resizeMessage_validatorTargets (v : Validator σ)
    (h : 8 * v.message.length ≤ VALIDATOR_MESSAGE_BYTES_LENGTH_MAX * 8) :
    resizeMessage (validatorTargets v).message = resizeMessage (bytesBits v.message) := by
  have hlen := length_validatorTargets_message v
  rw [Nat.max_eq_right h] at hlen
  rw [resizeMessage, List.take_of_length_le hlen.le, hlen, Nat.sub_self, List.replicate_zero,
    List.append_nil, resizeMessage, List.take_of_length_le (by simpa using h), validatorTargets]

variable (sha : List Bool → Digest) (validSig : List Bool → List Bool → Nat → σ → Bool)

/-- A commit signature as `step` checks it: a vote for the block carries the header hash where
`verify_hash_in_message` looks, in sign bytes that fit the target, under a valid signature. -/
def VoteValid (header : Digest) (roundPresent : Bool) (v : ValidatorInfo) : CommitSig σ → Prop
  | .commit signature signBytes => signBytes.length ≤ VALIDATOR_MESSAGE_BYTES_LENGTH_MAX ∧
    (signBytes.drop (if roundPresent then 25 else 16)).take 32 = digestBytes header ∧
    validSig (bytesBits v.pubKey) (resizeMessage (bytesBits signBytes)) (signBytes.length * 8)
      signature = true
  | .nilOrAbsent => True

theorem StepInputsOf.length_validators {sha : List Bool → Digest} {zeroKey : List Nat}
    {zeroSignature : σ} {block : SignedBlock σ} {p : CelestiaBlockProof σ}
    (hp : StepInputsOf sha zeroKey zeroSignature block p) (hwf : block.WellFormed) :
    p.validators.length = closestPowerOfTwo block.validators.length := by
  have := le_closestPowerOfTwo block.validators.length
  have := hwf.signatures
  simp only [hp.validators, List.length_append, List.length_zipWith, List.length_replicate]
  omega

/-- What `step` needs of a block beyond the generator's needs: leaf sizes of the circuit, 32-byte
keys, three times the total power below `2 ^ 64`, a header hash not all zero, and valid votes. -/
structure SignedBlock.Committed (blockIdSizeBits : Nat) (block : SignedBlock σ) : Prop where
  hashFields : ∀ i ∈ [DATA_HASH_INDEX, VALIDATORS_HASH_INDEX, NEXT_VALIDATORS_HASH_INDEX],
    8 * (block.headerFields.getD i []).length = PROTOBUF_HASH_SIZE_BITS
  lastBlockId : 8 * (block.headerFields.getD LAST_BLOCK_ID_INDEX []).length = blockIdSizeBits
  pubKeys : ∀ v ∈ block.validators, v.pubKey.length = PUBKEY_BYTES_LEN
  power : 3 * (block.validators.map (·.power)).sum < 2 ^ 64
  header : headerHash sha block.headerFields ≠ fun _ => 0
  votes : ∀ p ∈ block.validators.zip block.signatures,
    VoteValid validSig (headerHash sha block.headerFields) (decide (0 < block.round)) p.1 p.2

/-- What `step` checks of one validator's targets, the header hash being `header`. -/
structure EntryAccepted (header : List Bool) (roundPresent : Bool) (v : ValidatorWitness σ) :
    Prop where
  signature :
    (!v.signed || validSig v.pubkey (resizeMessage v.message) v.messageBitLength v.signature) = true
  signed : hashInMessage v.message header roundPresent = v.signed
  pubkey : v.pubkey.length = PUBKEY_BYTES_LEN * 8
  message : v.message.length = VALIDATOR_MESSAGE_BYTES_LENGTH_MAX * 8

theorem hashInMessage_eq_decide {message headerHash : List Bool} (roundPresent : Bool)
    (hm : message.length = VALIDATOR_MESSAGE_BYTES_LENGTH_MAX * 8)
    (hh : headerHash.length = HASH_SIZE_BITS) :
    hashInMessage message headerHash roundPresent = decide (headerHash =
      (message.drop ((if roundPresent then 25 else 16) * 8)).take HASH_SIZE_BITS) := by
  simp only [VALIDATOR_MESSAGE_BYTES_LENGTH_MAX, HASH_SIZE_BITS] at hm hh
  unfold hashInMessage
  cases roundPresent <;> simp only [Bool.false_eq_true, if_false, if_true, HASH_SIZE_BITS]
  · exact all_range_getD_eq hh (by omega)
  · exact all_range_getD_eq hh (by omega)

@[simp] theorem votingPower_signatureEntry (zeroSignature : σ) (v : ValidatorInfo)
    (s : CommitSig σ) : (signatureEntry zeroSignature v s).votingPower = v.power := by
  cases s <;> rfl

theorem digestBits_zero : digestBits (fun _ => 0) = List.replicate HASH_SIZE_BITS false := by
  simp only [digestBits, digestBytes, List.ofFn_const, Fin.val_zero, bytesBits_replicate_zero]
  rfl

variable {sha validSig}

theorem EntryAccepted.commit (zeroSignature : σ) {v : ValidatorInfo} {signature : σ}
    {signBytes : List Nat} {header : Digest} {roundPresent : Bool}
    (hpk : v.pubKey.length = PUBKEY_BYTES_LEN)
    (hvote : VoteValid validSig header roundPresent v (.commit signature signBytes)) :
    EntryAccepted validSig (digestBits header) roundPresent
      (validatorTargets (signatureEntry zeroSignature v (.commit signature signBytes))) := by
  obtain ⟨hlen, hcarry, hsig⟩ := hvote
  have hfit : 8 * (signatureEntry zeroSignature v (.commit signature signBytes)).message.length ≤
      VALIDATOR_MESSAGE_BYTES_LENGTH_MAX * 8 := by
    simp only [signatureEntry, VALIDATOR_MESSAGE_BYTES_LENGTH_MAX] at hlen ⊢; omega
  have hmlen := length_validatorTargets_message
    (signatureEntry zeroSignature v (.commit signature signBytes))
  rw [Nat.max_eq_right hfit] at hmlen
  refine ⟨?_, ?_, by simp [validatorTargets, signatureEntry, hpk, Nat.mul_comm], hmlen⟩
  · rw [resizeMessage_validatorTargets _ hfit]
    exact hsig
  · rw [hashInMessage_eq_decide _ hmlen (length_digestBits _)]
    show decide (digestBits header = ((bytesBits signBytes ++ List.replicate
      (VALIDATOR_MESSAGE_BYTES_LENGTH_MAX * 8 - (bytesBits signBytes).length) false).drop
        ((if roundPresent then 25 else 16) * 8)).take HASH_SIZE_BITS) = true
    have hoff : (if roundPresent then 25 else 16) ≤ 25 := by split <;> omega
    generalize (if roundPresent then 25 else 16) = off at hoff hcarry ⊢
    have hsb : off + 32 ≤ signBytes.length := by
      have := congrArg List.length hcarry
      simp only [List.length_take, List.length_drop, length_digestBytes] at this
      omega
    rw [Nat.mul_comm off, List.drop_append_of_le_length (by simp; omega), bytesBits_drop,
      HASH_SIZE_BITS, List.take_append_of_le_length (by simp; omega), show 256 = 8 * 32 from rfl,
      bytesBits_take, hcarry]
    exact decide_eq_true rfl

/-- An entry that signed nothing passes `step`'s checks when the header hash is not all zero. -/
theorem EntryAccepted.unsigned {e : Validator σ} (hmsg : e.message = List.replicate 32 0)
    (hsigned : e.signed = false) (hpk : e.pubkey.length = PUBKEY_BYTES_LEN) {header : Digest}
    (hh : header ≠ fun _ => 0) (roundPresent : Bool) :
    EntryAccepted validSig (digestBits header) roundPresent (validatorTargets e) := by
  have hzero : (validatorTargets e).message =
      List.replicate (VALIDATOR_MESSAGE_BYTES_LENGTH_MAX * 8) false := by
    simp only [validatorTargets, hmsg, bytesBits_replicate_zero, List.length_replicate,
      List.append_replicate_replicate, VALIDATOR_MESSAGE_BYTES_LENGTH_MAX]
  refine ⟨by simp [validatorTargets, hsigned], ?_, by simp [validatorTargets, hpk, Nat.mul_comm],
    by rw [hzero, List.length_replicate]⟩
  rw [hashInMessage_eq_decide _ (by rw [hzero, List.length_replicate]) (length_digestBits _), hzero,
    List.drop_replicate, List.take_replicate, (show (validatorTargets e).signed = false from hsigned)]
  refine decide_eq_false fun heq => hh (digestBits_injective ?_)
  rw [heq, digestBits_zero]
  split <;> rfl

/-- With every disabled entry powerless, the voting-power constraints of `step` hold. -/
theorem votingPower_accepted {E : List (Validator σ)}
    (hsum : 3 * (E.map (·.votingPower)).sum < 2 ^ 64)
    (hdis : ∀ e ∈ E, e.enabled = false → e.votingPower = 0) :
    ∃ total, getTotalVotingPower ((E.map validatorTargets).map (·.votingPower)) = some total ∧
      checkVotingPower ((E.map validatorTargets).map (·.votingPower))
        (((E.map validatorTargets).map (·.enabled)).map enabledU32) total 2 3 = some true := by
  have hval : ∀ e ∈ E, (validatorTargets e).votingPower.val = e.votingPower := fun e he =>
    val_votingPower_validatorTargets e (by
      have : e.votingPower ≤ (E.map (·.votingPower)).sum :=
        List.le_sum_of_mem (List.mem_map_of_mem _ he)
      omega)
  have htotal : (((E.map validatorTargets).map (·.votingPower)).map I64.val).sum =
      (E.map (·.votingPower)).sum := by
    simp only [List.map_map]
    exact congrArg List.sum (List.map_congr_left hval)
  have henabled : enabledVotingPower ((E.map validatorTargets).map (·.votingPower))
      ((E.map validatorTargets).map (·.enabled)) = (E.map (·.votingPower)).sum := by
    rw [enabledVotingPower, List.zip_map', List.map_map, List.map_map]
    refine congrArg List.sum (List.map_congr_left fun e he => ?_)
    show (if e.enabled then (validatorTargets e).votingPower.val else 0) = e.votingPower
    cases hen : e.enabled
    · simp only [Bool.false_eq_true, if_false, hdis e he hen]
    · simp only [if_true, hval e he]
  obtain ⟨total, ht⟩ : ∃ total, I64.ofNat? (E.map (·.votingPower)).sum = some total :=
    Option.ne_none_iff_exists'.mp (by rw [Ne, I64.ofNat?_eq_none_iff]; omega)
  have htv := I64.ofNat?_eq_some_iff.mp ht
  refine ⟨total, by rw [getTotalVotingPower_eq, htotal, ht], ?_⟩
  have h2 : (2 : U32).val = 2 := rfl
  have h3 : (3 : U32).val = 3 := rfl
  rw [checkVotingPower_enabledU32, henabled, htv, h2, h3, if_pos (by omega)]
  simp only [Option.some.injEq, decide_eq_true_eq]
  omega

variable {zeroKey : List Nat} {zeroSignature : σ}

theorem mem_entries {block : SignedBlock σ} {k : Nat} {e : Validator σ}
    (he : e ∈ List.zipWith (signatureEntry zeroSignature) block.validators block.signatures ++
      List.replicate k (emptyEntry zeroKey zeroSignature)) :
    (∃ v s, (v, s) ∈ block.validators.zip block.signatures ∧ e = signatureEntry zeroSignature v s) ∨
      e = emptyEntry zeroKey zeroSignature := by
  rcases List.mem_append.mp he with he | he
  · rw [← List.map_uncurry_zip_eq_zipWith] at he
    obtain ⟨⟨v, s⟩, hvs, rfl⟩ := List.mem_map.mp he
    exact .inl ⟨v, s, hvs, rfl⟩
  · exact .inr (List.mem_replicate.mp he).2

theorem entries_accepted (zeroSignature : σ) {block : SignedBlock σ} {blockIdSizeBits k : Nat}
    (hc : block.Committed sha validSig blockIdSizeBits) (hzk : zeroKey.length = PUBKEY_BYTES_LEN) :
    ∀ e ∈ List.zipWith (signatureEntry zeroSignature) block.validators block.signatures ++
      List.replicate k (emptyEntry zeroKey zeroSignature),
    EntryAccepted validSig (digestBits (headerHash sha block.headerFields)) (decide (0 < block.round))
      (validatorTargets e) := by
  intro e he
  rcases mem_entries he with ⟨v, s, hvs, rfl⟩ | rfl
  · have hpk := hc.pubKeys v (List.of_mem_zip hvs).1
    cases s with
    | commit signature signBytes => exact EntryAccepted.commit zeroSignature hpk (hc.votes _ hvs)
    | nilOrAbsent => exact EntryAccepted.unsigned rfl rfl hpk hc.header _
  · exact EntryAccepted.unsigned rfl rfl hzk hc.header _

theorem sum_votingPower_zipWith_le (zeroSignature : σ) : ∀ (vals : List ValidatorInfo)
    (sigs : List (CommitSig σ)),
    ((List.zipWith (signatureEntry zeroSignature) vals sigs).map (·.votingPower)).sum ≤
      (vals.map (·.power)).sum
  | [], _ => by simp
  | _ :: _, [] => by simp
  | v :: vals, s :: sigs => by
    have := sum_votingPower_zipWith_le zeroSignature vals sigs
    simp only [List.zipWith_cons_cons, List.map_cons, List.sum_cons, votingPower_signatureEntry]
    omega

/-- Tendermint's hasher on bytes and the circuit's on bits agree through `to_be_bits`. -/
theorem sha256Hasher_innerHash_digestBits (a b : Digest) :
    (sha256Hasher sha).innerHash (digestBits a) (digestBits b) =
      digestBits ((tendermintHasher sha).innerHash a b) := by
  simp only [sha256Hasher, tendermintHasher, List.cons_append, bytesBits_cons, bytesBits_append,
    digestBits, List.append_assoc]

theorem sha256Hasher_leafHash_bytesBits (leaf : List Nat) :
    (sha256Hasher sha).leafHash (bytesBits leaf) = digestBits ((tendermintHasher sha).leafHash leaf) := by
  simp only [sha256Hasher_leafHash, tendermintHasher, bytesBits_cons]

theorem length_getPathIndices_header (index : Nat) :
    (getPathIndices index HEADER_FIELDS).length = HEADER_PROOF_DEPTH := by
  rw [length_getPathIndices]
  simp [HEADER_FIELDS, HEADER_PROOF_DEPTH, Nat.log2.eq_1]

theorem assignInclusionProof_opensAt {fields : List (List Nat)} {index : Nat}
    {q : InclusionProof} {path : List Bool} {bits : Nat} (hopen : OpensAt sha fields index q)
    (hidx : index < HEADER_FIELDS) (hpath : leafPath index HEADER_FIELDS = path)
    (hdepth : path.length = HEADER_PROOF_DEPTH) (hbits : 8 * q.encLeaf.length = bits) :
    ∃ q', assignInclusionProof bits q = some q' ∧ q'.encLeaf = bytesBits q.encLeaf ∧
      q'.path.length = HEADER_PROOF_DEPTH ∧ q'.proof.length = HEADER_PROOF_DEPTH ∧
      (∀ a ∈ q'.proof, a.length = HASH_SIZE_BITS) ∧
      headerFromProof sha q' path = some (digestBits (headerHash sha fields)) := by
  obtain ⟨haunts, hroot⟩ := (computeHashFromAunts_eq_some_iff _ hidx _ _ _).mp hopen.root
  rw [hpath] at haunts hroot
  have hq : assignInclusionProof bits q =
      some ⟨bytesBits q.encLeaf, q.path, q.proof.map digestBits⟩ := by
    rw [assignInclusionProof, setTargets_of_length (by rw [length_bytesBits, hbits]),
      setTargets_of_length (by rw [hopen.path, length_getPathIndices_header]),
      setTargets_of_length (haunts.trans hdepth)]
    rfl
  refine ⟨_, hq, rfl, by rw [hopen.path, length_getPathIndices_header],
    by rw [List.length_map, haunts, hdepth], by simp, ?_⟩
  simp only [headerFromProof, sha256Hasher_leafHash_bytesBits,
    getRootFromMerkleProof_map (tendermintHasher sha) digestBits sha256Hasher_innerHash_digestBits,
    hroot, Option.map_some']

theorem encLeaf_of_opensAt {fields : List (List Nat)} {index : Nat} {q : InclusionProof}
    (hopen : OpensAt sha fields index q) : fields.getD index [] = q.encLeaf := by
  rw [List.getD_eq_getElem?_getD, hopen.encLeaf]
  rfl

/-- The test's witness for a well-formed, committed block meets every constraint of `step` but the
validator-set hash. -/
theorem assignStepInputs_accepted {block : SignedBlock σ} {blockIdSizeBits : Nat}
    (hwf : block.WellFormed) (hc : block.Committed sha validSig blockIdSizeBits)
    (hzk : zeroKey.length = PUBKEY_BYTES_LEN) {p : CelestiaBlockProof σ}
    (hp : StepInputsOf sha zeroKey zeroSignature block p) :
    ∃ w, assignStepInputs (closestPowerOfTwo block.validators.length) blockIdSizeBits p = some w ∧
      w.WellSized (closestPowerOfTwo block.validators.length) ∧
      ((∃ ms, (w.validators.mapM fun v => marshalTendermintValidator v.pubkey v.votingPower) =
          some ms ∧ hashValidatorSet sha (closestPowerOfTwo block.validators.length) ms
            (w.validators.map (·.validatorByteLength)) (w.validators.map (·.enabled)) =
            some (extractHashFromProtobuf w.validatorHashProof.encLeaf)) →
        StepAccepted sha validSig (closestPowerOfTwo block.validators.length) w) := by
  set N := closestPowerOfTwo block.validators.length
  set E := List.zipWith (signatureEntry zeroSignature) block.validators block.signatures ++
    List.replicate (N - block.signatures.length) (emptyEntry zeroKey zeroSignature) with hE
  have hacc := entries_accepted zeroSignature (k := N - block.signatures.length) hc hzk
  have hlenE : E.length = N :=
    (congrArg List.length hp.validators).symm.trans (hp.length_validators hwf)
  have hmapM : E.mapM assignValidator = some (E.map validatorTargets) := by
    simpa using mapM_map_eq_some (h := id) (l := E) fun e he => by
      have hm := (hacc e he).message
      rw [length_validatorTargets_message] at hm
      rw [id, assignValidator, if_pos (by rw [length_bytesBits]; omega)]
  have hbits : ∀ {i q}, OpensAt sha block.headerFields i q →
      i ∈ [DATA_HASH_INDEX, VALIDATORS_HASH_INDEX, NEXT_VALIDATORS_HASH_INDEX] →
      8 * q.encLeaf.length = PROTOBUF_HASH_SIZE_BITS := fun ho hi => by
    rw [← encLeaf_of_opensAt ho]
    exact hc.hashFields _ hi
  obtain ⟨qd, hqd, hqde, hqdp, hqda, hqdl, hqdr⟩ := assignInclusionProof_opensAt hp.dataHash
    (by decide) leafPath_dataHash rfl (hbits hp.dataHash (by simp))
  obtain ⟨qv, hqv, hqve, hqvp, hqva, hqvl, hqvr⟩ := assignInclusionProof_opensAt
    hp.validatorsHash (by decide) leafPath_validatorsHash rfl (hbits hp.validatorsHash (by simp))
  obtain ⟨qn, hqn, hqne, hqnp, hqna, hqnl, hqnr⟩ := assignInclusionProof_opensAt
    hp.nextValidatorsHash (by decide) leafPath_nextValidatorsHash rfl
    (hbits hp.nextValidatorsHash (by simp))
  have hbitsl : 8 * p.lastBlockIdProof.encLeaf.length = blockIdSizeBits := by
    rw [← encLeaf_of_opensAt hp.lastBlockId]
    exact hc.lastBlockId
  obtain ⟨ql, hql, hqle, hqlp, hqla, hqll, hqlr⟩ := assignInclusionProof_opensAt
    hp.lastBlockId (by decide) leafPath_lastBlockId rfl hbitsl
  have hheader : setTargets HASH_SIZE_BITS (bytesBits p.header) =
      some (digestBits (headerHash sha block.headerFields)) := by
    rw [hp.header]
    exact setTargets_of_length (length_digestBits _)
  refine ⟨{ validators := E.map validatorTargets
            header := digestBits (headerHash sha block.headerFields)
            prevHeader := extractHashFromProtobuf ql.encLeaf
            dataHashProof := qd
            validatorHashProof := qv
            nextValidatorsHashProof := qn
            lastBlockIdProof := ql
            roundPresent := p.roundPresent }, ?_, ?_, fun hvh => ?_⟩
  · simp only [assignStepInputs, hheader, hqd, hqv, hqn, hql, hp.validators,
      setTargets_of_length hlenE, hmapM, Option.bind_eq_bind, Option.some_bind, Option.pure_def]
  · refine ⟨?_, ?_, ?_, ?_, ?_, ?_, ?_⟩ <;> dsimp only
    · simp [hlenE]
    · simp only [List.mem_map]
      rintro _ ⟨e, he, rfl⟩
      exact (hacc e he).pubkey
    · simp only [List.mem_map]
      rintro _ ⟨e, he, rfl⟩
      exact (hacc e he).message
    · exact length_digestBits _
    · have hlen4 := hwf.lastBlockId.1
      rw [encLeaf_of_opensAt hp.lastBlockId] at hlen4
      simp only [extractHashFromProtobuf, hqle, List.length_take, List.length_drop,
        length_bytesBits, HASH_START_BYTE, HASH_SIZE_BITS]
      omega
    · simp only [List.mem_cons, List.mem_singleton, List.not_mem_nil, or_false]
      rintro _ (rfl | rfl | rfl)
      · rw [hqde, length_bytesBits, hbits hp.dataHash (by simp)]
      · rw [hqve, length_bytesBits, hbits hp.validatorsHash (by simp)]
      · rw [hqne, length_bytesBits, hbits hp.nextValidatorsHash (by simp)]
    · simp only [List.mem_cons, List.mem_singleton, List.not_mem_nil, or_false]
      rintro _ (rfl | rfl | rfl | rfl)
      exacts [⟨hqdp, hqda, hqdl⟩, ⟨hqvp, hqva, hqvl⟩, ⟨hqnp, hqna, hqnl⟩, ⟨hqlp, hqla, hqll⟩]
  · have hsum : 3 * (E.map (·.votingPower)).sum < 2 ^ 64 := by
      have := sum_votingPower_zipWith_le zeroSignature block.validators block.signatures
      have := hc.power
      simp only [hE, List.map_append, List.sum_append, List.map_replicate, emptyEntry,
        List.sum_replicate, smul_eq_mul, Nat.mul_zero, Nat.add_zero]
      omega
    have hdis : ∀ e ∈ E, e.enabled = false → e.votingPower = 0 := by
      intro e he hen
      rcases mem_entries he with ⟨v, s, -, rfl⟩ | rfl
      · cases s <;> cases hen
      · rfl
    refine ⟨hvh, ?_, ?_, ?_, ?_, ?_, ?_, ?_, rfl⟩ <;> dsimp only
    · exact votingPower_accepted hsum hdis
    · refine List.all_eq_true.mpr ?_
      simp only [List.mem_map]
      rintro _ ⟨e, he, rfl⟩
      exact (hacc e he).signature
    · simp only [List.mem_map]
      rintro _ ⟨e, he, rfl⟩
      rw [show p.roundPresent = _ from hp.roundPresent]
      exact (hacc e he).signed
    exacts [hqdr, hqvr, hqnr, hqlr]

theorem assignStepInputs_eq_some {N bits : Nat} {p : CelestiaBlockProof σ}
    {w : Circuit.CelestiaBlockProof σ} (h : assignStepInputs N bits p = some w) :
    ∃ es, setTargets HASH_SIZE_BITS (bytesBits p.header) = some w.header ∧
      assignInclusionProof PROTOBUF_HASH_SIZE_BITS p.dataHashProof = some w.dataHashProof ∧
      assignInclusionProof PROTOBUF_HASH_SIZE_BITS p.validatorHashProof = some w.validatorHashProof ∧
      assignInclusionProof PROTOBUF_HASH_SIZE_BITS p.nextValidatorsHashProof =
        some w.nextValidatorsHashProof ∧
      assignInclusionProof bits p.lastBlockIdProof = some w.lastBlockIdProof ∧
      setTargets N p.validators = some es ∧ es.mapM assignValidator = some w.validators ∧
      w.prevHeader = extractHashFromProtobuf w.lastBlockIdProof.encLeaf ∧
      w.roundPresent = p.roundPresent := by
  simp only [assignStepInputs, Option.bind_eq_bind, Option.bind_eq_some, Option.pure_def,
    Option.some.injEq] at h
  obtain ⟨_, hh, _, hqd, _, hqv, _, hqn, _, hql, es, hes, _, hvs, rfl⟩ := h
  exact ⟨es, hh, hqd, hqv, hqn, hql, hes, hvs, rfl, rfl⟩

theorem setTargets_take {α : Type} {n N : Nat} {values es : List α}
    (h : setTargets N values = some es) (hn : n ≤ N) : setTargets n values = some (es.take n) := by
  unfold setTargets at h ⊢
  split at h <;> cases h
  rw [if_pos (by omega), List.take_take, Nat.min_eq_left hn]

theorem mapM_take {α β : Type} {f : α → Option β} :
    ∀ {l : List α} {ys : List β}, l.mapM f = some ys → ∀ n, (l.take n).mapM f = some (ys.take n)
  | [], _, h, n => by cases h; simp only [List.reverse_nil, List.take_nil, List.mapM_nil]; rfl
  | a :: l, ys, h, n => by
    rw [List.mapM_cons, Option.bind_eq_bind, Option.bind_eq_some] at h
    obtain ⟨b, hb, h⟩ := h
    rw [Option.bind_eq_bind, Option.bind_eq_some] at h
    obtain ⟨bs, hbs, h⟩ := h
    cases Option.some.inj h
    cases n with
    | zero => rfl
    | succ n =>
      rw [List.take_succ_cons, List.take_succ_cons, List.mapM_cons, hb, mapM_take hbs n]
      rfl

theorem assignStepInputs_take {N n bits : Nat} {p : CelestiaBlockProof σ}
    {w : Circuit.CelestiaBlockProof σ} (h : assignStepInputs N bits p = some w) (hn : n ≤ N) :
    assignStepInputs n bits p = some { w with validators := w.validators.take n } := by
  obtain ⟨es, hh, hqd, hqv, hqn, hql, hes, hvs, hprev, hround⟩ := assignStepInputs_eq_some h
  simp only [assignStepInputs, hh, hqd, hqv, hqn, hql, setTargets_take hes hn, mapM_take hvs n,
    Option.bind_eq_bind, Option.some_bind, Option.pure_def, hprev, hround]

variable (sha validSig zeroKey zeroSignature)

def commitFields : List (List Nat) := (List.range 14).map fun i => [10, 32] ++ List.replicate 32 i

/-- Sign bytes with the header hash at byte 16, where a vote without a round has it. -/
def commitVote : List Nat := List.replicate 16 0 ++ digestBytes (headerHash sha commitFields)

/-- Three validators of power 1 in four slots: the first and the last voted for the block. -/
def commitBlock : SignedBlock Unit where
  headerFields := commitFields
  lastBlockIdHash := List.replicate 32 4
  validators := [⟨[0], List.replicate 32 0, 1⟩, ⟨[1], List.replicate 32 1, 1⟩,
    ⟨[2], List.replicate 32 2, 1⟩]
  signatures := [.commit () (commitVote sha), .nilOrAbsent, .commit () (commitVote sha)]
  round := 0

theorem getD_commitFields {i : Nat} (hi : i < HEADER_FIELDS) :
    commitFields.getD i [] = [10, 32] ++ List.replicate 32 i := by
  simp only [commitFields, List.getD_eq_getElem?_getD, List.getElem?_map,
    List.getElem?_range (show i < 14 from hi), Option.map_some', Option.getD_some]

theorem length_commitFields : commitFields.length = HEADER_FIELDS := by
  rw [commitFields, List.length_map, List.length_range]
  rfl

theorem length_getD_commitFields {i : Nat} (hi : i < HEADER_FIELDS) :
    (commitFields.getD i []).length = 34 := by
  rw [getD_commitFields hi, List.length_append, List.length_replicate]
  rfl

theorem commitBlock_wellFormed : (commitBlock sha).WellFormed := by
  refine ⟨length_commitFields, le_rfl, by dsimp only [commitBlock]; decide, ?_⟩
  dsimp only [commitBlock]
  rw [getD_commitFields (by decide)]
  exact ⟨by decide, rfl⟩

theorem voteValid_commitVote (v : ValidatorInfo) :
    VoteValid (fun _ _ _ _ => true) (headerHash sha commitFields) false v
      (.commit () (commitVote sha)) := by
  refine ⟨by simp [commitVote, VALIDATOR_MESSAGE_BYTES_LENGTH_MAX], ?_, rfl⟩
  rw [if_neg Bool.false_ne_true, commitVote, List.drop_left' (List.length_replicate _ _),
    List.take_of_length_le (by rw [length_digestBytes])]

/-- Under `lengthDigest` a header hash of two or more fields has first byte `8 * 65 % 256 = 8`. -/
theorem headerHash_lengthDigest_zero {fields : List (List Nat)} (h : 2 ≤ fields.length) :
    headerHash lengthDigest fields 0 = 8 := by
  rw [headerHash, simpleHashFromByteVectors, merkleRoot_of_two_le _ (by rwa [List.length_map])]
  show lengthDigest (bytesBits (1 :: _ ++ _)) 0 = 8
  rw [lengthDigest, length_bytesBits, List.length_append, List.length_cons, length_digestBytes,
    length_digestBytes]
  rfl

theorem commitBlock_committed :
    (commitBlock lengthDigest).Committed lengthDigest (fun _ _ _ _ => true) 272 := by
  refine ⟨fun i hi => ?_, by rw [commitBlock, length_getD_commitFields (by decide)], by decide,
    by decide, fun h => ?_, fun p hp => ?_⟩
  · simp only [List.mem_cons, List.not_mem_nil, or_false] at hi
    rw [commitBlock, length_getD_commitFields (by rcases hi with rfl | rfl | rfl <;> decide)]
    rfl
  · refine absurd (congrFun h 0) ?_
    rw [headerHash_lengthDigest_zero (by rw [commitBlock, length_commitFields]; decide)]
    decide
  · simp only [commitBlock, List.zip_cons_cons, List.zip_nil_right, List.mem_cons,
      List.mem_singleton, List.not_mem_nil, or_false] at hp
    rcases hp with rfl | rfl | rfl
    · exact voteValid_commitVote _ _
    · trivial
    · exact voteValid_commitVote _ _

theorem closestPowerOfTwo_three : closestPowerOfTwo 3 = 4 := by
  rw [closestPowerOfTwo, closestPowerOfTwo.loop, if_pos (by decide), closestPowerOfTwo.loop,
    if_pos (by decide), closestPowerOfTwo.loop, if_neg (by decide)]
  rfl

/-- For a well-formed, committed block, `step` accepts the witness of `test_step_template` exactly
when the validator-set hash constraint holds, whichever validators voted. -/
theorem step_generateStepInputs_iff {block : SignedBlock σ} {blockIdSizeBits : Nat}
    (hwf : block.WellFormed) (hc : block.Committed sha validSig blockIdSizeBits)
    (hzk : zeroKey.length = PUBKEY_BYTES_LEN) :
    ∃ p w, generateStepInputs sha zeroKey zeroSignature block = some p ∧
      assignStepInputs (closestPowerOfTwo block.validators.length) blockIdSizeBits p = some w ∧
      w.WellSized (closestPowerOfTwo block.validators.length) ∧
      (step sha validSig (closestPowerOfTwo block.validators.length) w = some () ↔
        ∃ ms, (w.validators.mapM fun v => marshalTendermintValidator v.pubkey v.votingPower) =
          some ms ∧ hashValidatorSet sha (closestPowerOfTwo block.validators.length) ms
            (w.validators.map (·.validatorByteLength)) (w.validators.map (·.enabled)) =
            some (extractHashFromProtobuf w.validatorHashProof.encLeaf)) := by
  obtain ⟨p, hgen, hp⟩ := generateStepInputs_spec sha zeroKey zeroSignature hwf
  obtain ⟨w, hw, hsize, hacc⟩ := assignStepInputs_accepted hwf hc hzk hp
  exact ⟨p, w, hgen, hw, hsize,
    (step_eq_some_iff sha validSig _ w).trans ⟨StepAccepted.validatorsHash, hacc⟩⟩

theorem step_generateStepInputs_iff_commitBlock :
    (commitBlock lengthDigest).WellFormed ∧
    (commitBlock lengthDigest).Committed lengthDigest (fun _ _ _ _ => true) 272 ∧
    (List.replicate 32 0).length = PUBKEY_BYTES_LEN ∧
    ∃ p w, generateStepInputs lengthDigest (List.replicate 32 0) () (commitBlock lengthDigest) =
        some p ∧
      assignStepInputs (closestPowerOfTwo (commitBlock lengthDigest).validators.length) 272 p =
        some w ∧
      w.WellSized (closestPowerOfTwo (commitBlock lengthDigest).validators.length) ∧
      (step lengthDigest (fun _ _ _ _ => true)
          (closestPowerOfTwo (commitBlock lengthDigest).validators.length) w = some () ↔
        ∃ ms, (w.validators.mapM fun v => marshalTendermintValidator v.pubkey v.votingPower) =
          some ms ∧ hashValidatorSet lengthDigest
            (closestPowerOfTwo (commitBlock lengthDigest).validators.length) ms
            (w.validators.map (·.validatorByteLength)) (w.validators.map (·.enabled)) =
            some (extractHashFromProtobuf w.validatorHashProof.encLeaf)) :=
  ⟨commitBlock_wellFormed _, commitBlock_committed, rfl,
    step_generateStepInputs_iff _ _ _ () (commitBlock_wellFormed _) commitBlock_committed rfl⟩

/-- With more slots than the generator fills, reading `validators[i]` past its entries panics. -/
theorem assignStepInputs_isSome_iff {block : SignedBlock σ} {N blockIdSizeBits : Nat}
    (hwf : block.WellFormed) (hc : block.Committed sha validSig blockIdSizeBits)
    (hzk : zeroKey.length = PUBKEY_BYTES_LEN) {p : CelestiaBlockProof σ}
    (hp : generateStepInputs sha zeroKey zeroSignature block = some p) :
    (assignStepInputs N blockIdSizeBits p).isSome ↔ N ≤ closestPowerOfTwo block.validators.length := by
  obtain ⟨p', hp', hsp⟩ := generateStepInputs_spec sha zeroKey zeroSignature hwf
  cases Option.some.inj (hp.symm.trans hp')
  constructor
  · intro h
    obtain ⟨w, hw⟩ := Option.isSome_iff_exists.mp h
    obtain ⟨es, -, -, -, -, -, hes, -⟩ := assignStepInputs_eq_some hw
    unfold setTargets at hes
    split at hes
    · rwa [← hsp.length_validators hwf]
    · cases hes
  · intro hN
    obtain ⟨w, hw, -⟩ := assignStepInputs_accepted hwf hc hzk hsp
    rw [assignStepInputs_take hw hN]
    rfl

theorem assignStepInputs_isSome_iff_commitBlock :
    (commitBlock lengthDigest).WellFormed ∧
    (commitBlock lengthDigest).Committed lengthDigest (fun _ _ _ _ => true) 272 ∧
    (List.replicate 32 0).length = PUBKEY_BYTES_LEN ∧
    4 ≤ closestPowerOfTwo (commitBlock lengthDigest).validators.length ∧
    ∃ p, generateStepInputs lengthDigest (List.replicate 32 0) () (commitBlock lengthDigest) =
        some p ∧
      ((assignStepInputs 4 272 p).isSome ↔
        4 ≤ closestPowerOfTwo (commitBlock lengthDigest).validators.length) := by
  obtain ⟨p, hgen, -⟩ := generateStepInputs_spec lengthDigest (List.replicate 32 0) ()
    (commitBlock_wellFormed lengthDigest)
  exact ⟨commitBlock_wellFormed _, commitBlock_committed, rfl, closestPowerOfTwo_three.ge, p, hgen,
    assignStepInputs_isSome_iff _ _ _ () (commitBlock_wellFormed _) commitBlock_committed
      (by rfl) hgen⟩

end BlobstreamX.Inputs
