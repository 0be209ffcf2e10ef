import BlobstreamX.Circuit.Marshal
import BlobstreamX.Circuit.Step

namespace BlobstreamX.Circuit

open BlobstreamX.Merkle

/-- The bytes Tendermint hashes for a validator, the protobuf `SimpleValidator` of `Validator.Bytes`:
`10 34 10 32 ‖ key`, then `16 ‖ varint` unless the power is zero. -/
def validatorBytes (pubkey : List Nat) (votingPower : Nat) : List Nat :=
  [10, 34, 10, 32] ++ pubkey ++ if votingPower = 0 then [] else 16 :: encodeVarint votingPower

variable (sha : List Bool → Digest)

/-- Tendermint's `validators_hash` over SHA-256 on bits, each byte read most significant bit
first as `to_bits` gives it. -/
def validatorSetHash (vals : List (List Nat × Nat)) : List Bool :=
  simpleHashFromByteVectors (sha256Hasher sha)
    (vals.map fun v => bytesBits (validatorBytes v.1 v.2))

/-- A hash of `sha256Hasher`, as the term that built it. -/
inductive ShaTerm where
  | empty
  | leaf (msg : List Bool)
  | inner (left right : ShaTerm)
  deriving DecidableEq

def shaTerm : MerkleHash (List Bool) ShaTerm := ⟨.empty, .leaf, .inner⟩

namespace ShaTerm

def eval : ShaTerm → List Bool
  | empty => (sha256Hasher sha).emptyHash
  | leaf msg => (sha256Hasher sha).leafHash msg
  | inner l r => (sha256Hasher sha).innerHash (eval l) (eval r)

def input : ShaTerm → List Bool
  | empty => []
  | leaf msg => byteBits 0 ++ msg
  | inner l r => byteBits 1 ++ l.eval sha ++ r.eval sha

/-- The messages SHA-256 hashes for a term: at its root and at every node below. -/
def inputs : ShaTerm → List (List Bool)
  | empty => [[]]
  | leaf msg => [byteBits 0 ++ msg]
  | inner l r => (byteBits 1 ++ l.eval sha ++ r.eval sha) :: (inputs l ++ inputs r)

def Leaves (Q : List Bool → Prop) : ShaTerm → Prop
  | empty => False
  | leaf msg => Q msg
  | inner l r => Leaves Q l ∧ Leaves Q r

theorem eval_eq (t : ShaTerm) : t.eval sha = digestBits (sha (t.input sha)) := by
  cases t <;> rfl

theorem input_mem_inputs (t : ShaTerm) : t.input sha ∈ t.inputs sha := by
  cases t <;> simp [input, inputs]

@[simp] theorem length_eval (t : ShaTerm) : (t.eval sha).length = HASH_SIZE_BITS := by
  rw [eval_eq, length_digestBits]

theorem Leaves.not_both {Q Q' : List Bool → Prop} (hdis : ∀ m, Q m → Q' m → False) :
    ∀ {t : ShaTerm}, t.Leaves Q → t.Leaves Q' → False
  | empty, h, _ => h
  | leaf _, h, h' => hdis _ h h'
  | inner _ _, h, h' => Leaves.not_both hdis h.1 h'.1

theorem byteBits_zero_append_ne (m x : List Bool) : byteBits 0 ++ m ≠ byteBits 1 ++ x := fun h =>
  absurd (List.append_inj h rfl).1 (by decide)

/-- Two terms with one hash are the same term, or SHA-256 maps another message to the digest of
one of the second term's inputs. -/
theorem eq_or_secondPreimage : ∀ {t t' : ShaTerm}, t.eval sha = t'.eval sha →
    t = t' ∨ ∃ m' ∈ t'.inputs sha, ∃ m, m ≠ m' ∧ sha m = sha m' := by
  intro t t' h
  rw [eval_eq, eval_eq] at h
  by_cases hin : t.input sha = t'.input sha
  swap
  · exact .inr ⟨_, input_mem_inputs sha t', _, hin, digestBits_injective h⟩
  match t, t', hin with
  | empty, empty, _ => exact .inl rfl
  | leaf _, leaf _, hin => exact .inl (congrArg leaf (List.append_cancel_left hin))
  | inner l r, inner l' r', hin =>
    simp only [input, List.append_assoc] at hin
    obtain ⟨hl, hr⟩ := List.append_inj (List.append_cancel_left hin)
      (by rw [length_eval, length_eval])
    rcases eq_or_secondPreimage hl with rfl | ⟨m', hm', hsp⟩
    · rcases eq_or_secondPreimage hr with rfl | ⟨m', hm', hsp⟩
      · exact .inl rfl
      · exact .inr ⟨m', by simp [inputs, hm'], hsp⟩
    · exact .inr ⟨m', by simp [inputs, hm'], hsp⟩
  | empty, leaf _, hin | leaf _, empty, hin | empty, inner _ _, hin | inner _ _, empty, hin =>
    simp [input, byteBits] at hin
  | leaf _, inner _ _, hin => exact absurd hin (byteBits_zero_append_ne _ _)
  | inner _ _, leaf _, hin => exact absurd hin.symm (byteBits_zero_append_ne _ _)

end ShaTerm

open ShaTerm

def validatorSetTree (vals : List (List Nat × Nat)) : ShaTerm :=
  simpleHashFromByteVectors shaTerm (vals.map fun v => bytesBits (validatorBytes v.1 v.2))

theorem eval_validatorSetTree {vals : List (List Nat × Nat)} (hne : vals ≠ []) :
    (validatorSetTree vals).eval sha = validatorSetHash sha vals := by
  rw [validatorSetTree, simpleHashFromByteVectors,
    ← merkleRoot_map shaTerm (eval sha) (fun _ _ => rfl) (by simpa using hne), List.map_map]
  rfl

/-- Every leaf of Tendermint's tree starts with the bits of `0x0a`, most significant first. -/
theorem validatorSetTree_leaves {vals : List (List Nat × Nat)} (hne : vals ≠ []) :
    (validatorSetTree vals).Leaves fun msg => msg.take 8 = byteBits 10 := by
  refine merkleRoot_forall shaTerm (fun _ _ ha hb => ⟨ha, hb⟩) (by simpa using hne) ?_
  simp only [List.map_map, List.mem_map]
  rintro _ ⟨v, -, rfl⟩
  show (bytesBits (10 :: _)).take 8 = _
  rw [bytesBits_cons, List.take_left' (length_byteBits 10)]

/-- The circuit's validator-set hash is a term whose leaves are the first `L ≥ 38` bytes of its
validator buffers, whatever the enable bits. -/
theorem hashValidatorSet_eq_eval {N : Nat} {validators : List (List Bool)} {lens : List Nat}
    {en : List Bool} {root : List Bool} (hlens : ∀ l ∈ lens, l < FIELD_ORDER)
    (h : hashValidatorSet sha N validators lens en = some root) :
    ∃ t : ShaTerm, root = t.eval sha ∧
      t.Leaves fun msg => ∃ v ∈ validators, ∃ L, VALIDATOR_BYTE_LENGTH_MIN ≤ L ∧
        msg = v.take (L * 8) := by
  let P := fun x : List Bool => ∃ t : ShaTerm, x = t.eval sha ∧
    t.Leaves fun msg => ∃ v ∈ validators, ∃ L, VALIDATOR_BYTE_LENGTH_MIN ≤ L ∧ msg = v.take (L * 8)
  unfold hashValidatorSet at h
  split at h
  · obtain ⟨leaves, hleaves, layers, hlayers, hroot⟩ := by
      simpa only [Option.bind_eq_bind, Option.bind_eq_some] using h
    unfold hashValidatorLeaves at hleaves
    split at hleaves
    · have hleaf : ∀ x ∈ leaves, P x := fun x hx => by
        obtain ⟨⟨v, l⟩, hp, hx⟩ := exists_of_mem_mapM_eq_some hleaves x hx
        have hmem := List.of_mem_zip hp
        rw [hashValidatorLeaf_eq sha v (hlens l hmem.2)] at hx
        split at hx
        · exact ⟨.leaf (v.take (l * 8)), (Option.some.inj hx).symm, v, hmem.1, l, ‹_ ∧ _›.1, rfl⟩
        · cases hx
      exact hashMerkleLayers_forall _ (P := P)
        (fun _ _ ⟨ta, ha, hta⟩ ⟨tb, hb, htb⟩ => ⟨.inner ta tb, by rw [ha, hb]; rfl, hta, htb⟩)
        N hlayers hleaf root (List.mem_of_mem_head? hroot)
    · cases hleaves
  · cases h

/-- The marshaller writes `10` least significant bit first, as the bits of `0x50`. -/
theorem take_eight_of_mapM_marshal {γ : Type} {f : γ → List Bool} {g : γ → I64} {l : List γ}
    {ms : List (List Bool)}
    (h : l.mapM (fun x => marshalTendermintValidator (f x) (g x)) = some ms) :
    ∀ m ∈ ms, m.take 8 = byteBitsLe 10 := fun m hm => by
  obtain ⟨x, -, hx⟩ := exists_of_mem_mapM_eq_some h m hm
  obtain ⟨bits, -, rfl⟩ : ∃ bits, marshalInt64Varint (g x) = some bits ∧
      [10, 34, 10, 32].flatMap byteBitsLe ++ f x ++ byteBitsLe 16 ++ bits = m := by
    simpa only [marshalTendermintValidator, Option.bind_eq_bind, Option.bind_eq_some,
      Option.pure_def, Option.some.injEq] using hx
  simp only [List.flatMap_cons, List.append_assoc]
  exact List.take_left' (length_byteBitsLe 10)

/-- `hash_validator_set` over marshalled validators meets Tendermint's hash of a non-empty set only
through a SHA-256 second preimage: the marshaller's bit order is not `to_bits`'. -/
theorem hashValidatorSet_secondPreimage {N : Nat} {validators : List (List Bool × I64)}
    {ms : List (List Bool)} {lens : List Nat} {en : List Bool} {vals : List (List Nat × Nat)}
    (hms : validators.mapM (fun v => marshalTendermintValidator v.1 v.2) = some ms)
    (hlens : ∀ l ∈ lens, l < FIELD_ORDER) (hvals : vals ≠ [])
    (h : hashValidatorSet sha N ms lens en = some (validatorSetHash sha vals)) :
    ∃ m' ∈ (validatorSetTree vals).inputs sha, ∃ m, m ≠ m' ∧ sha m = sha m' := by
  obtain ⟨t, ht, hleaves⟩ := hashValidatorSet_eq_eval sha hlens h
  rw [← eval_validatorSetTree sha hvals] at ht
  refine (eq_or_secondPreimage sha ht.symm).resolve_left ?_
  rintro rfl
  refine Leaves.not_both (fun msg hc ht => ?_) hleaves (validatorSetTree_leaves hvals)
  obtain ⟨v, hv, L, hL, rfl⟩ := hc
  rw [List.take_take, Nat.min_eq_left (by simp only [VALIDATOR_BYTE_LENGTH_MIN] at hL; omega),
    take_eight_of_mapM_marshal hms v hv] at ht
  exact absurd ht (by decide)

/-- Under `lengthDigest` one validator's leaf and Tendermint's have the same length, so the
hashes agree. -/
theorem hashValidatorSet_secondPreimage_lengthDigest :
    ∃ ms, [(List.replicate 256 false, (⟨1, 0⟩ : I64))].mapM
        (fun v => marshalTendermintValidator v.1 v.2) = some ms ∧
      (∀ l ∈ [38], l < FIELD_ORDER) ∧ [(List.replicate 32 0, 1)] ≠ [] ∧
      hashValidatorSet lengthDigest 1 ms [38] [true] =
        some (validatorSetHash lengthDigest [(List.replicate 32 0, 1)]) ∧
      ∃ m' ∈ (validatorSetTree [(List.replicate 32 0, 1)]).inputs lengthDigest,
        ∃ m, m ≠ m' ∧ lengthDigest m = lengthDigest m' := by
  have hpad : encodeVarintPadded 1 = [1, 0, 0, 0, 0, 0, 0, 0, 0] := by
    rw [encodeVarintPadded, encodeVarint_of_lt (by decide)]
    rfl
  have hms : [(List.replicate 256 false, (⟨1, 0⟩ : I64))].mapM
      (fun v => marshalTendermintValidator v.1 v.2) =
      some [[10, 34, 10, 32].flatMap byteBitsLe ++ List.replicate 256 false ++
        (16 :: encodeVarintPadded 1).flatMap byteBitsLe] := by
    rw [List.mapM_cons, List.mapM_nil, marshalTendermintValidator_eq_some _ (by decide)]
    rfl
  have hlen : (byteBits 0 ++ List.take (38 * 8) ([10, 34, 10, 32].flatMap byteBitsLe ++
      List.replicate 256 false ++ [16, 1, 0, 0, 0, 0, 0, 0, 0, 0].flatMap byteBitsLe)).length =
      (byteBits 0 ++ bytesBits ([10, 34, 10, 32] ++ List.replicate 32 0 ++ [16, 1])).length := by
    simp only [List.length_append, List.length_take, length_byteBits, length_bytesBits,
      length_flatMap_byteBitsLe, List.length_replicate, List.length_cons, List.length_nil]
    omega
  have hset : hashValidatorSet lengthDigest 1 [[10, 34, 10, 32].flatMap byteBitsLe ++
      List.replicate 256 false ++ (16 :: encodeVarintPadded 1).flatMap byteBitsLe] [38] [true] =
      some (validatorSetHash lengthDigest [(List.replicate 32 0, 1)]) := by
    rw [hashValidatorSet, if_pos ⟨rfl, rfl, rfl⟩, hashValidatorLeaves, if_pos ⟨rfl, rfl⟩,
      List.zip_cons_cons, List.zip_nil_right, List.mapM_cons, List.mapM_nil,
      hashValidatorLeaf_eq _ _ (by decide), if_pos (by decide)]
    simp only [Option.bind_eq_bind, Option.some_bind, Option.pure_def,
      hashMerkleLayers_of_le_one _ _ _ le_rfl, List.head?_cons, validatorSetHash,
      simpleHashFromByteVectors, List.map_singleton, merkleRoot_singleton, sha256Hasher_leafHash,
      hpad, validatorBytes, encodeVarint_of_lt (show 1 < 128 by decide), if_neg one_ne_zero]
    unfold lengthDigest
    rw [hlen]
  exact ⟨_, hms, by decide, List.cons_ne_nil _ _, hset,
    hashValidatorSet_secondPreimage _ hms (by decide) (List.cons_ne_nil _ _) hset⟩

end BlobstreamX.Circuit
