import BlobstreamX.Circuit.Layer
import BlobstreamX.Merkle.PathIndices
import BlobstreamX.Circuit.Voting
import Mathlib.Data.Nat.Bitwise
import Mathlib.Data.List.OfFn

namespace BlobstreamX.Circuit

open BlobstreamX.Merkle

def HASH_SIZE_BITS : Nat := 256

/-- The message bits of a data leaf: `0x00` and a 64-byte data root tuple. -/
def DATA_TUPLE_ROOT_SIZE_BITS_PLUS_8 : Nat := 64 * 8 + 8

def PADDED_SHA256_BYTES : Nat := 128

/-- A SHA-256 digest: 32 bytes. -/
abbrev Digest := Fin 32 → Fin 256

/-- Stand-in hashes for the witnesses, neither of them constant: the byte sum, or the message
length, offset by each digest byte's index. -/
def sumDigest (bytes : List Nat) : Digest := fun i => Fin.ofNat (bytes.sum + i.val)

def lengthDigest (msg : List Bool) : Digest := fun i => Fin.ofNat (msg.length + i.val)

/-- The bits of a byte, most significant first. -/
def byteBits (v : Nat) : List Bool := (List.range 8).map fun j => v.testBit (7 - j)

def bytesBits (bs : List Nat) : List Bool := bs.flatMap byteBits

def digestBytes (d : Digest) : List Nat := List.ofFn fun i => (d i).val

/-- A digest as a `TendermintHashTarget`. -/
def digestBits (d : Digest) : List Bool := bytesBits (digestBytes d)

def toBeBytes (k n : Nat) : List Nat := (List.range k).map fun i => n / 256 ^ (k - 1 - i) % 256

def u32ToBitsLe (x : U32) : List Bool := (List.range 32).map x.val.testBit

/-- `encode_data_root_tuple`: the data hash, zeros, and the height's bits reversed into the last
32 of the 512. -/
def encodeDataRootTuple (dataHash : List Bool) (height : U32) : List Bool :=
  dataHash ++ List.replicate (HASH_SIZE_BITS - 32) false ++ (u32ToBitsLe height).reverse

/-- `convert_to_padded_curta_bytes`: the bits packed into bytes most significant first, then
`0x80`, zeros and the length in bits as 8 big-endian bytes. -/
def convertToPaddedCurtaBytes (msgSizeBits numBytes : Nat) (bits : List Bool) : List Nat :=
  (List.range (msgSizeBits / 8)).map (fun i =>
      ((List.range 8).map fun j => 2 ^ (7 - j) * (bits.getD (8 * i + j) false).toNat).sum) ++
    [0x80] ++ List.replicate (numBytes - 8 - (msgSizeBits + 8) / 8) 0 ++ toBeBytes 8 msgSizeBits

/-- `convert_from_curta_bytes`: each digest byte split into bits least significant first, then
reversed. -/
def convertFromCurtaBytes (hash : Digest) : List Bool :=
  (digestBytes hash).flatMap fun v => ((List.range 8).map v.testBit).reverse

def leafHashStark (compress : List Nat → Digest) (leafSizeBitsPlus8 numBytes : Nat)
    (leaf : List Bool) : List Bool :=
  convertFromCurtaBytes
    (compress (convertToPaddedCurtaBytes leafSizeBitsPlus8 numBytes (List.replicate 8 false ++ leaf)))

def innerHashStark (compress : List Nat → Digest) (left right : List Bool) : List Bool :=
  convertFromCurtaBytes (compress (convertToPaddedCurtaBytes (8 + HASH_SIZE_BITS * 2)
    PADDED_SHA256_BYTES (List.replicate 7 false ++ [true] ++ left ++ right)))

/-- The hasher of the circuit's tree: `inner_hash_stark` joins nodes, a leaf is a data root
tuple's hash, and the empty hash is the all-zero hash of an unused leaf. -/
def starkHash (compress : List Nat → Digest) : MerkleHash (List Bool) (List Bool) :=
  ⟨List.replicate HASH_SIZE_BITS false,
    leafHashStark compress DATA_TUPLE_ROOT_SIZE_BITS_PLUS_8 PADDED_SHA256_BYTES,
    innerHashStark compress⟩

@[simp] theorem starkHash_innerHash (compress : List Nat → Digest) :
    (starkHash compress).innerHash = innerHashStark compress := by
  dsimp only [starkHash]

/-- `get_data_commitment`: the leaf hashes of the first `WINDOW_RANGE` tuples in `NUM_LEAVES`
slots of zero hashes, reduced by the layer loop. Reading past the inputs or the slots panics. -/
def getDataCommitment (compress : List Nat → Digest) (windowRange numLeaves : Nat)
    (dataHashes : List (List Bool)) (blockHeights : List U32) : Option (List Bool) :=
  if windowRange ≤ dataHashes.length ∧ windowRange ≤ blockHeights.length ∧
      windowRange ≤ numLeaves then
    let leaves := ((dataHashes.zip blockHeights).take windowRange).map (fun p =>
        leafHashStark compress DATA_TUPLE_ROOT_SIZE_BITS_PLUS_8 PADDED_SHA256_BYTES
          (encodeDataRootTuple p.1 p.2)) ++
      List.replicate (numLeaves - windowRange) (List.replicate HASH_SIZE_BITS false)
    (hashMerkleLayers (starkHash compress) leaves (prefixEnabled windowRange numLeaves)
      numLeaves).bind fun s => s.1[0]?
  else none

/-- `CelestiaCommitment::get_root_from_merkle_proof`: `PROOF_DEPTH` passes joining the running hash
with aunt `i`, on the right when path bit `i` is set. Reading past either panics. -/
def CelestiaCommitment.getRootFromMerkleProof (compress : List Nat → Digest) (proofDepth : Nat)
    (aunts : List (List Bool)) (pathIndices : List Bool) (leafHash : List Bool) :
    Option (List Bool) :=
  (List.range proofDepth).foldlM (fun hashSoFar i => do
    let aunt ← aunts[i]?
    let pathIndex ← pathIndices[i]?
    pure (if pathIndex then innerHashStark compress aunt hashSoFar
      else innerHashStark compress hashSoFar aunt)) leafHash

/-- SHA-256 padding: `0x80`, zeros up to 56 bytes modulo 64, and the length in bits. -/
def sha256Pad (msg : List Nat) : List Nat :=
  msg ++ [0x80] ++ List.replicate ((119 - msg.length % 64) % 64) 0 ++ toBeBytes 8 (8 * msg.length)

/-- Tendermint's hasher over SHA-256. The curta gadget takes a padded message: its compression is
the parameter `compress`, the padding the circuit's own work. -/
def sha256Hash (compress : List Nat → Digest) : MerkleHash (List Nat) Digest :=
  ⟨compress (sha256Pad []), fun leaf => compress (sha256Pad (0 :: leaf)),
    fun l r => compress (sha256Pad (1 :: digestBytes l ++ digestBytes r))⟩

/-- A data root tuple: the data hash, 28 zero bytes and the height as 4 big-endian bytes. -/
def dataRootTuple (dataHash : Digest) (height : U32) : List Nat :=
  digestBytes dataHash ++ List.replicate 28 0 ++ toBeBytes 4 height.val

theorem byteBits_zero : byteBits 0 = List.replicate 8 false := by decide

theorem byteBits_one : byteBits 1 = List.replicate 7 false ++ [true] := by decide

@[simp] theorem length_byteBits (v : Nat) : (byteBits v).length = 8 := by simp [byteBits]

@[simp] theorem bytesBits_nil : bytesBits [] = [] := rfl

@[simp] theorem bytesBits_cons (b : Nat) (bs : List Nat) :
    bytesBits (b :: bs) = byteBits b ++ bytesBits bs := rfl

@[simp] theorem bytesBits_append (bs cs : List Nat) :
    bytesBits (bs ++ cs) = bytesBits bs ++ bytesBits cs := List.flatMap_append _ _ _

theorem sum_pow_testBit : ∀ (n : Nat) {v : Nat}, v < 2 ^ n →
    ((List.range n).map fun j => 2 ^ (n - 1 - j) * (v.testBit (n - 1 - j)).toNat).sum = v
  | 0, v, hv => by simp at hv; simp [hv]
  | n + 1, v, hv => by
    have hlow : (List.range n).map ((fun j =>
        2 ^ (n + 1 - 1 - j) * (v.testBit (n + 1 - 1 - j)).toNat) ∘ Nat.succ) =
          (List.range n).map fun j => 2 ^ (n - 1 - j) * ((v % 2 ^ n).testBit (n - 1 - j)).toNat :=
      List.map_congr_left fun j hj => by
        have := List.mem_range.mp hj
        simp [Nat.testBit_mod_two_pow, show n - 1 - j < n by omega,
          show n - (j + 1) = n - 1 - j by omega]
    rw [List.range_succ_eq_map, List.map_cons, List.sum_cons, List.map_map, hlow,
      sum_pow_testBit n (Nat.mod_lt v (Nat.two_pow_pos n)), Nat.add_sub_cancel, Nat.sub_zero,
      Nat.toNat_testBit, Nat.mod_eq_of_lt (Nat.div_lt_of_lt_mul (by rw [← Nat.pow_succ]; exact hv))]
    exact Nat.div_add_mod v (2 ^ n)

theorem getD_bytesBits : ∀ (bs : List Nat) (i : Nat) {j : Nat}, j < 8 →
    (bytesBits bs).getD (8 * i + j) false = (bs.getD i 0).testBit (7 - j)
  | [], _, _, _ => by simp
  | b :: bs, 0, j, hj => by
    rw [bytesBits_cons, List.getD_eq_getElem?_getD,
      List.getElem?_append_left (by simpa using hj)]
    simp [byteBits, hj]
  | b :: bs, i + 1, j, hj => by
    rw [bytesBits_cons, List.getD_eq_getElem?_getD, List.getElem?_append_right (by simp; omega),
      length_byteBits, show 8 * (i + 1) + j - 8 = 8 * i + j by omega, ← List.getD_eq_getElem?_getD,
      getD_bytesBits bs i hj]
    rfl

theorem convertToPaddedCurtaBytes_bytesBits {bs : List Nat} (hbs : ∀ b ∈ bs, b < 256)
    (numBytes : Nat) :
    convertToPaddedCurtaBytes (8 * bs.length) numBytes (bytesBits bs) =
      bs ++ [0x80] ++ List.replicate (numBytes - 8 - (bs.length + 1)) 0 ++
        toBeBytes 8 (8 * bs.length) := by
  have hmsg : (List.range bs.length).map (fun i =>
      ((List.range 8).map fun j => 2 ^ (7 - j) * ((bytesBits bs).getD (8 * i + j) false).toNat).sum)
        = bs := by
    refine List.ext_getElem (by simp) fun i h₁ h₂ => ?_
    rw [List.getElem_map, List.getElem_range]
    rw [List.map_congr_left fun j hj => by rw [getD_bytesBits bs i (List.mem_range.mp hj)],
      List.getD_eq_getElem _ _ h₂]
    exact sum_pow_testBit 8 (hbs _ (List.getElem_mem h₂))
  rw [convertToPaddedCurtaBytes, show 8 * bs.length / 8 = bs.length by omega,
    show (8 * bs.length + 8) / 8 = bs.length + 1 by omega, hmsg]

theorem sha256Pad_of_length {msg : List Nat} (h : msg.length = 65) :
    sha256Pad msg = msg ++ [0x80] ++ List.replicate 54 0 ++ toBeBytes 8 520 := by
  simp [sha256Pad, h]

/-- The bytes `convert_to_padded_curta_bytes` builds from a 65-byte message are its SHA-256
padding. -/
theorem convertToPaddedCurtaBytes_eq_sha256Pad {bs : List Nat} (hbs : ∀ b ∈ bs, b < 256)
    (hlen : bs.length = 65) :
    convertToPaddedCurtaBytes (8 + HASH_SIZE_BITS * 2) PADDED_SHA256_BYTES (bytesBits bs) =
      sha256Pad bs := by
  rw [show 8 + HASH_SIZE_BITS * 2 = 8 * bs.length by rw [hlen]; rfl,
    convertToPaddedCurtaBytes_bytesBits hbs, sha256Pad_of_length hlen, hlen]
  rfl

theorem convertFromCurtaBytes_eq (d : Digest) : convertFromCurtaBytes d = digestBits d := rfl

theorem testBit_div_two_pow (n k i : Nat) : (n / 2 ^ k).testBit i = n.testBit (k + i) := by
  rw [← Nat.shiftRight_eq_div_pow, Nat.testBit_shiftRight]

theorem byteBits_div (n k : Nat) :
    byteBits (n / 256 ^ k % 256) = ((List.range' (8 * k) 8).map n.testBit).reverse := by
  rw [show n / 256 ^ k % 256 = n / 2 ^ (8 * k) % 2 ^ 8 by rw [Nat.pow_mul]; rfl]
  simp only [byteBits, Nat.testBit_mod_two_pow, testBit_div_two_pow]
  simp [List.range', List.range_succ, Nat.add_assoc]

theorem toBeBytes_succ (k n : Nat) : toBeBytes (k + 1) n = n / 256 ^ k % 256 :: toBeBytes k n := by
  simp only [toBeBytes, List.range_succ_eq_map, List.map_cons, List.map_map, Nat.add_sub_cancel,
    Nat.sub_zero]
  congr 1
  exact List.map_congr_left fun i _ => by
    simp only [Function.comp_apply, show k - (i + 1) = k - 1 - i by omega]

theorem bytesBits_toBeBytes (k n : Nat) :
    bytesBits (toBeBytes k n) = ((List.range (8 * k)).map n.testBit).reverse := by
  induction k with
  | zero => rfl
  | succ k ih =>
    rw [toBeBytes_succ, bytesBits_cons, ih, byteBits_div, Nat.mul_succ, List.range_add,
      List.map_append, List.reverse_append, List.range'_eq_map_range, List.map_map]

theorem lt_of_mem_digestBytes {d : Digest} {b : Nat} (h : b ∈ digestBytes d) : b < 256 := by
  obtain ⟨i, rfl⟩ := (List.mem_ofFn _ _).mp h
  exact (d i).isLt

theorem lt_of_mem_toBeBytes {k n b : Nat} (h : b ∈ toBeBytes k n) : b < 256 := by
  obtain ⟨i, -, rfl⟩ := List.mem_map.mp h
  exact Nat.mod_lt _ (by decide)

@[simp] theorem length_digestBytes (d : Digest) : (digestBytes d).length = 32 :=
  List.length_ofFn _

theorem digestBits_injective : Function.Injective digestBits := fun d d' h => by
  have unpack : ∀ e : Digest,
      (convertToPaddedCurtaBytes (8 * 32) 0 (digestBits e)).take 32 = digestBytes e := fun e => by
    rw [digestBits, ← length_digestBytes e,
      convertToPaddedCurtaBytes_bytesBits (fun _ => lt_of_mem_digestBytes) 0, List.append_assoc,
      List.append_assoc, List.take_left' rfl]
  have hbytes := congrArg (fun bits => (convertToPaddedCurtaBytes (8 * 32) 0 bits).take 32) h
  simp only [unpack] at hbytes
  funext i
  exact Fin.ext (congrFun (List.ofFn_injective hbytes) i)

theorem bytesBits_replicate_zero (n : Nat) :
    bytesBits (List.replicate n 0) = List.replicate (8 * n) false := by
  induction n with
  | zero => rfl
  | succ n ih => rw [List.replicate_succ, bytesBits_cons, ih, byteBits_zero, Nat.mul_succ,
      Nat.add_comm, List.replicate_add]

/-- Behind `0x00`, the bits of the leaf message are those of the data root tuple. -/
theorem leafMessage_eq (d : Digest) (h : U32) :
    List.replicate 8 false ++ encodeDataRootTuple (digestBits d) h =
      bytesBits (0 :: dataRootTuple d h) := by
  rw [bytesBits_cons, dataRootTuple, bytesBits_append, bytesBits_append, bytesBits_toBeBytes,
    bytesBits_replicate_zero, byteBits_zero, encodeDataRootTuple, u32ToBitsLe, digestBits,
    show HASH_SIZE_BITS - 32 = 8 * 28 from rfl]

theorem innerMessage_eq (l r : Digest) :
    List.replicate 7 false ++ [true] ++ digestBits l ++ digestBits r =
      bytesBits (1 :: digestBytes l ++ digestBytes r) := by
  rw [List.cons_append, bytesBits_cons, bytesBits_append, byteBits_one, digestBits, digestBits,
    List.append_assoc, List.append_assoc]

theorem leafHashStark_eq (compress : List Nat → Digest) (d : Digest) (h : U32) :
    leafHashStark compress DATA_TUPLE_ROOT_SIZE_BITS_PLUS_8 PADDED_SHA256_BYTES
        (encodeDataRootTuple (digestBits d) h) =
      digestBits ((sha256Hash compress).leafHash (dataRootTuple d h)) := by
  have hlt : ∀ b ∈ 0 :: dataRootTuple d h, b < 256 := by
    simp only [List.mem_cons, dataRootTuple, List.mem_append, List.mem_replicate]
    rintro b (rfl | (hb | hb) | hb)
    · decide
    · exact lt_of_mem_digestBytes hb
    · omega
    · exact lt_of_mem_toBeBytes hb
  rw [leafHashStark, leafMessage_eq,
    show DATA_TUPLE_ROOT_SIZE_BITS_PLUS_8 = 8 + HASH_SIZE_BITS * 2 from rfl,
    convertToPaddedCurtaBytes_eq_sha256Pad hlt (by simp [dataRootTuple, toBeBytes])]
  rfl

theorem innerHashStark_eq (compress : List Nat → Digest) (l r : Digest) :
    innerHashStark compress (digestBits l) (digestBits r) =
      digestBits ((sha256Hash compress).innerHash l r) := by
  have hlt : ∀ b ∈ 1 :: digestBytes l ++ digestBytes r, b < 256 := by
    simp only [List.cons_append, List.mem_cons, List.mem_append]
    rintro b (rfl | hb | hb)
    · decide
    · exact lt_of_mem_digestBytes hb
    · exact lt_of_mem_digestBytes hb
  rw [innerHashStark, innerMessage_eq, convertToPaddedCurtaBytes_eq_sha256Pad hlt (by simp)]
  rfl

/-- The circuit's tree over the bits of digests is the bits of Tendermint's SHA-256 tree. -/
theorem merkleRoot_starkHash (compress : List Nat → Digest) {hs : List Digest} (hne : hs ≠ []) :
    merkleRoot (starkHash compress) (hs.map digestBits) =
      digestBits (merkleRoot (sha256Hash compress) hs) :=
  merkleRoot_map (sha256Hash compress) digestBits
    (fun l r => by rw [starkHash_innerHash]; exact innerHashStark_eq compress l r) hne

theorem dataLeaves_eq (compress : List Nat → Digest) {W : Nat} {ds : List Digest}
    {hts : List U32} (hd : ds.length = W) (hh : hts.length = W) :
    (((ds.map digestBits).zip hts).take W).map (fun p =>
        leafHashStark compress DATA_TUPLE_ROOT_SIZE_BITS_PLUS_8 PADDED_SHA256_BYTES
          (encodeDataRootTuple p.1 p.2)) =
      (((ds.zip hts).map fun p => dataRootTuple p.1 p.2).map
        (sha256Hash compress).leafHash).map digestBits := by
  rw [List.take_of_length_le (by simp [hd, hh]), List.zip_map_left, List.map_map, List.map_map,
    List.map_map]
  refine List.map_congr_left fun p _ => ?_
  simp only [Function.comp_apply, Prod.map_fst, Prod.map_snd, id_eq]
  exact leafHashStark_eq compress p.1 p.2

/-- `get_data_commitment` over `2 ^ k` slots and a window of `1 ≤ W ≤ 2 ^ k` tuples returns the bits
of Tendermint's simple Merkle root of the tuples. -/
theorem getDataCommitment_eq_simpleHash (compress : List Nat → Digest) {k W : Nat}
    {ds : List Digest} {hts : List U32} (hd : ds.length = W) (hh : hts.length = W) (hW : 0 < W)
    (hWN : W ≤ 2 ^ k) :
    getDataCommitment compress W (2 ^ k) (ds.map digestBits) hts =
      some (digestBits (simpleHashFromByteVectors (sha256Hash compress)
        ((ds.zip hts).map fun p => dataRootTuple p.1 p.2))) := by
  set spec := ((ds.zip hts).map fun p => dataRootTuple p.1 p.2).map (sha256Hash compress).leafHash
  have hspec : spec.length = W := by simp [spec, hd, hh]
  set leaves := spec.map digestBits ++
    List.replicate (2 ^ k - W) (List.replicate HASH_SIZE_BITS false)
  have hlen : leaves.length = 2 ^ k := by simp [leaves, hspec]; omega
  have hmask := length_prefixEnabled hWN
  obtain ⟨t₁, t₂, h⟩ := hashMerkleLayers_eq (starkHash compress)
    (show leaves.length = (prefixEnabled W (2 ^ k)).length by rw [hlen, hmask]) hlen.ge
  rw [List.take_of_length_le hlen.le, List.take_of_length_le hmask.le,
    layerUps_prefixEnabled _ k hlen hW hWN,
    List.take_left' (by simp [hspec] : (spec.map digestBits).length = W),
    merkleRoot_starkHash compress (List.ne_nil_of_length_pos (by omega))] at h
  rw [getDataCommitment, if_pos ⟨by simp [hd], by omega, hWN⟩, dataLeaves_eq compress hd hh]
  simp only [h, Option.some_bind, List.singleton_append, List.getElem?_cons_zero]
  rfl

theorem getDataCommitment_eq_simpleHash_three :
    [(fun _ => 1 : Digest), fun _ => 2, fun _ => 3].length = 3 ∧
      [(10 : U32), 11, 12].length = 3 ∧ 0 < 3 ∧ 3 ≤ 2 ^ 2 ∧
      getDataCommitment sumDigest 3 (2 ^ 2)
          ([(fun _ => 1 : Digest), fun _ => 2, fun _ => 3].map digestBits) [10, 11, 12] =
        some (digestBits (simpleHashFromByteVectors (sha256Hash sumDigest)
          (([(fun _ => 1 : Digest), fun _ => 2, fun _ => 3].zip [(10 : U32), 11, 12]).map
            fun p => dataRootTuple p.1 p.2))) :=
  ⟨rfl, rfl, by decide, by decide,
    getDataCommitment_eq_simpleHash _ (k := 2) rfl rfl (by decide) (by decide)⟩

theorem CelestiaCommitment.getRootFromMerkleProof_eq (compress : List Nat → Digest)
    {A : List (List Bool)} {P : List Bool} :
    ∀ {d : Nat}, d ≤ A.length → d ≤ P.length → ∀ leaf,
      CelestiaCommitment.getRootFromMerkleProof compress d A P leaf =
        Merkle.getRootFromMerkleProof (starkHash compress) (A.take d) (P.take d) leaf
  | 0, _, _, _ => rfl
  | d + 1, hA, hP, leaf => by
    have ih := getRootFromMerkleProof_eq compress (A := A) (P := P) (d := d) (by omega) (by omega) leaf
    unfold CelestiaCommitment.getRootFromMerkleProof at ih ⊢
    rw [List.range_succ, List.foldlM_append, ih, List.take_succ, List.take_succ,
      List.getElem?_eq_getElem (show d < A.length by omega),
      List.getElem?_eq_getElem (show d < P.length by omega), Option.toList_some,
      Option.toList_some, getRootFromMerkleProof_concat _ (by simp; omega)]
    cases Merkle.getRootFromMerkleProof (starkHash compress) (A.take d) (P.take d) leaf
    · rfl
    · simp only [Option.pure_def, Option.bind_eq_bind, List.foldlM_cons, List.foldlM_nil,
        List.getElem?_eq_getElem (show d < A.length by omega),
        List.getElem?_eq_getElem (show d < P.length by omega), Option.some_bind,
        Option.bind_some, starkHash_innerHash, Option.map_some']

/-- Along `get_path_indices`, the commitment circuit's proof returns a root exactly when
`compute_hash_from_aunts` accepts the same aunts for it, for every leaf at full depth. -/
theorem CelestiaCommitment.getRootFromMerkleProof_dataRoot (compress : List Nat → Digest)
    {n i : Nat} (hi : i < n) (hfull : (leafPath i n).length = (getPathIndices i n).length)
    (d : Digest) (height : U32) {aunts : List Digest}
    (haunts : aunts.length = (getPathIndices i n).length) (R : Digest) :
    CelestiaCommitment.getRootFromMerkleProof compress (getPathIndices i n).length
        (aunts.map digestBits) (getPathIndices i n)
        (leafHashStark compress DATA_TUPLE_ROOT_SIZE_BITS_PLUS_8 PADDED_SHA256_BYTES
          (encodeDataRootTuple (digestBits d) height)) = some (digestBits R) ↔
      computeHashFromAunts (sha256Hash compress) i n
        ((sha256Hash compress).leafHash (dataRootTuple d height)) aunts = some R := by
  rw [CelestiaCommitment.getRootFromMerkleProof_eq compress (by simp [haunts]) le_rfl,
    List.take_of_length_le (by simp [haunts]), List.take_of_length_le le_rfl, leafHashStark_eq,
    getRootFromMerkleProof_map (sha256Hash compress) digestBits
      (fun l r => by rw [starkHash_innerHash]; exact innerHashStark_eq compress l r),
    computeHashFromAunts_eq_some_iff _ hi, leafPath_eq_getPathIndices hi hfull]
  simp only [haunts, true_and, Option.map_eq_some', digestBits_injective.eq_iff, exists_eq_right]

theorem CelestiaCommitment.getRootFromMerkleProof_dataRoot_two :
    0 < 2 ∧ (leafPath 0 2).length = (getPathIndices 0 2).length ∧
      [(fun _ => 9 : Digest)].length = (getPathIndices 0 2).length ∧
      (CelestiaCommitment.getRootFromMerkleProof sumDigest (getPathIndices 0 2).length
          ([(fun _ => 9 : Digest)].map digestBits) (getPathIndices 0 2)
          (leafHashStark sumDigest DATA_TUPLE_ROOT_SIZE_BITS_PLUS_8 PADDED_SHA256_BYTES
            (encodeDataRootTuple (digestBits fun _ => 7) 5)) =
          some (digestBits ((sha256Hash sumDigest).innerHash
            ((sha256Hash sumDigest).leafHash (dataRootTuple (fun _ => 7) 5)) fun _ => 9)) ↔
        computeHashFromAunts (sha256Hash sumDigest) 0 2
          ((sha256Hash sumDigest).leafHash (dataRootTuple (fun _ => 7) 5)) [fun _ => 9] =
            some ((sha256Hash sumDigest).innerHash
              ((sha256Hash sumDigest).leafHash (dataRootTuple (fun _ => 7) 5)) fun _ => 9)) := by
  have hfull : (leafPath 0 2).length = (getPathIndices 0 2).length := by
    simp [leafPath, getSplitPoint, Nat.log2.eq_1, getPathIndices_eq]
  have haunts : [(fun _ => 9 : Digest)].length = (getPathIndices 0 2).length := by
    simp [getPathIndices_eq, Nat.log2.eq_1]
  exact ⟨by decide, hfull, haunts,
    CelestiaCommitment.getRootFromMerkleProof_dataRoot _ (by decide) hfull _ _ haunts _⟩

end BlobstreamX.Circuit
