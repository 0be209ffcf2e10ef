import BlobstreamX.Merkle.PathIndices

namespace BlobstreamX.Circuit

open BlobstreamX.Merkle

def HEADER_PROOF_DEPTH : Nat := 4

/-- The number of header fields that `generate_proofs_from_header` hashes. -/
def HEADER_FIELDS : Nat := 14

/-- The positions of `last_block_id`, `data_hash`, `validators_hash` and `next_validators_hash`. -/
def LAST_BLOCK_ID_INDEX : Nat := 4
def DATA_HASH_INDEX : Nat := 6
def VALIDATORS_HASH_INDEX : Nat := 7
def NEXT_VALIDATORS_HASH_INDEX : Nat := 8

/-- The paths `step` hard-codes, "otherwise you can prove arbitrary data in the header". -/
def dataHashPath : List Bool := [false, true, true, false]
def valHashPath : List Bool := [true, true, true, false]
def nextValHashPath : List Bool := [false, false, false, true]
def lastBlockIdPath : List Bool := [false, false, true, false]

variable {β α : Type} (H : MerkleHash β α)

theorem inclusion_check_iff {idx : Nat} {path : List Bool} (hidx : idx < HEADER_FIELDS)
    (hpath : leafPath idx HEADER_FIELDS = path) (hlen : path.length = HEADER_PROOF_DEPTH)
    (h a₀ a₁ a₂ a₃ R : α) :
    getRootFromMerkleProof H [a₀, a₁, a₂, a₃] path h = some R ↔
      computeHashFromAunts H idx HEADER_FIELDS h [a₀, a₁, a₂, a₃] = some R := by
  rw [computeHashFromAunts_eq_some_iff H hidx, hpath, hlen]
  simp [HEADER_PROOF_DEPTH]

theorem leafPath_dataHash : leafPath DATA_HASH_INDEX HEADER_FIELDS = dataHashPath := by
  simp [leafPath, getSplitPoint, Nat.log2.eq_1, DATA_HASH_INDEX, HEADER_FIELDS, dataHashPath]

theorem leafPath_validatorsHash : leafPath VALIDATORS_HASH_INDEX HEADER_FIELDS = valHashPath := by
  simp [leafPath, getSplitPoint, Nat.log2.eq_1, VALIDATORS_HASH_INDEX, HEADER_FIELDS, valHashPath]

theorem leafPath_nextValidatorsHash :
    leafPath NEXT_VALIDATORS_HASH_INDEX HEADER_FIELDS = nextValHashPath := by
  simp [leafPath, getSplitPoint, Nat.log2.eq_1, NEXT_VALIDATORS_HASH_INDEX, HEADER_FIELDS,
    nextValHashPath]

theorem leafPath_lastBlockId : leafPath LAST_BLOCK_ID_INDEX HEADER_FIELDS = lastBlockIdPath := by
  simp [leafPath, getSplitPoint, Nat.log2.eq_1, LAST_BLOCK_ID_INDEX, HEADER_FIELDS,
    lastBlockIdPath]

/-- Each of `step`'s four inclusion checks returns the header hash exactly for the openings that
the 14-leaf header tree accepts at that field's position. -/
theorem step_inclusion_checks (h a₀ a₁ a₂ a₃ R : α) :
    (getRootFromMerkleProof H [a₀, a₁, a₂, a₃] dataHashPath h = some R ↔
      computeHashFromAunts H DATA_HASH_INDEX HEADER_FIELDS h [a₀, a₁, a₂, a₃] = some R) ∧
    (getRootFromMerkleProof H [a₀, a₁, a₂, a₃] valHashPath h = some R ↔
      computeHashFromAunts H VALIDATORS_HASH_INDEX HEADER_FIELDS h [a₀, a₁, a₂, a₃] = some R) ∧
    (getRootFromMerkleProof H [a₀, a₁, a₂, a₃] nextValHashPath h = some R ↔
      computeHashFromAunts H NEXT_VALIDATORS_HASH_INDEX HEADER_FIELDS h [a₀, a₁, a₂, a₃] =
        some R) ∧
    (getRootFromMerkleProof H [a₀, a₁, a₂, a₃] lastBlockIdPath h = some R ↔
      computeHashFromAunts H LAST_BLOCK_ID_INDEX HEADER_FIELDS h [a₀, a₁, a₂, a₃] = some R) :=
  ⟨inclusion_check_iff H (by decide) leafPath_dataHash rfl _ _ _ _ _ _,
    inclusion_check_iff H (by decide) leafPath_validatorsHash rfl _ _ _ _ _ _,
    inclusion_check_iff H (by decide) leafPath_nextValidatorsHash rfl _ _ _ _ _ _,
    inclusion_check_iff H (by decide) leafPath_lastBlockId rfl _ _ _ _ _ _⟩

end BlobstreamX.Circuit
