import BlobstreamX.Merkle.Proofs

namespace BlobstreamX.Merkle

variable {β α : Type} (H : MerkleHash β α)

def getPathIndices.loop (currentIndex currentTotal : Nat) : List Bool :=
  if currentTotal ≥ 1 then
    (currentIndex % 2 == 1) :: getPathIndices.loop (currentIndex / 2) (currentTotal / 2)
  else []
termination_by currentTotal
decreasing_by simp_wf; omega

/-- `get_path_indices`: the bits of `index` while `total - 1` has bits left. `total = 0`
underflows in the source and is never passed. -/
def getPathIndices (index total : Nat) : List Bool := getPathIndices.loop index (total - 1)

/-- `get_root_from_merkle_proof`: fold the aunts into the leaf hash, the path bit saying whether
the running hash is the right child. A shorter path panics. -/
def getRootFromMerkleProof : (aunts : List α) → (pathIndices : List Bool) → (hashSoFar : α) →
    Option α
  | [], _, hashSoFar => some hashSoFar
  | aunt :: aunts, pathIndex :: pathIndices, hashSoFar =>
    getRootFromMerkleProof aunts pathIndices
      (if pathIndex then H.innerHash aunt hashSoFar else H.innerHash hashSoFar aunt)
  | _ :: _, [], _ => none

/-- The side of leaf `index` at each level of the `total`-leaf tree, from the leaf up. -/
def leafPath (index total : Nat) : List Bool :=
  if total ≤ 1 then []
  else if index < getSplitPoint total then leafPath index (getSplitPoint total) ++ [false]
  else leafPath (index - getSplitPoint total) (total - getSplitPoint total) ++ [true]
termination_by total
decreasing_by
  all_goals simp_wf
  all_goals have := getSplitPoint_pos (n := total) (by omega)
  all_goals have := getSplitPoint_lt (n := total) (by omega)
  all_goals omega

theorem getRootFromMerkleProof_concat {aunts : List α} {path : List Bool} (hl : aunts.length = path.length)
    (top : α) (bit : Bool) (h : α) :
    getRootFromMerkleProof H (aunts ++ [top]) (path ++ [bit]) h =
      (getRootFromMerkleProof H aunts path h).map
        (fun r => if bit then H.innerHash top r else H.innerHash r top) := by
  induction aunts generalizing path h with
  | nil =>
    cases path with
    | nil => rfl
    | cons _ _ => simp at hl
  | cons aunt aunts ih =>
    cases path with
    | nil => simp at hl
    | cons b path => exact ih (by simpa using hl) _

theorem getRootFromMerkleProof_map {γ δ : Type} {H' : MerkleHash γ δ} (f : α → δ)
    (hf : ∀ a b, H'.innerHash (f a) (f b) = f (H.innerHash a b)) :
    ∀ (aunts : List α) (path : List Bool) (h : α),
      getRootFromMerkleProof H' (aunts.map f) path (f h) =
        (getRootFromMerkleProof H aunts path h).map f
  | [], _, _ => rfl
  | _ :: _, [], _ => rfl
  | a :: aunts, b :: path, h => by
    have hstep : (if b then H'.innerHash (f a) (f h) else H'.innerHash (f h) (f a)) =
        f (if b then H.innerHash a h else H.innerHash h a) := by
      cases b <;> simp only [hf, if_true, if_false, Bool.false_eq_true]
    simp only [List.map_cons, getRootFromMerkleProof, hstep]
    exact getRootFromMerkleProof_map f hf aunts path _

theorem leafPath_of_le_one {index total : Nat} (h : total ≤ 1) : leafPath index total = [] := by
  rw [leafPath, if_pos h]

theorem leafPath_of_two_le {index total : Nat} (h : 2 ≤ total) :
    leafPath index total =
      if index < getSplitPoint total then leafPath index (getSplitPoint total) ++ [false]
      else leafPath (index - getSplitPoint total) (total - getSplitPoint total) ++ [true] := by
  rw [leafPath, if_neg (by omega)]

/-- `compute_hash_from_aunts` accepts exactly the aunt lists of the leaf's depth, and computes
the fold of `get_root_from_merkle_proof` along the leaf's path. -/
theorem computeHashFromAunts_eq_some_iff {n i : Nat} (hi : i < n) (h r : α) (a : List α) :
    computeHashFromAunts H i n h a = some r ↔
      a.length = (leafPath i n).length ∧ getRootFromMerkleProof H a (leafPath i n) h = some r := by
  induction n using Nat.strong_induction_on generalizing i a r with
  | _ n ih =>
  rcases Nat.lt_or_ge n 2 with hn | hn
  · obtain ⟨rfl, rfl⟩ : n = 1 ∧ i = 0 := by omega
    rw [computeHashFromAunts_one, leafPath_of_le_one le_rfl]
    cases a <;> simp [getRootFromMerkleProof]
  have hk := getSplitPoint_lt hn
  have hk0 := getSplitPoint_pos hn
  constructor
  · intro hc
    obtain ⟨a0, top, rfl, -, hc⟩ := computeHashFromAunts_eq_some_of_two_le H hn hc
    rw [leafPath_of_two_le hn]
    split at hc <;> rename_i hside <;> simp only [hside, if_true, if_false]
    · obtain ⟨r0, hr0, rfl⟩ := Option.map_eq_some'.mp hc
      obtain ⟨hl, hg⟩ := (ih _ hk hside r0 a0).mp hr0
      simp [hl, getRootFromMerkleProof_concat H hl, hg]
    · obtain ⟨r0, hr0, rfl⟩ := Option.map_eq_some'.mp hc
      obtain ⟨hl, hg⟩ := (ih _ (by omega) (by omega) r0 a0).mp hr0
      simp [hl, getRootFromMerkleProof_concat H hl, hg]
  · rintro ⟨hl, hg⟩
    rcases List.eq_nil_or_concat a with rfl | ⟨a0, top, rfl⟩
    · rw [leafPath_of_two_le hn] at hl; split at hl <;> simp at hl
    simp only [List.concat_eq_append] at hl hg ⊢
    rw [computeHashFromAunts_concat H hn hi]
    rw [leafPath_of_two_le hn] at hl hg
    split <;> rename_i hside <;> simp only [hside, if_true, if_false] at hl hg
    · simp only [List.length_append, List.length_singleton, Nat.add_right_cancel_iff] at hl
      rw [getRootFromMerkleProof_concat H hl] at hg
      obtain ⟨r0, hr0, rfl⟩ := Option.map_eq_some'.mp hg
      simp [(ih _ hk hside r0 a0).mpr ⟨hl, hr0⟩]
    · simp only [List.length_append, List.length_singleton, Nat.add_right_cancel_iff] at hl
      rw [getRootFromMerkleProof_concat H hl] at hg
      obtain ⟨r0, hr0, rfl⟩ := Option.map_eq_some'.mp hg
      simp [(ih _ (by omega) (by omega) r0 a0).mpr ⟨hl, hr0⟩]

theorem getPathIndices.loop_eq (currentIndex currentTotal : Nat) :
    getPathIndices.loop currentIndex currentTotal =
      (List.range (if currentTotal = 0 then 0 else currentTotal.log2 + 1)).map
        currentIndex.testBit := by
  induction currentTotal using Nat.strong_induction_on generalizing currentIndex with
  | _ t ih =>
  rw [getPathIndices.loop]
  split
  · rename_i ht
    have hlog : (if t / 2 = 0 then 0 else (t / 2).log2 + 1) = t.log2 := by
      rw [Nat.log2.eq_1 t]
      split <;> split <;> omega
    rw [ih (t / 2) (by omega), hlog, if_neg (show ¬t = 0 by omega), List.range_succ_eq_map,
      List.map_cons, List.map_map]
    congr 1
    · exact Bool.eq_iff_iff.mpr (by simp)
    · exact List.map_congr_left (fun j _ => Nat.testBit_div_two _ _)
  · rw [if_pos (by omega)]; rfl

theorem getPathIndices_eq (index total : Nat) :
    getPathIndices index total =
      (List.range (if total ≤ 1 then 0 else (total - 1).log2 + 1)).map index.testBit := by
  rw [getPathIndices, getPathIndices.loop_eq]
  congr 2
  split <;> split <;> omega

theorem length_getPathIndices (index total : Nat) :
    (getPathIndices index total).length = if total ≤ 1 then 0 else (total - 1).log2 + 1 := by
  simp [getPathIndices_eq]

theorem length_getPathIndices_le {total b : Nat} (h : total ≤ 2 ^ b) (index : Nat) :
    (getPathIndices index total).length ≤ b := by
  rw [length_getPathIndices]
  split
  · omega
  · have := (Nat.log2_lt (n := total - 1) (by omega)).mpr (by omega : total - 1 < 2 ^ b)
    omega

theorem length_getPathIndices_of_isSplit {k total b : Nat} (hs : IsSplit k total) (hk : k = 2 ^ b)
    (index : Nat) : (getPathIndices index total).length = b + 1 := by
  have hlt := hs.lt
  have hle := hs.le_two_mul
  rw [length_getPathIndices, if_neg (by have := hs.pos; omega)]
  have h1 := (Nat.le_log2 (n := total - 1) (k := b) (by omega)).mpr (by omega)
  have h2 := (Nat.log2_lt (n := total - 1) (k := b + 1) (by omega)).mpr
    (by rw [Nat.pow_succ]; omega)
  omega

theorem length_leafPath_le {n i : Nat} (hi : i < n) :
    (leafPath i n).length ≤ (getPathIndices i n).length := by
  induction n using Nat.strong_induction_on generalizing i with
  | _ n ih =>
  rcases Nat.lt_or_ge n 2 with hn | hn
  · simp [leafPath_of_le_one (by omega : n ≤ 1)]
  have hs := getSplitPoint_isSplit hn
  obtain ⟨b, hb⟩ := hs.pow
  rw [leafPath_of_two_le hn, length_getPathIndices_of_isSplit hs hb]
  split
  · rename_i hside
    have := ih _ hs.lt hside
    have := length_getPathIndices_le (le_of_eq hb) i
    simp only [List.length_append, List.length_singleton]
    omega
  · have := ih _ (by have := hs.pos; omega) (by omega : i - getSplitPoint n < n - getSplitPoint n)
    have := length_getPathIndices_le (by have := hs.le_two_mul; omega : n - getSplitPoint n ≤ 2 ^ b)
      (i - getSplitPoint n)
    simp only [List.length_append, List.length_singleton]
    omega

/-- At the full depth of the tree a leaf's path is what `get_path_indices` emits. -/
theorem leafPath_eq_getPathIndices {n i : Nat} (hi : i < n)
    (hfull : (leafPath i n).length = (getPathIndices i n).length) :
    leafPath i n = getPathIndices i n := by
  induction n using Nat.strong_induction_on generalizing i with
  | _ n ih =>
  rcases Nat.lt_or_ge n 2 with hn | hn
  · rw [leafPath_of_le_one (by omega), getPathIndices_eq, if_pos (by omega)]; rfl
  have hs := getSplitPoint_isSplit hn
  obtain ⟨b, hb⟩ := hs.pow
  have hk0 := hs.pos
  have hlen := length_getPathIndices_of_isSplit hs hb i
  rw [hlen, leafPath_of_two_le hn] at hfull
  rw [leafPath_of_two_le hn, getPathIndices_eq, if_neg (show ¬n ≤ 1 by omega)]
  have hlog : (n - 1).log2 + 1 = b + 1 := by
    have := length_getPathIndices_of_isSplit hs hb i
    rwa [length_getPathIndices, if_neg (show ¬n ≤ 1 by omega)] at this
  rw [hlog, List.range_succ, List.map_append]
  by_cases hside : i < getSplitPoint n <;> simp only [hside, if_true, if_false] at hfull ⊢
  · simp only [List.length_append, List.length_singleton, Nat.add_right_cancel_iff] at hfull
    have hk : (getPathIndices i (getSplitPoint n)).length = b := by
      have := length_getPathIndices_le (le_of_eq hb) i
      have := length_leafPath_le hside
      omega
    rw [ih _ hs.lt hside (by omega), getPathIndices_eq, ← length_getPathIndices, hk]
    simp [Nat.testBit_lt_two_pow (by omega : i < 2 ^ b)]
  · simp only [List.length_append, List.length_singleton, Nat.add_right_cancel_iff] at hfull
    obtain ⟨x, rfl⟩ : ∃ x, i = getSplitPoint n + x := ⟨i - getSplitPoint n, by omega⟩
    simp only [Nat.add_sub_cancel_left] at hfull ⊢
    have hr : x < n - getSplitPoint n := by omega
    have hx : x < 2 ^ b := by have := hs.le_two_mul; omega
    have hk : (getPathIndices x (n - getSplitPoint n)).length = b := by
      have := length_getPathIndices_le (by have := hs.le_two_mul; omega : n - getSplitPoint n ≤ 2 ^ b) x
      have := length_leafPath_le hr
      omega
    rw [ih _ (by omega) hr (by omega), getPathIndices_eq, ← length_getPathIndices, hk, hb]
    simp only [List.map_cons, List.map_nil, Nat.testBit_two_pow_add_eq, Nat.testBit_lt_two_pow hx,
      Bool.not_false]
    congr 1
    exact List.map_congr_left fun j hj => (Nat.testBit_two_pow_add_gt (List.mem_range.mp hj) x).symm

theorem computeHashFromAunts_eq_some_iff_getPathIndices {n i : Nat} (hi : i < n)
    (hfull : (leafPath i n).length = (getPathIndices i n).length) (h r : α) (a : List α) :
    computeHashFromAunts H i n h a = some r ↔
      a.length = (getPathIndices i n).length ∧
        getRootFromMerkleProof H a (getPathIndices i n) h = some r := by
  rw [computeHashFromAunts_eq_some_iff H hi, leafPath_eq_getPathIndices hi hfull]

theorem computeHashFromAunts_eq_some_iff_getPathIndices_seven :
    7 < 14 ∧ (leafPath 7 14).length = (getPathIndices 7 14).length ∧
      (computeHashFromAunts termHash 7 14 (.leaf [7]) [.leaf [6], .leaf [4], .leaf [0], .leaf [8]] =
          some (.inner (.inner (.leaf [0]) (.inner (.leaf [4]) (.inner (.leaf [6]) (.leaf [7]))))
            (.leaf [8])) ↔
        [HashTerm.leaf [6], .leaf [4], .leaf [0], .leaf [8]].length = (getPathIndices 7 14).length ∧
          getRootFromMerkleProof termHash [.leaf [6], .leaf [4], .leaf [0], .leaf [8]]
              (getPathIndices 7 14) (.leaf [7]) =
            some (.inner (.inner (.leaf [0]) (.inner (.leaf [4]) (.inner (.leaf [6]) (.leaf [7]))))
              (.leaf [8]))) := by
  have hfull : (leafPath 7 14).length = (getPathIndices 7 14).length := by
    simp [leafPath, getSplitPoint, Nat.log2.eq_1, getPathIndices_eq]
  exact ⟨by decide, hfull,
    computeHashFromAunts_eq_some_iff_getPathIndices termHash (by decide) hfull _ _ _⟩

/-- Leaf 2 of a 3-leaf tree sits one level up, but `get_path_indices` emits two bits: the
circuit's fold and the verifier disagree. -/
theorem getPathIndices_shallow_leaf :
    ¬(computeHashFromAunts termHash 2 3 (.leaf [3]) [.leaf [12]] =
        some (.inner (.leaf [12]) (.leaf [3])) ↔
      [HashTerm.leaf [12]].length = (getPathIndices 2 3).length ∧
        getRootFromMerkleProof termHash [.leaf [12]] (getPathIndices 2 3) (.leaf [3]) =
          some (.inner (.leaf [12]) (.leaf [3]))) := by
  have hc : computeHashFromAunts termHash 2 3 (.leaf [3]) [.leaf [12]] =
      some (.inner (.leaf [12]) (.leaf [3])) := by
    simp [computeHashFromAunts, getSplitPoint, Nat.log2.eq_1, termHash]
  have hl : (getPathIndices 2 3).length = 2 := by
    simp [length_getPathIndices, Nat.log2.eq_1]
  simp [hc, hl]

end BlobstreamX.Merkle
