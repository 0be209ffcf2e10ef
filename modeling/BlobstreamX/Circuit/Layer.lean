import BlobstreamX.Merkle.Proofs

namespace BlobstreamX.Circuit

open BlobstreamX.Merkle

variable {β α : Type} (H : MerkleHash β α)

/-- One pass of `hash_merkle_layer` at `i`: the parent of the pair at `i`, `i + 1` written in place
at `i / 2`, the left hash unless both are enabled. Reading past the vectors panics. -/
def hashMerklePair (hashes : List α) (enabled : List Bool) (i : Nat) :
    Option (List α × List Bool) := do
  let left ← hashes[i]?
  let right ← hashes[i + 1]?
  let leftEnabled ← enabled[i]?
  let rightEnabled ← enabled[i + 1]?
  let bothNodesEnabled := leftEnabled && rightEnabled
  let bothNodesDisabled := !leftEnabled && !rightEnabled
  pure (hashes.set (i / 2) (if bothNodesEnabled then H.innerHash left right else left),
    enabled.set (i / 2) (if bothNodesDisabled then false else true))

/-- `hash_merkle_layer`: `hashMerklePair` at `i = 0, 2, 4, …` below `num_hashes`. -/
def hashMerkleLayer (hashes : List α) (enabled : List Bool) (numHashes : Nat) :
    Option (List α × List Bool) :=
  (List.range' 0 ((numHashes + 1) / 2) 2).foldlM
    (fun acc i => hashMerklePair H acc.1 acc.2 i) (hashes, enabled)

/-- The layer loop of `hash_validator_set` and `get_data_commitment`: hash the layer and halve
its size while it has more than one node. -/
def hashMerkleLayers (hashes : List α) (enabled : List Bool) (merkleLayerSize : Nat) :
    Option (List α × List Bool) :=
  if merkleLayerSize > 1 then do
    let next ← hashMerkleLayer H hashes enabled merkleLayerSize
    hashMerkleLayers next.1 next.2 (merkleLayerSize / 2)
  else some (hashes, enabled)
termination_by merkleLayerSize
decreasing_by simp_wf; omega

theorem hashMerkleLayers_of_le_one (hashes : List α) (enabled : List Bool) {size : Nat}
    (h : size ≤ 1) : hashMerkleLayers H hashes enabled size = some (hashes, enabled) := by
  rw [hashMerkleLayers, if_neg (by omega)]

theorem hashMerkleLayers_of_one_lt (hashes : List α) (enabled : List Bool) {size : Nat}
    (h : 1 < size) :
    hashMerkleLayers H hashes enabled size = (hashMerkleLayer H hashes enabled size).bind
      fun next => hashMerkleLayers H next.1 next.2 (size / 2) := by
  rw [hashMerkleLayers, if_pos h]
  rfl

section Closed

variable {P : α → Prop}

theorem hashMerklePair_forall (hP : ∀ a b, P a → P b → P (H.innerHash a b)) {hs : List α}
    {en : List Bool} {i : Nat} {s : List α × List Bool} (h : hashMerklePair H hs en i = some s)
    (hall : ∀ x ∈ hs, P x) : ∀ x ∈ s.1, P x := by
  simp only [hashMerklePair, Option.bind_eq_bind, Option.bind_eq_some, Option.pure_def,
    Option.some.injEq] at h
  obtain ⟨l, hl, r, hr, -, -, -, -, rfl⟩ := h
  intro x hx
  rcases List.mem_or_eq_of_mem_set hx with hx | rfl
  · exact hall x hx
  · split
    · exact hP _ _ (hall _ (List.getElem?_mem hl)) (hall _ (List.getElem?_mem hr))
    · exact hall _ (List.getElem?_mem hl)

theorem foldlM_hashMerklePair_forall (hP : ∀ a b, P a → P b → P (H.innerHash a b)) :
    ∀ (is : List Nat) {acc s : List α × List Bool},
      is.foldlM (fun acc i => hashMerklePair H acc.1 acc.2 i) acc = some s →
      (∀ x ∈ acc.1, P x) → ∀ x ∈ s.1, P x
  | [], _, _, h, hall => by cases h; exact hall
  | i :: is, _, _, h, hall => by
    rw [List.foldlM_cons] at h
    obtain ⟨a, ha, h⟩ := Option.bind_eq_some.mp h
    exact foldlM_hashMerklePair_forall hP is h (hashMerklePair_forall H hP ha hall)

theorem hashMerkleLayers_forall (hP : ∀ a b, P a → P b → P (H.innerHash a b)) :
    ∀ (size : Nat) {hs : List α} {en : List Bool} {s : List α × List Bool},
      hashMerkleLayers H hs en size = some s → (∀ x ∈ hs, P x) → ∀ x ∈ s.1, P x := by
  intro size
  induction size using Nat.strong_induction_on with
  | _ size ih =>
  intro hs en s h hall
  rcases Nat.lt_or_ge 1 size with hsize | hsize
  · rw [hashMerkleLayers_of_one_lt H hs en hsize] at h
    obtain ⟨next, hnext, h⟩ := Option.bind_eq_some.mp h
    exact ih (size / 2) (by omega) h
      (foldlM_hashMerklePair_forall H hP _ hnext hall)
  · rw [hashMerkleLayers_of_le_one H hs en hsize] at h
    cases h
    exact hall

end Closed

/-- The parents of a layer, computed pair by pair without writing in place. -/
def layerUp : List α → List Bool → List α × List Bool
  | l :: r :: hashes, el :: er :: enabled =>
    ((if el && er then H.innerHash l r else l) :: (layerUp hashes enabled).1,
      (if !el && !er then false else true) :: (layerUp hashes enabled).2)
  | _, _ => ([], [])

theorem layerUp_concat {hs : List α} {en : List Bool} (hl : hs.length = en.length)
    (he : hs.length % 2 = 0) (l r : α) (el er : Bool) :
    layerUp H (hs ++ [l, r]) (en ++ [el, er]) =
      ((layerUp H hs en).1 ++ [if el && er then H.innerHash l r else l],
        (layerUp H hs en).2 ++ [if !el && !er then false else true]) := by
  induction hs, en using layerUp.induct H with
  | case1 l' r' hs el' er' en ih =>
    simp only [List.length_cons, Nat.add_right_cancel_iff] at hl
    simp only [List.cons_append]
    simp only [layerUp, ih hl (by simp at he; omega), List.cons_append]
  | case2 hs en hne =>
    match hs, en, hl with
    | [], [], _ => rfl
    | [_], [_], _ => simp at he
    | _ :: _ :: _, _ :: _ :: _, _ => exact (hne _ _ _ _ _ _ rfl rfl).elim

theorem length_layerUp {hs : List α} {en : List Bool} (hl : hs.length = en.length) :
    (layerUp H hs en).1.length = hs.length / 2 ∧ (layerUp H hs en).2.length = hs.length / 2 := by
  induction hs, en using layerUp.induct H with
  | case1 l r hs el er en ih =>
    simp only [List.length_cons, Nat.add_right_cancel_iff] at hl
    simp only [layerUp, List.length_cons, ih hl]
    omega
  | case2 hs en hne =>
    match hs, en, hl with
    | [], [], _ => simp [layerUp]
    | [_], [_], _ => simp [layerUp]
    | _ :: _ :: _, _ :: _ :: _, _ => exact (hne _ _ _ _ _ _ rfl rfl).elim

def layerState (hs : List α) (en : List Bool) (j : Nat) : List α × List Bool :=
  ((layerUp H (hs.take (2 * j)) (en.take (2 * j))).1 ++ hs.drop j,
    (layerUp H (hs.take (2 * j)) (en.take (2 * j))).2 ++ en.drop j)

theorem layerState_zero (hs : List α) (en : List Bool) : layerState H hs en 0 = (hs, en) := by
  simp [layerState, layerUp]

section InPlace

variable {γ : Type} {j : Nat}

theorem getElem?_append_drop {Q L : List γ} (hQ : Q.length = j) {i : Nat} (hi : j ≤ i) :
    (Q ++ L.drop j)[i]? = L[i]? := by
  rw [List.getElem?_append_right (by omega), List.getElem?_drop, hQ, Nat.add_sub_cancel' hi]

theorem set_append_drop {Q L : List γ} (hQ : Q.length = j) (h : j < L.length) (x : γ) :
    (Q ++ L.drop j).set j x = Q ++ x :: L.drop (j + 1) := by
  rw [List.set_append_right _ _ (by omega), List.drop_eq_getElem_cons h, hQ, Nat.sub_self,
    List.set_cons_zero]

theorem take_two_mul_succ {L : List γ} (h : 2 * j + 1 < L.length) :
    L.take (2 * (j + 1)) = L.take (2 * j) ++ [L[2 * j], L[2 * j + 1]] := by
  rw [Nat.mul_succ, List.take_add, List.drop_eq_getElem_cons (by omega),
    List.drop_eq_getElem_cons h]
  rfl

end InPlace

/-- Pass `j` reads a pair that no earlier pass wrote over, and writes its parent after the
first `j`. -/
theorem hashMerklePair_layerState {hs : List α} {en : List Bool} (hl : hs.length = en.length)
    {j : Nat} (hj : 2 * j + 1 < hs.length) :
    hashMerklePair H (layerState H hs en j).1 (layerState H hs en j).2 (2 * j) =
      some (layerState H hs en (j + 1)) := by
  have hTE : (hs.take (2 * j)).length = (en.take (2 * j)).length := by
    rw [List.length_take, List.length_take, hl]
  have hP := length_layerUp H hTE
  rw [List.length_take, Nat.min_eq_left (by omega), Nat.mul_div_cancel_left _ two_pos] at hP
  simp only [hashMerklePair, layerState, getElem?_append_drop hP.1 (show j ≤ 2 * j by omega),
    getElem?_append_drop hP.2 (show j ≤ 2 * j by omega),
    getElem?_append_drop hP.1 (show j ≤ 2 * j + 1 by omega),
    getElem?_append_drop hP.2 (show j ≤ 2 * j + 1 by omega),
    List.getElem?_eq_getElem (show 2 * j < hs.length by omega),
    List.getElem?_eq_getElem (show 2 * j < en.length by omega),
    List.getElem?_eq_getElem hj, List.getElem?_eq_getElem (show 2 * j + 1 < en.length by omega),
    Option.bind_eq_bind, Option.some_bind, Option.pure_def, Nat.mul_div_cancel_left j two_pos,
    set_append_drop (L := hs) hP.1 (by omega), set_append_drop (L := en) hP.2 (by omega),
    take_two_mul_succ hj, take_two_mul_succ (show 2 * j + 1 < en.length by omega),
    layerUp_concat H hTE (by rw [List.length_take, Nat.min_eq_left (by omega)]; omega),
    List.append_assoc,
    List.singleton_append]

theorem foldlM_hashMerklePair {hs : List α} {en : List Bool} (hl : hs.length = en.length) :
    ∀ (m j : Nat), 2 * (j + m) ≤ hs.length →
      (List.range' (2 * j) m 2).foldlM (fun acc i => hashMerklePair H acc.1 acc.2 i)
        (layerState H hs en j) = some (layerState H hs en (j + m))
  | 0, j, _ => rfl
  | m + 1, j, h => by
    rw [List.range'_succ, List.foldlM_cons, hashMerklePair_layerState H hl (by omega)]
    show List.foldlM _ _ _ = _
    rw [show 2 * j + 2 = 2 * (j + 1) by omega, foldlM_hashMerklePair hl m (j + 1) (by omega),
      Nat.add_right_comm j 1 m]
    rfl

theorem hashMerkleLayer_eq {hs : List α} {en : List Bool} (hl : hs.length = en.length) {n : Nat}
    (hn : n % 2 = 0) (hle : n ≤ hs.length) :
    hashMerkleLayer H hs en n = some (layerState H hs en (n / 2)) := by
  have h := foldlM_hashMerklePair H hl (n / 2) 0 (by omega)
  rw [layerState_zero, Nat.zero_add] at h
  rw [hashMerkleLayer, show (n + 1) / 2 = n / 2 by omega]
  exact h

def layerUps : Nat → List α → List Bool → List α × List Bool
  | 0, hs, en => (hs, en)
  | d + 1, hs, en => layerUps d (layerUp H hs en).1 (layerUp H hs en).2

/-- The layer loop on `2 ^ d` slots computes the `d` levels of parents above them. -/
theorem hashMerkleLayers_eq {hs : List α} {en : List Bool} (hl : hs.length = en.length) {d : Nat}
    (hd : 2 ^ d ≤ hs.length) :
    ∃ t₁ t₂, hashMerkleLayers H hs en (2 ^ d) =
      some ((layerUps H d (hs.take (2 ^ d)) (en.take (2 ^ d))).1 ++ t₁,
        (layerUps H d (hs.take (2 ^ d)) (en.take (2 ^ d))).2 ++ t₂) := by
  induction d generalizing hs en with
  | zero =>
    refine ⟨hs.drop 1, en.drop 1, ?_⟩
    simp only [hashMerkleLayers_of_le_one H hs en (le_refl 1), layerUps, pow_zero,
      List.take_append_drop]
  | succ d ih =>
    rw [Nat.pow_succ'] at hd ⊢
    have hP := length_layerUp H
      (show (hs.take (2 * 2 ^ d)).length = (en.take (2 * 2 ^ d)).length by
        rw [List.length_take, List.length_take, hl])
    rw [List.length_take, Nat.min_eq_left hd, Nat.mul_div_cancel_left _ two_pos] at hP
    obtain ⟨t₁, t₂, h⟩ := ih
      (show (layerState H hs en (2 ^ d)).1.length = (layerState H hs en (2 ^ d)).2.length by
        simp only [layerState, List.length_append, List.length_drop, hP.1, hP.2, hl])
      (show 2 ^ d ≤ (layerState H hs en (2 ^ d)).1.length by
        simp only [layerState, List.length_append, hP.1]; omega)
    refine ⟨t₁, t₂, ?_⟩
    rw [hashMerkleLayers_of_one_lt H _ _ (by have := Nat.one_le_two_pow (n := d); omega),
      hashMerkleLayer_eq H hl (by omega) hd, Nat.mul_div_cancel_left _ two_pos]
    simpa [layerUps, layerState, List.take_left' hP.1, List.take_left' hP.2] using h

/-- One level of the simple Merkle tree bottom up: consecutive pairs joined, a last odd node
moved up alone. -/
def pairUp : List α → List α
  | l :: r :: rest => H.innerHash l r :: pairUp rest
  | hs => hs

theorem length_pairUp (hs : List α) : (pairUp H hs).length = (hs.length + 1) / 2 := by
  induction hs using pairUp.induct H with
  | case1 l r rest ih => simp only [pairUp, List.length_cons, ih]; omega
  | case2 hs hne =>
    match hs, hne with
    | [], _ => simp [pairUp]
    | [_], _ => simp [pairUp]
    | _ :: _ :: _, hne => exact (hne _ _ _ rfl).elim

theorem pairUp_append {hs : List α} (he : hs.length % 2 = 0) (rest : List α) :
    pairUp H (hs ++ rest) = pairUp H hs ++ pairUp H rest := by
  induction hs using pairUp.induct H with
  | case1 l r hs ih =>
    simp only [List.length_cons] at he
    simp only [List.cons_append]
    simp only [pairUp, ih (by omega), List.cons_append]
  | case2 hs hne =>
    match hs, hne with
    | [], _ => rfl
    | [_], _ => simp at he
    | _ :: _ :: _, hne => exact (hne _ _ _ rfl).elim

/-- The split points are powers of two, so joining consecutive pairs keeps the simple Merkle root. -/
theorem merkleRoot_pairUp {hs : List α} (hne : hs ≠ []) :
    merkleRoot H (pairUp H hs) = merkleRoot H hs := by
  induction' hn : hs.length using Nat.strong_induction_on with n ih generalizing hs
  rcases (show n = 1 ∨ n = 2 ∨ 3 ≤ n by have := List.length_pos.mpr hne; omega) with
    rfl | rfl | h3
  · obtain ⟨a, rfl⟩ := List.length_eq_one.mp hn
    rfl
  · obtain ⟨a, b, rfl⟩ := List.length_eq_two.mp hn
    have h2 : getSplitPoint 2 = 1 := getSplitPoint_two_pow 0
    simp [pairUp, merkleRoot_of_two_le H (show 2 ≤ [a, b].length from le_refl 2), h2,
      merkleRoot_singleton]
  · obtain ⟨hhalf, k, hk⟩ := getSplitPoint_half h3
    have hlt := getSplitPoint_lt (n := n) (by omega)
    have hpos := getSplitPoint_pos (n := n) (by omega)
    have htake : (hs.take (getSplitPoint n)).length = getSplitPoint n := by simp; omega
    have hpair := pairUp_append H (show (hs.take (getSplitPoint n)).length % 2 = 0 by omega)
      (hs.drop (getSplitPoint n))
    rw [List.take_append_drop] at hpair
    have hleft : (pairUp H (hs.take (getSplitPoint n))).length = getSplitPoint n / 2 := by
      rw [length_pairUp, htake]; omega
    rw [merkleRoot_of_two_le H (show 2 ≤ (pairUp H hs).length by rw [length_pairUp]; omega),
      length_pairUp, hn, hhalf, hpair, List.take_left' hleft, List.drop_left' hleft,
      merkleRoot_of_two_le H (show 2 ≤ hs.length by omega), hn,
      ih _ hlt (List.ne_nil_of_length_pos (by omega)) htake,
      ih (n - getSplitPoint n) (by omega) (List.ne_nil_of_length_pos (by simp; omega)) (by simp [hn])]

def prefixEnabled (m n : Nat) : List Bool := List.replicate m true ++ List.replicate (n - m) false

@[simp] theorem length_prefixEnabled {m n : Nat} (h : m ≤ n) : (prefixEnabled m n).length = n := by
  simp [prefixEnabled]; omega

@[simp] theorem prefixEnabled_zero_succ (n : Nat) :
    prefixEnabled 0 (n + 1) = false :: prefixEnabled 0 n := rfl

@[simp] theorem prefixEnabled_succ_succ (m n : Nat) :
    prefixEnabled (m + 1) (n + 1) = true :: prefixEnabled m n := by
  simp [prefixEnabled, List.replicate_succ]

theorem layerUp_prefixEnabled : ∀ (hs : List α) (m : Nat), hs.length % 2 = 0 → m ≤ hs.length →
    (layerUp H hs (prefixEnabled m hs.length)).2 = prefixEnabled ((m + 1) / 2) (hs.length / 2) ∧
      (layerUp H hs (prefixEnabled m hs.length)).1.take ((m + 1) / 2) = pairUp H (hs.take m)
  | [], m, _, hm => by
    obtain rfl : m = 0 := by simpa using hm
    simp [layerUp, prefixEnabled, pairUp]
  | [_], _, he, _ => by simp at he
  | a :: b :: rest, 0, he, _ => by
    simp only [List.length_cons] at he
    have ih := layerUp_prefixEnabled rest 0 (by omega) (Nat.zero_le _)
    simp only [List.length_cons, prefixEnabled_zero_succ, layerUp.eq_1, Bool.not_false, Bool.and_self,
      ↓reduceIte, ih.1, Nat.reduceDiv, show (rest.length + 1 + 1) / 2 = rest.length / 2 + 1 by omega,
      prefixEnabled_zero_succ, Bool.false_eq_true, List.take_zero, zero_add, true_and]
    rfl
  | a :: b :: rest, 1, he, _ => by
    simp only [List.length_cons] at he
    have ih := layerUp_prefixEnabled rest 0 (by omega) (Nat.zero_le _)
    simp only [List.length_cons, prefixEnabled_zero_succ, prefixEnabled_succ_succ, layerUp.eq_1,
      Bool.not_true, Bool.not_false, Bool.and_true, Bool.false_eq_true, ↓reduceIte, ih.1,
      Nat.reduceDiv, Nat.reduceAdd, show (rest.length + 1 + 1) / 2 = rest.length / 2 + 1 by omega,
      Bool.and_false, List.take_succ_cons, List.take_zero, zero_add, true_and]
    rfl
  | a :: b :: rest, m + 2, he, hm => by
    simp only [List.length_cons] at he hm
    have ih := layerUp_prefixEnabled rest m (by omega) (by omega)
    simp only [List.length_cons, prefixEnabled_succ_succ, layerUp.eq_1, Bool.not_true, Bool.and_self,
      Bool.false_eq_true, ↓reduceIte, ih.1, ih.2, List.take_succ_cons, pairUp.eq_1, and_self,
      show (m + 2 + 1) / 2 = (m + 1) / 2 + 1 by omega,
      show (rest.length + 1 + 1) / 2 = rest.length / 2 + 1 by omega]

theorem layerUps_prefixEnabled : ∀ (d : Nat) {hs : List α} {m : Nat}, hs.length = 2 ^ d →
    0 < m → m ≤ 2 ^ d →
    layerUps H d hs (prefixEnabled m (2 ^ d)) = ([merkleRoot H (hs.take m)], [true])
  | 0, hs, m, hl, hm, hmd => by
    obtain ⟨a, rfl⟩ := List.length_eq_one.mp hl
    obtain rfl : m = 1 := by simp at hmd; omega
    simp [layerUps, prefixEnabled, merkleRoot_singleton]
  | d + 1, hs, m, hl, hm, hmd => by
    rw [Nat.pow_succ] at hl hmd ⊢
    have hup := layerUp_prefixEnabled H hs m (by omega) (by omega)
    have hlen := (length_layerUp H
      (show hs.length = (prefixEnabled m hs.length).length from
        (length_prefixEnabled (by omega)).symm)).1
    rw [hl, Nat.mul_div_cancel _ two_pos] at hup hlen
    rw [layerUps, hup.1, layerUps_prefixEnabled d hlen (by omega) (by omega), hup.2,
      merkleRoot_pairUp H (List.ne_nil_of_length_pos (by simp; omega))]

/-- With the first `m` of `2 ^ d` slots enabled, slot 0 ends holding the simple Merkle root of the
first `m` hashes. -/
theorem hashMerkleLayers_prefix_root {d : Nat} {hs : List α} (hlen : hs.length = 2 ^ d) {m : Nat}
    (hm : 0 < m) (hmd : m ≤ 2 ^ d) :
    ∃ s, hashMerkleLayers H hs (prefixEnabled m (2 ^ d)) (2 ^ d) = some s ∧
      s.1[0]? = some (merkleRoot H (hs.take m)) ∧ s.2[0]? = some true := by
  have hmask := length_prefixEnabled hmd
  obtain ⟨t₁, t₂, h⟩ := hashMerkleLayers_eq H
    (show hs.length = (prefixEnabled m (2 ^ d)).length by rw [hlen, hmask]) hlen.ge
  rw [List.take_of_length_le hlen.le, List.take_of_length_le hmask.le,
    layerUps_prefixEnabled H d hlen hm hmd] at h
  exact ⟨_, h, by simp, by simp⟩

theorem hashMerkleLayers_prefix_root_four :
    [HashTerm.leaf [0], .leaf [1], .leaf [2], .leaf [3]].length = 2 ^ 2 ∧ 0 < 3 ∧ 3 ≤ 2 ^ 2 ∧
      ∃ s, hashMerkleLayers termHash [.leaf [0], .leaf [1], .leaf [2], .leaf [3]]
          (prefixEnabled 3 (2 ^ 2)) (2 ^ 2) = some s ∧
        s.1[0]? = some (merkleRoot termHash [.leaf [0], .leaf [1], .leaf [2]]) ∧
        s.2[0]? = some true :=
  ⟨rfl, by decide, by decide, hashMerkleLayers_prefix_root termHash
    (show [HashTerm.leaf [0], .leaf [1], .leaf [2], .leaf [3]].length = 2 ^ 2 from rfl)
    (by decide) (by decide)⟩

/-- With only slot 1 of `2 ^ (d + 1)` enabled, the loop passes slot 0's hash up, marked enabled. -/
theorem hashMerkleLayers_disabled_left {d : Nat} {a b : α} {rest : List α}
    (hlen : rest.length + 2 = 2 ^ (d + 1)) :
    ∃ s, hashMerkleLayers H (a :: b :: rest) (false :: true :: prefixEnabled 0 rest.length)
        (2 ^ (d + 1)) = some s ∧ s.1[0]? = some (merkleRoot H [a]) ∧ s.2[0]? = some true := by
  have h2d : 2 ^ d = rest.length / 2 + 1 := by rw [Nat.pow_succ] at hlen; omega
  have hmask : (false :: true :: prefixEnabled 0 rest.length).length = 2 ^ (d + 1) := by
    simpa [length_prefixEnabled] using hlen
  have hX := (layerUp_prefixEnabled H rest 0 (by rw [Nat.pow_succ] at hlen; omega)
    (Nat.zero_le _)).1
  have hXlen := (length_layerUp H
    (show rest.length = (prefixEnabled 0 rest.length).length from
      (length_prefixEnabled (Nat.zero_le _)).symm)).1
  have hup : layerUp H (a :: b :: rest) (false :: true :: prefixEnabled 0 rest.length) =
      (a :: (layerUp H rest (prefixEnabled 0 rest.length)).1, prefixEnabled 1 (2 ^ d)) := by
    rw [layerUp, hX, h2d, prefixEnabled_succ_succ]
    rfl
  obtain ⟨t₁, t₂, h⟩ := hashMerkleLayers_eq H
    (show (a :: b :: rest).length = (false :: true :: prefixEnabled 0 rest.length).length by
      rw [hmask]; exact hlen) hlen.ge
  rw [List.take_of_length_le hlen.le, List.take_of_length_le hmask.le, layerUps, hup,
    layerUps_prefixEnabled H d (by simp [hXlen]; omega) (by decide) Nat.one_le_two_pow] at h
  exact ⟨_, h, by simp, by simp⟩

theorem hashMerkleLayers_root_of_disabled_slot :
    ∃ s, hashMerkleLayers termHash [.leaf [0], .leaf [1]] [false, true] 2 = some s ∧
      s.1[0]? = some (merkleRoot termHash [.leaf [0]]) ∧ s.2[0]? = some true ∧
      [HashTerm.leaf [0]] ≠ [.leaf [1]] := by
  obtain ⟨s, h, hroot, hen⟩ := hashMerkleLayers_disabled_left termHash (d := 0)
    (a := .leaf [0]) (b := .leaf [1]) (show ([] : List HashTerm).length + 2 = 2 ^ (0 + 1) from rfl)
  exact ⟨s, h, hroot, hen, by decide⟩

end BlobstreamX.Circuit
