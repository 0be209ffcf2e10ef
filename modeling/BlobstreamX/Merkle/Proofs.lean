import BlobstreamX.Merkle.Tree

namespace BlobstreamX.Merkle

variable {β α : Type} (H : MerkleHash β α)

theorem simpleHash_of_two_le {items : List β} (h : 2 ≤ items.length) :
    simpleHashFromByteVectors H items =
      H.innerHash (simpleHashFromByteVectors H (items.take (getSplitPoint items.length)))
        (simpleHashFromByteVectors H (items.drop (getSplitPoint items.length))) := by
  unfold simpleHashFromByteVectors
  rw [merkleRoot_of_two_le H (by simpa using h)]
  simp [List.map_take, List.map_drop]

/-- What `trails_from_byte_slices` hands out for leaf `i`: a trail from its hash, its top still
unlinked, whose aunts rebuild the simple Merkle root. -/
structure TrailOf (items : List β) (i : Nat) (t : Trail α) : Prop where
  leaf : items[i]?.map H.leafHash = some t.leaf.hash
  top : t.top.aunt = none
  root : computeHashFromAunts H i items.length t.leaf.hash (flattenAunts t) =
    some (simpleHashFromByteVectors H items)

theorem TrailOf.adopt_left {items : List β} (h2 : 2 ≤ items.length) {i : Nat} {t : Trail α}
    (ht : TrailOf H (items.take (getSplitPoint items.length)) i t)
    (hi : i < getSplitPoint items.length) :
    TrailOf H items i (t.adopt
      (ProofNode.withRight (simpleHashFromByteVectors H (items.drop (getSplitPoint items.length))))
      (.ofHash (simpleHashFromByteVectors H items))) := by
  have hk := getSplitPoint_lt h2
  refine ⟨?_, by simp, ?_⟩
  · rw [Trail.leaf_hash_adopt (ProofNode.withRight _) (fun _ => rfl), ← ht.leaf, List.getElem?_take_of_lt hi]
  · have hroot := ht.root
    rw [List.length_take_of_le hk.le] at hroot
    rw [Trail.leaf_hash_adopt (ProofNode.withRight _) (fun _ => rfl), flattenAunts_adopt _ _ ht.top]
    simp only [ProofNode.aunt_withRight ht.top, ProofNode.aunt_ofHash, Option.toList_some,
      Option.toList_none, List.append_nil]
    rw [computeHashFromAunts_concat H h2 (by omega), if_pos hi, hroot, simpleHash_of_two_le H h2]
    rfl

theorem TrailOf.adopt_right {items : List β} (h2 : 2 ≤ items.length) {i : Nat} {t : Trail α}
    (ht : TrailOf H (items.drop (getSplitPoint items.length)) (i - getSplitPoint items.length) t)
    (hi : getSplitPoint items.length ≤ i) (hn : i < items.length) :
    TrailOf H items i (t.adopt
      (ProofNode.withLeft (simpleHashFromByteVectors H (items.take (getSplitPoint items.length))))
      (.ofHash (simpleHashFromByteVectors H items))) := by
  refine ⟨?_, by simp, ?_⟩
  · rw [Trail.leaf_hash_adopt (ProofNode.withLeft _) (fun _ => rfl), ← ht.leaf, List.getElem?_drop,
      Nat.add_sub_cancel' hi]
  · have hroot := ht.root
    rw [List.length_drop] at hroot
    rw [Trail.leaf_hash_adopt (ProofNode.withLeft _) (fun _ => rfl), flattenAunts_adopt _ _ ht.top]
    simp only [ProofNode.aunt_withLeft, ProofNode.aunt_ofHash, Option.toList_some,
      Option.toList_none, List.append_nil]
    rw [computeHashFromAunts_concat H h2 hn, if_neg (by omega), hroot, simpleHash_of_two_le H h2]
    rfl

/-- `trails_from_byte_slices` on a non-empty list: the root node holds the simple Merkle root, and
each leaf's trail rebuilds it. -/
theorem trailsFromByteSlices_spec (items : List β) (hne : items ≠ []) :
    (trailsFromByteSlices H items).2 = .ofHash (simpleHashFromByteVectors H items) ∧
    (trailsFromByteSlices H items).1.length = items.length ∧
    ∀ i t, (trailsFromByteSlices H items).1[i]? = some t → TrailOf H items i t := by
  induction items using trailsFromByteSlices.induct H with
  | case1 => exact absurd rfl hne
  | case2 x =>
    refine ⟨by simp [trailsFromByteSlices, simpleHashFromByteVectors, merkleRoot_singleton], by
      simp [trailsFromByteSlices], ?_⟩
    intro i t ht
    cases i with
    | zero =>
      simp only [trailsFromByteSlices, List.getElem?_cons_zero, Option.some.injEq] at ht
      subst ht
      refine ⟨rfl, rfl, ?_⟩
      simp [flattenAunts, computeHashFromAunts_one, simpleHashFromByteVectors, merkleRoot_singleton]
    | succ i => simp [trailsFromByteSlices] at ht
  | case3 a b rest k ihl ihr =>
    dsimp only [k] at ihl ihr
    generalize hitems : a :: b :: rest = items at ihl ihr ⊢
    have h2 : 2 ≤ items.length := by rw [← hitems]; simp
    have hk0 := getSplitPoint_pos h2
    have hk := getSplitPoint_lt h2
    obtain ⟨hlr, hll, hlt⟩ := ihl (List.ne_nil_of_length_pos (by simp; omega))
    obtain ⟨hrr, hrl, hrt⟩ := ihr (List.ne_nil_of_length_pos (by simp; omega))
    rw [List.length_take_of_le hk.le] at hll
    rw [List.length_drop] at hrl
    rw [trailsFromByteSlices_of_two_le H h2]
    simp only [hlr, hrr, ProofNode.hash_ofHash, ← simpleHash_of_two_le H h2]
    refine ⟨trivial, ?_, ?_⟩
    · simp only [List.length_append, List.length_map, hll, hrl]; omega
    intro i t ht
    rcases Nat.lt_or_ge i (getSplitPoint items.length) with hi | hi
    · rw [List.getElem?_append_left (by simp [hll]; omega), List.getElem?_map] at ht
      obtain ⟨t0, h0, rfl⟩ := Option.map_eq_some'.mp ht
      exact (hlt i t0 h0).adopt_left H h2 hi
    · rw [List.getElem?_append_right (by simp [hll]; omega), List.getElem?_map] at ht
      obtain ⟨t0, h0, rfl⟩ := Option.map_eq_some'.mp ht
      simp only [List.length_map, hll] at h0
      have hn := (List.getElem?_eq_some_iff.mp h0).1
      rw [hrl] at hn
      exact (hrt _ t0 h0).adopt_right H h2 hi (by omega)

theorem proofsFromByteSlices_root {items : List β} (hne : items ≠ []) :
    (proofsFromByteSlices H items).1 = simpleHashFromByteVectors H items := by
  simp [proofsFromByteSlices, (trailsFromByteSlices_spec H items hne).1]

theorem proofsFromByteSlices_length {items : List β} (hne : items ≠ []) :
    (proofsFromByteSlices H items).2.length = items.length := by
  simp [proofsFromByteSlices, (trailsFromByteSlices_spec H items hne).2.1]

theorem proofsFromByteSlices_proof {items : List β} (hne : items ≠ []) {i : Nat}
    (hi : i < items.length) :
    ∃ p, (proofsFromByteSlices H items).2[i]? = some p ∧ p.total = items.length ∧ p.index = i ∧
      p.leafHash = H.leafHash items[i] ∧
      computeHashFromAunts H i items.length p.leafHash p.aunts =
        some (proofsFromByteSlices H items).1 := by
  obtain ⟨-, hlen, htr⟩ := trailsFromByteSlices_spec H items hne
  obtain ⟨t, ht⟩ : ∃ t, (trailsFromByteSlices H items).1[i]? = some t :=
    ⟨_, List.getElem?_eq_getElem (by omega)⟩
  have hto := htr i t ht
  have hleaf : t.leaf.hash = H.leafHash items[i] := by
    simpa [List.getElem?_eq_getElem hi] using hto.leaf.symm
  exact ⟨⟨items.length, i, t.leaf.hash, flattenAunts t⟩, by simp [proofsFromByteSlices, ht], rfl, rfl,
    hleaf, by rw [proofsFromByteSlices_root H hne]; exact hto.root⟩

/-- `Proof::verify` accepts exactly a matching leaf whose aunts rebuild the root. -/
theorem Proof.verify_eq_ok_iff [DecidableEq α] (p : Proof α) (root : α) (leaf : β) :
    p.verify H root leaf = .ok ↔
      p.leafHash = H.leafHash leaf ∧ p.computeRootHash H = some root := by
  unfold Proof.verify
  by_cases hl : p.leafHash = H.leafHash leaf <;> simp only [hl, ne_eq, not_true, not_false_iff,
    if_false, if_true, true_and, false_and, reduceCtorEq]
  split <;> simp_all

/-- What `proofs_from_byte_slices` returns: the simple Merkle root and, for each leaf, a proof that
`compute_hash_from_aunts` and `Proof::verify` accept. -/
structure ProofsOf [DecidableEq α] (items : List β) (out : α × List (Proof α)) : Prop where
  root : out.1 = simpleHashFromByteVectors H items
  length : out.2.length = items.length
  proof : ∀ i (hi : i < items.length), ∃ p, out.2[i]? = some p ∧ p.total = items.length ∧
    p.index = i ∧ p.leafHash = H.leafHash items[i] ∧
    computeHashFromAunts H i items.length (H.leafHash items[i]) p.aunts = some out.1 ∧
    p.verify H out.1 items[i] = .ok

theorem proofsFromByteSlices_correct [DecidableEq α] (items : List β) (hne : items ≠ []) :
    ProofsOf H items (proofsFromByteSlices H items) := by
  refine ⟨proofsFromByteSlices_root H hne, proofsFromByteSlices_length H hne, fun i hi => ?_⟩
  obtain ⟨p, hp, htot, hidx, hleaf, hc⟩ := proofsFromByteSlices_proof H hne hi
  refine ⟨p, hp, htot, hidx, hleaf, hleaf ▸ hc, ?_⟩
  rw [Proof.verify_eq_ok_iff]
  exact ⟨hleaf, by rw [Proof.computeRootHash, htot, hidx, hc]⟩

theorem proofsFromByteSlices_correct_three :
    [[1], [2], [3]] ≠ [] ∧
      ProofsOf termHash [[1], [2], [3]] (proofsFromByteSlices termHash [[1], [2], [3]]) :=
  ⟨by decide, proofsFromByteSlices_correct termHash _ (by decide)⟩

/-- A proof of an empty tree whose leaf hash matches makes `Proof::verify` panic. -/
theorem verify_panics_of_total_zero :
    (⟨0, 0, termHash.leafHash [1], []⟩ : Proof HashTerm).verify termHash .empty [1] =
      .panicked "failed to compute root hash" := by
  simp [Proof.verify, Proof.computeRootHash, computeHashFromAunts_of_le]

theorem computeHashFromAunts_eq_some_of_two_le {i n : Nat} {h r : α} {a : List α} (h2 : 2 ≤ n)
    (hc : computeHashFromAunts H i n h a = some r) :
    ∃ a0 top, a = a0 ++ [top] ∧ i < n ∧
      (if i < getSplitPoint n then
        (computeHashFromAunts H i (getSplitPoint n) h a0).map (H.innerHash · top)
      else
        (computeHashFromAunts H (i - getSplitPoint n) (n - getSplitPoint n) h a0).map
          (H.innerHash top ·)) = some r := by
  have hi : i < n := by
    by_contra hni
    rw [computeHashFromAunts_of_le H (by omega)] at hc
    cases hc
  rcases List.eq_nil_or_concat a with rfl | ⟨a0, top, rfl⟩
  · rw [computeHashFromAunts_nil H h2] at hc; cases hc
  · rw [List.concat_eq_append, computeHashFromAunts_concat H h2 hi] at hc
    exact ⟨a0, top, List.concat_eq_append a0 top, hi, hc⟩

/-- With an injective inner hash, a root determines the leaf hash and the aunts that rebuild it. -/
theorem computeHashFromAunts_inj (hinj : Function.Injective2 H.innerHash) :
    ∀ {n i : Nat} {h h' r : α} {a a' : List α}, computeHashFromAunts H i n h a = some r →
      computeHashFromAunts H i n h' a' = some r → h = h' ∧ a = a' := by
  intro n
  induction n using Nat.strong_induction_on with
  | _ n ih =>
  intro i h h' r a a' hc hc'
  rcases Nat.lt_or_ge n 2 with hn | hn
  · have hi : i < n := by
      by_contra hni
      rw [computeHashFromAunts_of_le H (by omega)] at hc
      cases hc
    obtain ⟨rfl, rfl⟩ : n = 1 ∧ i = 0 := by omega
    cases a <;> cases a' <;>
      simp only [computeHashFromAunts_one, List.isEmpty_nil, List.isEmpty_cons, reduceIte,
        Bool.false_eq_true, Option.some.injEq, reduceCtorEq] at hc hc'
    exact ⟨hc.trans hc'.symm, rfl⟩
  · obtain ⟨a0, top, rfl, hi, hc⟩ := computeHashFromAunts_eq_some_of_two_le H hn hc
    obtain ⟨a0', top', rfl, -, hc'⟩ := computeHashFromAunts_eq_some_of_two_le H hn hc'
    have hk := getSplitPoint_lt hn
    have hk0 := getSplitPoint_pos hn
    split at hc <;> rename_i hside <;> simp only [hside, if_true, if_false] at hc'
    · obtain ⟨r0, hr0, rfl⟩ := Option.map_eq_some'.mp hc
      obtain ⟨r0', hr0', he⟩ := Option.map_eq_some'.mp hc'
      obtain ⟨rfl, rfl⟩ := hinj he
      obtain ⟨rfl, rfl⟩ := ih _ hk hr0 hr0'
      exact ⟨rfl, rfl⟩
    · obtain ⟨r0, hr0, rfl⟩ := Option.map_eq_some'.mp hc
      obtain ⟨r0', hr0', he⟩ := Option.map_eq_some'.mp hc'
      obtain ⟨rfl, rfl⟩ := hinj he
      obtain ⟨rfl, rfl⟩ := ih _ (by omega) hr0 hr0'
      exact ⟨rfl, rfl⟩

/-- A proof for position `i` that rebuilds the root authenticates only the leaf at `i`, with its
own aunts. -/
theorem computeHashFromAunts_binding (hinj : Function.Injective2 H.innerHash) (items : List β)
    (hne : items ≠ []) (i : Nat) (hi : i < items.length) (h : α) (a : List α)
    (hc : computeHashFromAunts H i items.length h a = some (proofsFromByteSlices H items).1) :
    h = H.leafHash items[i] ∧ (proofsFromByteSlices H items).2[i]?.map Proof.aunts = some a := by
  obtain ⟨p, hp, -, -, hleaf, hpc⟩ := proofsFromByteSlices_proof H hne hi
  obtain ⟨rfl, rfl⟩ := computeHashFromAunts_inj H hinj hc hpc
  exact ⟨hleaf, by simp [hp]⟩

theorem computeHashFromAunts_binding_three :
    Function.Injective2 termHash.innerHash ∧ [[1], [2], [3]] ≠ [] ∧ 2 < [[1], [2], [3]].length ∧
      computeHashFromAunts termHash 2 3 (.leaf [3]) [.inner (.leaf [1]) (.leaf [2])] =
        some (proofsFromByteSlices termHash [[1], [2], [3]]).1 ∧
      (HashTerm.leaf [3] = termHash.leafHash [3] ∧
        (proofsFromByteSlices termHash [[1], [2], [3]]).2[2]?.map Proof.aunts =
          some [.inner (.leaf [1]) (.leaf [2])]) := by
  have hc : computeHashFromAunts termHash 2 3 (.leaf [3]) [.inner (.leaf [1]) (.leaf [2])] =
      some (proofsFromByteSlices termHash [[1], [2], [3]]).1 := by
    simp [computeHashFromAunts, proofsFromByteSlices, trailsFromByteSlices, getSplitPoint,
      Nat.log2.eq_1, termHash]
  exact ⟨termHash_innerHash_injective, by decide, by decide, hc,
    computeHashFromAunts_binding termHash termHash_innerHash_injective [[1], [2], [3]] (by decide) 2
      (by decide) _ _ hc⟩

end BlobstreamX.Merkle
