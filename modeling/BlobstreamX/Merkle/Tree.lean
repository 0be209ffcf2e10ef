import BlobstreamX.Merkle.SplitPoint
import Mathlib.Data.List.Basic

namespace BlobstreamX.Merkle

/-- A hasher (`Sha256` in the source): the hash of no leaves, of a leaf and of an inner node. -/
structure MerkleHash (β α : Type) where
  emptyHash : α
  leafHash : β → α
  innerHash : α → α → α

/-- The free hasher: a hash is the term that built it, so different trees never collide. -/
inductive HashTerm where
  | empty
  | leaf (bytes : List Nat)
  | inner (left right : HashTerm)
deriving DecidableEq, Repr

def termHash : MerkleHash (List Nat) HashTerm := ⟨.empty, .leaf, .inner⟩

theorem termHash_innerHash_injective : Function.Injective2 termHash.innerHash :=
  fun _ _ _ _ h => HashTerm.inner.inj h

variable {β α : Type} (H : MerkleHash β α)

/-- The simple Merkle root of a list of leaf hashes, split at `get_split_point`. -/
def merkleRoot : List α → α
  | [] => H.emptyHash
  | [h] => h
  | a :: b :: rest =>
    H.innerHash (merkleRoot ((a :: b :: rest).take (getSplitPoint (a :: b :: rest).length)))
      (merkleRoot ((a :: b :: rest).drop (getSplitPoint (a :: b :: rest).length)))
termination_by hs => hs.length
decreasing_by
  all_goals simp_wf
  all_goals have := getSplitPoint_pos (n := rest.length + 1 + 1) (by omega)
  all_goals have := getSplitPoint_lt (n := rest.length + 1 + 1) (by omega)
  all_goals omega

/-- tendermint-rs `simple_hash_from_byte_vectors`. -/
def simpleHashFromByteVectors (items : List β) : α := merkleRoot H (items.map H.leafHash)

theorem merkleRoot_singleton (h : α) : merkleRoot H [h] = h := by
  rw [merkleRoot]

theorem merkleRoot_of_two_le {hs : List α} (h : 2 ≤ hs.length) :
    merkleRoot H hs = H.innerHash (merkleRoot H (hs.take (getSplitPoint hs.length)))
      (merkleRoot H (hs.drop (getSplitPoint hs.length))) := by
  match hs, h with
  | a :: b :: rest, _ => rw [merkleRoot]

/-- A map that carries one hasher's inner hash to another's carries the simple Merkle root along. -/
theorem merkleRoot_map {γ δ : Type} {H' : MerkleHash γ δ} (f : α → δ)
    (hf : ∀ a b, H'.innerHash (f a) (f b) = f (H.innerHash a b)) {hs : List α} (hne : hs ≠ []) :
    merkleRoot H' (hs.map f) = f (merkleRoot H hs) := by
  induction hs using merkleRoot.induct H with
  | case1 => exact absurd rfl hne
  | case2 h => simp only [List.map_cons, List.map_nil, merkleRoot_singleton]
  | case3 a b rest ihl ihr =>
    have hk := getSplitPoint_pos (n := (a :: b :: rest).length) (by simp)
    have hlt := getSplitPoint_lt (n := (a :: b :: rest).length) (by simp)
    rw [merkleRoot_of_two_le H' (by simp), merkleRoot_of_two_le H (by simp), List.length_map,
      ← List.map_take, ← List.map_drop,
      ihl (List.ne_nil_of_length_pos (by rw [List.length_take]; omega)),
      ihr (List.ne_nil_of_length_pos (by rw [List.length_drop]; omega)), hf]

theorem merkleRoot_forall {P : α → Prop} (hP : ∀ a b, P a → P b → P (H.innerHash a b))
    {hs : List α} (hne : hs ≠ []) (hall : ∀ x ∈ hs, P x) : P (merkleRoot H hs) := by
  induction hs using merkleRoot.induct H with
  | case1 => exact absurd rfl hne
  | case2 h => exact (merkleRoot_singleton H h).symm ▸ hall h (List.mem_singleton_self h)
  | case3 a b rest ihl ihr =>
    have hk := getSplitPoint_pos (n := (a :: b :: rest).length) (by simp)
    have hlt := getSplitPoint_lt (n := (a :: b :: rest).length) (by simp)
    rw [merkleRoot_of_two_le H (by simp)]
    exact hP _ _
      (ihl (List.ne_nil_of_length_pos (by rw [List.length_take]; omega))
        fun x hx => hall x (List.mem_of_mem_take hx))
      (ihr (List.ne_nil_of_length_pos (by rw [List.length_drop]; omega))
        fun x hx => hall x (List.mem_of_mem_drop hx))

/-- A node of the proof tree of `trails_from_byte_slices`, its sibling's hash kept in `left` or
`right`; the `parent` links are the order of a `Trail`. -/
structure ProofNode (α : Type) where
  hash : α
  left : Option α
  right : Option α
deriving DecidableEq, Repr

def ProofNode.ofHash (h : α) : ProofNode α := ⟨h, none, none⟩

/-- What `flatten_aunts` pushes for one node: its left sibling, else its right one. -/
def ProofNode.aunt (n : ProofNode α) : Option α :=
  match n.left with
  | some l => some l
  | none => n.right

@[simp] theorem ProofNode.hash_ofHash (h : α) : (ProofNode.ofHash h).hash = h := rfl

@[simp] theorem ProofNode.aunt_ofHash (h : α) : (ProofNode.ofHash h).aunt = none := rfl

def ProofNode.withRight (r : α) (n : ProofNode α) : ProofNode α := { n with right := some r }

def ProofNode.withLeft (l : α) (n : ProofNode α) : ProofNode α := { n with left := some l }

theorem ProofNode.aunt_withRight {n : ProofNode α} (h : n.aunt = none) (r : α) :
    (n.withRight r).aunt = some r := by
  unfold aunt at h ⊢; split at h <;> simp_all [withRight]

@[simp] theorem ProofNode.aunt_withLeft (n : ProofNode α) (l : α) : (n.withLeft l).aunt = some l :=
  rfl

/-- A trail of `trails_from_byte_slices`: the leaf node and its `parent` links, from the current
root down. -/
structure Trail (α : Type) where
  leaf : ProofNode α
  ancestors : List (ProofNode α)

def Trail.top (t : Trail α) : ProofNode α := t.ancestors.headD t.leaf

/-- Linking a finished subtree under `parent`: its root gets its sibling and its `parent` pointer. -/
def Trail.adopt (link : ProofNode α → ProofNode α) (parent : ProofNode α) (t : Trail α) :
    Trail α :=
  match t.ancestors with
  | [] => ⟨link t.leaf, [parent]⟩
  | top :: below => ⟨t.leaf, parent :: link top :: below⟩

/-- `flatten_aunts`: from the leaf up along the `parent` links, collect each node's aunt. -/
def flattenAunts (t : Trail α) : List α := (t.leaf :: t.ancestors.reverse).filterMap ProofNode.aunt

@[simp] theorem Trail.top_adopt (link : ProofNode α → ProofNode α) (parent : ProofNode α)
    (t : Trail α) : (t.adopt link parent).top = parent := by
  unfold Trail.adopt; split <;> rfl

theorem Trail.leaf_hash_adopt (link : ProofNode α → ProofNode α) (hl : ∀ n, (link n).hash = n.hash)
    (parent : ProofNode α) (t : Trail α) : (t.adopt link parent).leaf.hash = t.leaf.hash := by
  unfold Trail.adopt; split
  · exact hl _
  · rfl

theorem filterMap_cons_eq_append {γ δ : Type} (f : γ → Option δ) (a : γ) (l : List γ) :
    (a :: l).filterMap f = (f a).toList ++ l.filterMap f := by
  cases h : f a <;> simp [List.filterMap_cons, h]

theorem flattenAunts_adopt (link : ProofNode α → ProofNode α) (parent : ProofNode α)
    {t : Trail α} (h : t.top.aunt = none) :
    flattenAunts (t.adopt link parent) =
      flattenAunts t ++ ((link t.top).aunt.toList ++ parent.aunt.toList) := by
  unfold Trail.adopt flattenAunts
  unfold Trail.top at h ⊢
  split <;> rename_i hn <;> simp only [hn, List.headD_nil, List.headD_cons] at h ⊢
  · simp [filterMap_cons_eq_append, h]
  · simp [filterMap_cons_eq_append, List.filterMap_append, h]

/-- `trails_from_byte_slices`: the trails of the leaves, in order, and the root node. -/
def trailsFromByteSlices : List β → List (Trail α) × ProofNode α
  | [] => ([], .ofHash H.emptyHash)
  | [x] => ([⟨.ofHash (H.leafHash x), []⟩], .ofHash (H.leafHash x))
  | a :: b :: rest =>
    let k := getSplitPoint (a :: b :: rest).length
    let lefts := trailsFromByteSlices ((a :: b :: rest).take k)
    let rights := trailsFromByteSlices ((a :: b :: rest).drop k)
    let root := ProofNode.ofHash (H.innerHash lefts.2.hash rights.2.hash)
    (lefts.1.map (Trail.adopt (ProofNode.withRight rights.2.hash) root) ++
      rights.1.map (Trail.adopt (ProofNode.withLeft lefts.2.hash) root), root)
termination_by items => items.length
decreasing_by
  all_goals simp_wf
  all_goals have := getSplitPoint_pos (n := rest.length + 1 + 1) (by omega)
  all_goals have := getSplitPoint_lt (n := rest.length + 1 + 1) (by omega)
  all_goals omega

theorem trailsFromByteSlices_of_two_le {items : List β} (h : 2 ≤ items.length) :
    trailsFromByteSlices H items =
      let lefts := trailsFromByteSlices H (items.take (getSplitPoint items.length))
      let rights := trailsFromByteSlices H (items.drop (getSplitPoint items.length))
      let root := ProofNode.ofHash (H.innerHash lefts.2.hash rights.2.hash)
      (lefts.1.map (Trail.adopt (ProofNode.withRight rights.2.hash) root) ++
        rights.1.map (Trail.adopt (ProofNode.withLeft lefts.2.hash) root), root) := by
  match items, h with
  | a :: b :: rest, _ => rw [trailsFromByteSlices]

/-- A Merkle inclusion proof (`Proof` of `merkle.rs`). -/
structure Proof (α : Type) where
  total : Nat
  index : Nat
  leafHash : α
  aunts : List α
deriving DecidableEq, Repr

/-- `proofs_from_byte_slices`: the root hash and one proof per leaf. -/
def proofsFromByteSlices (items : List β) : α × List (Proof α) :=
  let trails := trailsFromByteSlices H items
  (trails.2.hash, trails.1.mapIdx fun i t => ⟨items.length, i, t.leaf.hash, flattenAunts t⟩)

/-- `compute_hash_from_aunts`: rebuild the root from a leaf hash and its aunts, the last aunt being
the sibling at the top. `None` on a malformed proof. -/
def computeHashFromAunts (index total : Nat) (leafHash : α) (innerHashes : List α) : Option α :=
  if index ≥ total ∨ total = 0 then none
  else if total = 1 then
    if innerHashes.isEmpty then some leafHash else none
  else
    match innerHashes.getLast? with
    | none => none
    | some last =>
      if index < getSplitPoint total then
        (computeHashFromAunts index (getSplitPoint total) leafHash innerHashes.dropLast).map
          (H.innerHash · last)
      else
        (computeHashFromAunts (index - getSplitPoint total) (total - getSplitPoint total)
          leafHash innerHashes.dropLast).map (H.innerHash last ·)
termination_by total
decreasing_by
  all_goals simp_wf
  all_goals have := getSplitPoint_pos (n := total) (by omega)
  all_goals have := getSplitPoint_lt (n := total) (by omega)
  all_goals omega

theorem computeHashFromAunts_of_le {index total : Nat} (h : total ≤ index) (leafHash : α)
    (innerHashes : List α) : computeHashFromAunts H index total leafHash innerHashes = none := by
  rw [computeHashFromAunts, if_pos (.inl h)]

theorem computeHashFromAunts_one (leafHash : α) (innerHashes : List α) :
    computeHashFromAunts H 0 1 leafHash innerHashes =
      if innerHashes.isEmpty then some leafHash else none := by
  rw [computeHashFromAunts]; simp

theorem computeHashFromAunts_nil {index total : Nat} (h : 2 ≤ total) (leafHash : α) :
    computeHashFromAunts H index total leafHash [] = none := by
  rw [computeHashFromAunts]; simp only [List.getLast?_nil]; split_ifs <;> simp_all

theorem computeHashFromAunts_concat {index total : Nat} (h : 2 ≤ total) (hi : index < total)
    (leafHash : α) (aunts : List α) (top : α) :
    computeHashFromAunts H index total leafHash (aunts ++ [top]) =
      if index < getSplitPoint total then
        (computeHashFromAunts H index (getSplitPoint total) leafHash aunts).map (H.innerHash · top)
      else
        (computeHashFromAunts H (index - getSplitPoint total) (total - getSplitPoint total)
          leafHash aunts).map (H.innerHash top ·) := by
  rw [computeHashFromAunts, if_neg (by omega), if_neg (by omega)]
  simp only [List.getLast?_concat, List.dropLast_concat]

/-- How `Proof::verify` ends: `Ok(())`, one of its two errors, or the panic of its `expect`. -/
inductive VerifyOutcome (α : Type) where
  | ok
  | invalidLeafHash (wanted got : α)
  | invalidRootHash (wanted got : α)
  | panicked (msg : String)
deriving DecidableEq, Repr

def Proof.computeRootHash (p : Proof α) : Option α :=
  computeHashFromAunts H p.index p.total p.leafHash p.aunts

/-- `Proof::verify`. -/
def Proof.verify [DecidableEq α] (p : Proof α) (rootHash : α) (leaf : β) : VerifyOutcome α :=
  let leafHash := H.leafHash leaf
  if p.leafHash ≠ leafHash then .invalidLeafHash leafHash p.leafHash
  else
    match p.computeRootHash H with
    | none => .panicked "failed to compute root hash"
    | some computedHash =>
      if computedHash ≠ rootHash then .invalidRootHash rootHash computedHash else .ok

end BlobstreamX.Merkle
