import Citrea.Proofs.BatchProof.Circuit

/-!
# `Citrea.Proofs.BatchProof.TxMerkle`: the hash of a block determines its transactions

The header of a block has the merkle root over the transactions, and the hash of the block is the
hash of the header. From `Fork3` on, the hash of a leaf and the hash of a pair of nodes have
different separators, so the root determines the leaves (`carryRoot_inj`) and with them the
transactions. Before `Fork3` the digest of a transaction could also be the hash of two nodes.
-/

namespace Citrea.Proofs.BatchProof

open List Lib Citrea.Spec Citrea.Spec.BatchProof

variable {H Tx : Type}

/-- No two strings have the same hash, no two transactions have the same digest, and the root for
no transactions is not a hash with a separator. -/
structure TxMerkleEnv.CollisionFree (env : TxMerkleEnv H Tx) : Prop where
  separated : Function.Injective env.separated
  computeDigest : Function.Injective env.computeDigest
  emptyTxRoot : ∀ x, env.separated x ≠ env.emptyTxRoot

section
variable {env : TxMerkleEnv H Tx} {root : H}

/-- The hash of a leaf. -/
def leafHash (env : TxMerkleEnv H Tx) (tx : Tx) : H :=
  env.separated (.leaf (env.computeDigest tx))

theorem TxMerkleEnv.CollisionFree.leafHash_injective (h : TxMerkleEnv.CollisionFree env) :
    Function.Injective (leafHash env) := by
  intro tx tx' heq
  have hdigest := SeparatedInput.leaf.inj (h.separated heq)
  exact h.computeDigest hdigest

/-- The separators keep the leaves apart from the nodes. -/
theorem TxMerkleEnv.CollisionFree.leaf_ne_node (h : TxMerkleEnv.CollisionFree env) (txs : List Tx) :
    ∀ x ∈ txs.map (leafHash env), ∀ a b, x ≠ env.separated (.node a b) := by
  intro x hx a b heq
  obtain ⟨tx, -, rfl⟩ := mem_map.mp hx
  cases h.separated heq

theorem TxMerkleEnv.CollisionFree.node_inj (h : TxMerkleEnv.CollisionFree env) (a b c d : H)
    (heq : env.separated (.node a b) = env.separated (.node c d)) : a = c ∧ b = d :=
  SeparatedInput.node.inj (h.separated heq)

/-- A root over transactions spans a leaf or two nodes, so it is a hash with a separator. -/
theorem exists_separated_of_spans {l : List H} (hl : ∀ x ∈ l, ∃ y, x = env.separated y)
    (h : Spans (fun a b => env.separated (.node a b)) l root) : ∃ y, root = env.separated y := by
  cases h with
  | leaf _ _ => exact hl _ (by simp)
  | node hleft hright => exact ⟨_, rfl⟩

/-- What `verify_tx_merkle_root` accepts from `Fork3` on. -/
theorem verifyTxMerkleRoot_eq_true [DecidableEq H] {txs : List Tx} {spec : SpecId}
    (hspec : SpecId.fork3.toNat ≤ spec.toNat)
    (h : verifyTxMerkleRoot env txs root spec = .ok true) : (txs = [] ∧ root = env.emptyTxRoot) ∨
      carryRoot (fun a b => env.separated (.node a b)) (txs.map (leafHash env)) = some root := by
  have hhashes : computeTxHashes env txs spec = txs.map (leafHash env) := by
    rw [computeTxHashes, if_pos hspec]
    rfl
  rw [verifyTxMerkleRoot, hhashes, computeTxMerkleRoot, bind_eq_ok] at h
  obtain ⟨computed, hcomputed, heq⟩ := h
  obtain rfl : computed = root := by
    simpa [pure_eq_ok] using heq
  by_cases hnil : txs = []
  · subst hnil
    have hvalue : pure env.emptyTxRoot = (Except.ok computed : Outcome Empty H) := hcomputed
    exact .inl ⟨rfl, (pure_eq_ok.mp hvalue).symm⟩
  · have hne : (txs.map (leafHash env)).isEmpty = false := by simpa using hnil
    rw [hne, if_neg (by simp), if_pos hspec, expect_eq_ok] at hcomputed
    exact .inr hcomputed

/-- The tree over transactions always has a root, so `verify_tx_merkle_root` does not panic. -/
theorem verifyTxMerkleRoot_returns [DecidableEq H] (txs : List Tx) (root : H) (spec : SpecId) :
    ∃ accepted, verifyTxMerkleRoot env txs root spec = .ok accepted := by
  have hroot : ∃ computed, computeTxMerkleRoot env (computeTxHashes env txs spec) spec =
      .ok computed := by
    unfold computeTxMerkleRoot
    by_cases hnil : computeTxHashes env txs spec = []
    · exact ⟨env.emptyTxRoot, by simp [hnil, pure_eq_ok]⟩
    · have hne : (computeTxHashes env txs spec).isEmpty = false := by simpa using hnil
      rw [hne, if_neg (by simp)]
      -- Both hash functions build a tree of the same shape.
      have hsome : ∀ node : H → H → H, ∃ computed, expect
          (carryRoot node (computeTxHashes env txs spec)) "Couldn't compute merkle root" =
            (.ok computed : Outcome Empty H) := by
        intro node
        obtain ⟨computed, hcomputed⟩ := Option.isSome_iff_exists.mp (carryRoot_isSome hnil)
        exact ⟨computed, expect_eq_ok.mpr hcomputed⟩
      split
      all_goals exact hsome _
  obtain ⟨computed, hcomputed⟩ := hroot
  exact ⟨computed = root, by rw [verifyTxMerkleRoot, hcomputed]; rfl⟩

/-- The root determines the transactions. -/
theorem txs_eq_of_root [DecidableEq H] (hfree : TxMerkleEnv.CollisionFree env)
    {txs txs' : List Tx} {spec spec' : SpecId} (hspec : SpecId.fork3.toNat ≤ spec.toNat)
    (hspec' : SpecId.fork3.toNat ≤ spec'.toNat)
    (h : verifyTxMerkleRoot env txs root spec = .ok true)
    (h' : verifyTxMerkleRoot env txs' root spec' = .ok true) : txs = txs' := by
  -- A list that is not empty does not have the root for no transactions.
  have hempty : ∀ l : List Tx,
      carryRoot (fun a b => env.separated (.node a b)) (l.map (leafHash env)) ≠
        some env.emptyTxRoot := by
    intro l hroot
    have hleaves : ∀ x ∈ l.map (leafHash env), ∃ y, x = env.separated y := by
      intro x hx
      obtain ⟨tx, -, rfl⟩ := mem_map.mp hx
      exact ⟨_, rfl⟩
    obtain ⟨y, hy⟩ :=
      exists_separated_of_spans hleaves (carryRoot_spans (hfree.leaf_ne_node l) hroot)
    exact hfree.emptyTxRoot y hy.symm
  rcases verifyTxMerkleRoot_eq_true hspec h with ⟨rfl, rfl⟩ | hroot <;>
    rcases verifyTxMerkleRoot_eq_true hspec' h' with ⟨rfl, hroot'⟩ | hroot'
  · rfl
  · exact absurd hroot' (hempty _)
  · exact absurd (hroot' ▸ hroot) (hempty _)
  · have hleaves := carryRoot_inj hfree.node_inj (hfree.leaf_ne_node txs) (hfree.leaf_ne_node txs')
      hroot hroot'
    exact hfree.leafHash_injective.list_map hleaves

end

section
variable {Wit Log Key : Type} [DecidableEq H]

/-- The circuit calls `verify_tx_merkle_root` with the same hash function. -/
structure StfEnv.UsesTxMerkle (env : StfEnv H Tx Wit Log Key) (merkle : TxMerkleEnv H Tx) :
    Prop where
  sha256 : env.sha256 = merkle.sha256
  verify : ∀ txs root spec,
    verifyTxMerkleRoot merkle txs root spec = .ok (env.verifyTxMerkleRoot txs root spec)

/-- What `verify_l2_block` has checked of the transactions and of the hash. -/
theorem verifyL2Block_checked {env : StfEnv H Tx Wit Log Key} {merkle : TxMerkleEnv H Tx}
    (huses : StfEnv.UsesTxMerkle env merkle) {block : L2Block H Tx} {key : Key} {spec : SpecId}
    (h : verifyL2Block env block key spec = .ok ()) :
    verifyTxMerkleRoot merkle block.txs block.txMerkleRoot spec = .ok true ∧
      block.hash = merkle.sha256 (.header block.header.inner) := by
  rw [verifyL2Block, bind_eq_ok] at h
  obtain ⟨_, hroot, h⟩ := h
  rw [bind_eq_ok] at h
  obtain ⟨_, hhash, -⟩ := h
  rw [ensure_eq_ok] at hroot hhash
  rw [huses.verify, hroot, hhash, L2Header.computeDigest, huses.sha256]
  exact ⟨rfl, rfl⟩

/-- From `Fork3` on, a transaction root belongs to at most one list of transactions, and so does
the hash of a block that `verify_l2_block` accepts. -/
theorem hash_fixes_txs {env : StfEnv H Tx Wit Log Key} {merkle : TxMerkleEnv H Tx}
    (huses : StfEnv.UsesTxMerkle env merkle) (hfree : TxMerkleEnv.CollisionFree merkle)
    (hsha : Function.Injective merkle.sha256) {spec spec' : SpecId}
    (hspec : SpecId.fork3.toNat ≤ spec.toNat) (hspec' : SpecId.fork3.toNat ≤ spec'.toNat) :
    (∀ (txs txs' : List Tx) (root : H), verifyTxMerkleRoot merkle txs root spec = .ok true →
      verifyTxMerkleRoot merkle txs' root spec' = .ok true → txs = txs') ∧
    (∀ (block block' : L2Block H Tx) (key key' : Key), verifyL2Block env block key spec = .ok () →
      verifyL2Block env block' key' spec' = .ok () →
      block.hash = block'.hash → block.txs = block'.txs) := by
  refine ⟨fun txs txs' root h h' => txs_eq_of_root hfree hspec hspec' h h', ?_⟩
  intro block block' key key' h h' hhash
  obtain ⟨hroot, hheader⟩ := verifyL2Block_checked huses h
  obtain ⟨hroot', hheader'⟩ := verifyL2Block_checked huses h'
  have hinput := hsha (hheader.symm.trans (hhash.trans hheader'))
  have hinner : block.header.inner = block'.header.inner := HashInput.header.inj hinput
  have htxRoot : block.txMerkleRoot = block'.txMerkleRoot := by
    rw [L2Block.txMerkleRoot, L2Block.txMerkleRoot, hinner]
  rw [htxRoot] at hroot
  exact txs_eq_of_root hfree hspec hspec' hroot hroot'

end

/-! ### A block with three transactions -/

/-- Hashes with a separator, as lists of numbers. -/
def separatedListHash : SeparatedInput (List Nat) → List Nat
  | .leaf digest => 3 :: digest
  | .node left right => [4, left.length] ++ (left ++ right)

theorem separatedListHash_injective : Function.Injective separatedListHash := by
  intro x y h
  cases x with
  | leaf d =>
    cases y with
    | leaf d' => simpa [separatedListHash] using h
    | node l r => simp [separatedListHash] at h
  | node l r =>
    cases y with
    | leaf d' => simp [separatedListHash] at h
    | node l' r' =>
      simp only [separatedListHash, cons_append, nil_append, List.cons.injEq] at h
      obtain ⟨-, hlen, hrest⟩ := h
      obtain ⟨rfl, rfl⟩ := append_inj hrest hlen
      rfl

/-- Transactions are numbers. -/
def sampleMerkle : TxMerkleEnv (List Nat) Nat where
  sha256 := listHash
  separated := separatedListHash
  computeDigest := fun tx => [tx]
  emptyTxRoot := [5]

theorem sampleMerkle_collisionFree : TxMerkleEnv.CollisionFree sampleMerkle where
  separated := separatedListHash_injective
  computeDigest := fun _ _ h => singleton_inj.mp h
  emptyTxRoot := by
    intro x
    cases x <;> simp [sampleMerkle, separatedListHash]

/-- An environment over these transactions that accepts every signature. -/
def merkleStfEnv : StfEnv (List Nat) Nat Unit Unit Unit where
  sha256 := listHash
  merkleRoot := carryRoot fun l r => listHash (.node l r)
  merkleProofFromBytes := fun _ => some []
  merkleVerify := fun proof root index leaf count =>
    carryProofRoot (fun l r => listHash (.node l r)) proof index count leaf == some root
  publicKeyFromSlice := fun _ => some ()
  verifyTxMerkleRoot := fun txs root spec =>
    match verifyTxMerkleRoot sampleMerkle txs root spec with
    | .ok accepted => accepted
    | .error _ => false
  verifySignature := fun _ _ => true
  executeL2Block := fun _ _ root _ _ _ block => .ok ⟨root, block.stateRoot, (), (), []⟩
  pruneHalf := id

theorem merkleStfEnv_uses : StfEnv.UsesTxMerkle merkleStfEnv sampleMerkle where
  sha256 := rfl
  verify := by
    intro txs root spec
    have hreturns := @verifyTxMerkleRoot_returns _ _ sampleMerkle _ txs root spec
    obtain ⟨accepted, haccepted⟩ := hreturns
    show _ = Except.ok (match verifyTxMerkleRoot sampleMerkle txs root spec with
      | .ok accepted => accepted
      | .error _ => false)
    rw [haccepted]

/-- The root over three leaves: the third leaf moves up to the second level. -/
def threeTxsRoot : List Nat :=
  separatedListHash (.node
    (separatedListHash (.node (separatedListHash (.leaf [7])) (separatedListHash (.leaf [8]))))
    (separatedListHash (.leaf [9])))

/-- A block with three transactions. -/
def threeTxsBlock : L2Block (List Nat) Nat :=
  let header : L2Header (List Nat) := ⟨1, [], [], 0, threeTxsRoot, 0⟩
  ⟨⟨header, header.computeDigest listHash, []⟩, [7, 8, 9]⟩

/-- The block is accepted, and no other transactions go with its hash. -/
theorem threeTxsBlock_fixed : verifyL2Block merkleStfEnv threeTxsBlock () .fork3 = .ok () ∧
      ∀ block, verifyL2Block merkleStfEnv block () .fork3 = .ok () →
        threeTxsBlock.hash = block.hash → [7, 8, 9] = block.txs := by
  have haccepted : verifyL2Block merkleStfEnv threeTxsBlock () .fork3 = .ok () := by
    decide +kernel
  refine ⟨haccepted, fun block h hhash => ?_⟩
  exact (hash_fixes_txs merkleStfEnv_uses sampleMerkle_collisionFree listHash_injective
    (by omega) (by omega)).2 threeTxsBlock block () () haccepted h hhash

end Citrea.Proofs.BatchProof
