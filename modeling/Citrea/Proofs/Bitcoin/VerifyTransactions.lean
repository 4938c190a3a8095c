import Citrea.Proofs.Bitcoin.Transaction
import Citrea.Spec.Bitcoin.Verifier

/-!
# `Citrea.Proofs.Bitcoin.VerifyTransactions`: when a block's blobs are complete

`verify_transactions` is meant to return every relevant blob of a block. It ties the list
`wtxids` of the proof to the block through the root that the coinbase transaction commits to.
The number of transactions, the commitment field of the header and the list itself come from
the prover.

`CommittedBlock` is a real block: its true wtxids, a coinbase transaction that commits to their
root, and a path of the coinbase transaction to the merkle root of the header.

Nothing in the check tells a leaf from an inner node, and the code does not look at the first
entry of the list, which is zero for the true list. So the lists that pass the root check are
exactly the levels of the true tree. A level above the leaves passes the whole check when each
of its nodes with the reveal prefix is also the id of some transaction, in particular when no
node of the level has the prefix. `verifyTransactions_complete_iff` says that these levels are
the only obstacle: the blobs are complete for a block if and only if each inner level with two
or more nodes is refused (`InnerLevelsRefused`).
-/

namespace Citrea.Proofs.Bitcoin

open List Lib Spec.Bitcoin

/-! ### What the verifier checks -/

section
variable {env : DaEnv} {blobs : List BlobWithSender} {header : HeaderWrapper}
  {inclusionProof : InclusionMultiProof} {script : Bytes}

/-- The inscription parser returns, with a result or with an error. -/
def ParserReturns (env : DaEnv) (tx : Transaction) : Prop :=
  ∀ message, env.parseRelevantTransaction tx ≠ .error (.panic message)

/-- The blob of a transaction that parses and has a valid signature. -/
def parsedBlob (env : DaEnv) (tx : Transaction) : Option BlobWithSender :=
  match env.parseRelevantTransaction tx with
  | .ok parsed => blobOfParsed env (calculateWtxid env.sha256 tx) parsed
  | .error _ => none

theorem blobOfTransaction_eq_ok_iff {tx : Transaction} {blob : Option BlobWithSender} :
    blobOfTransaction env (calculateWtxid env.sha256 tx) tx = .ok blob ↔
      ParserReturns env tx ∧ blob = parsedBlob env tx := by
  rw [blobOfTransaction, parsedBlob, ParserReturns]
  rcases env.parseRelevantTransaction tx with (e | message) | parsed
  · simpa using eq_comm
  · simp
  · simpa using eq_comm

/-- The loop over the completeness proof returns when the given ids are those of the given
transactions, one by one, and the parser panics on none of them. -/
theorem collectBlobs_eq_ok_iff {wtxids : List Bytes32} {txs : List Transaction} :
    collectBlobs env wtxids txs = .ok blobs ↔
      wtxids = txs.map (calculateWtxid env.sha256) ∧ (∀ tx ∈ txs, ParserReturns env tx) ∧
        blobs = txs.filterMap (parsedBlob env) := by
  induction txs generalizing wtxids blobs with
  | nil =>
    cases wtxids with
    | nil =>
      simp only [collectBlobs, pure_eq_ok, map_nil, filterMap_nil,
        not_mem_nil, false_implies, implies_true, true_and]
      exact eq_comm
    | cons w ws => simp [collectBlobs]
  | cons tx txs ih =>
    cases wtxids with
    | nil => simp [collectBlobs]
    | cons w ws =>
      simp only [collectBlobs, bind_eq_ok, ensure_eq_ok, pure_eq_ok,
        map_cons, List.cons.injEq, forall_mem_cons, ih]
      constructor
      · rintro ⟨-, rfl, blob, hblob, _, ⟨hws, hret, rfl⟩, rfl⟩
        obtain ⟨hret₁, rfl⟩ := blobOfTransaction_eq_ok_iff.mp hblob
        refine ⟨⟨rfl, hws⟩, ⟨hret₁, hret⟩, ?_⟩
        cases h : parsedBlob env tx <;> simp [h]
      · rintro ⟨⟨rfl, hws⟩, ⟨hret₁, hret⟩, rfl⟩
        refine ⟨(), rfl, _, blobOfTransaction_eq_ok_iff.mpr ⟨hret₁, rfl⟩, _,
          ⟨hws, hret, rfl⟩, ?_⟩
        cases h : parsedBlob env tx <;> simp [h]

/-- A successful check of the witness commitment, for a coinbase transaction with an input that
has a witness. -/
theorem checkWitnessCommitment_eq_ok_iff {input : TxIn} {reserved : ByteVec}
    (hinput : inclusionProof.coinbaseTx.input.head? = some input)
    (hreserved : input.witness.head? = some reserved) :
    checkWitnessCommitment env header inclusionProof script = .ok () ↔ ∃ tree : BitcoinMerkleTree,
        BitcoinMerkleTree.new env.sha256 inclusionProof.wtxids =
          (.ok tree : Outcome ValidationError _) ∧
        tree.root = (.ok header.txsCommitment : Outcome ValidationError _) ∧
        committedHash script = (calculateDoubleSha256 env.sha256
          (header.txsCommitment.data ++ reserved.data)).data := by
  simp only [checkWitnessCommitment, bind_eq_ok, expect_eq_ok, hinput]
  constructor
  · rintro ⟨tree, htree, root, hroot, _, hin, h⟩
    obtain rfl := Option.some.inj hin
    simp only [hreserved, bind_eq_ok, ensure_eq_ok] at h
    obtain ⟨-, hcommit, rfl⟩ := h
    exact ⟨tree, htree, hroot, hcommit⟩
  · rintro ⟨tree, htree, hroot, hcommit⟩
    refine ⟨tree, htree, _, hroot, input, rfl, ?_⟩
    simp only [hreserved, bind_eq_ok, ensure_eq_ok]
    exact ⟨(), hcommit, trivial⟩

/-- A successful run of `verify_transactions`, for a coinbase transaction with a witness
commitment. -/
theorem verifyTransactions_eq_ok_iff {revealTxPrefix : Bytes} {completenessProof : List Transaction}
    (hscript : witnessCommitmentScript inclusionProof.coinbaseTx = some script) :
    verifyTransactions env revealTxPrefix header inclusionProof completenessProof = .ok blobs ↔
      header.txCount.toNat = inclusionProof.wtxids.length ∧
      collectBlobs env (inclusionProof.wtxids.filter (startsWith revealTxPrefix))
        completenessProof = .ok blobs ∧ ¬ (header.txCount = 1 ∧ header.txsCommitment ≠ .zero) ∧
      checkWitnessCommitment env header inclusionProof script = .ok () ∧
      BitcoinMerkleTree.calculateRootWithMerkleProof env.sha256
          (calculateTxid env.sha256 inclusionProof.coinbaseTx) 0
          inclusionProof.coinbaseMerkleProof =
        (.ok header.merkleRoot : Outcome ValidationError _) := by
  simp only [verifyTransactions, checkTxsCommitment, hscript, bind_eq_ok, ensure_eq_ok, pure_eq_ok]
  constructor
  · rintro ⟨-, hcount, _, hcollect, -, hone, ⟨⟩, hcheck, _, hpath, -, rfl, rfl⟩
    exact ⟨hcount, hcollect, hone, hcheck, hpath⟩
  · rintro ⟨hcount, hcollect, hone, hcheck, hpath⟩
    exact ⟨(), hcount, blobs, hcollect, (), hone, (), hcheck, _, hpath, (), rfl, rfl⟩

end

/-! ### A real block -/

/-- The wtxids of a block whose transactions after the coinbase are `rest`. The coinbase
transaction counts as zero. -/
def blockWtxids (sha256 : Bytes → Bytes32) (rest : List Transaction) : List Bytes32 :=
  .zero :: rest.map (calculateWtxid sha256)

/-- A block of two or more transactions whose coinbase transaction commits to its wtxids and is
included under the header. `tree` is the tree over the wtxids; that it exists says that no two
paired nodes are equal. `path` is a path of the coinbase transaction. -/
structure CommittedBlock (sha256 : Bytes → Bytes32) where
  header : BitcoinHeader
  coinbase : Transaction
  rest : List Transaction
  tree : BitcoinMerkleTree
  root : Bytes32
  script : Bytes
  input : TxIn
  reserved : ByteVec
  path : List Bytes32
  rest_ne_nil : rest ≠ []
  fits : rest.length + 1 < 2 ^ 32
  tree_eq : BitcoinMerkleTree.new sha256 (blockWtxids sha256 rest) =
    (.ok tree : Outcome ValidationError _)
  root_eq : tree.root = (.ok root : Outcome ValidationError _)
  script_eq : witnessCommitmentScript coinbase = some script
  input_eq : coinbase.input.head? = some input
  reserved_eq : input.witness.head? = some reserved
  commitment_eq : committedHash script =
    (calculateDoubleSha256 sha256 (root.data ++ reserved.data)).data
  included : BitcoinMerkleTree.calculateRootWithMerkleProof sha256 (calculateTxid sha256 coinbase)
    0 path = (.ok header.merkleRoot : Outcome ValidationError _)

namespace CommittedBlock

variable {sha256 : Bytes → Bytes32}

/-- The true wtxid list. -/
def wtxids (block : CommittedBlock sha256) : List Bytes32 := blockWtxids sha256 block.rest

/-- The strings hashed for the block: the transactions, the nodes of the tree over the wtxids,
and the commitment. -/
def preimages (block : CommittedBlock sha256) : List Bytes :=
  block.rest.map Transaction.consensusEncode ++ treePreimages block.tree.nodes ++
    [block.root.data ++ block.reserved.data]

theorem isTree (block : CommittedBlock sha256) : IsTree sha256 block.wtxids block.tree.nodes :=
  (new_eq_ok_iff (cons_ne_nil _ _)).mp block.tree_eq

theorem getLast_eq (block : CommittedBlock sha256) :
    block.tree.nodes.getLast? = some [block.root] :=
  (root_eq_ok_iff block.isTree).mp block.root_eq

theorem zero_mem (block : CommittedBlock sha256) : Bytes32.zero ∈ block.wtxids := by
  simp [wtxids, blockWtxids]

theorem length_wtxids (block : CommittedBlock sha256) :
    block.wtxids.length = block.rest.length + 1 := by
  simp [wtxids, blockWtxids]

theorem nodes_mem {block : CommittedBlock sha256} {S : Set Bytes}
    (hblock : ∀ s ∈ block.preimages, s ∈ S) : ∀ s ∈ treePreimages block.tree.nodes, s ∈ S := by
  intro s hs
  exact hblock s (by simp [preimages, hs])

theorem txs_mem {block : CommittedBlock sha256} {S : Set Bytes}
    (hblock : ∀ s ∈ block.preimages, s ∈ S) : ∀ tx ∈ block.rest, tx.consensusEncode ∈ S := by
  intro tx htx
  refine hblock _ ?_
  simp only [preimages, append_assoc, mem_append, mem_map]
  exact .inl ⟨tx, htx, rfl⟩

end CommittedBlock

/-- The strings that a proof makes the verifier hash, on the way through the tree, the
commitment and the completeness proof, are in `S`. -/
structure ProofHashesIn (sha256 : Bytes → Bytes32) (S : Set Bytes)
    (inclusionProof : InclusionMultiProof) (completenessProof : List Transaction) : Prop where
  nodes : ∀ tree, BitcoinMerkleTree.new sha256 inclusionProof.wtxids =
    (.ok tree : Outcome ValidationError _) → ∀ s ∈ treePreimages tree.nodes, s ∈ S
  commitment : ∀ tree root input reserved, BitcoinMerkleTree.new sha256 inclusionProof.wtxids =
      (.ok tree : Outcome ValidationError _) →
    tree.root = (.ok root : Outcome ValidationError _) →
    inclusionProof.coinbaseTx.input.head? = some input →
    input.witness.head? = some reserved → root.data ++ reserved.data ∈ S
  txs : ∀ tx ∈ completenessProof, tx.consensusEncode ∈ S

/-- The blobs of a block: its transactions with the reveal prefix, in block order, as far as
they parse and are signed. -/
def relevantBlobs (env : DaEnv) (revealTxPrefix : Bytes) (block : CommittedBlock env.sha256) :
    List BlobWithSender :=
  (block.rest.filter fun tx => startsWith revealTxPrefix (calculateWtxid env.sha256 tx)).filterMap
    (parsedBlob env)

/-- Completeness for a block: whatever the prover supplies, an accepted list is the true wtxid
list and the blobs are those of the block. -/
def CompleteFor (env : DaEnv) (S : Set Bytes) (revealTxPrefix : Bytes)
    (block : CommittedBlock env.sha256) : Prop :=
  ∀ (header : HeaderWrapper) (inclusionProof : InclusionMultiProof)
    (completenessProof : List Transaction) (blobs : List BlobWithSender),
    header.header = block.header → inclusionProof.coinbaseTx = block.coinbase →
    ProofHashesIn env.sha256 S inclusionProof completenessProof →
    verifyTransactions env revealTxPrefix header inclusionProof completenessProof = .ok blobs →
    inclusionProof.wtxids = block.wtxids ∧ blobs = relevantBlobs env revealTxPrefix block

/-- Each level of the wtxid tree that is above the leaves and has two or more nodes has a node
with the reveal prefix whose 64 bytes are no transaction that the parser returns on. -/
def InnerLevelsRefused (env : DaEnv) (revealTxPrefix : Bytes)
    (block : CommittedBlock env.sha256) : Prop :=
  ∀ (k : Nat) (below above : List Bytes32), block.tree.nodes[k]? = some below →
    block.tree.nodes[k + 1]? = some above → 2 ≤ above.length →
    ∃ p ∈ neighbours below, startsWith revealTxPrefix (combineNodes env.sha256 p.1 p.2) = true ∧
      ∀ tx : Transaction, tx.consensusEncode = nodePreimage p.1 p.2 → ¬ ParserReturns env tx

/-! ### The lists that pass are levels of the true tree -/

/-- On hashed transactions, the wtxids determine the transactions. -/
theorem map_calculateWtxid_inj {sha256 : Bytes → Bytes32} {S : Set Bytes}
    (hS : CollisionFree sha256 S) {l l' : List Transaction}
    (hl : ∀ tx ∈ l, tx.consensusEncode ∈ S) (hl' : ∀ tx ∈ l', tx.consensusEncode ∈ S)
    (h : l.map (calculateWtxid sha256) = l'.map (calculateWtxid sha256)) : l = l' := by
  induction l generalizing l' with
  | nil => exact (map_eq_nil_iff.mp h.symm).symm
  | cons tx l ih =>
    cases l' with
    | nil => simp at h
    | cons tx' l' =>
      rw [map_cons, map_cons, List.cons.injEq] at h
      rw [forall_mem_cons] at hl hl'
      have hhead : tx = tx' := consensusEncode_inj (hS.injOn hl.1 hl'.1 h.1)
      rw [hhead, ih hl.2 hl'.2 h.2]

section
variable {env : DaEnv} {S : Set Bytes} (hS : CollisionFree env.sha256 S)
  {block : CommittedBlock env.sha256} (hblock : ∀ s ∈ block.preimages, s ∈ S)
  {revealTxPrefix : Bytes} {completenessProof : List Transaction} {blobs : List BlobWithSender}
include hS hblock

/-- The commitment of the coinbase transaction binds the root. -/
theorem root_eq_of_commitment {root : Bytes32} (hcommit : committedHash block.script =
      (calculateDoubleSha256 env.sha256 (root.data ++ block.reserved.data)).data)
    (hmem : root.data ++ block.reserved.data ∈ S) : root = block.root := by
  have hhash := Bytes32.ext (hcommit.symm.trans block.commitment_eq)
  have hbytes := hS.injOn hmem (hblock _ (by simp [CommittedBlock.preimages])) hhash
  exact Bytes32.ext (append_cancel_right hbytes)

/-- The root is a hash: the block has two or more transactions. -/
theorem block_root_ne_zero : block.root ≠ .zero := by
  intro hzero
  have hlast := block.getLast_eq
  have htree := block.isTree
  rw [List.getLast?_eq_getElem?] at hlast
  -- the root is not the leaf list, so there is a level below it
  have hlen : block.tree.nodes.length - 1 ≠ 0 := by
    intro h0
    rw [h0, htree.head_eq] at hlast
    have hone := congrArg List.length (Option.some.inj hlast)
    rw [block.length_wtxids, length_singleton] at hone
    exact block.rest_ne_nil (length_eq_zero_iff.mp (by omega))
  obtain ⟨k, hk⟩ := Nat.exists_eq_succ_of_ne_zero hlen
  rw [hk] at hlast
  refine htree.zero_not_mem hS hlast (CommittedBlock.nodes_mem hblock) ?_
  rw [hzero]
  exact mem_singleton.mpr rfl

/-- A list with the block's root is a level of the block's tree. The true list starts with
zero, so it is not a level above another list. -/
theorem level_of_same_root {wtxids : List Bytes32} {nodes : List (List Bytes32)}
    (htree : IsTree env.sha256 wtxids nodes) (hroot : nodes.getLast? = some [block.root])
    (hmem : ∀ s ∈ treePreimages nodes, s ∈ S) : ∃ k : Nat, block.tree.nodes[k]? = some wtxids := by
  have hnodes := CommittedBlock.nodes_mem hblock
  rcases Nat.le_total nodes.length block.tree.nodes.length with hle | hle
  · exact ⟨_, block.isTree.level_of_same_root hS htree block.getLast_eq hroot hnodes hmem hle⟩
  · have hlevel := htree.level_of_same_root hS block.isTree hroot block.getLast_eq hmem hnodes hle
    cases hd : nodes.length - block.tree.nodes.length with
    | zero =>
      rw [hd, htree.head_eq] at hlevel
      rw [Option.some.inj hlevel]
      exact ⟨0, block.isTree.head_eq⟩
    | succ k =>
      rw [hd] at hlevel
      exact absurd block.zero_mem (htree.zero_not_mem hS hlevel hmem)

/-- For the true list, the completeness proof consists of the block's own transactions. -/
theorem completenessProof_eq
    (hids : block.wtxids.filter (startsWith revealTxPrefix) = completenessProof.map
      (calculateWtxid env.sha256)) (htxs : ∀ tx ∈ completenessProof, tx.consensusEncode ∈ S) :
    completenessProof =
      block.rest.filter fun tx => startsWith revealTxPrefix (calculateWtxid env.sha256 tx) := by
  -- no transaction has the id zero, so the coinbase entry does not have the prefix
  have hzero : startsWith revealTxPrefix .zero = false := by
    by_contra hstarts
    rw [Bool.not_eq_false] at hstarts
    have hmem : Bytes32.zero ∈ block.wtxids.filter (startsWith revealTxPrefix) :=
      mem_filter.mpr ⟨block.zero_mem, hstarts⟩
    rw [hids] at hmem
    obtain ⟨tx, htx, hid⟩ := mem_map.mp hmem
    exact hS.ne_zero _ (htxs tx htx) hid
  rw [CommittedBlock.wtxids, blockWtxids, filter_cons_of_neg (by simp [hzero]),
    filter_map] at hids
  refine map_calculateWtxid_inj hS htxs (fun tx htx => ?_) hids.symm
  exact CommittedBlock.txs_mem hblock tx (mem_filter.mp htx).1

/-- An accepted proof: its list is a level of the true tree with two or more nodes, the
completeness proof lists the transactions behind its nodes with the prefix, and the parser
returns on them. -/
theorem level_of_verifyTransactions {header : HeaderWrapper} {inclusionProof : InclusionMultiProof}
    (hcoinbase : inclusionProof.coinbaseTx = block.coinbase)
    (hmem : ProofHashesIn env.sha256 S inclusionProof completenessProof)
    (hok : verifyTransactions env revealTxPrefix header inclusionProof completenessProof = .ok
      blobs) : (∃ k : Nat, block.tree.nodes[k]? = some inclusionProof.wtxids) ∧
      2 ≤ inclusionProof.wtxids.length ∧
      collectBlobs env (inclusionProof.wtxids.filter (startsWith revealTxPrefix))
        completenessProof = .ok blobs := by
  have hscript : witnessCommitmentScript inclusionProof.coinbaseTx = some block.script := by
    rw [hcoinbase, block.script_eq]
  have hinput : inclusionProof.coinbaseTx.input.head? = some block.input := by
    rw [hcoinbase, block.input_eq]
  obtain ⟨hcount, hcollect, hone, hcheck, -⟩ := (verifyTransactions_eq_ok_iff hscript).mp hok
  obtain ⟨tree, htree, hroot, hcommit⟩ :=
    (checkWitnessCommitment_eq_ok_iff hinput block.reserved_eq).mp hcheck
  have hne : inclusionProof.wtxids ≠ [] := by
    intro hnil
    rw [hnil] at htree
    obtain rfl : ⟨[[]]⟩ = tree := by simpa [BitcoinMerkleTree.new, buildLevels] using htree
    simp [BitcoinMerkleTree.root] at hroot
  have htree' := (new_eq_ok_iff hne).mp htree
  have hrootEq : header.txsCommitment = block.root :=
    root_eq_of_commitment hS hblock hcommit
      (hmem.commitment tree _ _ _ htree hroot hinput block.reserved_eq)
  rw [hrootEq] at hroot
  refine ⟨level_of_same_root hS hblock htree' ((root_eq_ok_iff htree').mp hroot)
    (hmem.nodes tree htree), ?_, hcollect⟩
  -- a list of one node is accepted only with the commitment zero
  by_contra hlt
  have hlen : inclusionProof.wtxids.length = 1 := by
    have := length_pos_iff.mpr hne
    omega
  have htxCount : header.txCount = 1 := by
    rw [hlen] at hcount
    exact UInt32.toNat_inj.mp hcount
  exact hone ⟨htxCount, by rw [hrootEq]; exact block_root_ne_zero hS hblock⟩

omit hS in
/-- A level of the true tree with two or more nodes is accepted, with any list of transactions
whose ids are the nodes with the prefix. -/
theorem verifyTransactions_of_level {k : Nat} {level : List Bytes32}
    (hlevel : block.tree.nodes[k]? = some level) (hlen : 2 ≤ level.length)
    (htxs : ∀ tx ∈ completenessProof, tx.consensusEncode ∈ S)
    (hcollect : collectBlobs env (level.filter (startsWith revealTxPrefix)) completenessProof =
      .ok blobs) : ∃ header inclusionProof, header.header = block.header ∧
      inclusionProof.coinbaseTx = block.coinbase ∧ inclusionProof.wtxids = level ∧
      ProofHashesIn env.sha256 S inclusionProof completenessProof ∧
      verifyTransactions env revealTxPrefix header inclusionProof completenessProof
        = .ok blobs := by
  have htree : IsTree env.sha256 level (block.tree.nodes.drop k) := block.isTree.drop hlevel
  have hne : level ≠ [] := by
    rintro rfl
    simp at hlen
  have hk : k < block.tree.nodes.length := (List.getElem?_eq_some_iff.mp hlevel).1
  have hnew : BitcoinMerkleTree.new env.sha256 level =
      (.ok ⟨block.tree.nodes.drop k⟩ : Outcome ValidationError _) :=
    (new_eq_ok_iff hne).mpr htree
  have hroot : BitcoinMerkleTree.root ⟨block.tree.nodes.drop k⟩ =
      (.ok block.root : Outcome ValidationError _) := by
    have hdrop : IsTree env.sha256 level (BitcoinMerkleTree.mk (block.tree.nodes.drop k)).nodes :=
      htree
    refine (root_eq_ok_iff hdrop).mpr ?_
    rw [List.getLast?_drop, if_neg (by omega), block.getLast_eq]
  -- the prover writes the length of the level into the header
  have hfits : level.length < 2 ^ 32 := by
    have hle := block.isTree.length_le hlevel
    have hbound := block.fits
    rw [block.length_wtxids] at hle
    omega
  have hcount : (UInt32.ofNat level.length).toNat = level.length :=
    UInt32.toNat_ofNat_of_lt' hfits
  refine ⟨⟨block.header, UInt32.ofNat level.length, 0, block.root, .zero⟩,
    ⟨level, block.coinbase, block.path⟩, rfl, rfl, rfl, ?_, ?_⟩
  · refine ⟨fun tree h s hs => ?_, fun tree root input reserved h hr hi hw => ?_, htxs⟩
    · obtain rfl := ok_unique hnew h
      exact CommittedBlock.nodes_mem hblock s (IsTree.mem_treePreimages_of_drop hs)
    · obtain rfl := ok_unique hnew h
      obtain rfl := ok_unique hroot hr
      obtain rfl := some_unique block.input_eq hi
      obtain rfl := some_unique block.reserved_eq hw
      exact hblock _ (by simp [CommittedBlock.preimages])
  · refine (verifyTransactions_eq_ok_iff block.script_eq).mpr
      ⟨hcount, hcollect, ?_, ?_, block.included⟩
    · rintro ⟨hone, -⟩
      have := congrArg UInt32.toNat hone
      rw [hcount] at this
      simp at this
      omega
    · exact (checkWitnessCommitment_eq_ok_iff block.input_eq block.reserved_eq).mpr
        ⟨_, hnew, hroot, block.commitment_eq⟩

end

/-- Values that have a preimage with a property, one by one, have a list of preimages. -/
theorem exists_txs_of_forall {f : Transaction → Bytes32} {Q : Transaction → Prop}
    {ids : List Bytes32} (h : ∀ id ∈ ids, ∃ tx, f tx = id ∧ Q tx) :
    ∃ txs : List Transaction, txs.map f = ids ∧ ∀ tx ∈ txs, Q tx := by
  induction ids with
  | nil => exact ⟨[], rfl, by simp⟩
  | cons id ids ih =>
    rw [forall_mem_cons] at h
    obtain ⟨tx, hid, hQ⟩ := h.1
    obtain ⟨txs, hids, hQs⟩ := ih h.2
    exact ⟨tx :: txs, by rw [map_cons, hid, hids], forall_mem_cons.mpr ⟨hQ, hQs⟩⟩

/-- `verify_transactions` is complete for a block if and only if each inner level with two or
more nodes has a node with the reveal prefix that no transaction stands behind. -/
theorem verifyTransactions_complete_iff (env : DaEnv) (S : Set Bytes)
    (hS : CollisionFree env.sha256 S) (revealTxPrefix : Bytes)
    (block : CommittedBlock env.sha256) (hblock : ∀ s ∈ block.preimages, s ∈ S) :
    CompleteFor env S revealTxPrefix block ↔ InnerLevelsRefused env revealTxPrefix block := by
  have hnodes := CommittedBlock.nodes_mem hblock
  constructor
  · intro hcomplete k below above hbelow habove hlen
    by_contra hrefused
    push Not at hrefused
    obtain ⟨below', hbelow', hup⟩ := block.isTree.pairUp_of_getElem habove
    obtain rfl := some_unique hbelow hbelow'
    have hlt : k + 1 < block.tree.nodes.length := (List.getElem?_eq_some_iff.mp habove).1
    -- every node of the level with the prefix has a transaction behind it
    have hbehind : ∀ id ∈ above.filter (startsWith revealTxPrefix),
        ∃ tx, calculateWtxid env.sha256 tx = id ∧
          (tx.consensusEncode ∈ S ∧ ParserReturns env tx) := by
      intro id hid
      obtain ⟨hmem, hstarts⟩ := mem_filter.mp hid
      rw [hup.eq_map] at hmem
      obtain ⟨p, hp, rfl⟩ := mem_map.mp hmem
      obtain ⟨tx, htx, hret⟩ := hrefused p hp hstarts
      have hS' : nodePreimage p.1 p.2 ∈ S :=
        hnodes _ (IsTree.mem_treePreimages hlt hbelow (mem_map.mpr ⟨p, hp, rfl⟩))
      refine ⟨tx, ?_, by rwa [htx], hret⟩
      rw [calculateWtxid, htx, combineNodes]
    obtain ⟨txs, hids, htxs⟩ := exists_txs_of_forall hbehind
    have hcollect : collectBlobs env (above.filter (startsWith revealTxPrefix)) txs =
        .ok (txs.filterMap (parsedBlob env)) :=
      collectBlobs_eq_ok_iff.mpr ⟨hids.symm, fun tx htx => (htxs tx htx).2, rfl⟩
    obtain ⟨header, inclusionProof, hheader, hcoinbase, hwtxids, hmem, hok⟩ :=
      verifyTransactions_of_level hblock habove hlen (fun tx htx => (htxs tx htx).1) hcollect
    have htrue := (hcomplete header inclusionProof txs _ hheader hcoinbase hmem hok).1
    -- the true list has a zero and the level does not
    have hzero : Bytes32.zero ∈ above := by
      rw [← hwtxids, htrue]
      exact block.zero_mem
    exact block.isTree.zero_not_mem hS habove hnodes hzero
  · intro hrefused header inclusionProof completenessProof blobs _ hcoinbase hmem hok
    obtain ⟨⟨k, hlevel⟩, hlen, hcollect⟩ :=
      level_of_verifyTransactions hS hblock hcoinbase hmem hok
    obtain ⟨hids, hret, rfl⟩ := collectBlobs_eq_ok_iff.mp hcollect
    cases k with
    | zero =>
      rw [block.isTree.head_eq] at hlevel
      have htrue := (Option.some.inj hlevel).symm
      refine ⟨htrue, ?_⟩
      rw [htrue] at hids
      rw [relevantBlobs, completenessProof_eq hS hblock hids hmem.txs]
    | succ k =>
      -- the refused node of the level would have to be the id of a transaction
      obtain ⟨below, hbelow, hup⟩ := block.isTree.pairUp_of_getElem hlevel
      obtain ⟨p, hp, hstarts, hnone⟩ := hrefused k below _ hbelow hlevel hlen
      have hnode : combineNodes env.sha256 p.1 p.2 ∈
          inclusionProof.wtxids.filter (startsWith revealTxPrefix) := by
        refine mem_filter.mpr ⟨?_, hstarts⟩
        rw [hup.eq_map]
        exact mem_map.mpr ⟨p, hp, rfl⟩
      rw [hids] at hnode
      obtain ⟨tx, htx, hid⟩ := mem_map.mp hnode
      have hlt : k + 1 < block.tree.nodes.length := (List.getElem?_eq_some_iff.mp hlevel).1
      have hS' : nodePreimage p.1 p.2 ∈ S :=
        hnodes _ (IsTree.mem_treePreimages hlt hbelow (mem_map.mpr ⟨p, hp, rfl⟩))
      exact absurd (hret tx htx) (hnone tx (hS.injOn (hmem.txs tx htx) hS' hid))

/-! ### Blocks of two and of four transactions -/

/-- An environment whose parser reads every transaction as a chunk. -/
def chunkEnv : DaEnv where
  sha256 := rollingHash
  verifyDigest := fun _ _ _ => true
  parseRelevantTransaction := fun tx => .ok (.chunk (leBytes 4 tx.version.toNat))

/-- A transaction with one input and no output. -/
def plainTx (version : UInt32) : Transaction where
  version := version
  lockTime := 0
  input := [⟨⟨.zero, 0⟩, ⟨[], by decide⟩, 0, [], by decide⟩]
  output := []
  input_fits := by decide
  output_fits := by decide

def reservedValue : ByteVec := ⟨Bytes32.zero.data, by decide⟩

/-- A coinbase input whose script pushes the height 882547. -/
def coinbaseInput : TxIn :=
  ⟨⟨.zero, 0xffffffff⟩, ⟨[3, 0x73, 0x77, 0x0d], by decide⟩, 0, [reservedValue], by decide⟩

/-- The script that commits to the witness root `root`. -/
def commitmentScript (root : Bytes32) : ByteVec where
  data := witnessCommitmentMagic ++
    (calculateDoubleSha256 rollingHash (root.data ++ reservedValue.data)).data
  fits := by
    rw [length_append, Bytes32.length_eq]
    decide

/-- A coinbase transaction that commits to `root`. -/
def committingCoinbase (root : Bytes32) : Transaction where
  version := 2
  lockTime := 0
  input := [coinbaseInput]
  output := [⟨0, commitmentScript root⟩]
  input_fits := by decide
  output_fits := by simp

/-- The commitment of the coinbase transaction is found. -/
theorem witnessCommitmentScript_committingCoinbase (root : Bytes32) :
    witnessCommitmentScript (committingCoinbase root) = some (commitmentScript root).data := by
  have hlen : minimumWitnessCommitmentSize ≤ (commitmentScript root).data.length := by
    rw [commitmentScript, length_append, Bytes32.length_eq]
    decide
  have hmagic : witnessCommitmentMagic.isPrefixOf (commitmentScript root).data = true := by
    rw [ isPrefixOf_iff_prefix]
    exact prefix_append _ _
  have hfound : isWitnessCommitment (commitmentScript root).data = true := by
    rw [isWitnessCommitment, hmagic, decide_eq_true hlen]
    rfl
  simp [witnessCommitmentScript, committingCoinbase, hfound]

/-- The block with the transactions `rest`, the wtxid tree `tree` and the root `root`. -/
def sampleBlock (rest : List Transaction) (tree : BitcoinMerkleTree) (root merkleRoot : Bytes32)
    (path : List Bytes32) (hrest : rest ≠ []) (hfits : rest.length + 1 < 2 ^ 32)
    (htree : BitcoinMerkleTree.new rollingHash (blockWtxids rollingHash rest) =
      (.ok tree : Outcome ValidationError _))
    (hroot : tree.root = (.ok root : Outcome ValidationError _))
    (hpath : BitcoinMerkleTree.calculateRootWithMerkleProof rollingHash
      (calculateTxid rollingHash (committingCoinbase root)) 0 path =
        (.ok merkleRoot : Outcome ValidationError _)) : CommittedBlock rollingHash where
  header := ⟨0, .zero, merkleRoot, 0, 0, 0⟩
  coinbase := committingCoinbase root
  rest := rest
  tree := tree
  root := root
  script := (commitmentScript root).data
  input := coinbaseInput
  reserved := reservedValue
  path := path
  rest_ne_nil := hrest
  fits := hfits
  tree_eq := htree
  root_eq := hroot
  script_eq := witnessCommitmentScript_committingCoinbase root
  input_eq := rfl
  reserved_eq := rfl
  commitment_eq := by
    have hmagic : witnessCommitmentMagic.length = 6 := rfl
    rw [committedHash, commitmentScript, ← hmagic, drop_left, take_of_length_le]
    rw [Bytes32.length_eq]
  included := hpath

/-- The wtxid of `plainTx version`. -/
def plainWtxid (version : UInt32) : Bytes32 := calculateWtxid rollingHash (plainTx version)

/-- The txid of `plainTx version`. -/
def plainTxid (version : UInt32) : Bytes32 := calculateTxid rollingHash (plainTx version)

/-- The witness root of a block with `plainTx 1`. -/
def twoTxRoot : Bytes32 := combineNodes rollingHash .zero (plainWtxid 1)

/-- A block with one transaction besides the coinbase. -/
def twoTxBlock : CommittedBlock chunkEnv.sha256 :=
  sampleBlock [plainTx 1] ⟨[[.zero, plainWtxid 1], [twoTxRoot]]⟩ twoTxRoot
    (combineNodes rollingHash (calculateTxid rollingHash (committingCoinbase twoTxRoot))
      (plainTxid 1))
    [plainTxid 1] (by decide) (by decide) (by decide +kernel) rfl (by decide +kernel)

/-- The theorem applied to a block of two transactions. Its tree has no inner level, so its
blobs are complete. -/
theorem verifyTransactions_complete_twoTxBlock :
    CompleteFor chunkEnv {s | s ∈ twoTxBlock.preimages} [2, 2] twoTxBlock := by
  have hfree : CollisionFree rollingHash {s | s ∈ twoTxBlock.preimages} :=
    .of_list (by decide +kernel) (by decide +kernel)
  refine (verifyTransactions_complete_iff chunkEnv _ hfree [2, 2] twoTxBlock
    fun _ hs => hs).mpr ?_
  intro k below above hbelow habove hlen
  -- the only level above the leaves is the root
  have hk : k + 1 < 2 := (List.getElem?_eq_some_iff.mp habove).1
  obtain rfl : k = 0 := by omega
  obtain rfl : [twoTxRoot] = above := Option.some.inj habove
  simp at hlen

/-- The two nodes between the wtxids and the root of a block with `plainTx 1`, `plainTx 44390`
and `plainTx 3`. -/
def fourTxInner : List Bytes32 :=
  [combineNodes rollingHash .zero (plainWtxid 1),
    combineNodes rollingHash (plainWtxid 44390) (plainWtxid 3)]

/-- The witness root of that block. -/
def fourTxRoot : Bytes32 :=
  combineNodes rollingHash (combineNodes rollingHash .zero (plainWtxid 1))
    (combineNodes rollingHash (plainWtxid 44390) (plainWtxid 3))

/-- A block with three transactions besides the coinbase. The wtxid of the second starts with
the bytes `[2, 2]`. -/
def fourTxBlock : CommittedBlock chunkEnv.sha256 :=
  sampleBlock [plainTx 1, plainTx 44390, plainTx 3]
    ⟨[[.zero, plainWtxid 1, plainWtxid 44390, plainWtxid 3], fourTxInner, [fourTxRoot]]⟩
    fourTxRoot
    (combineNodes rollingHash
      (combineNodes rollingHash (calculateTxid rollingHash (committingCoinbase fourTxRoot))
        (plainTxid 1))
      (combineNodes rollingHash (plainTxid 44390) (plainTxid 3)))
    [plainTxid 1, combineNodes rollingHash (plainTxid 44390) (plainTxid 3)]
    (by decide) (by decide) (by decide +kernel) rfl (by decide +kernel)

/-- The block of four transactions has a relevant blob. A prover that presents the two inner
nodes as the wtxids of a block of two transactions, with an empty completeness proof, gets the
empty list of blobs accepted. -/
theorem verifyTransactions_hides_blob : CollisionFree rollingHash {s | s ∈ fourTxBlock.preimages} ∧
    relevantBlobs chunkEnv [2, 2] fourTxBlock = [⟨.zero, [], leBytes 4 44390, plainWtxid 44390⟩] ∧
    (∃ header inclusionProof, header.header = fourTxBlock.header ∧
      inclusionProof.coinbaseTx = fourTxBlock.coinbase ∧ inclusionProof.wtxids = fourTxInner ∧
      ProofHashesIn rollingHash {s | s ∈ fourTxBlock.preimages} inclusionProof [] ∧
      verifyTransactions chunkEnv [2, 2] header inclusionProof [] = .ok []) ∧
    ¬ CompleteFor chunkEnv {s | s ∈ fourTxBlock.preimages} [2, 2] fourTxBlock := by
  have haccepted : ∃ header inclusionProof, header.header = fourTxBlock.header ∧
      inclusionProof.coinbaseTx = fourTxBlock.coinbase ∧
      inclusionProof.wtxids = fourTxInner ∧
      ProofHashesIn rollingHash {s | s ∈ fourTxBlock.preimages} inclusionProof [] ∧
      verifyTransactions chunkEnv [2, 2] header inclusionProof [] = .ok [] := by
    have hlevel : fourTxBlock.tree.nodes[1]? = some fourTxInner := rfl
    have hcollect : collectBlobs chunkEnv (fourTxInner.filter (startsWith [2, 2])) [] = .ok [] := by
      decide +kernel
    exact verifyTransactions_of_level (fun _ hs => hs) hlevel (by decide) (by simp) hcollect
  refine ⟨.of_list (by decide +kernel) (by decide +kernel), by decide +kernel, haccepted, ?_⟩
  intro hcomplete
  obtain ⟨header, inclusionProof, hheader, hcoinbase, hwtxids, hmem, hok⟩ := haccepted
  have htrue := (hcomplete header inclusionProof [] [] hheader hcoinbase hmem hok).1
  rw [hwtxids] at htrue
  exact absurd (congrArg List.length htrue) (by decide)

end Citrea.Proofs.Bitcoin
