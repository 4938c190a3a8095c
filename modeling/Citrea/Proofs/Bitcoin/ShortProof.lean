import Citrea.Proofs.Bitcoin.VerifyTransactions
import Citrea.Spec.Bitcoin.Parsers

/-!
# `Citrea.Proofs.Bitcoin.ShortProof`: what a short header proof binds

Two short proofs for one header can differ in the transaction count, the commitment, the
coinbase transaction and the path. The merkle root of the header binds the coinbase transaction
up to its witnesses, and the whole path (`coinbase_of_verify`). The height is read from the
script of the coinbase input, so it is bound too.

The commitment is a different matter. A coinbase transaction with a witness commitment binds it,
because the commitment is a hash of it. For a coinbase transaction without one, the code compares
the commitment with zero when the count is one, with the merkle root when the count is larger,
and with nothing when the count is zero. The count comes from the prover, so any value passes.

`shortProof_binding_iff` puts this together. For a mined block, all verified short proofs agree
with the block if and only if its coinbase transaction has a witness commitment, or no short
proof of the block verifies at all because its height does not parse.
-/

namespace Citrea.Proofs.Bitcoin

open Option List Lib Spec.Bitcoin

/-- A mined block: its transactions, the txid tree with the merkle root of the header, and the
witness root, which the coinbase transaction commits to if it has a commitment output at all. -/
structure MinedBlock (sha256 : Bytes → Bytes32) where
  header : BitcoinHeader
  coinbase : Transaction
  rest : List Transaction
  tree : BitcoinMerkleTree
  witnessRoot : Bytes32
  fits : rest.length + 1 ≤ 2 ^ 32
  tree_eq : BitcoinMerkleTree.new sha256
      (calculateTxid sha256 coinbase :: rest.map (calculateTxid sha256)) =
    (.ok tree : Outcome ValidationError _)
  root_eq : tree.root = (.ok header.merkleRoot : Outcome ValidationError _)
  witnessRoot_eq : ∃ witnessTree : BitcoinMerkleTree,
    BitcoinMerkleTree.new sha256 (blockWtxids sha256 rest) =
      (.ok witnessTree : Outcome ValidationError _) ∧
    witnessTree.root = (.ok witnessRoot : Outcome ValidationError _)
  commitment_eq : ∀ script, witnessCommitmentScript coinbase = some script →
    ∃ input reserved, coinbase.input.head? = some input ∧
      input.witness.head? = some reserved ∧
      committedHash script =
        (calculateDoubleSha256 sha256 (witnessRoot.data ++ reserved.data)).data

namespace MinedBlock

variable {sha256 : Bytes → Bytes32}

/-- The commitment to the transactions that belongs to the block: the witness root, or zero or
the merkle root for a coinbase transaction without a witness commitment. -/
def txsCommitment (block : MinedBlock sha256) : Bytes32 :=
  if (witnessCommitmentScript block.coinbase).isSome then block.witnessRoot
  else if block.rest = [] then .zero
  else block.header.merkleRoot

/-- The depth of the txid tree. -/
def depth (block : MinedBlock sha256) : Nat := block.tree.nodes.length - 1

/-- The strings hashed for the block are in `S`. The coinbase transaction does not have the 64
bytes of an inner node. -/
structure HashesIn (block : MinedBlock sha256) (S : Set Bytes) : Prop where
  coinbase : block.coinbase.encodeWithoutWitness ∈ S
  nodes : ∀ s ∈ treePreimages block.tree.nodes, s ∈ S
  commitment : ∀ script input reserved, witnessCommitmentScript block.coinbase = some script →
    block.coinbase.input.head? = some input → input.witness.head? = some reserved →
    block.witnessRoot.data ++ reserved.data ∈ S
  length_ne : block.coinbase.encodeWithoutWitness.length ≠ 64

theorem isTree (block : MinedBlock sha256) :
    IsTree sha256 (calculateTxid sha256 block.coinbase :: block.rest.map (calculateTxid sha256))
      block.tree.nodes :=
  (new_eq_ok_iff (cons_ne_nil _ _)).mp block.tree_eq

theorem getLast_eq (block : MinedBlock sha256) :
    block.tree.nodes.getLast? = some [block.header.merkleRoot] :=
  (root_eq_ok_iff block.isTree).mp block.root_eq

/-- A block has fewer than `2 ^ 32` transactions, so its tree is not deep. -/
theorem depth_le (block : MinedBlock sha256) : block.depth ≤ 32 := by
  have hlen : block.tree.nodes.length ≤ 32 + 1 := by
    refine block.isTree.length_le_of_le_two_pow ?_
    rw [length_cons, length_map]
    exact block.fits
  rw [depth]
  omega

end MinedBlock

/-- The strings that a short proof makes the verifier hash are in `S`, and its coinbase
transaction does not have the 64 bytes of an inner node. -/
structure ShortProofHashesIn (sha256 : Bytes → Bytes32) (S : Set Bytes)
    (proof : BitcoinHeaderShortProof) : Prop where
  coinbase : proof.coinbaseTx.encodeWithoutWitness ∈ S
  path : ∀ x ∈ pathPairs (combineNodes sha256) (calculateTxid sha256 proof.coinbaseTx)
    (proof.coinbaseTxTxidMerkleProof.take (proof.coinbaseTxTxidMerkleProof.length % 2 ^ 32)),
    nodePreimage x.1 x.2 ∈ S
  commitment : ∀ script input value, witnessCommitmentScript proof.coinbaseTx = some script →
    proof.coinbaseTx.input.head? = some input → input.witness.head? = some value →
    proof.header.txsCommitment.data ++ value.data ∈ S
  length_ne : proof.coinbaseTx.encodeWithoutWitness.length ≠ 64

/-- The txid of a transaction that is not 64 bytes long is not an inner node. -/
theorem calculateTxid_ne_node {sha256 : Bytes → Bytes32} {S : Set Bytes}
    (hinj : Set.InjOn (calculateDoubleSha256 sha256) S) {tx : Transaction}
    (hmem : tx.encodeWithoutWitness ∈ S) (hlen : tx.encodeWithoutWitness.length ≠ 64) :
    ∀ p ∈ pairsIn S, calculateTxid sha256 tx ≠ combineNodes sha256 p.1 p.2 := by
  intro p hp heq
  have hbytes : tx.encodeWithoutWitness = nodePreimage p.1 p.2 := hinj hmem hp heq
  exact hlen (by rw [hbytes, length_nodePreimage])

/-- The height does not depend on the witnesses. -/
theorem bip34BlockHeight_withoutWitness (env : ScriptEnv) (tx : Transaction) :
    bip34BlockHeight env (withoutWitness tx) = bip34BlockHeight env tx := by
  rw [bip34BlockHeight, bip34BlockHeight, withoutWitness, List.head?_map]
  cases tx.input.head? with
  | none => rfl
  | some input => rfl

/-! ### The parts of a verified proof -/

section
variable {env : ScriptEnv} {proof : BitcoinHeaderShortProof}

/-- A successful run of `verify`. -/
theorem verify_eq_ok_iff {info : L1UpdateSystemTransactionInfo} : proof.verify env = .ok info ↔
      proof.header.precomputedHash = proof.header.blockHash env.sha256 ∧
      (proof.coinbaseTxTxidMerkleProof.take
        (proof.coinbaseTxTxidMerkleProof.length % 2 ^ 32)).foldl (combineNodes env.sha256)
          (calculateTxid env.sha256 proof.coinbaseTx) = proof.header.merkleRoot ∧
      ¬ (proof.header.txCount = 1 ∧ proof.header.txsCommitment ≠ .zero) ∧
      proof.checkTxsCommitment env = .ok () ∧
      ∃ height, bip34BlockHeight env proof.coinbaseTx = .ok height ∧
        info = ⟨proof.header.precomputedHash, proof.header.header.prevBlockhash,
          proof.header.txsCommitment, UInt8.ofNat proof.coinbaseTxTxidMerkleProof.length,
          height⟩ := by
  simp only [BitcoinHeaderShortProof.verify, calculateRoot_zero, HeaderWrapper.verifyHash,
    bind_eq_ok, ensure_eq_ok, pure_eq_ok, beq_iff_eq]
  constructor
  · rintro ⟨-, hhash, _, hroot, -, rfl, -, hone, ⟨⟩, hcheck, height, hheight, rfl⟩
    exact ⟨hhash, Except.ok.inj hroot, hone, hcheck, height, hheight, rfl⟩
  · rintro ⟨hhash, hroot, hone, hcheck, height, hheight, rfl⟩
    exact ⟨(), hhash, _, by rw [hroot], (), rfl, (), hone, (), hcheck, height, hheight, rfl⟩

/-- With a witness commitment, the check compares the committed hash. -/
theorem checkTxsCommitment_of_script {script : Bytes}
    (hscript : witnessCommitmentScript proof.coinbaseTx = some script)
    (hcheck : proof.checkTxsCommitment env = .ok ()) :
    ∃ input value, proof.coinbaseTx.input.head? = some input ∧ input.witness.head? = some value ∧
      committedHash script = (calculateDoubleSha256 env.sha256
        (proof.header.txsCommitment.data ++ value.data)).data := by
  simp only [BitcoinHeaderShortProof.checkTxsCommitment, hscript, bind_eq_ok,
    expect_eq_ok, ensure_eq_ok] at hcheck
  obtain ⟨input, hinput, value, hvalue, hcommit⟩ := hcheck
  exact ⟨input, value, hinput, hvalue, hcommit⟩

/-- Without a witness commitment and with the count zero, the commitment is not checked. -/
theorem checkTxsCommitment_of_zero_count (hscript : witnessCommitmentScript proof.coinbaseTx = none)
    (hcount : proof.header.txCount = 0) : proof.checkTxsCommitment env = .ok () := by
  simp [BitcoinHeaderShortProof.checkTxsCommitment, hscript, hcount, ensure]

/-- The path of the coinbase transaction to the merkle root of the header. -/
theorem MinedBlock.exists_path {sha256 : Bytes → Bytes32} {S : Set Bytes}
    {block : MinedBlock sha256} (hblock : block.HashesIn S) :
    ∃ p : List Bytes32, p.length = block.depth ∧
      p.foldl (combineNodes sha256) (calculateTxid sha256 block.coinbase) =
        block.header.merkleRoot ∧
      ∀ x ∈ pathPairs (combineNodes sha256) (calculateTxid sha256 block.coinbase) p,
        nodePreimage x.1 x.2 ∈ S := by
  obtain ⟨p, hlen, hfold, hmem⟩ := block.isTree.exists_leftPath block.getLast_eq rfl
  exact ⟨p, hlen, hfold, fun x hx => hblock.nodes _ (hmem x hx)⟩

variable {S : Set Bytes} (hinj : Set.InjOn (calculateDoubleSha256 env.sha256) S)
  {block : MinedBlock env.sha256} (hblock : block.HashesIn S) {proof : BitcoinHeaderShortProof}
  {info : L1UpdateSystemTransactionInfo}
include hinj hblock

/-- The merkle root binds the coinbase transaction up to its witnesses, and the length of the
path. The length is cast to one byte, but a tree is never that deep. -/
theorem coinbase_of_verify (hheader : proof.header.header = block.header)
    (hmem : ShortProofHashesIn env.sha256 S proof) (hok : proof.verify env = .ok info) :
    withoutWitness proof.coinbaseTx = withoutWitness block.coinbase ∧
      info.coinbaseTxidMerkleProofHeight.toNat = block.depth := by
  obtain ⟨-, hroot, -, -, height, -, rfl⟩ := verify_eq_ok_iff.mp hok
  obtain ⟨p, hlen, hfold, hpath⟩ := MinedBlock.exists_path hblock
  rw [HeaderWrapper.merkleRoot, hheader, ← hfold] at hroot
  obtain ⟨htxid, hpaths⟩ := foldl_node_inj (node_injOn hinj)
    (calculateTxid_ne_node hinj hmem.coinbase hmem.length_ne)
    (calculateTxid_ne_node hinj hblock.coinbase hblock.length_ne) hmem.path hpath hroot
  refine ⟨encodeWithoutWitness_inj (hinj hmem.coinbase hblock.coinbase htxid), ?_⟩
  have hdepth := block.depth_le
  have htake := congrArg List.length hpaths
  rw [length_take, hlen] at htake
  show (UInt8.ofNat proof.coinbaseTxTxidMerkleProof.length).toNat = block.depth
  rw [UInt8.toNat_ofNat']
  omega

/-- A witness commitment binds the commitment to the transactions. -/
theorem txsCommitment_of_verify {script : Bytes}
    (hscript : witnessCommitmentScript block.coinbase = some script)
    (hcoinbase : withoutWitness proof.coinbaseTx = withoutWitness block.coinbase)
    (hmem : ShortProofHashesIn env.sha256 S proof) (hok : proof.verify env = .ok info) :
    info.txCommitment = block.witnessRoot := by
  obtain ⟨-, -, -, hcheck, height, -, rfl⟩ := verify_eq_ok_iff.mp hok
  have hscript' : witnessCommitmentScript proof.coinbaseTx = some script := by
    rw [← hscript]
    show witnessCommitmentScript (withoutWitness proof.coinbaseTx) =
      witnessCommitmentScript (withoutWitness block.coinbase)
    rw [hcoinbase]
  obtain ⟨input, value, hinput, hvalue, hcommit⟩ := checkTxsCommitment_of_script hscript' hcheck
  obtain ⟨input', reserved, hinput', hreserved, hcommit'⟩ := block.commitment_eq script hscript
  -- both sides hash to the committed value; the first 32 bytes are the commitment
  have hbytes := hinj (hmem.commitment script input value hscript' hinput hvalue)
    (hblock.commitment script input' reserved hscript hinput' hreserved)
    (Bytes32.ext (hcommit.symm.trans hcommit'))
  have hlen : proof.header.txsCommitment.data.length = block.witnessRoot.data.length := by
    rw [Bytes32.length_eq, Bytes32.length_eq]
  exact Bytes32.ext (append_inj_left hbytes hlen)

/-- The result of a verified short proof, for a coinbase transaction with a witness
commitment. -/
theorem info_of_verify {script : Bytes}
    (hscript : witnessCommitmentScript block.coinbase = some script)
    (hheader : proof.header.header = block.header) (hmem : ShortProofHashesIn env.sha256 S proof)
    (hok : proof.verify env = .ok info) :
    info.headerHash = calculateDoubleSha256 env.sha256 block.header.consensusEncode ∧
    info.prevHeaderHash = block.header.prevBlockhash ∧ info.txCommitment = block.witnessRoot ∧
    info.coinbaseTxidMerkleProofHeight = UInt8.ofNat block.depth ∧
    bip34BlockHeight env block.coinbase = .ok info.blockHeight := by
  obtain ⟨hcoinbase, hdepth⟩ := coinbase_of_verify hinj hblock hheader hmem hok
  have hcommit := txsCommitment_of_verify hinj hblock hscript hcoinbase hmem hok
  obtain ⟨hhash, -, -, -, height, hheight, rfl⟩ := verify_eq_ok_iff.mp hok
  refine ⟨?_, ?_, hcommit, ?_, ?_⟩
  · rw [hhash, HeaderWrapper.blockHash, hheader]
  · rw [hheader]
  · rw [← hdepth, UInt8.ofNat_toNat]
  · rw [← bip34BlockHeight_withoutWitness, ← hcoinbase, bip34BlockHeight_withoutWitness, hheight]

omit hinj in
/-- Without a witness commitment, a proof with the count zero and any commitment verifies. -/
theorem exists_verify_of_no_script (hscript : witnessCommitmentScript block.coinbase = none)
    {height : UInt64} (hheight : bip34BlockHeight env block.coinbase = .ok height)
    (commitment : Bytes32) :
    ∃ proof info, proof.header.header = block.header ∧ ShortProofHashesIn env.sha256 S proof ∧
      proof.verify env = .ok info ∧ info.txCommitment = commitment := by
  obtain ⟨p, hlen, hfold, hpath⟩ := MinedBlock.exists_path hblock
  have hdepth := block.depth_le
  have htake : p.take (p.length % 2 ^ 32) = p := by
    rw [Nat.mod_eq_of_lt (by omega), take_length]
  refine ⟨⟨⟨block.header, 0, 0, commitment, calculateDoubleSha256 env.sha256
      block.header.consensusEncode⟩, block.coinbase, p⟩, _, rfl, ?_,
    verify_eq_ok_iff.mpr ⟨rfl, ?_, ?_, ?_, height, hheight, rfl⟩, rfl⟩
  · refine ⟨hblock.coinbase, ?_, fun script _ _ h => ?_, hblock.length_ne⟩
    · rw [htake]
      exact hpath
    · rw [hscript] at h
      cases h
  · rw [htake]
    exact hfold
  · rintro ⟨hone, -⟩
    have hzero : (0 : UInt32) = 1 := hone
    exact absurd hzero (by decide)
  · exact checkTxsCommitment_of_zero_count hscript rfl

end

/-- Binding for a block: any two verified short proofs with its header have the same result,
with the block's own commitment and depth. -/
def ShortProofsBound (env : ScriptEnv) (S : Set Bytes) (block : MinedBlock env.sha256) : Prop :=
  ∀ (proof proof' : BitcoinHeaderShortProof) (info info' : L1UpdateSystemTransactionInfo),
    proof.header.header = block.header → proof'.header.header = block.header →
    ShortProofHashesIn env.sha256 S proof → ShortProofHashesIn env.sha256 S proof' →
    proof.verify env = .ok info → proof'.verify env = .ok info' →
    info = info' ∧ info.txCommitment = block.txsCommitment ∧
      info.coinbaseTxidMerkleProofHeight.toNat = block.depth

/-- Verified short proofs are bound for a block if and only if its coinbase transaction has a
witness commitment, or its height does not parse, so that nothing verifies. -/
theorem shortProof_binding_iff (env : ScriptEnv) (S : Set Bytes)
    (hinj : Set.InjOn (calculateDoubleSha256 env.sha256) S) (block : MinedBlock env.sha256)
    (hblock : block.HashesIn S) : ShortProofsBound env S block ↔
      (witnessCommitmentScript block.coinbase).isSome = true ∨
        ∀ height, bip34BlockHeight env block.coinbase ≠ .ok height := by
  constructor
  · intro hbound
    by_contra hnot
    simp only [not_or, Bool.not_eq_true, isSome_eq_false_iff, isNone_iff_eq_none,
      not_forall, not_not] at hnot
    obtain ⟨hscript, height, hheight⟩ := hnot
    obtain ⟨proof, info, hheader, hmem, hok, hzero⟩ :=
      exists_verify_of_no_script hblock hscript hheight .zero
    obtain ⟨proof', info', hheader', hmem', hok', hone⟩ :=
      exists_verify_of_no_script hblock hscript hheight (.replicate 1)
    have hsame := (hbound proof proof' info info' hheader hheader' hmem hmem' hok hok').1
    rw [hsame, hone] at hzero
    exact absurd hzero (by decide)
  · rintro hcond proof proof' info info' hheader hheader' hmem hmem' hok hok'
    rcases hcond with hsome | hnone
    · obtain ⟨script, hscript⟩ := isSome_iff_exists.mp hsome
      obtain ⟨h1, h2, h3, h4, h5⟩ := info_of_verify hinj hblock hscript hheader hmem hok
      obtain ⟨g1, g2, g3, g4, g5⟩ := info_of_verify hinj hblock hscript hheader' hmem' hok'
      refine ⟨?_, ?_, (coinbase_of_verify hinj hblock hheader hmem hok).2⟩
      · exact L1UpdateSystemTransactionInfo.ext (h1.trans g1.symm) (h2.trans g2.symm)
          (h3.trans g3.symm) (h4.trans g4.symm) (ok_unique h5 g5)
      · rw [h3, MinedBlock.txsCommitment, if_pos hsome]
    · have hcoinbase := (coinbase_of_verify hinj hblock hheader hmem hok).1
      obtain ⟨-, -, -, -, height, hheight, -⟩ := verify_eq_ok_iff.mp hok
      rw [← bip34BlockHeight_withoutWitness, hcoinbase, bip34BlockHeight_withoutWitness] at hheight
      exact absurd hheight (hnone height)

/-! ### A block with a witness commitment and a block without one -/

/-- An environment that reads a direct push and a positive script number. -/
def pushEnv : ScriptEnv where
  sha256 := rollingHash
  instructionsMinimalNext := fun script =>
    match script with
    | [] => none
    | n :: rest =>
      if 0 < n ∧ n ≤ 75 then some (.ok (.pushBytes (rest.take n.toNat))) else some (.ok (.op n))
  readScriptint := fun b => some (b.foldr (fun x acc => x.toNat + 256 * acc) 0)

/-- The strings hashed for a block of two transactions with a witness commitment. -/
def segwitStrings : List Bytes :=
  [(committingCoinbase twoTxRoot).encodeWithoutWitness,
    nodePreimage (calculateTxid rollingHash (committingCoinbase twoTxRoot)) (plainTxid 1),
    twoTxRoot.data ++ reservedValue.data]

/-- A block of two transactions with a witness commitment. -/
def segwitBlock : MinedBlock pushEnv.sha256 where
  header := twoTxBlock.header
  coinbase := committingCoinbase twoTxRoot
  rest := [plainTx 1]
  tree := ⟨[[calculateTxid rollingHash (committingCoinbase twoTxRoot), plainTxid 1],
    [twoTxBlock.header.merkleRoot]]⟩
  witnessRoot := twoTxRoot
  fits := by decide
  tree_eq := by decide +kernel
  root_eq := rfl
  witnessRoot_eq := ⟨twoTxBlock.tree, twoTxBlock.tree_eq, rfl⟩
  commitment_eq := by
    intro script hscript
    rw [witnessCommitmentScript_committingCoinbase] at hscript
    rw [← some.inj hscript]
    exact ⟨coinbaseInput, reservedValue, rfl, rfl, twoTxBlock.commitment_eq⟩

/-- The theorem applied to the block with a witness commitment. Its short proofs are bound, and
there is one that verifies. -/
theorem shortProof_binding_segwitBlock :
    ShortProofsBound pushEnv {s | s ∈ segwitStrings} segwitBlock ∧
      BitcoinHeaderShortProof.verify pushEnv ⟨⟨segwitBlock.header, 2, 0, twoTxRoot,
            calculateDoubleSha256 rollingHash segwitBlock.header.consensusEncode⟩,
          segwitBlock.coinbase, [plainTxid 1]⟩ =
        .ok ⟨calculateDoubleSha256 rollingHash segwitBlock.header.consensusEncode, .zero,
          twoTxRoot, 1, 882547⟩ := by
  have hinj : Set.InjOn (calculateDoubleSha256 rollingHash) {s | s ∈ segwitStrings} :=
    (CollisionFree.of_list (by decide +kernel) (by decide +kernel)).injOn
  have hblock : segwitBlock.HashesIn {s | s ∈ segwitStrings} := by
    refine ⟨?_, ?_, ?_, by decide +kernel⟩
    · exact mem_cons_self
    · have hnodes : ∀ s ∈ treePreimages segwitBlock.tree.nodes, s ∈ segwitStrings := by
        decide +kernel
      exact hnodes
    · intro script input reserved _ hinput hreserved
      obtain rfl : coinbaseInput = input := some.inj hinput
      obtain rfl : reservedValue = reserved := some.inj hreserved
      exact mem_cons_of_mem _ (mem_cons_of_mem _ mem_cons_self)
  refine ⟨(shortProof_binding_iff pushEnv _ hinj segwitBlock hblock).mpr (Or.inl ?_), ?_⟩
  · decide +kernel
  · decide +kernel

/-- A coinbase transaction without a witness commitment, which pushes the height 368030. -/
def legacyCoinbase : Transaction where
  version := 1
  lockTime := 0
  input := [⟨⟨.zero, 0xffffffff⟩, ⟨[3, 0x9e, 0x9d, 0x05], by decide⟩, 0, [], nil_fits⟩]
  output := [⟨0, ⟨[0x51], by decide⟩⟩]
  input_fits := by decide
  output_fits := by decide

theorem witnessCommitmentScript_legacyCoinbase :
    witnessCommitmentScript legacyCoinbase = none := by decide

/-- A block with this coinbase transaction only. -/
def legacyBlock : MinedBlock pushEnv.sha256 where
  header := ⟨0, .zero, calculateTxid rollingHash legacyCoinbase, 0, 0, 0⟩
  coinbase := legacyCoinbase
  rest := []
  tree := ⟨[[calculateTxid rollingHash legacyCoinbase]]⟩
  witnessRoot := .zero
  fits := by decide
  tree_eq := rfl
  root_eq := rfl
  witnessRoot_eq := ⟨⟨[[.zero]]⟩, rfl, rfl⟩
  commitment_eq := by
    intro script hscript
    rw [witnessCommitmentScript_legacyCoinbase] at hscript
    cases hscript

/-- A short proof of that block with the transaction count zero. -/
def legacyProof (commitment : Bytes32) : BitcoinHeaderShortProof where
  header := ⟨legacyBlock.header, 0, 0, commitment,
    calculateDoubleSha256 rollingHash legacyBlock.header.consensusEncode⟩
  coinbaseTx := legacyCoinbase
  coinbaseTxTxidMerkleProof := []

/-- With the count zero, two short proofs of one block verify with the commitments zero and
`[1; 32]`. -/
theorem shortProof_binding_legacyBlock :
    Set.InjOn (calculateDoubleSha256 rollingHash) {legacyCoinbase.encodeWithoutWitness} ∧
    legacyBlock.HashesIn {legacyCoinbase.encodeWithoutWitness} ∧
    (legacyProof .zero).verify pushEnv =
      .ok ⟨(legacyProof .zero).header.precomputedHash, .zero, .zero, 0, 368030⟩ ∧
    (legacyProof (.replicate 1)).verify pushEnv =
      .ok ⟨(legacyProof .zero).header.precomputedHash, .zero, .replicate 1, 0, 368030⟩ ∧
    ¬ ShortProofsBound pushEnv {legacyCoinbase.encodeWithoutWitness} legacyBlock := by
  have hscript : ∀ script, witnessCommitmentScript legacyCoinbase ≠ some script := by
    intro script
    rw [witnessCommitmentScript_legacyCoinbase]
    exact nofun
  have hlen : legacyCoinbase.encodeWithoutWitness.length ≠ 64 := by decide
  have hzero : (legacyProof .zero).verify pushEnv =
      .ok ⟨(legacyProof .zero).header.precomputedHash, .zero, .zero, 0, 368030⟩ := by
    decide +kernel
  have hone : (legacyProof (.replicate 1)).verify pushEnv =
      .ok ⟨(legacyProof .zero).header.precomputedHash, .zero, .replicate 1, 0, 368030⟩ := by
    decide +kernel
  have hmem : ∀ commitment, ShortProofHashesIn rollingHash
      {legacyCoinbase.encodeWithoutWitness} (legacyProof commitment) := by
    intro commitment
    exact ⟨rfl, by simp [legacyProof, pathPairs], fun script _ _ h => absurd h (hscript script),
      hlen⟩
  refine ⟨Set.injOn_singleton _ _, ⟨rfl, by decide, fun script _ _ h => absurd h (hscript script),
    hlen⟩, hzero, hone, ?_⟩
  intro hbound
  have hsame := (hbound _ _ _ _ rfl rfl (hmem _) (hmem _) hzero hone).1
  rw [L1UpdateSystemTransactionInfo.mk.injEq] at hsame
  exact absurd hsame.2.2.1 (by decide)

end Citrea.Proofs.Bitcoin
