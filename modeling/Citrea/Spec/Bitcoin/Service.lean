import Citrea.Spec.Bitcoin.Parsers

/-!
# `Citrea.Spec.Bitcoin.Service`: what the node reads from a Bitcoin block

`crates/bitcoin-da/src/service.rs`: the witness root that the header of a block carries, and the
relevant blobs of a block with their proof. The verifier is in `Spec.Bitcoin.Verifier`; here its
environment has the parser of the repository.
-/

namespace Citrea.Spec.Bitcoin

open Lib

/-- The environment of the verifier with the parser of the repository. -/
def daEnv (sha256 : Bytes → Bytes32)
    (verifyDigest : (publicKey : Bytes) → (hash : Bytes32) → (signature : Bytes) → Bool) : DaEnv :=
  { sha256, verifyDigest, parseRelevantTransaction }

/-- `BitcoinBlock`. -/
structure BitcoinBlock where
  header : HeaderWrapper
  txdata : List Transaction

/-- The leaf of the coinbase transaction in the witness tree: zero, or its wtxid in a block
without a witness commitment. -/
def coinbaseLeaf (sha256 : Bytes → Bytes32) (coinbase : Transaction) : Bytes32 :=
  match witnessCommitmentScript coinbase with
  | some _ => .zero
  | none => calculateWtxid sha256 coinbase

/-- The leaves of the witness tree. -/
def witnessLeaves (sha256 : Bytes → Bytes32) : List Transaction → List Bytes32
  | [] => []
  | coinbase :: rest => coinbaseLeaf sha256 coinbase :: rest.map (calculateWtxid sha256)

/-- `calculate_witness_root`. -/
def calculateWitnessRoot {ε : Type} (sha256 : Bytes → Bytes32) (txdata : List Transaction)
    (txCount : Nat) : Outcome ε Bytes32 :=
  if txCount = 1 then pure .zero
  else do
    let tree ← BitcoinMerkleTree.new sha256 (witnessLeaves sha256 txdata)
    tree.root

/-- The block that `get_block_by_hash` makes of a header and transactions. -/
def wrapBlock {ε : Type} (sha256 : Bytes → Bytes32) (header : BitcoinHeader) (height : UInt64)
    (txdata : List Transaction) : Outcome ε BitcoinBlock := do
  let txsCommitment ← calculateWitnessRoot sha256 txdata txdata.length
  let wrapper : HeaderWrapper :=
    { header
      txCount := UInt32.ofNat txdata.length
      height
      txsCommitment
      precomputedHash := calculateDoubleSha256 sha256 header.consensusEncode }
  pure ⟨wrapper, txdata⟩

section
variable (env : DaEnv)

/-- The loop that makes the blobs of the transactions of the completeness proof. -/
def blobsOfTransactions : List Transaction → Outcome ValidationError (List BlobWithSender)
  | [] => pure []
  | tx :: txs => do
    let blob ← blobOfTransaction env (calculateWtxid env.sha256 tx) tx
    let blobs ← blobsOfTransactions txs
    pure (blob.toList ++ blobs)

/-- `extract_relevant_blobs_with_proof`. -/
def extractRelevantBlobsWithProof (revealTxPrefix : Bytes) (block : BitcoinBlock) :
    Outcome ValidationError (List BlobWithSender × InclusionMultiProof × List Transaction) := do
  let coinbase ← expect block.txdata.head? "index out of bounds"
  let rest := block.txdata.tail
  -- the coinbase transaction counts as zero, so it is relevant when the prefix is all zeros
  let relevantCoinbase := if revealTxPrefix.all (· == 0) then [coinbase] else []
  let completenessProof := relevantCoinbase ++
    rest.filter fun tx => startsWith revealTxPrefix (calculateWtxid env.sha256 tx)
  let wtxids := Bytes32.zero :: rest.map (calculateWtxid env.sha256)
  let tree ← BitcoinMerkleTree.new env.sha256 (block.txdata.map (calculateTxid env.sha256))
  let root ← tree.root
  assert (root = block.header.merkleRoot) "Merkle root mismatch"
  let coinbaseProof ← tree.getIdxPath 0
  let relevantTxs ← blobsOfTransactions env completenessProof
  pure (relevantTxs, ⟨wtxids, coinbase, coinbaseProof⟩, completenessProof)

end

end Citrea.Spec.Bitcoin
