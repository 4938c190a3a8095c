import Citrea.Lib.PairLevel
import Citrea.Spec.Bitcoin.Transaction
import Citrea.Spec.Fork

/-!
# `Citrea.Spec.BatchProof.Circuit`: L2 blocks, sequencer commitments and their hashes

`crates/sovereign-sdk/rollup-interface/src/state_machine/{block.rs,da.rs}` and
`.../zk/batch_proof/{input,output}/v3.rs`.

A 32-byte hash is a value of a type `H`, and a state root is one too. Three kinds of data are
hashed with SHA-256 here: the 128 bytes of a header, the 44 bytes of a commitment, and the 64
bytes of a pair of tree nodes. Each format has fixed field widths and the three lengths differ.
So the bytes determine the data, and `HashInput` stands for them. SHA-256 itself is a function
on `HashInput`.
-/

namespace Citrea.Spec.BatchProof

open Lib

/-- `L2Header`. `l1FeeRate` is a `u128`. -/
@[ext]
structure L2Header (H : Type) where
  height : UInt64
  prevHash : H
  stateRoot : H
  l1FeeRate : BitVec 128
  txMerkleRoot : H
  timestamp : UInt64
deriving DecidableEq

/-- `SequencerCommitment`. -/
@[ext]
structure SequencerCommitment (H : Type) where
  merkleRoot : H
  index : UInt32
  l2EndBlockNumber : UInt64
deriving DecidableEq

/-- The data that is hashed with SHA-256. -/
inductive HashInput (H : Type) where
  | header (h : L2Header H)
  | commitment (c : SequencerCommitment H)
  | node (left right : H)
deriving DecidableEq

variable {H : Type}

/-- `L2Header::compute_digest`. -/
def L2Header.computeDigest (sha256 : HashInput H → H) (h : L2Header H) : H := sha256 (.header h)

/-- `SequencerCommitment::serialize_and_calculate_sha_256`. -/
def SequencerCommitment.serializeAndCalculateSha256 (sha256 : HashInput H → H)
    (c : SequencerCommitment H) : H := sha256 (.commitment c)

/-- `SignedL2Header`. -/
structure SignedL2Header (H : Type) where
  inner : L2Header H
  hash : H
  signature : Bytes
deriving DecidableEq

/-- `L2Block`, with transactions of a type `Tx`. -/
structure L2Block (H Tx : Type) where
  header : SignedL2Header H
  txs : List Tx
deriving DecidableEq

namespace L2Block

variable {Tx : Type}

def height (b : L2Block H Tx) : UInt64 := b.header.inner.height
def hash (b : L2Block H Tx) : H := b.header.hash
def prevHash (b : L2Block H Tx) : H := b.header.inner.prevHash
def stateRoot (b : L2Block H Tx) : H := b.header.inner.stateRoot
def txMerkleRoot (b : L2Block H Tx) : H := b.header.inner.txMerkleRoot

end L2Block

/-- `PrevHashProof`. -/
structure PrevHashProof (H : Type) where
  merkleProofBytes : Bytes
  lastHeader : L2Header H
  prevSequencerCommitmentStart : UInt64
deriving DecidableEq

/-- `CumulativeStateDiff`: keys with their new values, none for a deleted key. A later entry
replaces an earlier one for the same key. -/
abbrev CumulativeStateDiff := List (Bytes × Option Bytes)

/-- `BatchProofCircuitOutputV3`. -/
structure BatchProofCircuitOutput (H : Type) where
  stateRoots : List H
  finalL2BlockHash : H
  stateDiff : CumulativeStateDiff
  lastL2Height : UInt64
  sequencerCommitmentHashes : List H
  sequencerCommitmentIndexRange : UInt32 × UInt32
  lastL1HashOnBitcoinLightClientContract : H
  previousCommitmentIndex : Option UInt32
  previousCommitmentHash : Option H
deriving DecidableEq

/-! ### The merkle root over the transactions of a block

`crates/primitives/src/merkle.rs`.

From `Fork3` on, the digest of a transaction is hashed again behind a byte 0, and a pair of tree
nodes is hashed behind a byte 1. These are strings of 33 and of 65 bytes, so `SeparatedInput`
stands for them, and they differ from all strings that `HashInput` stands for. The tree is
`rs_merkle::MerkleTree`.
-/

/-- The data that is hashed with SHA-256 behind a separator. -/
inductive SeparatedInput (H : Type) where
  /-- A byte 0 and the digest of a transaction. -/
  | leaf (digest : H)
  /-- A byte 1 and two nodes. -/
  | node (left right : H)
deriving DecidableEq

/-- The functions that `merkle.rs` calls: `sha256` for data without a separator, `separated` for
data with one, and `Transaction::compute_digest`. -/
structure TxMerkleEnv (H Tx : Type) where
  sha256 : HashInput H → H
  separated : SeparatedInput H → H
  computeDigest : Tx → H
  emptyTxRoot : H

variable {H Tx : Type} (env : TxMerkleEnv H Tx)

/-- `compute_tx_hashes`. -/
def computeTxHashes (txs : List Tx) (spec : SpecId) : List H :=
  if SpecId.fork3.toNat ≤ spec.toNat then
    txs.map fun tx => env.separated (.leaf (env.computeDigest tx))
  else txs.map env.computeDigest

/-- `compute_tx_merkle_root`. -/
def computeTxMerkleRoot (txHashes : List H) (spec : SpecId) : Outcome Empty H :=
  if txHashes.isEmpty then pure env.emptyTxRoot
  else if SpecId.fork3.toNat ≤ spec.toNat then
    expect (carryRoot (fun l r => env.separated (.node l r)) txHashes)
      "Couldn't compute merkle root"
  else
    expect (carryRoot (fun l r => env.sha256 (.node l r)) txHashes)
      "Couldn't compute merkle root"

/-- `verify_tx_merkle_root`. -/
def verifyTxMerkleRoot [DecidableEq H] (txs : List Tx) (root : H) (spec : SpecId) :
    Outcome Empty Bool := do
  let txMerkleRoot ← computeTxMerkleRoot env (computeTxHashes env txs spec) spec
  pure (txMerkleRoot = root)

/-! ### `apply_l2_blocks_from_sequencer_commitments`

`crates/sovereign-sdk/module-system/sov-modules-stf-blueprint/src/lib.rs`. The function runs in a
guest that is compiled without overflow checks, so additions on `u32` and `u64` wrap.

`StfEnv` holds what the function calls: SHA-256, the `rs_merkle` crate, the key and signature
checks, and the execution of a verified block, which is a function of the pre-state root, the
logs of the earlier blocks, the witnesses and the block.

The guest reads its blocks from the host. `HostItem` is one value that the host sends. A read of
a value of another type, or past the end, panics.
-/

/-- `L2BlockError` and the hook and execution errors of `StateTransitionError`. -/
inductive StateTransitionError where
  | invalidTxMerkleRoot
  | invalidL2BlockHash
  | invalidL2BlockSignature
  | execution (message : String)
deriving DecidableEq

/-- `L2BlockResult`, the parts that the circuit uses. `Log` is `ReadWriteLog`. -/
structure L2BlockResult (H Log : Type) where
  initRoot : H
  finalRoot : H
  stateLog : Log
  offchainLog : Log
  stateDiff : CumulativeStateDiff

/-- One value that the host sends to the guest. -/
inductive HostItem (H Tx Wit : Type) where
  | u32 (n : UInt32)
  | u64 (n : UInt64)
  | block (b : L2Block H Tx) (stateWitness offchainWitness : Wit)

/-- The functions that the circuit calls. `merkleRoot` is
`MerkleTree::<Sha256>::from_leaves(..).root()`. A merkle proof is the list of its hashes, and
`merkleVerify` is `MerkleProof::verify` for one leaf. `executeL2Block` is `apply_l2_block` after
the check of the block. -/
structure StfEnv (H Tx Wit Log Key : Type) where
  sha256 : HashInput H → H
  merkleRoot : List H → Option H
  merkleProofFromBytes : Bytes → Option (List H)
  merkleVerify : (proof : List H) → (root : H) → (index : Nat) → (leaf : H) → (count : Nat) → Bool
  publicKeyFromSlice : Bytes → Option Key
  verifyTxMerkleRoot : List Tx → H → SpecId → Bool
  verifySignature : SignedL2Header H → Key → Bool
  executeL2Block : SpecId → Key → (preStateRoot : H) → Option (Log × Log) → Wit → Wit →
    L2Block H Tx → Outcome StateTransitionError (L2BlockResult H Log)
  pruneHalf : Log → Log

/-- The arguments of `apply_l2_blocks_from_sequencer_commitments`, with what the host sends. -/
structure CircuitInput (H Tx Wit : Type) where
  sequencerPublicKey : Bytes
  initialPrevL2BlockHash : Option H
  initialStateRoot : H
  previousSequencerCommitment : Option (SequencerCommitment H)
  prevHashProof : Option (PrevHashProof H)
  sequencerCommitments : List (SequencerCommitment H)
  cachePruneL2Heights : List UInt64
  forks : List Fork
  host : List (HostItem H Tx Wit)

/-- `ApplySequencerCommitmentsOutput`. -/
structure ApplySequencerCommitmentsOutput (H Log : Type) where
  stateRoots : List H
  stateDiff : CumulativeStateDiff
  lastL2Height : UInt64
  finalL2BlockHash : H
  sequencerCommitmentHashes : List H
  sequencerCommitmentIndexRange : UInt32 × UInt32
  cumulativeStateLog : Log
  previousCommitmentIndex : Option UInt32
  previousCommitmentHash : Option H
deriving DecidableEq

/-- The variables of the function that change from block to block. -/
structure CircuitState (H Tx Wit Log : Type) where
  host : List (HostItem H Tx Wit)
  prevL2BlockHash : Option H
  forkManager : ForkManager
  currentStateRoot : H
  cumulativeLogs : Option (Log × Log)
  cachePruneL2Heights : List UInt64
  stateDiff : CumulativeStateDiff

/-- The variables of the loop over the blocks of one commitment. -/
structure BlockLoop (H Tx Wit Log : Type) where
  state : CircuitState H Tx Wit Log
  l2Height : UInt64
  l2BlockHashes : List H

/-- The variables of the loop over the commitments. -/
structure CommitmentLoop (H Tx Wit Log : Type) where
  state : CircuitState H Tx Wit Log
  sequencerCommitmentL2StartHeight : UInt64
  lastCommitmentEndHeight : UInt64
  stateRoots : List H

section
variable {H Tx Wit Log Key : Type}

/-- `guest.read_from_host::<u32>()`, with the rest of what the host sends. -/
def readU32 : List (HostItem H Tx Wit) → Outcome Empty (UInt32 × List (HostItem H Tx Wit))
  | .u32 n :: rest => pure (n, rest)
  | _ => Outcome.panic "read_from_host"

/-- `guest.read_from_host::<u64>()`. -/
def readU64 : List (HostItem H Tx Wit) → Outcome Empty (UInt64 × List (HostItem H Tx Wit))
  | .u64 n :: rest => pure (n, rest)
  | _ => Outcome.panic "read_from_host"

/-- `guest.read_from_host::<(L2Block, Witness, Witness)>()`. -/
def readBlock : List (HostItem H Tx Wit) →
    Outcome Empty ((L2Block H Tx × Wit × Wit) × List (HostItem H Tx Wit))
  | .block b stateWitness offchainWitness :: rest => pure ((b, stateWitness, offchainWitness), rest)
  | _ => Outcome.panic "read_from_host"

/-- `next_if_eq(&&height)` on the peekable iterator over the pruning heights: whether it
returned an item, and the items that are left. -/
def nextIfEq (height : UInt64) : List UInt64 → Bool × List UInt64
  | [] => (false, [])
  | h :: rest => if h = height then (true, rest) else (false, h :: rest)

variable [DecidableEq H] (env : StfEnv H Tx Wit Log Key)

/-- `StfBlueprint::verify_l2_block`. -/
def verifyL2Block (block : L2Block H Tx) (sequencerPublicKey : Key) (currentSpec : SpecId) :
    Outcome StateTransitionError Unit := do
  ensure (env.verifyTxMerkleRoot block.txs block.txMerkleRoot currentSpec = true)
    .invalidTxMerkleRoot
  ensure (block.hash = block.header.inner.computeDigest env.sha256) .invalidL2BlockHash
  ensure (env.verifySignature block.header sequencerPublicKey = true)
    .invalidL2BlockSignature

/-- `StfBlueprint::apply_l2_block`. -/
def applyL2Block (currentSpec : SpecId) (sequencerPublicKey : Key) (preStateRoot : H)
    (cumulativeLogs : Option (Log × Log)) (stateWitness offchainWitness : Wit)
    (block : L2Block H Tx) : Outcome StateTransitionError (L2BlockResult H Log) := do
  verifyL2Block env block sequencerPublicKey currentSpec
  env.executeL2Block currentSpec sequencerPublicKey preStateRoot cumulativeLogs stateWitness
    offchainWitness block

/-- The body of the loop over the blocks of a commitment. -/
def applyNextBlock (sequencerPublicKey : Key) (loop : BlockLoop H Tx Wit Log) :
    Outcome Empty (BlockLoop H Tx Wit Log) := do
  let (_, host) ← readU64 loop.state.host
  let ((block, stateWitness, offchainWitness), host) ← readBlock host
  assert (block.height = loop.l2Height)
    "L2 block height is not equal to the expected height"
  assert (∀ prevHash ∈ loop.state.prevL2BlockHash, block.prevHash = prevHash)
    "L2 block previous hash must match the hash of the block before"
  let forkManager ← loop.state.forkManager.registerBlock loop.l2Height
  let activeFork ← forkManager.activeFork
  let result ← (applyL2Block env activeFork.specId sequencerPublicKey
    loop.state.currentStateRoot loop.state.cumulativeLogs stateWitness offchainWitness
    block).expectOk "L2 block must succeed"
  assert (loop.state.currentStateRoot = result.initRoot)
    "assertion `left == right` failed"
  assert (result.finalRoot = block.stateRoot) "assertion `left == right` failed"
  let (prune, cachePruneL2Heights) := nextIfEq loop.l2Height loop.state.cachePruneL2Heights
  let logs := if prune then (env.pruneHalf result.stateLog, env.pruneHalf result.offchainLog)
    else (result.stateLog, result.offchainLog)
  pure
    { state :=
        { host := host
          prevL2BlockHash := some block.hash
          forkManager := forkManager
          currentStateRoot := result.finalRoot
          cumulativeLogs := some logs
          cachePruneL2Heights := cachePruneL2Heights
          stateDiff := loop.state.stateDiff ++ result.stateDiff }
      l2Height := loop.l2Height + 1
      l2BlockHashes := loop.l2BlockHashes ++ [block.hash] }

/-- `for _ in 0..state_change_count`. -/
def applyBlocks (sequencerPublicKey : Key) : Nat → BlockLoop H Tx Wit Log →
    Outcome Empty (BlockLoop H Tx Wit Log)
  | 0, loop => pure loop
  | n + 1, loop => do
    let loop ← applyNextBlock env sequencerPublicKey loop
    applyBlocks sequencerPublicKey n loop

/-- The body of the loop over the commitments. -/
def applyCommitment (sequencerPublicKey : Key) (loop : CommitmentLoop H Tx Wit Log)
    (commitment : SequencerCommitment H) : Outcome Empty (CommitmentLoop H Tx Wit Log) := do
  assert (loop.lastCommitmentEndHeight + 1 = loop.sequencerCommitmentL2StartHeight)
    "Sequencer commitments must be sequential"
  let (stateChangeCount, host) ← readU32 loop.state.host
  let blocks ← applyBlocks env sequencerPublicKey stateChangeCount.toNat
    { state := { loop.state with host := host }
      l2Height := loop.sequencerCommitmentL2StartHeight
      l2BlockHashes := [] }
  assert (env.merkleRoot blocks.l2BlockHashes = some commitment.merkleRoot)
    "Invalid merkle root"
  assert (commitment.l2EndBlockNumber = blocks.l2Height - 1)
    "assertion `left == right` failed"
  pure
    { state := blocks.state
      sequencerCommitmentL2StartHeight := blocks.l2Height
      lastCommitmentEndHeight := commitment.l2EndBlockNumber
      stateRoots := loop.stateRoots ++ [blocks.state.currentStateRoot] }

/-- `for sequencer_commitment in sequencer_commitments`. -/
def applyCommitments (sequencerPublicKey : Key) (loop : CommitmentLoop H Tx Wit Log) :
    List (SequencerCommitment H) → Outcome Empty (CommitmentLoop H Tx Wit Log)
  | [] => pure loop
  | commitment :: rest => do
    let loop ← applyCommitment env sequencerPublicKey loop commitment
    applyCommitments sequencerPublicKey loop rest

/-- The hash of the block before the first block to prove. With a previous commitment, the
host proves the last header of that commitment. -/
def initialPrevHash (input : CircuitInput H Tx Wit) : Outcome Empty (Option H) :=
  match input.previousSequencerCommitment with
  | some commitment => do
    let prevHashProof ← expect input.prevHashProof
      "Previous sequencer commitment must have a prev hash proof"
    let merkleProof ← expect (env.merkleProofFromBytes prevHashProof.merkleProofBytes)
      "Merkle proof must be valid"
    assert (prevHashProof.lastHeader.stateRoot = input.initialStateRoot)
      "Initial state root must match the last header state root"
    assert (prevHashProof.prevSequencerCommitmentStart ≤ commitment.l2EndBlockNumber)
      "Index underflow"
    -- `as usize` keeps 32 bits in the guest
    let index := (commitment.l2EndBlockNumber.toNat -
      prevHashProof.prevSequencerCommitmentStart.toNat) % 2 ^ 32
    assert (index + 1 < 2 ^ 32) "Count overflow"
    let lastHeaderHash := prevHashProof.lastHeader.computeDigest env.sha256
    assert
      (env.merkleVerify merkleProof commitment.merkleRoot index lastHeaderHash (index + 1) = true)
      "Prev hash proof must be valid"
    pure (some lastHeaderHash)
  | none => do
    assert (input.prevHashProof = none) "assertion failed: prev_hash_proof.is_none()"
    pure input.initialPrevL2BlockHash

/-- The activation height of the first fork from Tangerine on. -/
def provingActivationHeight (forks : List Fork) : Outcome Empty UInt64 := do
  let fork ← expect (forks.find? fun f => SpecId.tangerine.toNat ≤ f.specId.toNat)
    "A fork GTE to Tangerine must exist"
  pure fork.activationHeight

/-- The end height of the previous batch proof, and the index and the hash of the previous
commitment. -/
def previousCommitment (input : CircuitInput H Tx Wit) (first : SequencerCommitment H)
    (activationHeight : UInt64) : Outcome Empty (UInt64 × Option UInt32 × Option H) :=
  match input.previousSequencerCommitment with
  | some previous => do
    assert (previous.index ≠ 0) "Previous sequencer commitment index must be non-zero"
    assert (previous.index + 1 = first.index) "Sequencer commitments must be sequential"
    pure (previous.l2EndBlockNumber, some previous.index,
      some (previous.serializeAndCalculateSha256 env.sha256))
  | none => do
    assert (first.index = 1) "First commitment must be index 1"
    pure (if activationHeight = 0 then 0 else activationHeight - 1, none, none)

/-- `StfBlueprint::apply_l2_blocks_from_sequencer_commitments`. -/
def applyL2BlocksFromSequencerCommitments (input : CircuitInput H Tx Wit) :
    Outcome Empty (ApplySequencerCommitmentsOutput H Log) := do
  let sequencerPublicKey ← expect (env.publicKeyFromSlice input.sequencerPublicKey)
    "Sequencer public key must be valid"
  let first ← expect input.sequencerCommitments.head? "called `Option::unwrap()` on `None`"
  let last ← expect input.sequencerCommitments.getLast?
    "called `Option::unwrap()` on `None`"
  let prevL2BlockHash ← initialPrevHash env input
  let (groupCount, host) ← readU32 input.host
  assert (groupCount.toNat = input.sequencerCommitments.length % 2 ^ 32)
    "assertion `left == right` failed"
  let activationHeight ← provingActivationHeight input.forks
  let (previousEndHeight, previousCommitmentIndex, previousCommitmentHash) ←
    previousCommitment env input first activationHeight
  let loop ← applyCommitments env sequencerPublicKey
    { state :=
        { host := host
          prevL2BlockHash := prevL2BlockHash
          forkManager := ForkManager.new input.forks (previousEndHeight + 1)
          currentStateRoot := input.initialStateRoot
          cumulativeLogs := none
          cachePruneL2Heights := input.cachePruneL2Heights
          stateDiff := [] }
      sequencerCommitmentL2StartHeight := previousEndHeight + 1
      lastCommitmentEndHeight := previousEndHeight
      stateRoots := [input.initialStateRoot] }
    input.sequencerCommitments
  let finalL2BlockHash ← expect loop.state.prevL2BlockHash
    "called `Option::unwrap()` on `None`"
  let cumulativeLogs ← expect loop.state.cumulativeLogs
    "called `Option::unwrap()` on `None`"
  pure
    { stateRoots := loop.stateRoots
      stateDiff := loop.state.stateDiff
      lastL2Height := loop.lastCommitmentEndHeight
      finalL2BlockHash := finalL2BlockHash
      sequencerCommitmentHashes :=
        input.sequencerCommitments.map (·.serializeAndCalculateSha256 env.sha256)
      sequencerCommitmentIndexRange := (first.index, last.index)
      cumulativeStateLog := cumulativeLogs.1
      previousCommitmentIndex := previousCommitmentIndex
      previousCommitmentHash := previousCommitmentHash }

/-- The output of the batch proof circuit: the output of the function above, with the last L1
hash. -/
def ApplySequencerCommitmentsOutput.toCircuitOutput
    (output : ApplySequencerCommitmentsOutput H Log) (lastL1Hash : H) :
    BatchProofCircuitOutput H where
  stateRoots := output.stateRoots
  finalL2BlockHash := output.finalL2BlockHash
  stateDiff := output.stateDiff
  lastL2Height := output.lastL2Height
  sequencerCommitmentHashes := output.sequencerCommitmentHashes
  sequencerCommitmentIndexRange := output.sequencerCommitmentIndexRange
  lastL1HashOnBitcoinLightClientContract := lastL1Hash
  previousCommitmentIndex := output.previousCommitmentIndex
  previousCommitmentHash := output.previousCommitmentHash

end

end Citrea.Spec.BatchProof
