import Citrea.Spec.BatchProof.Circuit
import Mathlib.Logic.Function.Basic

/-!
# `Citrea.Spec.LightClient.Circuit`: the key space of the light client

`crates/light-client-prover/src/circuit/accessors.rs`. All data of the light client lives in one
tree. A key is a prefix byte and a payload, and the type of a value is fixed by its key.
`Key.bytes` gives the bytes of a key as the source builds them.

The working set is the map from keys to values: the storage with the writes of the block on top.
-/

namespace Citrea.Spec.LightClient

open Lib Spec.BatchProof

/-- `[u32; 8]`. -/
abbrev MethodId := Vector UInt32 8

/-- `BatchProofMethodIds`: activation heights with method ids. -/
abbrev BatchProofMethodIds := List (UInt64 × MethodId)

/-- `VerifiedStateTransitionForSequencerCommitmentIndex`. -/
@[ext]
structure VerifiedStateTransition (H : Type) where
  initialStateRoot : H
  finalStateRoot : H
  lastL2Height : UInt64
deriving DecidableEq

/-- A key of the tree. -/
inductive Key (H : Type) where
  | blockHash (hash : H)
  | chunk (wtxid : H)
  | sequencerCommitment (index : UInt32)
  | verifiedTransition (index : UInt32)
  | batchProofMethodIds
deriving DecidableEq

variable {H : Type}

/-- The type of the values under a key. -/
abbrev Key.Value (H : Type) : Key H → Type
  | .blockHash _ => Unit
  | .chunk _ => Bytes
  | .sequencerCommitment _ => SequencerCommitment H
  | .verifiedTransition _ => VerifiedStateTransition H
  | .batchProofMethodIds => BatchProofMethodIds

/-- The working set. -/
def WorkingSet (H : Type) := (k : Key H) → Option (k.Value H)

/-- The empty tree. -/
def WorkingSet.empty : WorkingSet H := fun _ => none

section
variable [DecidableEq H]

/-- `working_set.set`. -/
def WorkingSet.set (ws : WorkingSet H) (k : Key H) (v : k.Value H) : WorkingSet H :=
  Function.update ws k (some v)

namespace BlockHashAccessor

/-- `exists`. -/
def existsHash (hash : H) (ws : WorkingSet H) : Bool := (ws (.blockHash hash)).isSome

def insert (hash : H) (ws : WorkingSet H) : WorkingSet H := ws.set (.blockHash hash) ()

end BlockHashAccessor

namespace ChunkAccessor

def get (wtxid : H) (ws : WorkingSet H) : Option Bytes := ws (.chunk wtxid)

def insert (wtxid : H) (body : Bytes) (ws : WorkingSet H) : WorkingSet H :=
  ws.set (.chunk wtxid) body

end ChunkAccessor

namespace SequencerCommitmentAccessor

def get (index : UInt32) (ws : WorkingSet H) : Option (SequencerCommitment H) :=
  ws (.sequencerCommitment index)

def insert (index : UInt32) (commitment : SequencerCommitment H) (ws : WorkingSet H) :
    WorkingSet H := ws.set (.sequencerCommitment index) commitment

end SequencerCommitmentAccessor

namespace VerifiedTransitionAccessor

def get (index : UInt32) (ws : WorkingSet H) : Option (VerifiedStateTransition H) :=
  ws (.verifiedTransition index)

def insert (index : UInt32) (info : VerifiedStateTransition H) (ws : WorkingSet H) :
    WorkingSet H := ws.set (.verifiedTransition index) info

end VerifiedTransitionAccessor

namespace BatchProofMethodIdAccessor

def get (ws : WorkingSet H) : Option BatchProofMethodIds := ws .batchProofMethodIds

def insert (activationL2Height : UInt64) (methodId : MethodId) (ws : WorkingSet H) : WorkingSet H :=
  let methodIds : BatchProofMethodIds := (get ws).getD []
  ws.set .batchProofMethodIds (methodIds ++ [(activationL2Height, methodId)])

/-- `initialize`. It panics when there are method ids already. -/
def initializeIds (initialBatchProofMethodIds : BatchProofMethodIds) (ws : WorkingSet H) :
    Outcome Empty (WorkingSet H) := do
  assert ((get ws).getD [] = []) "When initialized, method ids must be empty!"
  pure (ws.set .batchProofMethodIds initialBatchProofMethodIds)

end BatchProofMethodIdAccessor

end

/-! ### `run_l1_block`

`crates/light-client-prover/src/circuit/{mod.rs,method_id_verifier.rs}`. The circuit is compiled
without overflow checks, so arithmetic on `u32` wraps.

`LightClientEnv` holds what the circuit calls: SHA-256, the proof system, the decoding of a blob,
the decompression, the signature checks, and the root of the tree. `LightClientConfig` holds the
constants of a network.

`L1Block` is what a Bitcoin block brings: its hash and its relevant blobs. `runL1Blocks` is the
light client over a list of them, from the empty tree.
-/

/-- `Network`. -/
inductive Network where
  | mainnet
  | testnet
  | devnet
  | nightly
  | testNetworkWithForks
deriving DecidableEq

/-- `citrea_network_to_chain_id`. -/
def citreaNetworkToChainId : Network → UInt64
  | .mainnet => 1
  | .testnet => 5115
  | .devnet => 62298
  | .nightly => 5665
  | .testNetworkWithForks => 5665

/-- `network_to_dev_mode`. -/
def networkToDevMode (network : Network) : Bool := network != .mainnet

/-- `MAX_COMPRESSED_BLOB_SIZE`. -/
def maxCompressedBlobSize : Nat := 1024 * 1024 * 100

/-- `BatchProofMethodIdBody`. -/
structure BatchProofMethodIdBody where
  methodId : MethodId
  activationL2Height : UInt64
  chainId : UInt64
deriving DecidableEq

/-- `BatchProofMethodId`: the body with three signatures, each with the index of its key. -/
structure BatchProofMethodId where
  body : BatchProofMethodIdBody
  signaturesWithIndex : Vector (Bytes × UInt8) 3
deriving DecidableEq

/-- `DataOnDa`. -/
inductive DataOnDa (H : Type) where
  | complete (proof : Bytes)
  | aggregate (txids wtxids : List H)
  | chunk (body : Bytes)
  | batchProofMethodId (m : BatchProofMethodId)
  | sequencerCommitment (c : SequencerCommitment H)

/-- A relevant blob: `full_data`, `sender` and `wtxid`. -/
structure Blob (H : Type) where
  fullData : Bytes
  sender : Bytes
  wtxid : H

/-- `LightClientCircuitOutput`, the fields that `run_l1_block` uses. -/
structure LightClientCircuitOutput (H : Type) where
  l2StateRoot : H
  lcpStateRoot : H
  lastL2Height : UInt64
  lastSequencerCommitmentIndex : UInt32
deriving DecidableEq

/-- The functions that the circuit calls. -/
structure LightClientEnv (H : Type) where
  sha256 : HashInput H → H
  extractRawOutput : (proof : Bytes) → Option Bytes
  deserializeOutput : (journal : Bytes) → Option (BatchProofCircuitOutput H)
  zkVerify : (proof : Bytes) → MethodId → (devMode : Bool) → Bool
  dataOnDaTryFromSlice : Bytes → Option (DataOnDa H)
  decompressChunks : Bytes → Option Bytes
  serializeBody : BatchProofMethodIdBody → Bytes
  eip191HashMessage : Bytes → Bytes
  verifyingKeyFromSec1 : Bytes → Option Bytes
  signatureFromBytes : Bytes → Option Bytes
  verifyPrehash : (verifyingKey prehash signature : Bytes) → Bool
  jmtRoot : WorkingSet H → H

/-- The constants of a network. -/
structure LightClientConfig (H : Type) where
  network : Network
  l2GenesisRoot : H
  lcpJmtGenesisRoot : H
  initialBatchProofMethodIds : BatchProofMethodIds
  batchProverDaPublicKey : Bytes
  sequencerDaPublicKey : Bytes
  methodIdUpgradeAuthorityDaPublicKeys : Vector Bytes 5

/-- A Bitcoin block as `run_l1_block` sees it. -/
structure L1Block (H : Type) where
  hash : H
  blobs : List (Blob H)

/-- `first..=last`. -/
def indexRange (first last : UInt32) : List UInt32 :=
  (List.range' first.toNat (last.toNat + 1 - first.toNat)).map UInt32.ofNat

section
variable {H : Type} [DecidableEq H] (env : LightClientEnv H) (cfg : LightClientConfig H)

/-- The check of one signature of the security council. -/
def verifyCouncilSignature (prehash : Bytes) (signatureWithIndex : Bytes × UInt8) :
    Outcome Empty Bool := do
  let constPubkey ← expect
    cfg.methodIdUpgradeAuthorityDaPublicKeys.toList[signatureWithIndex.2.toNat]?
    "index out of bounds"
  let verifyingKey ← expect (env.verifyingKeyFromSec1 constPubkey)
    "Initial DA pubkeys must be parsable to k256 VerifyingKey form sec1 bytes"
  match env.signatureFromBytes signatureWithIndex.1 with
  | none => pure false
  | some signature => pure (env.verifyPrehash verifyingKey prehash signature)

/-- The loop over the signatures: it stops at the first that fails. -/
def verifyCouncilSignatures (prehash : Bytes) : List (Bytes × UInt8) → Outcome Empty Bool
  | [] => pure true
  | s :: rest => do
    let valid ← verifyCouncilSignature env cfg prehash s
    if valid then verifyCouncilSignatures prehash rest else pure false

/-- `verify_method_id_security_council`. -/
def verifyMethodIdSecurityCouncil (msg : Bytes) (signaturesWithIndex : Vector (Bytes × UInt8) 3) :
    Outcome Empty Bool :=
  let signatures := signaturesWithIndex.toList
  let indices := signatures.map Prod.snd
  if indices.any (fun i => 5 ≤ i) then pure false
  else if (indices.zip indices.tail).any (fun p => p.2 ≤ p.1) then pure false
  else verifyCouncilSignatures env cfg (env.eip191HashMessage msg) signatures

/-- The commitments of the range against the hashes of the output. -/
def commitmentsMatch (output : BatchProofCircuitOutput H) (ws : WorkingSet H) : Bool :=
  let (firstIndex, lastIndex) := output.sequencerCommitmentIndexRange
  ((indexRange firstIndex lastIndex).zip output.sequencerCommitmentHashes).zipIdx.all
    fun ((index, hash), i) =>
      match SequencerCommitmentAccessor.get index ws with
      | none => false
      | some commitment =>
        !(UInt32.ofNat i == lastIndex - firstIndex &&
          commitment.l2EndBlockNumber != output.lastL2Height) &&
        commitment.serializeAndCalculateSha256 env.sha256 == hash

/-- `verify_batch_proof_seq_comm_relation`. -/
def verifyBatchProofSeqCommRelation (output : BatchProofCircuitOutput H) (ws : WorkingSet H) :
    Bool :=
  let (firstIndex, lastIndex) := output.sequencerCommitmentIndexRange
  let previousMatches :=
    match output.previousCommitmentIndex, output.previousCommitmentHash with
    | some previousIndex, some previousHash =>
      match SequencerCommitmentAccessor.get previousIndex ws with
      | none => false
      | some previous => previous.serializeAndCalculateSha256 env.sha256 == previousHash
    | _, _ => firstIndex == 1
  previousMatches &&
    (lastIndex - firstIndex + 1).toNat == output.sequencerCommitmentHashes.length &&
    commitmentsMatch env output ws

/-- The method id in force at an L2 height. -/
def methodIdInForce (methodIds : BatchProofMethodIds) (l2Height : UInt64) :
    Outcome String MethodId :=
  if methodIds.length = 1 then
    expect (methodIds[0]?.map Prod.snd) "index out of bounds"
  else
    let idx := (binarySearchByKey Prod.fst l2Height methodIds).orPrevious
    expect (methodIds[idx]?.map Prod.snd) "index out of bounds"

/-- One turn of the loop that stores the verified transitions of a proof: a commitment index with
its position in the range. -/
def storeTransition (stateRoots : List H) (lastSequencerCommitmentIndex : UInt32)
    (ws : WorkingSet H) (item : UInt32 × Nat) : Outcome String (WorkingSet H) :=
  if item.1 ≤ lastSequencerCommitmentIndex ∨
      (VerifiedTransitionAccessor.get item.1 ws).isSome = true then
    pure ws
  else do
    let commitment ← expect (SequencerCommitmentAccessor.get item.1 ws)
      "Sequencer commitment must exist at this point"
    let initialStateRoot ← expect stateRoots[item.2]? "index out of bounds"
    let finalStateRoot ← expect stateRoots[item.2 + 1]? "index out of bounds"
    pure (VerifiedTransitionAccessor.insert item.1
      ⟨initialStateRoot, finalStateRoot, commitment.l2EndBlockNumber⟩ ws)

/-- `Z::extract_raw_output` and `Z::deserialize_output`. -/
def extractOutput (proof : Bytes) : Outcome String (BatchProofCircuitOutput H) :=
  match env.extractRawOutput proof with
  | none => err "Failed to extract output from proof"
  | some journal =>
    match env.deserializeOutput journal with
    | none => err "Failed to deserialize output"
    | some output => pure output

/-- `process_complete_proof`. It writes nothing before its last loop, so an `Err` leaves the
working set as it was. -/
def processCompleteProof (proof : Bytes) (lastL2Height : UInt64)
    (lastSequencerCommitmentIndex : UInt32) (ws : WorkingSet H) :
    Outcome String (WorkingSet H) := do
  let output ← extractOutput env proof
  ensure
    (BlockHashAccessor.existsHash output.lastL1HashOnBitcoinLightClientContract ws = true)
    "Batch proof with unknown header chain"
  ensure (¬ (output.lastL2Height ≤ lastL2Height ∧ lastL2Height ≠ 0))
    "Last L2 height is less than proof's last l2 height"
  let methodIds ← expect (BatchProofMethodIdAccessor.get ws)
    "Batch proof method ids must exist"
  let methodId ← methodIdInForce methodIds output.lastL2Height
  ensure (env.zkVerify proof methodId (networkToDevMode cfg.network) = true)
    "Failed to verify proof"
  ensure (verifyBatchProofSeqCommRelation env output ws = true)
    "Failed to verify sequencer commitment relation"
  ensure (lastSequencerCommitmentIndex < output.sequencerCommitmentIndexRange.2)
    "Last commitment index is less than or equal to previous output"
  (indexRange output.sequencerCommitmentIndexRange.1
    output.sequencerCommitmentIndexRange.2).zipIdx.foldlM
      (storeTransition output.stateRoots lastSequencerCommitmentIndex) ws

/-- The chunks of an aggregate one after the other; none when a chunk is missing or the sum gets
too large. -/
def collectChunks (ws : WorkingSet H) : List H → Bytes → Option Bytes
  | [], completeProof => some completeProof
  | wtxid :: rest, completeProof =>
    match ChunkAccessor.get wtxid ws with
    | none => none
    | some chunk =>
      if maxCompressedBlobSize < chunk.length + completeProof.length then none
      else collectChunks ws rest (completeProof ++ chunk)

/-- The proof that a blob of the batch prover carries, decompressed. -/
def proofOfBlob (ws : WorkingSet H) : DataOnDa H → Option Bytes
  | .complete proof => env.decompressChunks proof
  | .aggregate _ wtxids => (collectChunks ws wtxids []).bind env.decompressChunks
  | _ => none

/-- The branch for `DataOnDa::Complete` and `DataOnDa::Aggregate`. -/
def processProofBlob (lastL2Height : UInt64) (lastSequencerCommitmentIndex : UInt32)
    (blob : Blob H) (data : DataOnDa H) (ws : WorkingSet H) : Outcome Empty (WorkingSet H) :=
  if blob.sender ≠ cfg.batchProverDaPublicKey then pure ws
  else
    match proofOfBlob env ws data with
    | none => pure ws
    | some proof =>
      (processCompleteProof env cfg proof lastL2Height lastSequencerCommitmentIndex ws).okOr ws

/-- The branch for `DataOnDa::BatchProofMethodId`. -/
def processMethodId (m : BatchProofMethodId) (ws : WorkingSet H) :
    Outcome Empty (WorkingSet H) := do
  let methodIds ← expect (BatchProofMethodIdAccessor.get ws)
    "called `Option::unwrap()` on a `None` value"
  let last ← expect methodIds.getLast? "Should be at least one"
  if m.body.activationL2Height ≤ last.1 then pure ws
  else if citreaNetworkToChainId cfg.network ≠ m.body.chainId then pure ws
  else do
    let valid ← verifyMethodIdSecurityCouncil env cfg (env.serializeBody m.body)
      m.signaturesWithIndex
    if valid then
      pure (BatchProofMethodIdAccessor.insert m.body.activationL2Height m.body.methodId ws)
    else pure ws

/-- The branch for `DataOnDa::SequencerCommitment`. -/
def processCommitment (blob : Blob H) (c : SequencerCommitment H) (ws : WorkingSet H) :
    WorkingSet H :=
  if blob.sender ≠ cfg.sequencerDaPublicKey then ws
  else if (SequencerCommitmentAccessor.get c.index ws).isSome then ws
  else SequencerCommitmentAccessor.insert c.index c ws

/-- The body of the loop over the blobs. -/
def processBlob (lastL2Height : UInt64) (lastSequencerCommitmentIndex : UInt32) (ws : WorkingSet H)
    (blob : Blob H) : Outcome Empty (WorkingSet H) :=
  match env.dataOnDaTryFromSlice blob.fullData with
  | none => pure ws
  | some (.chunk body) => pure (ChunkAccessor.insert blob.wtxid body ws)
  | some (.complete proof) =>
    processProofBlob env cfg lastL2Height lastSequencerCommitmentIndex blob (.complete proof) ws
  | some (.aggregate txids wtxids) =>
    processProofBlob env cfg lastL2Height lastSequencerCommitmentIndex blob
      (.aggregate txids wtxids) ws
  | some (.batchProofMethodId m) => processMethodId env cfg m ws
  | some (.sequencerCommitment c) => pure (processCommitment cfg blob c ws)

/-- The loop over the blobs. -/
def processBlobs (lastL2Height : UInt64) (lastSequencerCommitmentIndex : UInt32)
    (blobs : List (Blob H)) (ws : WorkingSet H) : Outcome Empty (WorkingSet H) :=
  blobs.foldlM (processBlob env cfg lastL2Height lastSequencerCommitmentIndex) ws

/-- The root, height and index that the light client has reached. -/
structure Progress (H : Type) where
  l2StateRoot : H
  lastL2Height : UInt64
  lastSequencerCommitmentIndex : UInt32
deriving DecidableEq

/-- One turn of the loop that chains the stored transitions: the next progress, or none when the
loop ends. -/
def chainTransition (ws : WorkingSet H) (p : Progress H) : Outcome Empty (Option (Progress H)) :=
  match VerifiedTransitionAccessor.get (p.lastSequencerCommitmentIndex + 1) ws with
  | none => pure none
  | some info =>
    if info.initialStateRoot = p.l2StateRoot then
      pure (some ⟨info.finalStateRoot, info.lastL2Height, p.lastSequencerCommitmentIndex + 1⟩)
    else
      Outcome.panic "Commitment with the next index having an unexpected state root"

/-- The loop that chains the stored transitions. `fuel` bounds the number of turns. -/
def chainTransitions (ws : WorkingSet H) : (fuel : Nat) → Progress H → Outcome Empty (Progress H)
  | 0, p => pure p
  | fuel + 1, p => do
    match ← chainTransition ws p with
    | none => pure p
    | some next => chainTransitions ws fuel next

/-- `RunL1BlockResult`, with the tree after the block as its change set. -/
structure RunL1BlockResult (H : Type) where
  l2StateRoot : H
  lcpStateRoot : H
  lastL2Height : UInt64
  lastSequencerCommitmentIndex : UInt32
  changeSet : WorkingSet H

/-- Where a block starts: the progress of the previous output, or the genesis. -/
def initialProgress (previous : Option (LightClientCircuitOutput H)) : Progress H :=
  match previous with
  | none => ⟨cfg.l2GenesisRoot, 0, 0⟩
  | some output =>
    ⟨output.l2StateRoot, output.lastL2Height, output.lastSequencerCommitmentIndex⟩

/-- The working set before the blobs: with the hash of the block, and with the initial method
ids in the first run. -/
def startBlock (storage : WorkingSet H) (hash : H)
    (previous : Option (LightClientCircuitOutput H)) : Outcome Empty (WorkingSet H) :=
  let ws := BlockHashAccessor.insert hash storage
  match previous with
  | none => BatchProofMethodIdAccessor.initializeIds cfg.initialBatchProofMethodIds ws
  | some _ => pure ws

/-- `run_l1_block`. -/
def runL1Block (storage : WorkingSet H) (block : L1Block H)
    (previous : Option (LightClientCircuitOutput H)) : Outcome Empty (RunL1BlockResult H) := do
  let start := initialProgress cfg previous
  let ws ← startBlock cfg storage block.hash previous
  let ws ← processBlobs env cfg start.lastL2Height start.lastSequencerCommitmentIndex block.blobs ws
  let progress ← chainTransitions ws (2 ^ 32) start
  assert (env.jmtRoot storage = (previous.map (·.lcpStateRoot)).getD cfg.lcpJmtGenesisRoot)
    "Witness prev root is wrong!"
  pure
    { l2StateRoot := progress.l2StateRoot
      lcpStateRoot := env.jmtRoot ws
      lastL2Height := progress.lastL2Height
      lastSequencerCommitmentIndex := progress.lastSequencerCommitmentIndex
      changeSet := ws }

/-- The light client between two blocks: its tree and its last output. -/
structure LightClientState (H : Type) where
  storage : WorkingSet H
  output : Option (LightClientCircuitOutput H)

/-- The light client before the first block. -/
def LightClientState.initial : LightClientState H := ⟨WorkingSet.empty, none⟩

/-- One block of the light client. -/
def stepL1Block (s : LightClientState H) (block : L1Block H) :
    Outcome Empty (LightClientState H) := do
  let result ← runL1Block env cfg s.storage block s.output
  pure
    { storage := result.changeSet
      output := some ⟨result.l2StateRoot, result.lcpStateRoot, result.lastL2Height,
        result.lastSequencerCommitmentIndex⟩ }

/-- The light client over a list of blocks. -/
def runL1Blocks (s : LightClientState H) (blocks : List (L1Block H)) :
    Outcome Empty (LightClientState H) :=
  blocks.foldlM (stepL1Block env cfg) s

end

end Citrea.Spec.LightClient
