import Citrea.Spec.Bitcoin.Transaction
import Mathlib.Data.List.Sort

/-!
# `Citrea.Spec.Bitcoin.Verifier`: `BitcoinVerifier::verify_transactions`

`crates/bitcoin-da/src/verifier.rs`, with the header type of `spec/header.rs`, the proof type of
`spec/proof.rs` and the blob type of `spec/blob.rs`.

`DaEnv` holds what the verifier calls and this model does not look into: SHA-256, the check of
an ECDSA signature, and the inscription parser. The results about the verifier hold for every
choice of these functions.
-/

namespace Citrea.Spec.Bitcoin

open Lib

/-- `MINIMUM_WITNESS_COMMITMENT_SIZE`. -/
def minimumWitnessCommitmentSize : Nat := 38

/-- `WITNESS_COMMITMENT_PREFIX`. -/
def witnessCommitmentMagic : Bytes := [0x6a, 0x24, 0xaa, 0x21, 0xa9, 0xed]

/-- `bitcoin::block::Header`. The version is an `i32` in the source; only its bytes are used. -/
@[ext]
structure BitcoinHeader where
  version : UInt32
  prevBlockhash : Bytes32
  merkleRoot : Bytes32
  time : UInt32
  bits : UInt32
  nonce : UInt32
deriving DecidableEq

/-- The 80 bytes of a header. -/
def BitcoinHeader.consensusEncode (h : BitcoinHeader) : Bytes :=
  leBytes 4 h.version.toNat ++ h.prevBlockhash.data ++ h.merkleRoot.data ++
    leBytes 4 h.time.toNat ++ leBytes 4 h.bits.toNat ++ leBytes 4 h.nonce.toNat

/-- `HeaderWrapper`. Only `header` is under the block hash. -/
structure HeaderWrapper where
  header : BitcoinHeader
  txCount : UInt32
  height : UInt64
  txsCommitment : Bytes32
  precomputedHash : Bytes32
deriving DecidableEq

namespace HeaderWrapper

def blockHash (sha256 : Bytes → Bytes32) (h : HeaderWrapper) : Bytes32 :=
  calculateDoubleSha256 sha256 h.header.consensusEncode

def verifyHash (sha256 : Bytes → Bytes32) (h : HeaderWrapper) : Bool :=
  h.precomputedHash == h.blockHash sha256

def merkleRoot (h : HeaderWrapper) : Bytes32 := h.header.merkleRoot

end HeaderWrapper

/-- `InclusionMultiProof`. -/
structure InclusionMultiProof where
  wtxids : List Bytes32
  coinbaseTx : Transaction
  coinbaseMerkleProof : List Bytes32

/-- `BlobWithSender`. -/
structure BlobWithSender where
  hash : Bytes32
  sender : Bytes
  blob : Bytes
  wtxid : Bytes32
deriving DecidableEq

/-- The body of an inscription that carries its own signature: `ParsedComplete`,
`ParsedAggregate` and `ParsedSequencerCommitment` have the same fields. -/
structure SignedBody where
  body : Bytes
  signature : Bytes
  publicKey : Bytes
deriving DecidableEq

/-- `ParsedTransaction`. -/
inductive ParsedTransaction where
  | complete (b : SignedBody)
  | aggregate (b : SignedBody)
  | chunk (body : Bytes)
  | batchProofMethodId (body : Bytes)
  | sequencerCommitment (b : SignedBody)
deriving DecidableEq

/-- `ParserError`. -/
inductive ParserError where
  | invalidHeaderLength
  | invalidHeaderType (n : UInt16)
  | nonTapscriptWitness
  | unexpectedEndOfScript
  | unexpectedOpcode
  | invalidBody
  | scriptError (message : String)
deriving DecidableEq

/-- `ValidationError`, the variants that `verify_transactions` returns. -/
inductive ValidationError where
  | invalidBlock
  | invalidSegWitCommitment
  | relevantTxNotInProof
  | incorrectTxidCommitment
  | incorrectWitnessCommitment
  | invalidWitnessCommitmentStructure
  | headerInclusionTxCountMismatch
deriving DecidableEq

/-- The functions that the verifier calls and that are parameters here. `verifyDigest` is the
parsing of the key and of the signature together with the ECDSA check. -/
structure DaEnv where
  sha256 : Bytes → Bytes32
  verifyDigest : (publicKey : Bytes) → (hash : Bytes32) → (signature : Bytes) → Bool
  parseRelevantTransaction : Transaction → Outcome ParserError ParsedTransaction

section
variable (env : DaEnv)

/-- `VerifyParsed::get_sig_verified_hash`. -/
def getSigVerifiedHash (b : SignedBody) : Option Bytes32 :=
  if env.verifyDigest b.publicKey (env.sha256 b.body) b.signature then some (env.sha256 b.body)
  else none

/-- The blob of an inscription with its own signature, when the signature is valid. -/
def signedBlob (wtxid : Bytes32) (b : SignedBody) : Option BlobWithSender :=
  (getSigVerifiedHash env b).map fun hash => ⟨hash, b.publicKey, b.body, wtxid⟩

/-- The `match parsed_tx` of `verify_transactions`. A chunk has no sender and no hash, and the
sender of a method id is 32 zero bytes. -/
def blobOfParsed (wtxid : Bytes32) : ParsedTransaction → Option BlobWithSender
  | .complete b => signedBlob env wtxid b
  | .aggregate b => signedBlob env wtxid b
  | .chunk body => some ⟨.zero, [], body, wtxid⟩
  | .batchProofMethodId body => some ⟨env.sha256 body, Bytes32.zero.data, body, wtxid⟩
  | .sequencerCommitment b => signedBlob env wtxid b

/-- The blob of a transaction: none when it does not parse or its signature is not valid. The
parser may panic. -/
def blobOfTransaction (wtxid : Bytes32) (tx : Transaction) :
    Outcome ValidationError (Option BlobWithSender) :=
  match env.parseRelevantTransaction tx with
  | .ok parsed => pure (blobOfParsed env wtxid parsed)
  | .error (.error _) => pure none
  | .error (.panic message) => Outcome.panic message

/-- The loop over `relevant_wtxid_iter.zip_eq(&completeness_proof)`. -/
def collectBlobs : List Bytes32 → List Transaction → Outcome ValidationError (List BlobWithSender)
  | [], [] => pure []
  | wtxid :: wtxids, tx :: txs => do
    ensure (calculateWtxid env.sha256 tx = wtxid) .relevantTxNotInProof
    let blob ← blobOfTransaction env wtxid tx
    let blobs ← collectBlobs wtxids txs
    pure (blob.toList ++ blobs)
  | _, _ =>
    Outcome.panic "itertools: .zip_eq() reached end of one iterator before the other"

/-- The test of the `rposition` call: long enough, and with the segwit magic in front. -/
def isWitnessCommitment (script : Bytes) : Bool :=
  minimumWitnessCommitmentSize ≤ script.length && witnessCommitmentMagic.isPrefixOf script

/-- The script of the last output that looks like a witness commitment. -/
def witnessCommitmentScript (coinbaseTx : Transaction) : Option Bytes :=
  (coinbaseTx.output.reverse.find? fun o => isWitnessCommitment o.scriptPubkey.data).map
    fun o => o.scriptPubkey.data

/-- `script_pubkey[6..38]`. -/
def committedHash (script : Bytes) : Bytes := (script.drop 6).take 32

/-- `starts_with(prefix)`. -/
def startsWith (revealTxPrefix : Bytes) (wtxid : Bytes32) : Bool :=
  revealTxPrefix.isPrefixOf wtxid.data

/-- The `Some(commitment_idx)` branch: the tree over the given wtxids has the committed root,
and the header carries that root. -/
def checkWitnessCommitment (header : HeaderWrapper) (inclusionProof : InclusionMultiProof)
    (script : Bytes) : Outcome ValidationError Unit := do
  let tree ← BitcoinMerkleTree.new env.sha256 inclusionProof.wtxids
  let merkleRoot ← tree.root
  let input ← expect inclusionProof.coinbaseTx.input.head? "index out of bounds"
  match input.witness.head? with
  | none => err .invalidWitnessCommitmentStructure
  | some inputWitnessValue => do
    let commitment :=
      calculateDoubleSha256 env.sha256 (merkleRoot.data ++ inputWitnessValue.data)
    ensure (committedHash script = commitment.data) .incorrectWitnessCommitment
    ensure (merkleRoot = header.txsCommitment) .invalidSegWitCommitment

/-- The `match commitment_idx` of `verify_transactions`. -/
def checkTxsCommitment (header : HeaderWrapper) (inclusionProof : InclusionMultiProof)
    (blobs : List BlobWithSender) : Outcome ValidationError Unit :=
  match witnessCommitmentScript inclusionProof.coinbaseTx with
  | none => do
    ensure (¬ (1 < header.txCount ∧ header.merkleRoot ≠ header.txsCommitment))
      .invalidSegWitCommitment
    ensure (blobs = []) .invalidBlock
  | some script => checkWitnessCommitment env header inclusionProof script

/-- `BitcoinVerifier::verify_transactions`. -/
def verifyTransactions (revealTxPrefix : Bytes) (header : HeaderWrapper)
    (inclusionProof : InclusionMultiProof) (completenessProof : List Transaction) :
    Outcome ValidationError (List BlobWithSender) := do
  ensure (header.txCount.toNat = inclusionProof.wtxids.length)
    .headerInclusionTxCountMismatch
  let blobs ← collectBlobs env (inclusionProof.wtxids.filter (startsWith revealTxPrefix))
    completenessProof
  ensure (¬ (header.txCount = 1 ∧ header.txsCommitment ≠ .zero)) .invalidSegWitCommitment
  checkTxsCommitment env header inclusionProof blobs
  let claimedRoot ← BitcoinMerkleTree.calculateRootWithMerkleProof env.sha256
    (calculateTxid env.sha256 inclusionProof.coinbaseTx) 0 inclusionProof.coinbaseMerkleProof
  ensure (header.merkleRoot = claimedRoot) .incorrectTxidCommitment
  pure blobs

end

/-! ### The header chain in the light client

`verify_header_chain_mainnet`, `verify_header_chain_testnet4`, `verify_header_chain_signet` and the
functions under them in `crates/bitcoin-da/src/verifier.rs`, with the constants of
`network_constants.rs`.

A `U256` is a number below `2 ^ 256`, and its wrapping operations are taken modulo `2 ^ 256`. The
`u32` operations wrap, as they do in a release build. A target is kept in its 32 bytes, most
significant byte first.
-/

/-- `BLOCKS_PER_EPOCH`. -/
def blocksPerEpoch : Nat := 2016

/-- `EXPECTED_EPOCH_TIMESPAN`. -/
def expectedEpochTimespan : UInt32 := 1209600

/-- `EXPECTED_EPOCH_TIMESPAN_SIGNET`. -/
def expectedEpochTimespanSignet : UInt32 := expectedEpochTimespan / 60

/-- `NetworkConstants`, the fields that the header chain uses. -/
structure NetworkConstants where
  maxBits : UInt32
  maxTarget : Nat

/-- `MAINNET_CONSTANTS`. -/
def mainnetConstants : NetworkConstants := ⟨0x1D00FFFF, 0xFFFF * 256 ^ 26⟩

/-- `TESTNET4_CONSTANTS`. -/
def testnet4Constants : NetworkConstants := ⟨0x1D00FFFF, 0xFFFF * 256 ^ 26⟩

/-- `SIGNET_CONSTANTS`. -/
def signetConstants : NetworkConstants := ⟨0x1E0377AE, 0x0377AE * 256 ^ 27⟩

/-- `LatestDaState`. -/
structure LatestDaState where
  blockHash : Bytes32
  blockHeight : UInt64
  totalWork : Bytes32
  currentTargetBits : UInt32
  epochStartTime : UInt32
  prev11Timestamps : Fin 11 → UInt32

/-- `ValidationError`, the errors of the header chain. -/
inductive HeaderError where
  | invalidBlockHash
  | nonConsecutiveBlockHeight
  | invalidPrevBlockHash
  | invalidBlockBits
  | invalidTargetHash
  | invalidTimestamp
deriving DecidableEq

/-! ### Targets -/

/-- `U256::to_be_bytes`. -/
def toBeBytes (n : Nat) : Bytes32 := ⟨(leBytes 32 n).reverse, by simp⟩

/-- `U256::from_be_bytes`. -/
def fromBeBytes (b : Bytes32) : Nat := ofLeBytes b.data.reverse

/-- `verify_timestamp`. -/
def verifyTimestamp (blockTime : UInt32) (prev11Timestamps : Fin 11 → UInt32) : Bool :=
  let sorted := (List.ofFn prev11Timestamps).insertionSort (· ≤ ·)
  decide (sorted.getD 5 0 < blockTime)

/-- The loop of `verify_target_hash`, over the bytes from the most significant one on. -/
def compareBytes : List UInt8 → List UInt8 → Bool
  | h :: hash, t :: target =>
    if h < t then true else if t < h then false else compareBytes hash target
  | _, _ => true

/-- `verify_target_hash`. The hash has the least significant byte first. -/
def verifyTargetHash (hash target : Bytes32) : Bool := compareBytes hash.data.reverse target.data

/-- `bits_to_target`. -/
def bitsToTarget (bits : UInt32) : Bytes32 :=
  let size := bits.toNat / 2 ^ 24
  let mantissa := bits.toNat % 2 ^ 24
  if 0x7FFFFF < mantissa then .zero
  else if size ≤ 3 then toBeBytes (mantissa / 2 ^ (8 * (3 - size)))
  else toBeBytes (mantissa * 2 ^ (8 * (size - 3)) % 2 ^ 256)

/-- `U256::bits`. -/
def bitLength (n : Nat) : Nat := if n = 0 then 0 else n.log2 + 1

/-- `target_to_bits`. An index outside of the 32 bytes panics. -/
def targetToBits {ε : Type} (target : Bytes32) : Outcome ε UInt32 := do
  let size := (263 - bitLength (fromBeBytes target)) / 8
  let first ← expect (if size = 0 then none else target.data[size - 1]?) "index out of bounds"
  let second ← expect target.data[size]? "index out of bounds"
  let third ← expect target.data[size + 1]? "index out of bounds"
  pure (UInt32.ofNat
    ((33 - size) * 2 ^ 24 + first.toNat * 2 ^ 16 + second.toNat * 2 ^ 8 + third.toNat))

/-- `target_to_work`. -/
def targetToWork (target : Bytes32) : Nat :=
  let target := fromBeBytes target
  if target = 0 then 2 ^ 256 - 1
  else if target = 1 then 2 ^ 256 - 1
  else if target = 2 ^ 256 - 1 then 1
  else ((2 ^ 256 - 1 - target) / (target + 1) + 1) % 2 ^ 256

/-- The first step of `calculate_new_difficulty`. -/
def actualTimespan (epochStartTime lastTimestamp expectedTimespan : UInt32) : UInt32 :=
  let actual := lastTimestamp - epochStartTime
  if actual < expectedTimespan / 4 then expectedTimespan / 4
  else if expectedTimespan * 4 < actual then expectedTimespan * 4
  else actual

/-- `calculate_new_difficulty`. -/
def calculateNewDifficulty (epochStartTime lastTimestamp currentTargetBits : UInt32)
    (maxTarget : Nat) (expectedTimespan : UInt32) : Bytes32 :=
  let actual := actualTimespan epochStartTime lastTimestamp expectedTimespan
  let newTarget := fromBeBytes (bitsToTarget currentTargetBits) * actual.toNat % 2 ^ 256 /
    expectedTimespan.toNat
  toBeBytes (if maxTarget < newTarget then maxTarget else newTarget)

/-! ### The header chain -/

section
variable (sha256 : Bytes → Bytes32)

/-- `verify_header_chain_common`. -/
def verifyHeaderChainCommon (header : HeaderWrapper) (latest : LatestDaState) (target : Bytes32)
    (expectedBits : UInt32) : Outcome HeaderError Unit := do
  ensure (header.verifyHash sha256 = true) .invalidBlockHash
  ensure (header.height - 1 = latest.blockHeight) .nonConsecutiveBlockHeight
  ensure (header.header.prevBlockhash = latest.blockHash) .invalidPrevBlockHash
  ensure (header.header.bits = expectedBits) .invalidBlockBits
  ensure (verifyTargetHash header.precomputedHash target = true) .invalidTargetHash
  ensure (verifyTimestamp header.header.time latest.prev11Timestamps = true)
    .invalidTimestamp

/-- The place of a height in the ring of timestamps. -/
def ringIndex (height : UInt64) : Fin 11 := ⟨height.toNat % 11, Nat.mod_lt _ (by decide)⟩

/-- The state after a header with the bits `currentTargetBits` for the next one. -/
def nextDaState (latest : LatestDaState) (header : HeaderWrapper) (workAdd : Nat)
    (epochStartTime currentTargetBits : UInt32) : LatestDaState where
  blockHash := header.precomputedHash
  blockHeight := header.height
  totalWork := toBeBytes (min (fromBeBytes latest.totalWork + workAdd) (2 ^ 256 - 1))
  currentTargetBits := currentTargetBits
  epochStartTime := epochStartTime
  prev11Timestamps :=
    Function.update latest.prev11Timestamps (ringIndex header.height) header.header.time

/-- The start time of the epoch of a header. -/
def epochStartOf (latest : LatestDaState) (header : HeaderWrapper) : UInt32 :=
  if header.height.toNat % blocksPerEpoch = 0 then header.header.time else latest.epochStartTime

/-- The bits for the next header: after the last block of an epoch, those of the new difficulty. -/
def nextTargetBits {ε : Type} (header : HeaderWrapper) (epochStartTime bits : UInt32)
    (maxTarget : Nat) : Outcome ε UInt32 :=
  if header.height.toNat % blocksPerEpoch = blocksPerEpoch - 1 then
    targetToBits (calculateNewDifficulty epochStartTime header.header.time bits maxTarget
      expectedEpochTimespan)
  else pure bits

/-- `verify_header_chain_mainnet`. -/
def verifyHeaderChainMainnet (latest : LatestDaState) (header : HeaderWrapper) :
    Outcome HeaderError LatestDaState := do
  let target := bitsToTarget latest.currentTargetBits
  verifyHeaderChainCommon sha256 header latest target latest.currentTargetBits
  let epochStartTime := epochStartOf latest header
  let currentTargetBits ← nextTargetBits header epochStartTime header.header.bits
    mainnetConstants.maxTarget
  pure (nextDaState latest header (targetToWork target) epochStartTime currentTargetBits)

/-- The target and the bits that `verify_header_chain_testnet4` expects. More than 20 minutes after
the last block the difficulty is the lowest one, but not at the start of an epoch. -/
def expectedTestnet4 (latest : LatestDaState) (header : HeaderWrapper) : Bytes32 × UInt32 :=
  let latestBlockTime := latest.prev11Timestamps (ringIndex latest.blockHeight)
  if header.height.toNat % blocksPerEpoch ≠ 0 ∧ latestBlockTime + 1200 < header.header.time then
    (toBeBytes testnet4Constants.maxTarget, testnet4Constants.maxBits)
  else (bitsToTarget latest.currentTargetBits, latest.currentTargetBits)

/-- `verify_header_chain_testnet4`. -/
def verifyHeaderChainTestnet4 (latest : LatestDaState) (header : HeaderWrapper) :
    Outcome HeaderError LatestDaState := do
  let (target, expectedBits) := expectedTestnet4 latest header
  verifyHeaderChainCommon sha256 header latest target expectedBits
  let epochStartTime := epochStartOf latest header
  -- the bits of the header itself may be those of the exception
  let currentTargetBits ← nextTargetBits header epochStartTime latest.currentTargetBits
    testnet4Constants.maxTarget
  pure (nextDaState latest header (targetToWork target) epochStartTime currentTargetBits)

/-- The bits for the next header of signet, whose epochs have their own timespan. -/
def nextTargetBitsSignet {ε : Type} (header : HeaderWrapper) (epochStartTime bits : UInt32) :
    Outcome ε UInt32 :=
  if header.height.toNat % blocksPerEpoch = blocksPerEpoch - 1 then
    targetToBits (calculateNewDifficulty epochStartTime header.header.time bits
      signetConstants.maxTarget expectedEpochTimespanSignet)
  else pure bits

/-- `verify_header_chain_signet`. -/
def verifyHeaderChainSignet (latest : LatestDaState) (header : HeaderWrapper) :
    Outcome HeaderError LatestDaState := do
  let target := bitsToTarget latest.currentTargetBits
  verifyHeaderChainCommon sha256 header latest target latest.currentTargetBits
  let epochStartTime := epochStartOf latest header
  let currentTargetBits ← nextTargetBitsSignet header epochStartTime header.header.bits
  pure (nextDaState latest header (targetToWork target) epochStartTime currentTargetBits)

/-- The networks whose difficulty changes. -/
inductive BitcoinNetwork where
  | mainnet
  | testnet4
  | signet

/-- `get_network_constants`. -/
def getNetworkConstants : BitcoinNetwork → NetworkConstants
  | .mainnet => mainnetConstants
  | .testnet4 => testnet4Constants
  | .signet => signetConstants

/-- The time that an epoch of the network should take. -/
def epochTimespan : BitcoinNetwork → UInt32
  | .signet => expectedEpochTimespanSignet
  | _ => expectedEpochTimespan

/-- `verify_header_chain`, from a state. -/
def verifyHeaderChain : BitcoinNetwork → LatestDaState → HeaderWrapper →
    Outcome HeaderError LatestDaState
  | .mainnet => verifyHeaderChainMainnet sha256
  | .testnet4 => verifyHeaderChainTestnet4 sha256
  | .signet => verifyHeaderChainSignet sha256

end

end Citrea.Spec.Bitcoin
