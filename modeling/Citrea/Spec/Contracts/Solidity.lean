import Citrea.Spec.Bitcoin.Transaction
import Mathlib.Logic.Function.Basic

/-!
# `Citrea.Spec.Contracts.Solidity`: what the system contracts are written in

A call of a contract returns or reverts. A revert has a reason, and a failed check of the compiler
(an overflow, an index out of bounds) is a panic. A `uint256` is a number below `2 ^ 256`, and its
arithmetic is checked.

The library `bitcoin-spv` is not part of the repository. `SpvLibrary` has the functions of
`BTCUtils` that the contracts only call; those whose result matters here are definitions.
-/

namespace Citrea.Spec.Contracts

open Lib Spec.Bitcoin

/-- A call that returns, or reverts with a reason. -/
abbrev Call (α : Type) := Outcome String α

/-- `require(c, reason)`. -/
def require (c : Prop) [Decidable c] (reason : String) : Call Unit := ensure c reason

/-- `a + b`. -/
def checkedAdd (a b : Nat) : Call Nat :=
  if a + b < 2 ^ 256 then pure (a + b) else Outcome.panic "arithmetic overflow"

/-- `a - b`. -/
def checkedSub (a b : Nat) : Call Nat :=
  if b ≤ a then pure (a - b) else Outcome.panic "arithmetic overflow"

/-- `a * b`. -/
def checkedMul (a b : Nat) : Call Nat :=
  if a * b < 2 ^ 256 then pure (a * b) else Outcome.panic "arithmetic overflow"

/-- `bytes4`. -/
@[ext]
structure Bytes4 where
  data : Bytes
  length_eq : data.length = 4
deriving DecidableEq

/-- `bytes32` from bytes, with zeros behind them. -/
def toBytes32 (b : Bytes) : Bytes32 :=
  ⟨b.take 32 ++ List.replicate (32 - b.length) 0, by simp; omega⟩

/-- The memory from a `bytes` value on: its length in one word, its bytes, and what is behind them.
-/
def memoryFrom (b behind : Bytes) : Bytes := (leBytes 32 b.length).reverse ++ b ++ behind

/-- `mload(add(b, offset))`: a word of the memory from `b` on. -/
def mload (memory : Bytes) (offset : Nat) : Bytes := (memory.drop offset).take 32

/-! ### `bitcoin-spv` -/

/-- `BytesLib.slice`. -/
def slice (b : Bytes) (start length : Nat) : Call Bytes :=
  if length = 0 then pure []
  else if start + length ≤ b.length then pure ((b.drop start).take length)
  else err "Slice out of bounds"

/-- `BTCUtils.ERR_BAD_ARG`. -/
def errBadArg : Nat := 2 ^ 256 - 1

/-- The functions of `BTCUtils`, with SHA-256. `parseVarIntAt` has the number of bytes behind the
first one and the value, or `(errBadArg, 0)`. -/
structure SpvLibrary where
  sha256 : Bytes → Bytes32
  validateVin : Bytes → Bool
  validateVout : Bytes → Bool
  parseVarIntAt : Bytes → Nat → Nat × Nat
  extractInputAtIndex : Bytes → Nat → Call Bytes
  extractOutputAtIndex : Bytes → Nat → Call Bytes
  extractOutpoint : Bytes → Bytes
  extractInputTxIdLE : Bytes → Bytes32
  extractTxIndexLE : Bytes → Bytes4
  extractSequenceLEWitness : Bytes → Bytes4

namespace SpvLibrary

variable (lib : SpvLibrary)

/-- `BTCUtils.hash256View`. -/
def hash256View (b : Bytes) : Bytes32 := calculateDoubleSha256 lib.sha256 b

/-- `BTCUtils.parseVarInt`. -/
def parseVarInt (b : Bytes) : Nat × Nat := lib.parseVarIntAt b 0

/-- `BTCUtils.extractValue`: the first eight bytes of an output. -/
def extractValue (output : Bytes) : UInt64 := UInt64.ofNat (ofLeBytes (output.take 8))

/-- `BTCUtils.extractMerkleRootLE`: the root in a block header. -/
def extractMerkleRootLE (header : Bytes) : Bytes32 := toBytes32 ((header.drop 36).take 32)

/-- `ValidateSPV.calculateTxId`. -/
def calculateTxId (version : Bytes4) (vin vout : Bytes) (locktime : Bytes4) : Bytes32 :=
  lib.hash256View (version.data ++ vin ++ vout ++ locktime.data)

/-- The loop of `BTCUtils.verifyHash256Merkle`: one hash for each node of the proof. The lowest bit
of the index says on which side the current node is. -/
def merkleFold (current : Bytes32) (nodes : List Bytes32) (index : Nat) : Bytes32 :=
  match nodes with
  | [] => current
  | node :: rest =>
    let next := if index % 2 = 1 then lib.hash256View (node.data ++ current.data)
      else lib.hash256View (current.data ++ node.data)
    merkleFold next rest (index / 2)

/-- The first `n` pieces of 32 bytes. -/
def proofNodes (n : Nat) (b : Bytes) : List Bytes32 :=
  match n with
  | 0 => []
  | n + 1 => toBytes32 b :: proofNodes n (b.drop 32)

/-- `ValidateSPV.prove`. An empty proof is one for a block with a single transaction. -/
def prove (txid merkleRoot : Bytes32) (proof : Bytes) (index : Nat) : Bool :=
  if txid = merkleRoot ∧ index = 0 ∧ proof = [] then true
  else if proof.length % 32 ≠ 0 ∨ proof = [] then false
  else lib.merkleFold txid (proofNodes (proof.length / 32) proof) index == merkleRoot

end SpvLibrary

/-! ### The light client contract

`crates/evm/src/evm/system_contracts/src/BitcoinLightClient.sol`, as the functions that other
contracts call. A mapping is a function that is zero where nothing was written.
-/

/-- `BitcoinLightClient`: its storage. -/
structure LightClient where
  blockNumber : Nat
  blockHashes : Nat → Bytes32
  witnessRoots : Bytes32 → Bytes32
  coinbaseDepths : Bytes32 → Nat

/-- The storage before the first call. -/
def LightClient.empty : LightClient where
  blockNumber := 0
  blockHashes := fun _ => .zero
  witnessRoots := fun _ => .zero
  coinbaseDepths := fun _ => 0

/-- `HASH_LENGTH`. -/
def hashLength : Nat := 32

namespace LightClient

/-- `initializeBlockNumber`. -/
def initializeBlockNumber (isSystem : Bool) (number : Nat) (client : LightClient) :
    Call LightClient := do
  require (isSystem = true) "caller is not the system caller"
  require (client.blockNumber = 0) "Already initialized"
  pure { client with blockNumber := number }

/-- `setBlockInfo`. -/
def setBlockInfo (isSystem : Bool) (blockHash witnessRoot : Bytes32) (coinbaseDepth : Nat)
    (client : LightClient) : Call LightClient := do
  require (isSystem = true) "caller is not the system caller"
  require (client.blockNumber ≠ 0) "Not initialized"
  let next ← checkedAdd client.blockNumber 1
  pure {
    blockNumber := next
    blockHashes := Function.update client.blockHashes client.blockNumber blockHash
    witnessRoots := Function.update client.witnessRoots blockHash witnessRoot
    coinbaseDepths := Function.update client.coinbaseDepths blockHash coinbaseDepth }

section
variable (lib : SpvLibrary) (client : LightClient)

/-- `_verifyInclusion`, and `verifyInclusion` by hash. -/
def verifyInclusionByHash (blockHash wtxId : Bytes32) (proof : Bytes) (index : Nat) :
    Call Bool := do
  let length ← checkedMul (client.coinbaseDepths blockHash) hashLength
  require (proof.length = length) "Invalid proof length"
  pure (lib.prove wtxId (client.witnessRoots blockHash) proof index)

/-- `verifyInclusion` by number. -/
def verifyInclusion (blockNumber : Nat) (wtxId : Bytes32) (proof : Bytes) (index : Nat) :
    Call Bool :=
  verifyInclusionByHash lib client (client.blockHashes blockNumber) wtxId proof index

/-- `verifyInclusionByTxId`. -/
def verifyInclusionByTxId (blockNumber : Nat) (txId : Bytes32) (blockHeader proof : Bytes)
    (index : Nat) : Call Bool := do
  let blockHash := lib.hash256View blockHeader
  require (client.blockHashes blockNumber = blockHash) "Invalid block header"
  let length ← checkedMul (client.coinbaseDepths blockHash) hashLength
  require (proof.length = length) "Invalid proof length"
  pure (lib.prove txId (SpvLibrary.extractMerkleRootLE blockHeader) proof index)

end

end LightClient

/-- A transaction to the light client. The other functions are getters. -/
inductive LightClientCall where
  | initializeBlockNumber (number : Nat)
  | setBlockInfo (blockHash witnessRoot : Bytes32) (coinbaseDepth : Nat)

/-- A call of the light client. A reverted one changes nothing. -/
def LightClient.step (isSystem : Bool) (client : LightClient) (call : LightClientCall) :
    LightClient :=
  let result := match call with
    | .initializeBlockNumber number => initializeBlockNumber isSystem number client
    | .setBlockInfo blockHash witnessRoot coinbaseDepth =>
      setBlockInfo isSystem blockHash witnessRoot coinbaseDepth client
  match result with
  | .ok client' => client'
  | .error _ => client

end Citrea.Spec.Contracts

/-! ### The witness of a Bitcoin transaction

`crates/evm/src/evm/system_contracts/lib/WitnessUtils.sol`.

A witness vector has one stack for each input, and a stack has its number of items and then each
item behind its length. The loops walk along the bytes with an offset.
-/

namespace Citrea.Spec.Contracts.WitnessUtils

open Lib Spec.Bitcoin

variable (lib : SpvLibrary)

/-- `calculateWtxId`. -/
def calculateWtxId (version : Bytes4) (flag vin vout witness : Bytes)
    (locktime : Bytes4) : Bytes32 :=
  lib.hash256View (version.data ++ flag ++ vin ++ vout ++ witness ++ locktime.data)

/-- `_offset + 1 + _varIntDataLen + _itemLen`. -/
def afterItem (offset varIntDataLen itemLen : Nat) : Call Nat := do
  let first ← checkedAdd 1 varIntDataLen
  let size ← checkedAdd first itemLen
  checkedAdd offset size

/-- The loop of `determineWitnessLengthAt` over the items of a stack. -/
def stackLength (witness : Bytes) (start : Nat) : (nStackItems : Nat) → (offset : Nat) → Call Nat
  | 0, offset => pure offset
  | n + 1, offset => do
    let position ← checkedAdd start offset
    let (varIntDataLen, itemLen) := lib.parseVarIntAt witness position
    if varIntDataLen = errBadArg then pure errBadArg
    else do
      let next ← afterItem offset varIntDataLen itemLen
      stackLength witness start n next

/-- `determineWitnessLengthAt`. -/
def determineWitnessLengthAt (witness : Bytes) (start : Nat) : Call Nat :=
  let (varIntDataLen, nStackItems) := lib.parseVarIntAt witness start
  if varIntDataLen = errBadArg then pure errBadArg
  else do
    let offset ← checkedAdd 1 varIntDataLen
    stackLength lib witness start nStackItems offset

/-- The loop of `validateWitness`. -/
def validateStacks (witness : Bytes) : (nWits : Nat) → (offset : Nat) → Call Bool
  | 0, offset => pure (offset == witness.length)
  | n + 1, offset =>
    if witness.length ≤ offset then pure false
    else do
      let nextLen ← determineWitnessLengthAt lib witness offset
      if nextLen = errBadArg then pure false
      else do
        let next ← checkedAdd offset nextLen
        validateStacks witness n next

/-- `validateWitness`. -/
def validateWitness (witness : Bytes) (nWits : Nat) : Call Bool :=
  if nWits = 0 then pure false else validateStacks lib witness nWits 0

/-- The length of the stack at an offset, which must be well formed. -/
def stackLengthAt (witness : Bytes) (offset : Nat) : Call Nat := do
  let len ← determineWitnessLengthAt lib witness offset
  require (len ≠ errBadArg) "Bad VarInt in witness"
  pure len

/-- The loop of `extractWitnessAtIndex`: the offset of the stack. -/
def skipStacks (witness : Bytes) : (index : Nat) → (offset : Nat) → Call Nat
  | 0, offset => pure offset
  | n + 1, offset => do
    let len ← stackLengthAt lib witness offset
    let next ← checkedAdd offset len
    skipStacks witness n next

/-- `extractWitnessAtIndex`. -/
def extractWitnessAtIndex (witness : Bytes) (index : Nat) : Call Bytes := do
  let offset ← skipStacks lib witness index 0
  let len ← stackLengthAt lib witness offset
  slice witness offset len

/-- The length of the item at an offset and of its length, which must be well formed. -/
def itemAt (witness : Bytes) (offset : Nat) : Call (Nat × Nat) := do
  let (varIntDataLen, itemLen) := lib.parseVarIntAt witness offset
  require (varIntDataLen ≠ errBadArg) "Bad VarInt in item"
  pure (varIntDataLen, itemLen)

/-- The loop of `extractItemFromWitness`: the offset of the item. -/
def skipItems (witness : Bytes) : (index : Nat) → (offset : Nat) → Call Nat
  | 0, offset => pure offset
  | n + 1, offset => do
    let (varIntDataLen, itemLen) ← itemAt lib witness offset
    let next ← afterItem offset varIntDataLen itemLen
    skipItems witness n next

/-- `extractItemFromWitness`. The item has its length in front. -/
def extractItemFromWitness (witness : Bytes) (index : Nat) : Call Bytes := do
  let (varIntDataLen, nItems) := lib.parseVarInt witness
  require (varIntDataLen ≠ errBadArg) "Read overrun during VarInt parsing"
  require (index < nItems) "Witness read overrun"
  let start ← checkedAdd 1 varIntDataLen
  let offset ← skipItems lib witness index start
  let (itemVarIntLen, itemLen) ← itemAt lib witness offset
  let size ← checkedAdd itemLen itemVarIntLen
  let length ← checkedAdd size 1
  slice witness offset length

end Citrea.Spec.Contracts.WitnessUtils
