import Citrea.Spec.Contracts.Solidity

/-!
# `Citrea.Spec.Contracts.Bridge`: the bridge contract

`crates/evm/src/evm/system_contracts/src/Bridge.sol`. The functions are in the order of the source,
after the internal ones that they use.

`deposit` sends value to the recipient, and to the vault if that fails. The code of these two may
call the bridge again before it returns. What it does is a `Frame`: any calls of the bridge by any
callers, transfers that the bridge cannot refuse, calls of the light client, and frames inside, each
of which may revert. `Frame.run` runs it. A reverted call or frame leaves the world as it was.

The addresses are a type of their own. The precompile for Schnorr signatures is a function.
-/

namespace Citrea.Spec.Contracts

open Lib Spec.Bitcoin

/-! ### Data -/

/-- `Transaction`: the parts of a Bitcoin transaction as bytes. -/
structure BridgeTransaction where
  version : Bytes4
  flag : Bytes
  vin : Bytes
  vout : Bytes
  witness : Bytes
  locktime : Bytes4

/-- `MerkleProof`. -/
structure MerkleProof where
  intermediateNodes : Bytes
  blockHeight : Nat
  index : Nat

/-- `UTXO`. -/
@[ext]
structure UTXO where
  txId : Bytes32
  outputId : Bytes4
deriving DecidableEq

/-- What the contract is deployed with: the library, the precompile at `0x200`, the addresses that
it names, and an address from its 20 bytes. -/
structure BridgeEnv (A : Type) where
  lib : SpvLibrary
  schnorrVerifierPrecompile : Bytes → Bool × Bytes
  bridge : A
  systemCaller : A
  zeroAddress : A
  defaultVault : A
  toAddress : Bytes → A

/-- `Bridge`: its storage, with the owner and the pause flag of the base contracts. -/
structure Bridge (A : Type) where
  owner : A
  pendingOwner : A
  paused : Bool
  initialized : Bool
  operator : A
  depositAmount : Nat
  failedDepositVault : A
  depositPrefix : Bytes
  depositSuffix : Bytes
  replacePrefix : Bytes
  replaceSuffix : Bytes
  withdrawalUTXOs : List UTXO
  depositTxIds : List Bytes32
  processedTxIds : Bytes32 → Bool
  usedWithdrawalUTXO : Bytes32 → Bool
  optimisticWithdrawAmount : Nat

/-- The events that name a deposit or a withdrawal. -/
inductive BridgeEvent (A : Type) where
  | deposit (wtxId txId : Bytes32) (recipient : A) (timestamp depositId : Nat)
  | depositTransferFailed (wtxId txId : Bytes32) (recipient : A) (timestamp depositId : Nat)
  | depositReplaced (index : Nat) (oldTxId newTxId : Bytes32)
  | withdrawal (utxo : UTXO) (index timestamp : Nat)
  | safeWithdrawal (payoutTx : BridgeTransaction) (spentUtxo : UTXO) (index : Nat)

/-- The storage of the two contracts, the balance of the bridge and its events. `forced` is the sum
of the transfers that no function of the bridge accepted. -/
structure World (A : Type) where
  bridge : Bridge A
  balance : Nat
  events : List (BridgeEvent A)
  lightClient : LightClient
  forced : Nat

/-- `msg.sender`, `msg.value` and `block.timestamp`. -/
structure Msg (A : Type) where
  sender : A
  value : Nat
  timestamp : Nat

/-- `SAT_TO_WEI`. -/
def satToWei : Nat := 10 ^ 10

/-- `PAYOUT_ANCHOR_OUTPUT_AMOUNT`. -/
def payoutAnchorOutputAmount : Nat := 240

/-! ### Bytes and signatures -/

/-- `isBytesEqual`: whole pieces of 32 bytes, then the remaining bytes one by one. -/
def isBytesEqual (a b : Bytes) : Bool :=
  if a.length ≠ b.length then false
  else
    let chunk (l : Bytes) (k : Nat) := (l.drop (32 * k)).take 32
    let pieces := a.length / 32
    ((List.range pieces).all fun k => chunk a k == chunk b k) &&
      (List.range (a.length % 32)).all fun i => a[32 * pieces + i]? == b[32 * pieces + i]?

/-- The `while` loop of `isBytesEqual` over the memory of its arguments. The offset counts the word
of the length. The result is the offset after the loop, or `none` for a difference. -/
def equalWords (a b : Bytes) (len offset : Nat) : Option Nat :=
  if offset ≤ len then
    if mload a offset = mload b offset then equalWords a b len (offset + 32) else none
  else some offset
termination_by len + 32 - offset

/-- `isBytesEqual` over the memory of its arguments, whatever is behind them. -/
def isBytesEqualInMemory (a b behindA behindB : Bytes) : Bool :=
  if a.length ≠ b.length then false
  else
    match equalWords (memoryFrom a behindA) (memoryFrom b behindB) a.length 32 with
    | none => false
    | some offset =>
      (List.range' (offset - 32) (a.length - (offset - 32))).all fun i => a[i]? == b[i]?

/-- `bytesToBytes32`: a number of at most 32 bytes. -/
def bytesToBytes32 (source : Bytes) : Call Bytes32 :=
  if source.length = 0 then pure .zero
  else if h : source.length ≤ 32 then
    pure ⟨List.replicate (32 - source.length) 0 ++ source, by simp; omega⟩
  else err "Bytes cannot be more than 32 bytes"

section
variable {A : Type} (env : BridgeEnv A)

/-- `taggedHash`. -/
def taggedHash (tag message : Bytes) : Bytes32 :=
  let tagHash := env.lib.sha256 tag
  env.lib.sha256 (tagHash.data ++ tagHash.data ++ message)

/-- `"TapLeaf"` and `"TapSighash"`. -/
def tapLeaf : Bytes := [84, 97, 112, 76, 101, 97, 102]

@[inherit_doc tapLeaf]
def tapSighash : Bytes := [84, 97, 112, 83, 105, 103, 104, 97, 115, 104]

/-- `isSchnorrSigValid`. -/
def isSchnorrSigValid (pubKey : Bytes) (messageHash : Bytes32) (signature : Bytes) : Call Bool := do
  require (signature.length = 64 ∨ signature.length = 65) "Invalid signature length"
  let signature ← slice signature 0 64
  let (success, result) := env.schnorrVerifierPrecompile (pubKey ++ messageHash.data ++ signature)
  pure (success && result.length == 32 && result[31]? == some 1)

/-- The signature in a witness item, behind its length. -/
def signatureOf (signatureWithLen : Bytes) : Call Bytes := do
  let length ← checkedSub signatureWithLen.length 1
  slice signatureWithLen 1 length

/-- `getAggregatedKey`. -/
def getAggregatedKey (bridge : Bridge A) : Call Bytes := slice bridge.depositPrefix 2 32

/-- The hash that is signed, for an input that is spent by `script`. -/
def depositSighash (bridge : Bridge A) (input outputs script : Bytes) (first : UInt8)
    (version locktime : Bytes4) (shaScriptPubkeys : Bytes32) : Bytes32 :=
  let shaPrevouts := env.lib.sha256 (env.lib.extractOutpoint input)
  let shaAmounts := env.lib.sha256 (leBytes 8 (bridge.depositAmount / satToWei))
  let shaSequences := env.lib.sha256 (env.lib.extractSequenceLEWitness input).data
  let shaOutputs := env.lib.sha256 outputs
  let tapleafHash := taggedHash env tapLeaf ([first &&& 0xFE] ++ script)
  let message := [0x00] ++ [0x00] ++ version.data ++ locktime.data ++ shaPrevouts.data ++
    shaAmounts.data ++ shaScriptPubkeys.data ++ shaSequences.data ++ shaOutputs.data ++ [0x02] ++
    [0, 0, 0, 0] ++ tapleafHash.data ++ [0x00] ++ [0xFF, 0xFF, 0xFF, 0xFF]
  taggedHash env tapSighash message

/-- `verifySigInTx`. -/
def verifySigInTx (bridge : Bridge A) (input outputs witness0 : Bytes) (version locktime : Bytes4)
    (shaScriptPubkeys : Bytes32) : Call Unit := do
  let script ← WitnessUtils.extractItemFromWitness env.lib witness0 1
  let controlBlock ← WitnessUtils.extractItemFromWitness env.lib witness0 2
  let first ← expect controlBlock[1]? "array index out of bounds"
  let messageHash :=
    depositSighash env bridge input outputs script first version locktime shaScriptPubkeys
  let signatureWithLen ← WitnessUtils.extractItemFromWitness env.lib witness0 0
  let signature ← signatureOf signatureWithLen
  let aggregatedKey ← getAggregatedKey bridge
  let valid ← isSchnorrSigValid env aggregatedKey messageHash signature
  require (valid = true) "Invalid signature"

/-- `validateAndCheckInclusion`. -/
def validateAndCheckInclusion (client : LightClient) (txn : BridgeTransaction)
    (proof : MerkleProof) :
    Call (Bytes32 × Nat) := do
  let wtxId := WitnessUtils.calculateWtxId env.lib txn.version txn.flag txn.vin txn.vout txn.witness
    txn.locktime
  require (env.lib.validateVin txn.vin = true) "Vin is not properly formatted"
  require (env.lib.validateVout txn.vout = true) "Vout is not properly formatted"
  let nIns := (env.lib.parseVarInt txn.vin).2
  let wellFormed ← WitnessUtils.validateWitness env.lib txn.witness nIns
  require (wellFormed = true) "Witness is not properly formatted"
  let included ← client.verifyInclusion env.lib proof.blockHeight wtxId proof.intermediateNodes
    proof.index
  require (included = true) "Transaction is not in block"
  pure (wtxId, nIns)

/-- The part of `deposit` and `replaceDeposit` that checks the signature of a transaction in
Bitcoin. The result has the wtxid, the txid and the witness. -/
def signedTransaction (w : World A) (txn : BridgeTransaction) (proof : MerkleProof)
    (shaScriptPubkeys : Bytes32) : Call (Bytes32 × Bytes32 × Bytes) := do
  let (wtxId, nIns) ← validateAndCheckInclusion env w.lightClient txn proof
  require (nIns = 1) "Only one input allowed"
  let input ← env.lib.extractInputAtIndex txn.vin 0
  let outputsLength ← checkedSub txn.vout.length 1
  let outputs ← slice txn.vout 1 outputsLength
  let witness0 ← WitnessUtils.extractWitnessAtIndex env.lib txn.witness 0
  verifySigInTx env w.bridge input outputs witness0 txn.version txn.locktime shaScriptPubkeys
  pure (wtxId, env.lib.calculateTxId txn.version txn.vin txn.vout txn.locktime, witness0)

/-- The script of a witness: a fixed first part, `length` bytes and a fixed last part. -/
def scriptOf (witness0 first last : Bytes) (length : Nat) (firstReason lastReason : String) :
    Call Bytes := do
  let nItems := (env.lib.parseVarInt witness0).2
  require (nItems = 3) "Invalid witness items"
  let script ← WitnessUtils.extractItemFromWitness env.lib witness0 1
  require (script.length = first.length + length + last.length) "Invalid script length"
  let scriptFirst ← slice script 0 first.length
  require (isBytesEqual scriptFirst first = true) firstReason
  let scriptLast ← slice script (script.length - last.length) last.length
  require (isBytesEqual scriptLast last = true) lastReason
  pure script

/-! ### Modifiers -/

/-- `whenNotPaused`. -/
def whenNotPaused (bridge : Bridge A) : Call Unit := require (bridge.paused = false) "EnforcedPause"

variable [DecidableEq A]

/-- `onlyOwner`. -/
def onlyOwner (bridge : Bridge A) (msg : Msg A) : Call Unit :=
  require (msg.sender = bridge.owner) "OwnableUnauthorizedAccount"

/-- `onlyOwnerOrOperator`. -/
def onlyOwnerOrOperator (bridge : Bridge A) (msg : Msg A) : Call Unit :=
  require (msg.sender = bridge.owner ∨ msg.sender = bridge.operator)
    "caller is not the owner or operator"

/-- A function that is not payable. -/
def nonPayable (msg : Msg A) : Call Unit := require (msg.value = 0) "not payable"

/-! ### Settings -/

/-- `initialize`. -/
def initializeBridge (msg : Msg A) (depositPrefix depositSuffix : Bytes) (depositAmount : Nat)
    (bridge : Bridge A) : Call (Bridge A) := do
  require (msg.sender = env.systemCaller) "caller is not the system caller"
  require (bridge.initialized = false) "Contract is already initialized"
  require (depositAmount ≠ 0) "Deposit amount cannot be 0"
  require (34 ≤ depositPrefix.length) "Deposit script must be longer than 34 bytes"
  require (depositAmount % satToWei = 0) "Deposit amount must have valid satoshi value"
  require (depositAmount / satToWei ≤ 2 ^ 64 - 1)
    "Deposit amount divided by SAT_TO_WEI must fit in uint64"
  let optimisticWithdrawAmount ← checkedSub depositAmount payoutAnchorOutputAmount
  pure { bridge with
    initialized := true
    depositPrefix := depositPrefix
    depositSuffix := depositSuffix
    depositAmount := depositAmount
    optimisticWithdrawAmount := optimisticWithdrawAmount
    operator := env.systemCaller
    failedDepositVault := env.defaultVault }

/-- `setDepositScript`. -/
def setDepositScript (msg : Msg A) (depositPrefix depositSuffix : Bytes) (bridge : Bridge A) :
    Call (Bridge A) := do
  onlyOwner bridge msg
  require (34 ≤ depositPrefix.length) "Deposit script must be longer than 34 bytes"
  pure { bridge with depositPrefix := depositPrefix, depositSuffix := depositSuffix }

/-- `setReplaceScript`. -/
def setReplaceScript (msg : Msg A) (replacePrefix replaceSuffix : Bytes) (bridge : Bridge A) :
    Call (Bridge A) := do
  onlyOwner bridge msg
  require (34 ≤ replacePrefix.length) "Replace script must be longer than 34 bytes"
  let replaceKey ← slice replacePrefix 2 32
  let replaceKey ← bytesToBytes32 replaceKey
  let depositKey ← getAggregatedKey bridge
  let depositKey ← bytesToBytes32 depositKey
  require (replaceKey = depositKey)
    "Replace prefix must contain the same aggregated key as deposit prefix"
  pure { bridge with replacePrefix := replacePrefix, replaceSuffix := replaceSuffix }

/-- `setFailedDepositVault`. -/
def setFailedDepositVault (msg : Msg A) (failedDepositVault : A) (bridge : Bridge A) :
    Call (Bridge A) := do
  onlyOwner bridge msg
  require (failedDepositVault ≠ env.zeroAddress) "Invalid address"
  pure { bridge with failedDepositVault := failedDepositVault }

/-- `setOptimisticWithdrawAmount`. -/
def setOptimisticWithdrawAmount (msg : Msg A) (amount : Nat) (bridge : Bridge A) :
    Call (Bridge A) := do
  onlyOwner bridge msg
  require (amount ≠ 0) "Optimistic withdraw amount cannot be 0"
  pure { bridge with optimisticWithdrawAmount := amount }

/-- `setOperator`. -/
def setOperator (msg : Msg A) (operator : A) (bridge : Bridge A) : Call (Bridge A) := do
  onlyOwner bridge msg
  require (operator ≠ env.zeroAddress) "Operator cannot be zero address"
  pure { bridge with operator := operator }

/-- `pause`. -/
def pause (msg : Msg A) (bridge : Bridge A) : Call (Bridge A) := do
  onlyOwnerOrOperator bridge msg
  whenNotPaused bridge
  pure { bridge with paused := true }

/-- `unpause`. -/
def unpause (msg : Msg A) (bridge : Bridge A) : Call (Bridge A) := do
  onlyOwnerOrOperator bridge msg
  require (bridge.paused = true) "ExpectedPause"
  pure { bridge with paused := false }

/-- `transferOwnership` of the base contract. -/
def transferOwnership (msg : Msg A) (newOwner : A) (bridge : Bridge A) : Call (Bridge A) := do
  onlyOwner bridge msg
  pure { bridge with pendingOwner := newOwner }

/-- `acceptOwnership` of the base contract. -/
def acceptOwnership (msg : Msg A) (bridge : Bridge A) : Call (Bridge A) := do
  require (msg.sender = bridge.pendingOwner) "OwnableUnauthorizedAccount"
  pure { bridge with owner := msg.sender, pendingOwner := env.zeroAddress }

/-- `renounceOwnership` of the base contract. -/
def renounceOwnership (msg : Msg A) (bridge : Bridge A) : Call (Bridge A) := do
  onlyOwner bridge msg
  pure { bridge with owner := env.zeroAddress, pendingOwner := env.zeroAddress }

/-! ### Withdrawals -/

/-- The key of an output in `usedWithdrawalUTXO`. -/
def utxoKey (utxo : UTXO) : Bytes32 := env.lib.sha256 (utxo.txId.data ++ utxo.outputId.data)

/-- The part of `withdraw` and of the loop of `batchWithdraw` that records an output. -/
def recordWithdrawal (timestamp : Nat) (w : World A) (utxo : UTXO) : Call (World A) := do
  require (w.bridge.usedWithdrawalUTXO (utxoKey env utxo) = false) "UTXO already used"
  pure { w with
    bridge := { w.bridge with
      usedWithdrawalUTXO := Function.update w.bridge.usedWithdrawalUTXO (utxoKey env utxo) true
      withdrawalUTXOs := w.bridge.withdrawalUTXOs ++ [utxo] }
    events := w.events ++ [.withdrawal utxo w.bridge.withdrawalUTXOs.length timestamp] }

/-- `withdraw`. -/
def withdraw (msg : Msg A) (utxo : UTXO) (w : World A) : Call (World A) := do
  whenNotPaused w.bridge
  require (msg.value = w.bridge.depositAmount) "Invalid withdraw amount"
  recordWithdrawal env msg.timestamp w utxo

/-- The check of `safeWithdraw` on the value of the output of the payout transaction. -/
def checkPayoutValue (bridge : Bridge A) (payoutOutput : Bytes) : Call Unit :=
  require ((SpvLibrary.extractValue payoutOutput).toNat = bridge.optimisticWithdrawAmount)
    "Payout output value does not match optimistic withdraw amount"

/-- The arguments of `safeWithdraw`. -/
structure SafeWithdrawArgs where
  prepareTx : BridgeTransaction
  prepareProof : MerkleProof
  payoutTx : BridgeTransaction
  blockHeader : Bytes
  withdrawalAddressPubKey : Bytes

/-- `safeWithdraw`. -/
def safeWithdraw (msg : Msg A) (args : SafeWithdrawArgs) (w : World A) : Call (World A) := do
  let prepareTx := args.prepareTx
  let payoutTx := args.payoutTx
  -- the prepare transaction
  require (env.lib.validateVin prepareTx.vin = true) "Vin is not properly formatted"
  require (env.lib.validateVout prepareTx.vout = true) "Vout is not properly formatted"
  let txId :=
    env.lib.calculateTxId prepareTx.version prepareTx.vin prepareTx.vout prepareTx.locktime
  let included ← w.lightClient.verifyInclusionByTxId env.lib args.prepareProof.blockHeight txId
    args.blockHeader args.prepareProof.intermediateNodes args.prepareProof.index
  require (included = true) "Transaction is not in block"
  -- the format of the payout transaction
  require (env.lib.validateVin payoutTx.vin = true) "Payout vin is not properly formatted"
  require ((env.lib.parseVarInt payoutTx.vin).2 = 1) "Payout vin should have exactly one input"
  require ((env.lib.parseVarInt payoutTx.vout).2 = 1) "Payout vout should have exactly one output"
  require (env.lib.validateVout payoutTx.vout = true) "Payout vout is not properly formatted"
  let wellFormed ← WitnessUtils.validateWitness env.lib payoutTx.witness 1
  require (wellFormed = true) "Payout witness is not properly formatted"
  let payoutInput ← env.lib.extractInputAtIndex payoutTx.vin 0
  let payoutOutput ← env.lib.extractOutputAtIndex payoutTx.vout 0
  let payoutWitness ← WitnessUtils.extractWitnessAtIndex env.lib payoutTx.witness 0
  checkPayoutValue w.bridge payoutOutput
  let (varIntDataLen, pubKeyLen) := env.lib.parseVarIntAt payoutOutput 8
  let start ← checkedAdd 9 varIntDataLen
  let scriptPubkey ← slice payoutOutput start pubKeyLen
  require (isBytesEqual scriptPubkey args.withdrawalAddressPubKey = true)
    "Invalid payout output script pubkey"
  -- the output that it spends
  let spentTxId := env.lib.extractInputTxIdLE payoutInput
  require (spentTxId = txId) "Invalid spent txId"
  let spentIndex := env.lib.extractTxIndexLE payoutInput
  let spentOutput ← env.lib.extractOutputAtIndex prepareTx.vout (ofLeBytes spentIndex.data)
  require (spentOutput.length = 43) "Invalid spent output length"
  let scriptLength ← slice spentOutput 8 1
  require (isBytesEqual scriptLength [0x22] = true) "Invalid spent output script pubkey length"
  let opcodes ← slice spentOutput 9 2
  require (isBytesEqual opcodes [0x51, 0x20] = true) "Spent output is not a P2TR output"
  let pubKey ← slice spentOutput 11 32
  let sequence := env.lib.extractSequenceLEWitness payoutInput
  let shaSingleOutput := env.lib.sha256 payoutOutput
  let message := [0x00] ++ [0x83] ++ payoutTx.version.data ++ payoutTx.locktime.data ++ [0x00] ++
    spentTxId.data ++ spentIndex.data ++ spentOutput ++ sequence.data ++ shaSingleOutput.data
  let messageHash := taggedHash env tapSighash message
  let signatureWithLen ← WitnessUtils.extractItemFromWitness env.lib payoutWitness 0
  let signature ← signatureOf signatureWithLen
  let valid ← isSchnorrSigValid env pubKey messageHash signature
  require (valid = true) "Invalid signature"
  let spentUtxo : UTXO := ⟨spentTxId, spentIndex⟩
  withdraw env msg spentUtxo { w with
    events := w.events ++ [.safeWithdrawal payoutTx spentUtxo w.bridge.withdrawalUTXOs.length] }

/-- `batchWithdraw`. -/
def batchWithdraw (msg : Msg A) (txIds : List Bytes32) (outputIds : List Bytes4) (w : World A) :
    Call (World A) := do
  whenNotPaused w.bridge
  require (txIds.length = outputIds.length) "Length mismatch"
  let total ← checkedMul w.bridge.depositAmount txIds.length
  require (msg.value = total) "Invalid withdraw amount"
  (List.zipWith UTXO.mk txIds outputIds).foldlM (recordWithdrawal env msg.timestamp) w

/-! ### Deposits -/

/-- A call with value and no data. The bridge itself has no function for it. `code` is what the code
of the address does after it has the value: it may revert. -/
def sendEther (target : A) (amount : Nat) (code : World A → World A × Bool) (w : World A) :
    World A × Bool :=
  if amount ≤ w.balance ∧ target ≠ env.bridge then
    let (after, success) := code { w with balance := w.balance - amount }
    if success then (after, true) else (w, false)
  else (w, false)

/-- The end of `deposit`: the value goes to the recipient, or to the vault. -/
def payOut (msg : Msg A) (wtxId txId : Bytes32) (recipient : A)
    (recipientCode vaultCode : World A → World A × Bool) (w : World A) : Call (World A) := do
  let (w, success) := sendEther env recipient w.bridge.depositAmount recipientCode w
  let depositId := w.bridge.depositTxIds.length - 1
  if success then
    pure { w with events := w.events ++ [.deposit wtxId txId recipient msg.timestamp depositId] }
  else do
    let w := { w with
      events := w.events ++ [.depositTransferFailed wtxId txId recipient msg.timestamp depositId] }
    let (w, success) := sendEther env w.bridge.failedDepositVault w.bridge.depositAmount vaultCode w
    require (success = true) "Failed to send to failed deposit vault"
    pure w

/-- `deposit`. -/
def deposit (msg : Msg A) (moveTx : BridgeTransaction) (proof : MerkleProof)
    (shaScriptPubkeys : Bytes32) (recipientCode vaultCode : World A → World A × Bool)
    (w : World A) : Call (World A) := do
  require (msg.sender = env.systemCaller ∨ msg.sender = w.bridge.operator)
    "caller is not the system caller or operator"
  whenNotPaused w.bridge
  let (wtxId, txId, witness0) ← signedTransaction env w moveTx proof shaScriptPubkeys
  require (w.bridge.processedTxIds txId = false) "txId already spent"
  let bridge := { w.bridge with
    processedTxIds := Function.update w.bridge.processedTxIds txId true
    depositTxIds := w.bridge.depositTxIds ++ [txId] }
  let script ← scriptOf env witness0 bridge.depositPrefix bridge.depositSuffix 20
    "Invalid deposit script" "Invalid script suffix"
  let recipient ← slice script bridge.depositPrefix.length 20
  payOut env msg wtxId txId (env.toAddress recipient) recipientCode vaultCode
    { w with bridge := bridge }

/-- `replaceDeposit`. -/
def replaceDeposit (msg : Msg A) (replaceTx : BridgeTransaction) (proof : MerkleProof)
    (idToReplace : Nat) (shaScriptPubkeys : Bytes32) (w : World A) : Call (World A) := do
  require (msg.sender = w.bridge.operator) "caller is not the operator"
  require (idToReplace < w.bridge.depositTxIds.length) "Invalid index"
  require (w.bridge.replacePrefix.length ≠ 0) "Replace script is not set"
  let (_, newTxId, witness0) ← signedTransaction env w replaceTx proof shaScriptPubkeys
  require (w.bridge.processedTxIds newTxId = false) "txId already used to replace"
  let txIdToReplace ← expect w.bridge.depositTxIds[idToReplace]? "array index out of bounds"
  let bridge := { w.bridge with
    processedTxIds := Function.update w.bridge.processedTxIds newTxId true
    depositTxIds := w.bridge.depositTxIds.set idToReplace newTxId }
  let script ← scriptOf env witness0 bridge.replacePrefix bridge.replaceSuffix 32
    "Invalid replace script prefix" "Invalid replace script suffix"
  let txId ← slice script bridge.replacePrefix.length 32
  let txId ← bytesToBytes32 txId
  require (txId = txIdToReplace) "Invalid txId to replace provided"
  pure { w with
    bridge := bridge
    events := w.events ++ [.depositReplaced idToReplace txId newTxId] }

/-! ### Calls -/

/-- The function that a call names, with its arguments. The functions that only read are left out.
-/
inductive Message (A : Type) where
  | initializeBridge (depositPrefix depositSuffix : Bytes) (depositAmount : Nat)
  | setDepositScript (depositPrefix depositSuffix : Bytes)
  | setReplaceScript (replacePrefix replaceSuffix : Bytes)
  | setFailedDepositVault (failedDepositVault : A)
  | setOptimisticWithdrawAmount (amount : Nat)
  | setOperator (operator : A)
  | pause
  | unpause
  | transferOwnership (newOwner : A)
  | acceptOwnership
  | renounceOwnership
  | deposit (moveTx : BridgeTransaction) (proof : MerkleProof) (shaScriptPubkeys : Bytes32)
  | withdraw (utxo : UTXO)
  | safeWithdraw (args : SafeWithdrawArgs)
  | batchWithdraw (txIds : List Bytes32) (outputIds : List Bytes4)
  | replaceDeposit (replaceTx : BridgeTransaction) (proof : MerkleProof) (idToReplace : Nat)
      (shaScriptPubkeys : Bytes32)

/-- The functions that change the settings. -/
def callSettings (msg : Msg A) (message : Message A) (bridge : Bridge A) : Call (Bridge A) :=
  match message with
  | .initializeBridge depositPrefix depositSuffix depositAmount =>
    initializeBridge env msg depositPrefix depositSuffix depositAmount bridge
  | .setDepositScript depositPrefix depositSuffix =>
    setDepositScript msg depositPrefix depositSuffix bridge
  | .setReplaceScript replacePrefix replaceSuffix =>
    setReplaceScript msg replacePrefix replaceSuffix bridge
  | .setFailedDepositVault vault => setFailedDepositVault env msg vault bridge
  | .setOptimisticWithdrawAmount amount => setOptimisticWithdrawAmount msg amount bridge
  | .setOperator operator => setOperator env msg operator bridge
  | .pause => pause msg bridge
  | .unpause => unpause msg bridge
  | .transferOwnership newOwner => transferOwnership msg newOwner bridge
  | .acceptOwnership => acceptOwnership env msg bridge
  | .renounceOwnership => renounceOwnership env msg bridge
  | _ => pure bridge

/-- A call of the bridge. The value is on its balance before the function runs. -/
def callBridge (msg : Msg A) (message : Message A)
    (recipientCode vaultCode : World A → World A × Bool) (world : World A) : Call (World A) :=
  let w := { world with balance := world.balance + msg.value }
  match message with
  | .deposit moveTx proof shaScriptPubkeys => do
    nonPayable msg
    deposit env msg moveTx proof shaScriptPubkeys recipientCode vaultCode w
  | .withdraw utxo => withdraw env msg utxo w
  | .safeWithdraw args => safeWithdraw env msg args w
  | .batchWithdraw txIds outputIds => batchWithdraw env msg txIds outputIds w
  | .replaceDeposit replaceTx proof idToReplace shaScriptPubkeys => do
    nonPayable msg
    replaceDeposit env msg replaceTx proof idToReplace shaScriptPubkeys w
  | settings => do
    nonPayable msg
    let bridge ← callSettings env msg settings w.bridge
    pure { w with bridge := bridge }

/-- What some code does: calls of the bridge, each with what the recipient and the vault of a
deposit do in it, transfers that cannot be refused, calls of the light client, and frames inside. At
the end it returns or reverts. -/
inductive Frame (A : Type) where
  | finish (success : Bool)
  | call (msg : Msg A) (message : Message A) (recipient vault next : Frame A)
  | forceTransfer (amount : Nat) (next : Frame A)
  | lightClient (isSystem : Bool) (request : LightClientCall) (next : Frame A)
  | frame (inner next : Frame A)

/-- The world after a call. A reverted call leaves no trace. -/
def afterCall (w : World A) (result : Call (World A)) : World A :=
  match result with
  | .ok after => after
  | .error _ => w

/-- The world after a frame inside. -/
def afterFrame (w : World A) (result : World A × Bool) : World A := if result.2 then result.1 else w

/-- The run of a frame: the world at its end, and whether it returns. -/
def Frame.run : Frame A → World A → World A × Bool
  | .finish success, w => (w, success)
  | .call msg message recipient vault next, w =>
    next.run (afterCall w (callBridge env msg message recipient.run vault.run w))
  | .forceTransfer amount next, w =>
    next.run { w with balance := w.balance + amount, forced := w.forced + amount }
  | .lightClient isSystem request next, w =>
    next.run { w with lightClient := w.lightClient.step isSystem request }
  | .frame inner next, w => next.run (afterFrame w (inner.run w))

end

end Citrea.Spec.Contracts
