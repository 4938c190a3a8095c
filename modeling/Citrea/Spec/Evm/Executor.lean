import Citrea.Spec.Bitcoin.Parsers
import Citrea.Spec.Evm.Handler

/-!
# `Citrea.Spec.Evm.Executor`: the check of a system transaction

`verify_system_tx` of `crates/evm/src/evm/executor.rs`, and the providers of short header proofs
in `crates/short-header-proof-provider/src/{zk.rs,native.rs}`.

A system transaction that calls `setBlockInfo` must agree with a short header proof. The guest
takes the proofs from a queue. A node looks the proof up by the block hash. The provider is a
global variable of the source. Here it is an argument and a result.
-/

namespace Citrea.Spec.Evm

open Lib Spec.Bitcoin

/-! ### The providers -/

/-- `ShortHeaderProofProviderError`. Allocations do not fail in the model. -/
inductive ShortHeaderProofProviderError where
  | shortHeaderProofNotFound
deriving DecidableEq

/-- The check of a short header proof, and the reader of a serialized one. -/
structure ShortProofEnv where
  script : ScriptEnv
  tryFromSlice : Bytes → Option BitcoinHeaderShortProof

/-- The L1 block that a system transaction wants to record. `prevBlockHash` is the last recorded
hash, zero if there is none. -/
structure L1Update where
  blockHash : Bytes32
  prevBlockHash : Bytes32
  l1Height : UInt64
  txsCommitment : Bytes32
  coinbaseDepth : UInt8
deriving DecidableEq

/-- `return_cond`. -/
def L1Update.agrees (update : L1Update) (info : L1UpdateSystemTransactionInfo) : Bool :=
  update.txsCommitment = info.txCommitment ∧ update.blockHash = info.headerHash ∧
    (update.prevBlockHash = .zero ∨ update.prevBlockHash = info.prevHeaderHash) ∧
    update.l1Height = info.blockHeight ∧
    update.coinbaseDepth = info.coinbaseTxidMerkleProofHeight

/-- `ZkShortHeaderProofProviderService` and `NativeShortHeaderProofProviderService`. -/
inductive ShortHeaderProofProvider where
  | zk (shortHeaderProofs : List Bytes) (lastQueriedAndVerifiedHash : Option Bytes32)
  | native (ledger : Bytes32 → Option Bytes) (saveHashes : Bool)
      (queriedAndVerifiedHashes : List (Nat × Bytes32))

section
variable (shp : ShortProofEnv)

/-- Deserializes a proof and compares it with the update. An invalid proof gives `false`. -/
def checkShortHeaderProof (serialized : Bytes) (update : L1Update) :
    Outcome ShortHeaderProofProviderError Bool := do
  let proof ← expect (shp.tryFromSlice serialized) "Should deserialize short header proof"
  match proof.verify shp.script with
  | .ok info => pure (update.agrees info)
  | .error (.error _) => pure false
  | .error (.panic message) => Outcome.panic message

/-- `get_and_verify_short_header_proof_by_l1_hash`. -/
def ShortHeaderProofProvider.getAndVerify (update : L1Update) (l2Height : Nat) :
    ShortHeaderProofProvider →
      Outcome ShortHeaderProofProviderError (Bool × ShortHeaderProofProvider)
  | zk [] _ => Outcome.panic "Should have short header proof for l1 hash"
  | zk (serialized :: rest) last => do
    let verified ← checkShortHeaderProof shp serialized update
    pure (verified, zk rest (if verified then some update.blockHash else last))
  | native ledger saveHashes queried =>
    match ledger update.blockHash with
    | none => err .shortHeaderProofNotFound
    | some serialized => do
      let verified ← checkShortHeaderProof shp serialized update
      let queried := if verified ∧ saveHashes then queried ++ [(l2Height, update.blockHash)]
        else queried
      pure (verified, native ledger saveHashes queried)

end

/-! ### The check -/

/-- `L2BlockModuleCallError`, the errors of the EVM module. -/
inductive L2BlockModuleCallError where
  | evmTxNotSerializable
  | evmSystemTransactionPlacedAfterUserTx
  | evmSystemTxParseError
  | shortHeaderProofVerificationError
  | shortHeaderProofNotFound
  | evmTxTypeNotSupported (name : String)
  | evmNotEnoughFundsForL1Fee
  | evmTransactionExecutionError (e : EvmError)
  | evmSystemTransactionNotSuccessful
  | evmGasUsedExceedsBlockGasLimit (cumulativeGas txGasUsed blockGasLimit : Nat)
deriving DecidableEq

/-- The arguments of `setBlockInfo`. -/
structure SetBlockInfoCall where
  blockHash : Bytes32
  witnessRoot : Bytes32
  coinbaseDepth : U256
deriving DecidableEq

/-- The word of an ABI encoded argument list. -/
def abiWord (data : Bytes) (index : Nat) : Bytes := (data.drop (4 + 32 * index)).take 32

theorem length_abiWord {data : Bytes} {index : Nat} (h : 4 + 32 * (index + 1) ≤ data.length) :
    (abiWord data index).length = 32 := by
  simp only [abiWord, List.length_take, List.length_drop]
  omega

/-- The arguments of a call with three words. Bytes after them are not looked at. -/
def decodeSetBlockInfo (data : Bytes) : Option SetBlockInfoCall :=
  if h : 100 ≤ data.length then
    some
      { blockHash := ⟨abiWord data 0, length_abiWord (by omega)⟩
        witnessRoot := ⟨abiWord data 1, length_abiWord (by omega)⟩
        coinbaseDepth := BitVec.ofNat 256 (ofLeBytes (abiWord data 2).reverse) }
  else none

/-- `setBlockInfoCall::abi_decode(data, true)`. With validation the data must not be longer. -/
def SetBlockInfoCall.abiDecode (data : Bytes) : Option SetBlockInfoCall :=
  if data.length = 100 then decodeSetBlockInfo data else none

section
variable {A H : Type} (env : EvmEnv A H)

/-- `get_last_l1_height_and_hash_in_light_client`: slot 0 of the contract, and the entry of the
mapping in slot 1 for the number before it. -/
def getLastL1HeightAndHashInLightClient {ε : Type} : Prog A H ε (U256 × U256) := do
  let height ← storageGet env env.bitcoinLightClient (env.slot 0)
  let lastL1Height := height.getD 0
  let hash ← storageGet env env.bitcoinLightClient
    (env.mappingSlot (U256.saturatingSub lastL1Height 1) 1)
  pure (lastL1Height, hash.getD 0)

variable (shp : ShortProofEnv) (setBlockInfoSelector : Bytes)

/-- The part of `verify_system_tx` for a call of `setBlockInfo`. -/
def verifySetBlockInfo (provider : ShortHeaderProofProvider) (data : Bytes) (l2Height : Nat) :
    Prog A H L2BlockModuleCallError ShortHeaderProofProvider := do
  let call ← ofOutcome <| match SetBlockInfoCall.abiDecode data with
    | some call => pure call
    | none => err .evmSystemTxParseError
  ofOutcome (ensure (call.coinbaseDepth.toNat < 2 ^ 8) .evmSystemTxParseError)
  let (lastL1Height, prevHash) ← getLastL1HeightAndHashInLightClient env
  ofOutcome (assert (lastL1Height.toNat < 2 ^ 64) "Overflow in conversion")
  let update : L1Update :=
    { blockHash := call.blockHash
      prevBlockHash := U256.toBeBytes prevHash
      l1Height := UInt64.ofNat lastL1Height.toNat
      txsCommitment := call.witnessRoot
      coinbaseDepth := UInt8.ofNat call.coinbaseDepth.toNat }
  match provider.getAndVerify shp update l2Height with
  | .ok (true, provider) => pure provider
  | .ok (false, _) => ofOutcome (err .shortHeaderProofVerificationError)
  | .error (.error .shortHeaderProofNotFound) =>
    ofOutcome (err .shortHeaderProofNotFound)
  | .error (.panic message) => ofOutcome (Outcome.panic message)

/-- `verify_system_tx`. -/
def verifySystemTx (provider : ShortHeaderProofProvider) (data : Bytes) (l2Height : Nat) :
    Prog A H L2BlockModuleCallError ShortHeaderProofProvider := do
  ofOutcome (ensure (4 ≤ data.length) .evmSystemTxParseError)
  if data.take 4 = setBlockInfoSelector then verifySetBlockInfo env shp provider data l2Height
  else pure provider

end

/-! ### The transactions of a call message

`EvmDb::commit` of `crates/evm/src/evm/db_commit.rs` writes the accounts of a transaction to the
state. `execute_multiple_tx` of `crates/evm/src/evm/executor.rs` runs the transactions of one
call message, one after the other, and commits each of them.
-/

open Lib

/-! ### Commit -/

section
variable {A H : Type} [Ord A] [Ord H] [DecidableEq A] [DecidableEq H] {ε : Type} (env : EvmEnv A H)

/-- `check_account_info_changed`. An account without code has no code hash in the state and the
hash of the empty code in revm, so it always counts as changed. -/
def checkAccountInfoChanged (old : AccountInfo H) (new : RevmAccountInfo H) : Bool :=
  old.balance ≠ new.balance ∨ old.codeHash ≠ some new.codeHash ∨ old.nonce ≠ new.nonce

/-- Code that the offchain state does not have yet is written to it. The value that
`offchain_code.get` returns is not checked. -/
def commitCode (info : RevmAccountInfo H) : Prog A H ε Unit :=
  match info.code with
  | none => pure ()
  | some code => do
    let original ← ofOutcome
      (expect code.originalByteSlice "range end index out of range for slice")
    if original.isEmpty then pure ()
    else
      let known ← StoreProg.lookupHint info.codeHash
      if known.isNone then StoreProg.writeHint info.codeHash code else pure ()

/-- The loop over the loaded slots of an account. -/
def commitStorage (address : A) : List (H × U256) → Prog A H ε Unit
  | [] => pure ()
  | (key, value) :: rest => do
    storageSet env address key value
    commitStorage address rest

/-- The body of the loop of `commit`. -/
def commitAccount (address : A) (account : Account H) : Prog A H ε Unit :=
  if account.touched = false then pure ()
  else if account.selfdestructed then pure ()
  else do
    let stored ← accountInfo address
    let prevInfo := stored.getD .default
    commitCode account.info
    commitStorage env address account.storage.toList
    if stored.isNone ∨ checkAccountInfoChanged prevInfo account.info then
      accountSet address (account.info.toDb env)
    else pure ()

/-- The loop of `EvmDb::commit`, over the accounts in the order of their addresses. -/
def commitAccounts : List (A × Account H) → Prog A H ε Unit
  | [] => pure ()
  | (address, account) :: rest => do
    commitAccount env address account
    commitAccounts rest

/-- `EvmDb::commit`. -/
def commit (j : Journal A H) : Prog A H ε Unit := commitAccounts env j.state.toList

end

/-! ### The transactions of a call message -/

/-- What the executor uses. The selectors are the first bytes of a call of `setBlockInfo` and
`initializeBlockNumber` of the light client contract. -/
structure ExecutorEnv (A H : Type) where
  evm : EvmEnv A H
  revm : Revm A H
  shp : ShortProofEnv
  setBlockInfoSelector : Bytes
  initializeBlockNumberSelector : Bytes

/-- `Recovered<TransactionSigned>`: what `create_tx_env` makes of it, and whether it is an EIP-4844
transaction. The caller is the signer and the data is the input. -/
structure RecoveredTx (A : Type) where
  env : TxEnv A
  isEip4844 : Bool
deriving DecidableEq

/-- `ExecutionResult`, with the size that the receipt records. -/
structure ExecutionResult where
  success : Bool
  gasUsed : Nat
  l1DiffSize : Nat
deriving DecidableEq, Repr

/-- The variables that go from transaction to transaction. -/
structure ExecState where
  provider : ShortHeaderProofProvider
  shouldBeEndOfSysTxs : Bool
  cumulativeGasUsed : Nat
  txResults : List ExecutionResult

section
variable {A H : Type} [Ord A] [Ord H] [DecidableEq A] [DecidableEq H] (env : ExecutorEnv A H)

/-- `map_err` after `transact`. The only custom error is the one for the L1 fee. -/
def moduleCallError : EvmError → L2BlockModuleCallError
  | .custom _ => .evmNotEnoughFundsForL1Fee
  | e => .evmTransactionExecutionError e

/-- A system transaction is checked, and must not stand after another transaction. -/
def checkSigner (l2Height : Nat) (s : ExecState) (tx : RecoveredTx A) :
    Prog A H L2BlockModuleCallError ExecState :=
  if tx.env.caller = env.evm.systemSigner then do
    ofOutcome (ensure (s.shouldBeEndOfSysTxs = false) .evmSystemTransactionPlacedAfterUserTx)
    let provider ← verifySystemTx env.evm env.shp env.setBlockInfoSelector s.provider tx.env.data
      l2Height
    pure { s with provider := provider }
  else pure { s with shouldBeEndOfSysTxs := true }

/-- What is done before the transaction runs. -/
def beforeTransact (l2Height : Nat) (s : ExecState) (tx : RecoveredTx A) :
    Prog A H L2BlockModuleCallError ExecState := do
  let s ← checkSigner env l2Height s tx
  ofOutcome
    (ensure (tx.isEip4844 = false) (.evmTxTypeNotSupported "EIP-4844"))
  pure s

/-- The body of the loop of `execute_multiple_tx`. -/
def executeTx (block : BlockEnv A) (l1FeeRate l2Height : Nat) (s : ExecState)
    (tx : RecoveredTx A) : Prog A H L2BlockModuleCallError ExecState := do
  let s ← beforeTransact env l2Height s tx
  let result ← (transact env.evm env.revm block l1FeeRate tx.env).mapError moduleCallError
  ofOutcome (ensure (s.shouldBeEndOfSysTxs = true ∨ result.success = true)
    .evmSystemTransactionNotSuccessful)
  ofOutcome (ensure (s.cumulativeGasUsed + result.gasUsed ≤ block.gasLimit)
    (.evmGasUsedExceedsBlockGasLimit s.cumulativeGasUsed result.gasUsed block.gasLimit))
  commit env.evm result.journal
  pure
    { s with
      cumulativeGasUsed := s.cumulativeGasUsed + result.gasUsed
      txResults := s.txResults ++ [⟨result.success, result.gasUsed, result.l1DiffSize⟩] }

/-- `execute_multiple_tx`. -/
def executeMultipleTx (block : BlockEnv A) (l1FeeRate l2Height : Nat) (s : ExecState) :
    List (RecoveredTx A) → Prog A H L2BlockModuleCallError ExecState
  | [] => pure s
  | tx :: rest => do
    let s ← executeTx env block l1FeeRate l2Height s tx
    executeMultipleTx block l1FeeRate l2Height s rest

end

end Citrea.Spec.Evm
