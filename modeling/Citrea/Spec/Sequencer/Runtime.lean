import Citrea.Spec.Evm.L2Block

/-!
# `Citrea.Spec.Sequencer.Runtime`: the modules of the runtime in the sequencer

`crates/citrea-stf/src/hooks_impl.rs`, `crates/evm/src/{call.rs,hooks.rs}`, the hooks of
`sov-accounts/src/hooks.rs` and of `crates/l2-block-rule-enforcer/src/hooks.rs`, and
`apply_sov_tx_inner` of `sov-modules-stf-blueprint/src/stf_blueprint.rs`.

The sequencer keeps the EVM module in memory from block to block. The module has the transactions of
the block so far, with their receipts. A call message takes the gas and the number of the logs so
far from the last of them.

A working set is modelled by what it shows: the state of each of the three modules. To revert it is
to go back to the one at the checkpoint. A transaction stands for its EIP-2718 encoding, and a
rollup transaction for its signed encoding. The sequencer verifies and decodes only what it has
encoded and signed itself.
-/

namespace Citrea.Spec.Sequencer

open Lib
open Lib.StoreProg (mapStore HintBackend)
open Spec.Bitcoin (Bytes32)
open Spec.Evm

/-! ### The EVM module -/

/-- `CitreaReceiptWithBloom`. -/
structure Receipt (L : Type) where
  success : Bool
  cumulativeGasUsed : Nat
  logs : List L
  gasUsed : Nat
  logIndexStart : Nat
  l1DiffSize : Nat
deriving DecidableEq

/-- `PendingTransaction`. -/
structure PendingTransaction (A L : Type) where
  tx : RecoveredTx A
  blockNumber : Nat
  receipt : Receipt L
deriving DecidableEq

/-- `Evm`, the fields that are kept in memory. -/
structure EvmModule (A L : Type) where
  pendingTransactions : List (PendingTransaction A L)
  blockEnv : BlockEnv A
  shouldBeEndOfSysTxs : Bool
deriving DecidableEq

/-- The gas that the transactions of the block used so far. -/
def EvmModule.cumulativeGasUsed {A L : Type} (m : EvmModule A L) : Nat :=
  (m.pendingTransactions.getLast?.map fun tx => tx.receipt.cumulativeGasUsed).getD 0

/-- The index of the next log in the block. -/
def EvmModule.logIndexStart {A L : Type} (m : EvmModule A L) : Nat :=
  (m.pendingTransactions.getLast?.map fun tx =>
    tx.receipt.logIndexStart + tx.receipt.logs.length).getD 0

/-- `EvmChainConfig`. -/
structure EvmChainConfig (A : Type) where
  chainId : Nat
  coinbase : A
  blockGasLimit : Nat
deriving DecidableEq

/-- `Block`: the fields of the header that vary from block to block. The state root is `none` until
the next block sets it. `bodyRoots` are the roots of the transactions and of the receipts, and the
bloom filter of the logs. -/
structure Block (A : Type) where
  parentHash : Bytes
  number : Nat
  timestamp : Nat
  beneficiary : A
  stateRoot : Option Bytes
  bodyRoots : Bytes
  gasLimit : Nat
  gasUsed : Nat
  baseFeePerGas : Option Nat
  l1FeeRate : Nat
  firstTx : Nat
  endTx : Nat
deriving DecidableEq

/-- The state of the EVM module. `receipts` is in the accessory state. -/
structure EvmStore (A H L τ : Type) where
  cfg : Option (EvmChainConfig A)
  head : Option (Block A)
  state : StateStore A H
  offchain : τ
  receipts : List (Receipt L)

/-- The address of the bridge and the ABI encoded calls of the two system contracts. -/
structure SystemContracts (A : Type) where
  bridgeWrapper : A
  init : UInt64 → Bytes
  setBlockInfo : Bytes32 → Bytes32 → UInt64 → Bytes
  bridgeInit : Bytes → Bytes
  deposit : Bytes → Bytes

/-- What the sequencer uses. `pubKey` belongs to the key that signs its rollup transactions. `logs`
are the logs that revm returns for a transaction on a state. The base fee depends on the parameters
in the configuration. -/
structure SequencerEnv (A H Key L τ : Type) where
  executor : ExecutorEnv A H
  contracts : SystemContracts A
  shortHeaderProofs : Bytes32 → Option Bytes
  offchain : HintBackend H Bytecode τ
  logs : BlockEnv A → TxEnv A → StateStore A H → τ → List L
  calculateNextBlockBaseFee : EvmChainConfig A → SpecId → (gasUsed gasLimit baseFee : Nat) → Nat
  sealHash : Block A → Bytes
  bodyRoots : List (PendingTransaction A L) → Bytes
  toAddress : Key → Bytes
  pubKey : Key

/-- `HookL2BlockInfo`. The public key is the one of the sequencer. -/
structure L2BlockInfo where
  l2Height : Nat
  preStateRoot : Bytes
  currentSpec : SpecId
  l1FeeRate : Nat
  timestamp : UInt64

section
variable {A H Key L τ : Type} [Ord A] [Ord H] [DecidableEq A] [DecidableEq H]
  (env : SequencerEnv A H Key L τ)

/-- `NativeShortHeaderProofProviderService`. The sequencer does not save the queried hashes. -/
def SequencerEnv.provider : ShortHeaderProofProvider := .native env.shortHeaderProofs false []

/-- `execute_multiple_tx`, with the logs of each transaction. -/
def executeTxs (block : BlockEnv A) (info : L2BlockInfo) :
    List (RecoveredTx A) → ExecState → StateStore A H → τ →
      Outcome L2BlockModuleCallError (List (List L) × ExecState × StateStore A H × τ)
  | [], s, state, offchain => pure ([], s, state, offchain)
  | tx :: rest, s, state, offchain => do
    let logs := env.logs block tx.env state offchain
    let (s, state, offchain) ← StoreProg.run mapStore env.offchain
      (executeTx env.executor block info.l1FeeRate info.l2Height s tx) state offchain
    let (restLogs, result) ← executeTxs block info rest s state offchain
    pure (logs :: restLogs, result)

/-- The loop of `execute_call` over the transactions and their results. -/
def toPending (blockNumber : Nat) : List (RecoveredTx A) → List ExecutionResult → List (List L) →
    (cumulativeGasUsed logIndexStart : Nat) → List (PendingTransaction A L)
  | tx :: txs, result :: results, logs :: rest, cumulativeGasUsed, logIndexStart =>
    let cumulativeGasUsed := cumulativeGasUsed + result.gasUsed
    let receipt : Receipt L :=
      { success := result.success
        cumulativeGasUsed := cumulativeGasUsed
        logs := logs
        gasUsed := result.gasUsed
        logIndexStart := logIndexStart
        l1DiffSize := result.l1DiffSize }
    ⟨tx, blockNumber, receipt⟩ ::
      toPending blockNumber txs results rest cumulativeGasUsed (logIndexStart + logs.length)
  | _, _, _, _, _ => []

/-- `execute_call`, for transactions that convert. The fields of the module change only if the
transactions return. -/
def executeCall (info : L2BlockInfo) (txs : List (RecoveredTx A)) (m : EvmModule A L)
    (store : EvmStore A H L τ) :
    Outcome L2BlockModuleCallError (EvmModule A L × EvmStore A H L τ) := do
  let cfg ← expect store.cfg "Evm config must be set"
  let block := { m.blockEnv with chainId := cfg.chainId }
  let s : ExecState := ⟨env.provider, m.shouldBeEndOfSysTxs, m.cumulativeGasUsed, []⟩
  let (logs, s, state, offchain) ← executeTxs env block info txs s store.state store.offchain
  pure
    ({ m with
        shouldBeEndOfSysTxs := s.shouldBeEndOfSysTxs
        pendingTransactions := m.pendingTransactions ++
          toPending m.blockEnv.number txs s.txResults logs m.cumulativeGasUsed m.logIndexStart },
      { store with state := state, offchain := offchain })

/-- The key of a block hash in the state. -/
def blockhashKey (number : Nat) : StateKey A H :=
  .other (env.executor.evm.blockHashKey (number % 256))

/-- `begin_l2_block_hook`. -/
def beginL2BlockHook {ε : Type} (info : L2BlockInfo) (store : EvmStore A H L τ) :
    Outcome ε (EvmModule A L × EvmStore A H L τ) := do
  let head ← expect store.head "Head block should always be set"
  let parent := { head with stateRoot := some info.preStateRoot }
  let cfg ← expect store.cfg "EVM chain config should be set"
  let basefee := env.calculateNextBlockBaseFee cfg info.currentSpec parent.gasUsed parent.gasLimit
    (parent.baseFeePerGas.getD 0)
  let blockEnv : BlockEnv A :=
    { chainId := cfg.chainId
      number := parent.number + 1
      beneficiary := cfg.coinbase
      timestamp := info.timestamp.toNat
      basefee := basefee
      gasLimit := cfg.blockGasLimit }
  pure
    (⟨[], blockEnv, false⟩, { store with
        head := some parent
        state := Function.update store.state (blockhashKey env parent.number)
          (some (env.sealHash parent)) })

/-- `end_l2_block_hook`. The transactions and the receipts are pushed to the accessory state. -/
def endL2BlockHook {ε : Type} (info : L2BlockInfo) (m : EvmModule A L) (store : EvmStore A H L τ) :
    Outcome ε (EvmModule A L × EvmStore A H L τ) := do
  let parent ← expect store.head "Head block should always be set"
  let parentHash ← expect (store.state (blockhashKey env parent.number))
    "Should have parent block hash"
  assert (m.blockEnv.number = parent.number + 1) "Pending head must be set"
  let block : Block A :=
    { parentHash := parentHash
      number := m.blockEnv.number
      timestamp := m.blockEnv.timestamp
      beneficiary := parent.beneficiary
      stateRoot := none
      bodyRoots := env.bodyRoots m.pendingTransactions
      gasLimit := m.blockEnv.gasLimit
      gasUsed := m.cumulativeGasUsed
      baseFeePerGas := some m.blockEnv.basefee
      l1FeeRate := info.l1FeeRate
      firstTx := parent.endTx
      endTx := parent.endTx + m.pendingTransactions.length }
  pure
    ({ m with pendingTransactions := [], shouldBeEndOfSysTxs := false }, { store with
        head := some block
        receipts := store.receipts ++ m.pendingTransactions.map PendingTransaction.receipt })

/-- `extract_receipts_from_working_set`: the receipts in the range of the head block. -/
def extractReceipts {ε : Type} (store : EvmStore A H L τ) : Outcome ε (List (Receipt L)) := do
  let head ← expect store.head "Head block must exist after end_l2_block"
  pure ((List.range' head.firstTx (head.endTx - head.firstTx)).filterMap (store.receipts[·]?))

end

/-! ### The working set -/

/-- `Account` of the accounts module. -/
structure SovAccount where
  addr : Bytes
  nonce : UInt64
deriving DecidableEq

/-- What a working set shows of the accounts module, the EVM and the rule enforcer. -/
structure WorkingSet (A H Key L τ : Type) where
  accounts : Key → Option SovAccount
  publicKeys : Bytes → Option Key
  evm : EvmStore A H L τ
  ruleData : Option RuleEnforcerData

/-- A rollup transaction with a call of the EVM module. -/
structure SovTx (A Key : Type) where
  pubKey : Key
  nonce : UInt64
  txs : List (RecoveredTx A)

/-- The errors of `L2BlockHookError` that the accounts module returns. -/
inductive SovTxHookError where
  | sovTxBadNonce
  | sovTxAccountNotFound
  | sovTxAccountAlreadyExists
deriving DecidableEq

/-- `StateTransitionError`, the errors of a transaction that is verified and decoded. -/
inductive ApplyTxError where
  | hookError (e : SovTxHookError)
  | moduleCallError (e : L2BlockModuleCallError)
deriving DecidableEq

section
variable {A H Key L τ : Type} [Ord A] [Ord H] [DecidableEq A] [DecidableEq H] [DecidableEq Key]
  (env : SequencerEnv A H Key L τ)

/-- `get_or_create_default`. -/
def getOrCreateDefault (pubKey : Key) (ws : WorkingSet A H Key L τ) :
    Outcome ApplyTxError (SovAccount × WorkingSet A H Key L τ) :=
  match ws.accounts pubKey with
  | some account => pure (account, ws)
  | none => do
    let address := env.toAddress pubKey
    ensure (ws.publicKeys address = none) (.hookError .sovTxAccountAlreadyExists)
    let account : SovAccount := ⟨address, 0⟩
    pure (account, { ws with
        accounts := Function.update ws.accounts pubKey (some account)
        publicKeys := Function.update ws.publicKeys address (some pubKey) })

/-- `pre_dispatch_tx_hook`. -/
def preDispatchTxHook (tx : SovTx A Key) (ws : WorkingSet A H Key L τ) :
    Outcome ApplyTxError (WorkingSet A H Key L τ) := do
  let (sender, ws) ← getOrCreateDefault env tx.pubKey ws
  ensure (sender.nonce = tx.nonce) (.hookError .sovTxBadNonce)
  pure ws

/-- `post_dispatch_tx_hook`. -/
def postDispatchTxHook (tx : SovTx A Key) (ws : WorkingSet A H Key L τ) :
    Outcome ApplyTxError (WorkingSet A H Key L τ) :=
  match ws.accounts tx.pubKey with
  | none => err (.hookError .sovTxAccountNotFound)
  | some account =>
    pure
      { ws with
        accounts := Function.update ws.accounts tx.pubKey
          (some { account with nonce := account.nonce + 1 }) }

/-- `apply_sov_tx_inner`. -/
def applySovTx (info : L2BlockInfo) (tx : SovTx A Key) (m : EvmModule A L)
    (ws : WorkingSet A H Key L τ) :
    Outcome ApplyTxError (EvmModule A L × WorkingSet A H Key L τ) := do
  let ws ← preDispatchTxHook env tx ws
  match executeCall env info tx.txs m ws.evm with
  | .ok (m, evm) => do
    let ws ← postDispatchTxHook tx { ws with evm := evm }
    pure (m, ws)
  | .error (.error e) => err (.moduleCallError e)
  | .error (.panic message) => Outcome.panic message

/-- `apply_l2_block_txs`. -/
def applyL2BlockTxs (info : L2BlockInfo) (txs : List (SovTx A Key)) (m : EvmModule A L)
    (ws : WorkingSet A H Key L τ) : Outcome ApplyTxError (EvmModule A L × WorkingSet A H Key L τ) :=
  txs.foldlM (fun r tx => applySovTx env info tx r.1 r.2) (m, ws)

/-- `begin_l2_block`. Only the EVM module has a begin hook. -/
def beginL2Block {ε : Type} (info : L2BlockInfo) (ws : WorkingSet A H Key L τ) :
    Outcome ε (EvmModule A L × WorkingSet A H Key L τ) := do
  let (m, evm) ← beginL2BlockHook env info ws.evm
  pure (m, { ws with evm := evm })

/-- `hook_handler` of the rule enforcer. -/
def hookHandler (info : L2BlockInfo) (ws : WorkingSet A H Key L τ) :
    Outcome L2BlockHookError (WorkingSet A H Key L τ) := do
  let data ← expect ws.ruleData "should be set in genesis"
  let ((_, hash), _, _) ← StoreProg.run mapStore env.offchain
    (getLastL1HeightAndHashInLightClient env.executor.evm) ws.evm.state ws.evm.offchain
  let data ← applyBlockCountRule (U256.toBeBytes hash) data
  let data ← applyTimestampRule info.timestamp data
  pure { ws with ruleData := some data }

/-- `end_l2_block`: the rule enforcer, and then the EVM. -/
def endL2Block (info : L2BlockInfo) (m : EvmModule A L) (ws : WorkingSet A H Key L τ) :
    Outcome L2BlockHookError (EvmModule A L × WorkingSet A H Key L τ) := do
  let ws ← hookHandler env info ws
  let (m, evm) ← endL2BlockHook env info m ws.evm
  pure (m, { ws with evm := evm })

/-- `get_nonce`. -/
def getNonce (ws : WorkingSet A H Key L τ) : UInt64 :=
  ((ws.accounts env.pubKey).map SovAccount.nonce).getD 0

/-- `encode_and_sign_evm_txs_into_sov_txs`: the rollup transactions of the block. -/
def encodeAndSignEvmTxsIntoSovTxs (ws : WorkingSet A H Key L τ) (txs : List (RecoveredTx A)) :
    List (SovTx A Key) :=
  if txs.isEmpty then [] else [⟨env.pubKey, getNonce env ws, txs⟩]

end

/-! ### The system transactions of a new block

`process_sys_txs` of `crates/sequencer/src/runner.rs`, and `create_system_transactions` of
`crates/evm/src/evm/system_events.rs`.

Before the sequencer produces a block, it runs the system transactions one by one on a working set
that it discards later. Each of them is wrapped into a rollup transaction of its own. A deposit that
reverts is left out. The block then has one rollup transaction with all transactions that are left.
-/

/-! ### System events -/

/-- `SystemEvent`. -/
inductive SystemEvent where
  | bitcoinLightClientInitialize (blockNumber : UInt64)
  | bitcoinLightClientSetBlockInfo (hash merkleRoot : Bytes32) (coinbaseDepth : UInt64)
  | bridgeInitialize (params : Bytes)
  | bridgeDeposit (params : Bytes)
deriving DecidableEq

/-- `matches!(ev, SystemEvent::BridgeDeposit(_))`. -/
def SystemEvent.isDeposit : SystemEvent → Bool
  | bridgeDeposit _ => true
  | _ => false

section
variable {A H Key L τ : Type} (env : SequencerEnv A H Key L τ)

/-- `system_event_to_transaction`: the contract that is called and the input. -/
def SystemEvent.call : SystemEvent → A × Bytes
  | bitcoinLightClientInitialize blockNumber =>
    (env.executor.evm.bitcoinLightClient, env.contracts.init blockNumber)
  | bitcoinLightClientSetBlockInfo hash merkleRoot coinbaseDepth =>
    (env.executor.evm.bitcoinLightClient,
      env.contracts.setBlockInfo hash merkleRoot coinbaseDepth)
  | bridgeInitialize params => (env.contracts.bridgeWrapper, env.contracts.bridgeInit params)
  | bridgeDeposit params => (env.contracts.bridgeWrapper, env.contracts.deposit params)

/-- `signed_system_transaction`. The chain id is the one of the configuration, which the check of
revm compares with itself. -/
def signedSystemTransaction (event : SystemEvent) (nonce : Nat) : RecoveredTx A where
  env :=
    { caller := env.executor.evm.systemSigner
      gasLimit := 1000000
      gasPrice := 2 ^ 64 - 1
      gasPriorityFee := some 0
      kind := some (event.call env).1
      value := 0
      data := (event.call env).2
      nonce := nonce
      authorizationList := [] }
  isEip4844 := false

/-- `create_system_transactions`. The nonces are given out before any of the transactions runs. -/
def createSystemTransactions : List SystemEvent → Nat → List (RecoveredTx A)
  | [], _ => []
  | event :: rest, nonce =>
    signedSystemTransaction env event nonce ::
      createSystemTransactions rest ((nonce + 1) % 2 ^ 64)

end

/-! ### The system transactions -/

section
variable {A H Key L τ : Type} [Ord A] [Ord H] [DecidableEq A] [DecidableEq H] [DecidableEq Key]
  (env : SequencerEnv A H Key L τ)

/-- The variables of the loop of `process_sys_txs`. -/
structure SysTxState (A H Key L τ : Type) where
  nonce : UInt64
  evm : EvmModule A L
  workingSet : WorkingSet A H Key L τ
  allTxs : List (RecoveredTx A)

/-- `saturating_sub(1)` on `u64`. -/
def saturatingPred (n : UInt64) : UInt64 := if n = 0 then 0 else n - 1

/-- The body of the loop of `process_sys_txs`. -/
def processSysTx (info : L2BlockInfo) (s : SysTxState A H Key L τ)
    (item : RecoveredTx A × Bool) : Outcome String (SysTxState A H Key L τ) :=
  let signedTx : SovTx A Key := ⟨env.pubKey, s.nonce, [item.1]⟩
  let nonce := s.nonce + 1
  match applyL2BlockTxs env info [signedTx] s.evm s.workingSet with
  | .ok (evm, workingSet) => pure ⟨nonce, evm, workingSet, s.allTxs ++ [item.1]⟩
  | .error (.error e) =>
    if e = .moduleCallError .evmSystemTransactionNotSuccessful ∧ item.2 = true then
      -- the working set is reverted, and the nonce is used again
      pure { s with nonce := saturatingPred nonce }
    else err "Failed to apply system transaction"
  | .error (.panic message) => Outcome.panic message

/-- `process_sys_txs`. The nonce of the system signer is read once. -/
def processSysTxs (info : L2BlockInfo) (events : List SystemEvent) (nonce : UInt64)
    (m : EvmModule A L) (ws : WorkingSet A H Key L τ) :
    Outcome String (SysTxState A H Key L τ) := do
  let (account, _, _) ← StoreProg.run mapStore env.offchain
    (accountInfo env.executor.evm.systemSigner) ws.evm.state ws.evm.offchain
  let _ ← expect ws.evm.cfg "called `Option::unwrap()` on a `None` value"
  let sysTxs := createSystemTransactions env events (account.getD .default).nonce
  (sysTxs.zip (events.map SystemEvent.isDeposit)).foldlM (processSysTx env info) ⟨nonce, m, ws, []⟩

end

/-! ### The dry run and the block

`dry_run_transactions` and `produce_l2_block_inner` of `crates/sequencer/src/runner.rs`.

In the dry run each transaction is in a rollup transaction of its own, on a working set that is
discarded. The transactions that succeed then go into the block, in one rollup transaction on a new
working set of the same storage. The EVM module in memory is the same in both.

The transactions that the pool gives out are a list. Which ones it gives out after `mark_invalid` is
up to the pool, so the list is arbitrary. The system events come from the DA blocks and the
deposits, and they are arbitrary too.
-/

open Spec.Evm hiding executeCall applySovTx

/-- `MIN_TRANSACTION_GAS`. -/
def minTransactionGas : Nat := 21000

/-- The variables of the loop of `dry_run_transactions`, and the EVM module. -/
structure DryRun (A H Key L τ : Type) extends SysTxState A H Key L τ where
  l1FeeFailedTxs : List (RecoveredTx A)
  senders : List A

section
variable {A H Key L τ : Type} [Ord A] [Ord H] [DecidableEq A] [DecidableEq H] [DecidableEq Key]
  (env : SequencerEnv A H Key L τ)

/-- The loop of `dry_run_transactions` over the transactions of the pool. A transaction that fails
is skipped with its changes. If there is no gas left for another transaction, the loop ends. -/
def dryRunPool (info : L2BlockInfo) :
    List (RecoveredTx A) → DryRun A H Key L τ → Outcome String (DryRun A H Key L τ)
  | [], s => pure s
  | tx :: rest, s =>
    let signedTx : SovTx A Key := ⟨env.pubKey, s.nonce, [tx]⟩
    let nonce := s.nonce + 1
    match applyL2BlockTxs env info [signedTx] s.evm s.workingSet with
    | .ok (evm, workingSet) =>
      dryRunPool info rest
        { s with
          nonce := nonce
          evm := evm
          workingSet := workingSet
          allTxs := s.allTxs ++ [tx]
          senders := s.senders ++ [tx.env.caller] }
    | .error (.panic message) => Outcome.panic message
    | .error (.error (.hookError _)) => Outcome.panic "Hook error"
    | .error (.error (.moduleCallError e)) =>
      let s := { s with nonce := saturatingPred nonce }
      match e with
      | .evmGasUsedExceedsBlockGasLimit cumulativeGas _ blockGasLimit =>
        if blockGasLimit - cumulativeGas < minTransactionGas then pure s
        else dryRunPool info rest s
      | .evmTransactionExecutionError _ => dryRunPool info rest s
      | .evmNotEnoughFundsForL1Fee =>
        dryRunPool info rest { s with l1FeeFailedTxs := s.l1FeeFailedTxs ++ [tx] }
      | .evmTxTypeNotSupported _ => Outcome.panic "got unsupported tx type"
      | .evmTxNotSerializable => Outcome.panic "Fed a non-serializable tx"
      | .evmSystemTransactionPlacedAfterUserTx => Outcome.panic "System tx after user tx"
      | .evmSystemTxParseError =>
        Outcome.panic "Sequencer produced incorrectly formatted system tx"
      | .evmSystemTransactionNotSuccessful => Outcome.panic "System tx failed"
      | .shortHeaderProofNotFound => Outcome.panic "internal error: entered unreachable code"
      | .shortHeaderProofVerificationError =>
        Outcome.panic "internal error: entered unreachable code"

/-- `dry_run_transactions`. -/
def dryRunTransactions (info : L2BlockInfo) (events : List SystemEvent)
    (pool : List (RecoveredTx A))
    (prestate : WorkingSet A H Key L τ) : Outcome String (DryRun A H Key L τ) := do
  let nonce := getNonce env prestate
  let (evm, workingSet) ← beginL2Block env info prestate
  let s ← processSysTxs env info events nonce evm workingSet
  dryRunPool env info pool ⟨s, [], []⟩

/-- The errors that `produce_l2_block_inner` returns. -/
inductive ProduceError where
  | dryRun (message : String)
  | applyTxs (e : ApplyTxError)
  | endBlock (e : L2BlockHookError)
deriving DecidableEq

/-- What is known of the block before it is sealed. -/
structure ProducedBlock (A H Key L τ : Type) where
  txs : List (RecoveredTx A)
  receipts : List (Receipt L)
  evm : EvmModule A L
  workingSet : WorkingSet A H Key L τ

/-- `produce_l2_block_inner`, up to the check of the receipts. `version` is the version of the
storage. -/
def produceL2BlockInner (info : L2BlockInfo) (events : List SystemEvent)
    (pool : List (RecoveredTx A)) (version : Nat) (prestate : WorkingSet A H Key L τ) :
    Outcome ProduceError (ProducedBlock A H Key L τ) := do
  let dry ← (dryRunTransactions env info events pool prestate).mapErr .dryRun
  assert (version = info.l2Height) "Prover storage version is corrupted"
  let (evm, ws) ← beginL2Block env info prestate
  let signedTxs := encodeAndSignEvmTxsIntoSovTxs env ws dry.allTxs
  let (evm, ws) ← (applyL2BlockTxs env info signedTxs evm ws).mapErr .applyTxs
  let (evm, ws) ← (endL2Block env info evm ws).mapErr .endBlock
  let receipts ← extractReceipts ws.evm
  assert (receipts.length = dry.allTxs.length) "Expected receipts"
  pure ⟨dry.allTxs, receipts, evm, ws⟩

end

end Citrea.Spec.Sequencer
