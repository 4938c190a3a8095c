import Citrea.Spec.Evm.Executor
import Citrea.Spec.Storage.Cache

/-!
# `Citrea.Spec.Evm.L2Block`: the program of an L2 block

`crates/citrea-stf/src/{runtime.rs,hooks_impl.rs}`, `crates/evm/src/call.rs`,
`crates/l2-block-rule-enforcer/src/hooks.rs`, and `apply_sov_txs_inner` of
`sov-modules-stf-blueprint/src/stf_blueprint.rs`.

The runtime has three modules: accounts, EVM and rule enforcer. The state of the accounts module,
the head block and the configuration of the EVM, and the data of the rule enforcer stand under
`StateKey.other`. A `ModuleProg` is a program on those keys. The hooks of the EVM that build the
block environment and the head block, and the calls of the other modules, are such programs, and
they are parameters. The calls of the EVM module and the hook of the rule enforcer are modelled.
-/

namespace Citrea.Spec.Evm

open Lib
open Spec.Bitcoin (Bytes32)
open Spec.BatchProof (L2Block StateTransitionError)

/-- A program on the keys that do not belong to accounts and contracts. -/
abbrev ModuleProg (ε α : Type) := StoreProg (fun _ : Bytes => Bytes) Empty Empty ε α

/-- A `ModuleProg` as a part of the program of a block. -/
def ModuleProg.lift {A H ε α : Type} : ModuleProg ε α → Prog A H ε α
  | .pure a => .pure a
  | .fail fault => .fail fault
  | .get k next => .get (StateKey.other k) fun v => ModuleProg.lift (next v)
  | .set k v next => .set (StateKey.other k) v (ModuleProg.lift next)
  | .getHint _ c _ => c.elim
  | .setHint c _ _ => c.elim

/-! ### The rule enforcer -/

/-- `RuleEnforcerData`. -/
structure RuleEnforcerData where
  maxL2BlocksPerL1 : UInt32
  lastDaRootHash : Bytes32
  counter : UInt32
  lastTimestamp : UInt64
deriving DecidableEq

/-- `L2BlockHookError`, the errors of the rule enforcer. -/
inductive L2BlockHookError where
  | tooManyL2BlocksOnDaSlot
  | timestampShouldBeGreater
deriving DecidableEq

/-- `apply_block_count_rule`. -/
def applyBlockCountRule (daRootHash : Bytes32) (data : RuleEnforcerData) :
    Outcome L2BlockHookError RuleEnforcerData :=
  if daRootHash = data.lastDaRootHash then do
    let counter := data.counter + 1
    ensure (counter ≤ data.maxL2BlocksPerL1) .tooManyL2BlocksOnDaSlot
    pure { data with counter := counter }
  else pure { data with counter := 1, lastDaRootHash := daRootHash }

/-- `apply_timestamp_rule`. -/
def applyTimestampRule (timestamp : UInt64) (data : RuleEnforcerData) :
    Outcome L2BlockHookError RuleEnforcerData := do
  ensure (data.lastTimestamp ≤ timestamp) .timestampShouldBeGreater
  pure { data with lastTimestamp := timestamp }

/-! ### The runtime -/

/-- What the hooks know about the block. `R` is the type of state roots and block hashes. -/
structure HookL2BlockInfo (R Tx Key : Type) where
  block : L2Block R Tx
  preStateRoot : R
  currentSpec : SpecId
  sequencerPubKey : Key

/-- `RT::decode_call`. An EVM transaction that does not convert is `none`. -/
inductive RuntimeCall (A : Type) where
  | evm (txs : List (Option (RecoveredTx A)))
  | other (program : ModuleProg L2BlockModuleCallError Unit)

/-- The parts of the runtime that are parameters. `decodeTx` checks the signature of a transaction
and decodes its message. -/
structure RuntimeEnv (A H R Tx Key : Type) where
  executor : ExecutorEnv A H
  beginHook : HookL2BlockInfo R Tx Key → ModuleProg StateTransitionError (BlockEnv A)
  decodeTx : Tx → Outcome StateTransitionError (RuntimeCall A)
  preDispatchTxHook : HookL2BlockInfo R Tx Key → Tx → ModuleProg StateTransitionError Unit
  postDispatchTxHook : HookL2BlockInfo R Tx Key → Tx → ModuleProg StateTransitionError Unit
  cfgKey : Bytes
  ruleDataKey : Bytes
  encodeRuleData : RuleEnforcerData → Bytes
  decodeRuleData : Bytes → Option RuleEnforcerData
  endHook : HookL2BlockInfo R Tx Key → BlockEnv A → List ExecutionResult →
    ModuleProg StateTransitionError Unit

section
variable {A H R Tx Key : Type} [Ord A] [Ord H] [DecidableEq A] [DecidableEq H]
  (env : RuntimeEnv A H R Tx Key)

/-- `hook_handler` of the rule enforcer. -/
def ruleEnforcerHook (timestamp : UInt64) : Prog A H L2BlockHookError Unit := do
  let stored ← StoreProg.read (StateKey.other env.ruleDataKey)
  let bytes ← ofOutcome (expect stored "should be set in genesis")
  let data ← ofOutcome
    (expect (env.decodeRuleData bytes) "Failed to decode value")
  let (_, hash) ← getLastL1HeightAndHashInLightClient env.executor.evm
  let data ← ofOutcome (applyBlockCountRule (U256.toBeBytes hash) data)
  let data ← ofOutcome (applyTimestampRule timestamp data)
  StoreProg.write (StateKey.other env.ruleDataKey) (env.encodeRuleData data)

/-- `execute_call`. The variables of `ExecState` are fields of the EVM module. -/
def executeCall (info : HookL2BlockInfo R Tx Key) (block : BlockEnv A) (s : ExecState)
    (txs : List (Option (RecoveredTx A))) : Prog A H L2BlockModuleCallError ExecState := do
  let txs ← ofOutcome <| match txs.mapM id with
    | some txs => pure txs
    | none => err .evmTxNotSerializable
  let cfg ← StoreProg.read (StateKey.other env.cfgKey)
  let _ ← ofOutcome (expect cfg "Evm config must be set")
  executeMultipleTx env.executor block info.block.header.inner.l1FeeRate.toNat
    info.block.height.toNat s txs

/-- `dispatch_call`. -/
def dispatchCall (info : HookL2BlockInfo R Tx Key) (block : BlockEnv A) (s : ExecState) :
    RuntimeCall A → Prog A H L2BlockModuleCallError ExecState
  | .evm txs => executeCall env info block s txs
  | .other program => do
    program.lift
    pure s

/-- `apply_sov_tx_inner`. -/
def applySovTx (info : HookL2BlockInfo R Tx Key) (block : BlockEnv A) (s : ExecState) (tx : Tx) :
    Prog A H StateTransitionError ExecState := do
  let call ← ofOutcome (env.decodeTx tx)
  (env.preDispatchTxHook info tx).lift
  let s ← (dispatchCall env info block s call).mapError fun _ => .execution "ModuleCallError"
  (env.postDispatchTxHook info tx).lift
  pure s

/-- `apply_sov_txs_inner`. -/
def applySovTxs (info : HookL2BlockInfo R Tx Key) (block : BlockEnv A) (s : ExecState) :
    List Tx → Prog A H StateTransitionError ExecState
  | [] => pure s
  | tx :: rest => do
    let s ← applySovTx env info block s tx
    applySovTxs info block s rest

/-- The program of a block: the begin hook, the transactions, and the end hooks. The begin hook
clears the list of pending transactions. -/
def l2BlockProgram (provider : ShortHeaderProofProvider) (info : HookL2BlockInfo R Tx Key) :
    Prog A H StateTransitionError ShortHeaderProofProvider := do
  let block ← (env.beginHook info).lift
  let s ← applySovTxs env info block ⟨provider, false, 0, []⟩ info.block.txs
  (ruleEnforcerHook env info.block.header.inner.timestamp).mapError fun _ => .execution "HookError"
  (env.endHook info block s.txResults).lift
  pure s.provider

/-- The runtime of the rollup. The process keeps the provider of short header proofs in memory. -/
def citreaRuntime (codec : Storage.Codec (StateKey.Value (A := A) (H := H)))
    (codeCodec : Storage.Codec fun _ : H => Bytecode) (provider : ShortHeaderProofProvider) :
    Storage.Runtime (StateKey.Value (A := A) (H := H)) H Bytecode R Tx Key
      ShortHeaderProofProvider where
  codec := codec
  offchainCodec := codeCodec
  start := provider
  block := fun provider currentSpec sequencerPubKey preStateRoot block =>
    l2BlockProgram env provider ⟨block, preStateRoot, currentSpec, sequencerPubKey⟩

end

/-! ### The batch proof circuit

`crates/citrea-stf/src/verifier.rs`: `run_sequencer_commitments_in_da_slot`, the function that the
guest of the batch proof runs, and `get_last_l1_hash_on_contract`.

The provider of short header proofs is a global variable of the guest. In the model it goes from
block to block in the memory of the logs, and the logs at the end hold the last one.
-/

open Spec.BatchProof (ApplySequencerCommitmentsOutput BatchProofCircuitOutput CircuitInput StfEnv)
open Spec.BatchProof (applyL2BlocksFromSequencerCommitments)
open Spec.Storage (Codec GuestLog Jmt ReadWriteLog StorageOps Witness withRuntime zkStorage)

/-- `take_last_queried_hash`. The provider of a node does not implement it. -/
def ShortHeaderProofProvider.takeLastQueriedHash :
    ShortHeaderProofProvider → Outcome Empty (Option Bytes32)
  | zk _ last => pure last
  | native _ _ _ => Outcome.panic
      ("not implemented: take_last_queried_hash is not implemented for " ++
        "NativeShortHeaderProofProviderService")

section
variable {A H R : Type} (env : EvmEnv A H)
  (codec : Codec (StateKey.Value (A := A) (H := H))) (storage : StorageOps R)

/-- A slot of the light client contract: from the cache, or proved against the final root. -/
def readContractSlot (stateLog : ReadWriteLog) (slot : H) (witness : Witness) (finalStateRoot : R)
    (noneInCache noneInStorage : String) : Outcome Empty (U256 × Witness) :=
  let key : StateKey A H := .storage (getStorageAddress env env.bitcoinLightClient slot)
  match stateLog.getValue (codec.keyBytes key) with
  | some cacheValue => do
    let bytes ← expect cacheValue noneInCache
    let value ← expect (codec.decode key bytes) "Failed to decode value"
    pure (value, witness)
  | none => do
    let (proved, witness) ← storage.getAndProve (codec.keyBytes key) witness finalStateRoot
    let bytes ← expect proved noneInStorage
    let value ← expect (codec.decode key bytes) "Failed to decode value"
    pure (value, witness)

/-- `get_last_l1_hash_on_contract`. The subtraction wraps. -/
def getLastL1HashOnContract (stateLog : ReadWriteLog) (witness : Witness) (finalStateRoot : R) :
    Outcome Empty (Bytes32 × Witness) := do
  let (nextL1Height, witness) ← readContractSlot env codec storage stateLog (env.slot 0) witness
    finalStateRoot "Next L1 height can't be None in cache" "Next L1 height should exist in storage"
  let (lastL1Hash, witness) ← readContractSlot env codec storage stateLog
    (env.mappingSlot (nextL1Height - 1) 1) witness finalStateRoot
    "L1 hash can't be None in cache" "Last L1 hash should exist in storage"
  pure (U256.toBeBytes lastL1Hash, witness)

end

/-- `BatchProofCircuitInputV3`, with the arguments of the guest and what the host sends. -/
structure BatchProofInput (R Tx : Type) where
  circuit : CircuitInput R Tx Witness
  shortHeaderProofs : List Bytes
  lastL1HashWitness : Witness

section
variable {A H R Tx Key Proof UpdateProof : Type} [Ord A] [Ord H] [DecidableEq A] [DecidableEq H]
  [DecidableEq R] (base : StfEnv R Tx Witness (GuestLog ShortHeaderProofProvider) Key)
  (jmt : Jmt R Proof UpdateProof) (env : RuntimeEnv A H R Tx Key)
  (codec : Codec (StateKey.Value (A := A) (H := H))) (codeCodec : Codec fun _ : H => Bytecode)
  (ofBytes : Bytes32 → R)

/-- The environment of the circuit with the given short header proofs. -/
abbrev batchEnv (shortHeaderProofs : List Bytes) :
    StfEnv R Tx Witness (GuestLog ShortHeaderProofProvider) Key :=
  withRuntime base jmt (citreaRuntime env codec codeCodec (.zk shortHeaderProofs none))

/-- The last L1 hash: from the provider, or else from the contract. -/
def lastL1Hash (out : ApplySequencerCommitmentsOutput R (GuestLog ShortHeaderProofProvider))
    (lastL1HashWitness : Witness) : Outcome Empty Bytes32 := do
  let lastQueriedHash ← out.cumulativeStateLog.memory.takeLastQueriedHash
  match lastQueriedHash with
  | some hash => pure hash
  | none =>
    let finalStateRoot ← expect out.stateRoots.getLast?
      "called `Option::unwrap()` on a `None` value"
    let (hash, _) ← getLastL1HashOnContract env.executor.evm codec (zkStorage jmt)
      out.cumulativeStateLog.log lastL1HashWitness finalStateRoot
    pure hash

/-- `run_sequencer_commitments_in_da_slot`. `ofBytes` is the type conversion from an L1 hash to the
type of state roots. Both are 32 bytes. -/
def runSequencerCommitmentsInDaSlot (input : BatchProofInput R Tx) :
    Outcome Empty (BatchProofCircuitOutput R) := do
  let out ← applyL2BlocksFromSequencerCommitments
    (batchEnv base jmt env codec codeCodec input.shortHeaderProofs) input.circuit
  let hash ← lastL1Hash jmt env codec out input.lastL1HashWitness
  pure (out.toCircuitOutput (ofBytes hash))

end

end Citrea.Spec.Evm
