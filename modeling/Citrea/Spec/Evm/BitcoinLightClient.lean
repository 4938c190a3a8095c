import Citrea.Spec.Evm.Executor

/-!
# `Citrea.Spec.Evm.BitcoinLightClient`: the system contract for L1 blocks

`crates/evm/src/evm/system_contracts/src/BitcoinLightClient.sol`.

The contract keeps the number of the next L1 block in slot 0. The mappings in the slots 1, 2 and 3
give the hash of a block number, and the witness root and the coinbase depth of a hash. Two
functions write, and only the system caller may call them: `initializeBlockNumber` and
`setBlockInfo`.

A call is a run of the interpreter (`Interp`). Each access costs gas that depends on what was loaded
so far, and a run that is out of gas fails. `GasMeter` holds these decisions.
-/

namespace Citrea.Spec.Evm.BitcoinLightClient

open Lib
open Spec.Bitcoin (Bytes32)

/-- Whether the gas is enough to go on after the given slots were loaded, and what is left of it at
the end of the run. -/
structure GasMeter (limit : Nat) where
  enough : List U256 → Bool
  unused : List U256 → Nat
  unused_le : ∀ seen, unused seen ≤ limit

section
variable {A H : Type} (env : EvmEnv A H)

/-- `blockNumber`. -/
def blockNumberSlot : H := env.slot 0

/-- `blockHashes[n]`. -/
def blockHashSlot (n : U256) : H := env.mappingSlot n 1

/-- `witnessRoots[hash]`. -/
def witnessRootSlot (hash : U256) : H := env.mappingSlot hash 2

/-- `coinbaseDepths[hash]`. -/
def coinbaseDepthSlot (hash : U256) : H := env.mappingSlot hash 3

variable {limit : Nat} (gas : GasMeter limit)

/-- The end of a run that reverts. -/
def revert (seen : List U256) : Interp A H limit := .done false (gas.unused seen)
    (gas.unused_le seen)

/-- Loads a slot of the contract, and goes on if there is enough gas. -/
def load (seen : List U256) (key : H) (next : U256 → Interp A H limit) : Interp A H limit :=
  .sload env.bitcoinLightClient key fun value =>
    if gas.enough (seen ++ [value]) then next value else .done false 0 (by omega)

/-- `setBlockInfo`, after `onlySystem`. The addition is checked. -/
def setBlockInfo (call : SetBlockInfoCall) : Interp A H limit :=
  let blockHash := U256.ofBeBytes call.blockHash
  load env gas [] (blockNumberSlot env) fun blockNumber =>
    if blockNumber = 0 then revert gas [blockNumber]
    else load env gas [blockNumber] (blockHashSlot env blockNumber) fun oldHash =>
      if blockNumber = BitVec.allOnes 256 then revert gas [blockNumber, oldHash]
      else load env gas [blockNumber, oldHash] (witnessRootSlot env blockHash) fun oldRoot =>
        load env gas [blockNumber, oldHash, oldRoot] (coinbaseDepthSlot env blockHash)
          fun oldDepth =>
          let seen := [blockNumber, oldHash, oldRoot, oldDepth]
          .touch env.bitcoinLightClient <|
          .sstore env.bitcoinLightClient (blockHashSlot env blockNumber) blockHash <|
          .sstore env.bitcoinLightClient (blockNumberSlot env) (blockNumber + 1) <|
          .sstore env.bitcoinLightClient (witnessRootSlot env blockHash)
            (U256.ofBeBytes call.witnessRoot) <|
          .sstore env.bitcoinLightClient (coinbaseDepthSlot env blockHash) call.coinbaseDepth <|
          .done true (gas.unused seen) (gas.unused_le seen)

/-- `initializeBlockNumber`, after `onlySystem`. -/
def initializeBlockNumber (number : U256) : Interp A H limit :=
  load env gas [] (blockNumberSlot env) fun blockNumber =>
    if blockNumber ≠ 0 then revert gas [blockNumber]
    else
      .touch env.bitcoinLightClient <|
      .sstore env.bitcoinLightClient (blockNumberSlot env) number <|
      .done true (gas.unused [blockNumber]) (gas.unused_le [blockNumber])

end

section
variable {A H : Type} [DecidableEq A] (env : ExecutorEnv A H)

/-- A transaction of the system caller to the contract. No function is payable. `other` is the run
for another selector: a getter, or a revert. -/
def call (tx : TxEnv A) (gas : GasMeter tx.gasLimit) (other : Interp A H tx.gasLimit) :
    Interp A H tx.gasLimit :=
  .loadCode env.evm.bitcoinLightClient fun _ =>
    if tx.value ≠ 0 then revert gas []
    else if tx.data.take 4 = env.setBlockInfoSelector then
      match decodeSetBlockInfo tx.data with
      | some call => setBlockInfo env.evm gas call
      | none => revert gas []
    else if tx.data.take 4 = env.initializeBlockNumberSelector then
      if 36 ≤ tx.data.length then
        initializeBlockNumber env.evm gas (BitVec.ofNat 256 (ofLeBytes (abiWord tx.data 0).reverse))
      else revert gas []
    else other

end

end Citrea.Spec.Evm.BitcoinLightClient
