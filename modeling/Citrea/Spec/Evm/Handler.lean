import Citrea.Spec.Evm.Journal

/-!
# `Citrea.Spec.Evm.Handler`: one transaction

`crates/evm/src/evm/handler.rs`. `CitreaHandler` changes the mainnet handler of revm in four
places. The system signer does not pay. The base fee is not burned, it goes to a vault. Each
other caller pays an L1 fee for the size of the state diff, and that fee goes to a second vault.

The parts of the mainnet handler are modelled as revm documents them. `Revm` holds the two parts
that stay abstract: the checks of a transaction that do not look at the state, and the run of the
interpreter.
-/

namespace Citrea.Spec.Evm

open Lib
open Std (TreeMap TreeSet)

/-! ### Transactions and blocks -/

/-- An EIP-7702 authorization. `authority` is the recovered signer. -/
structure Authorization (A : Type) where
  chainId : Nat
  address : A
  nonce : Nat
  authority : Option A
deriving DecidableEq

/-- `TxEnv`. For an EIP-1559 transaction `gasPrice` is the maximal fee. `kind` is the address that
is called, or none for a contract creation. -/
structure TxEnv (A : Type) where
  caller : A
  gasLimit : Nat
  gasPrice : Nat
  gasPriorityFee : Option Nat
  kind : Option A
  value : U256
  data : Bytes
  nonce : Nat
  authorizationList : List (Authorization A)
deriving DecidableEq

/-- `BlockEnv` and the chain id, the fields that are used. -/
structure BlockEnv (A : Type) where
  chainId : Nat
  number : Nat
  beneficiary : A
  timestamp : Nat
  basefee : Nat
  gasLimit : Nat
deriving DecidableEq

/-- `effective_gas_price`. -/
def TxEnv.effectiveGasPrice {A : Type} (tx : TxEnv A) (basefee : Nat) : Nat :=
  match tx.gasPriorityFee with
  | none => tx.gasPrice
  | some priorityFee => min tx.gasPrice (basefee + priorityFee)

/-- `saturating_mul` on `u128`. -/
def saturatingMulU128 (a b : Nat) : Nat := min (a * b) (2 ^ 128 - 1)

/-- The abstract parts of revm. -/
structure Revm (A H : Type) where
  validateEnv : BlockEnv A → TxEnv A → Option String
  interpret : BlockEnv A → (tx : TxEnv A) → Interp A H tx.gasLimit

/-- `ResultAndState`, with the data that the chain context records (`TxInfo`). -/
structure ResultAndState (A H : Type) [Ord A] [Ord H] where
  success : Bool
  gasUsed : Nat
  l1DiffSize : Nat
  l1Fee : U256
  journal : Journal A H

/-! ### Constants of the state diff -/

/-- 4 bytes of prefix and 20 bytes of address. -/
def accountIdxKeySize : Nat := 24
def accountIdxSize : Nat := 8
/-- An account without code has no code hash in the state diff. -/
def dbAccountSizeEoa : Nat := 41
def dbAccountSizeContract : Nat := 73
/-- 4 bytes of prefix and 8 bytes of account index. -/
def dbAccountKeySize : Nat := 12
/-- 4 bytes of prefix and 32 bytes of storage hash. -/
def storageKeySize : Nat := 36
def storageValueSize : Nat := 32
def l1FeeOverhead : Nat := 2
def brotliCompressionPercentage : Nat := 48
def storageDiscountedPercentage : Nat := 66
def accountDiscountedPercentage : Nat := 32

section
variable {A H : Type} [Ord A] [Ord H] [DecidableEq A] [DecidableEq H] (env : EvmEnv A H)

/-! ### Validation -/

/-- `validate_env` of the mainnet handler: the two fee checks, then the rest. -/
def validateEnv (revm : Revm A H) (block : BlockEnv A) (tx : TxEnv A) : Outcome EvmError Unit := do
  ensure (∀ priorityFee ∈ tx.gasPriorityFee, priorityFee ≤ tx.gasPrice)
    (.transaction .priorityFeeGreaterThanMaxFee)
  ensure (block.basefee ≤ tx.effectiveGasPrice block.basefee)
    (.transaction .gasPriceLessThanBasefee)
  match revm.validateEnv block tx with
  | some message => err (.transaction (.other message))
  | none => pure ()

/-- The nonce of the transaction is the nonce of the caller. -/
def checkNonce (tx state : Nat) : Outcome EvmError Unit := do
  ensure (tx ≤ state) (.transaction (.nonceTooHigh tx state))
  ensure (state ≤ tx) (.transaction (.nonceTooLow tx state))

/-- The code of an account that may send transactions: none, or an EIP-7702 delegation. -/
def senderCodeAllowed : Bytecode → Bool
  | .eip7702 _ _ _ => true
  | code => code.originalByteSlice = some []

/-- `max_balance_spending`: the gas and the value, with checked arithmetic. -/
def maxBalanceSpending (tx : TxEnv A) : Outcome EvmError Nat := do
  let gasCost := tx.gasLimit * tx.gasPrice
  ensure (gasCost < 2 ^ 128 ∧ gasCost + tx.value.toNat < 2 ^ 256)
    (.transaction .overflowPaymentInTransaction)
  pure (gasCost + tx.value.toNat)

/-- `validate_tx_against_state`. The balance of the system signer is not checked. -/
def validateTxAgainstState (tx : TxEnv A) (j : Journal A H) : Prog A H EvmError (Journal A H) :=
  if tx.caller = env.systemSigner then do
    let (account, j) ← loadAccount env tx.caller j
    ofOutcome (checkNonce tx.nonce account.info.nonce)
    pure j
  else do
    let (code, j) ← loadCode env tx.caller j
    let (account, j) ← loadAccount env tx.caller j
    ofOutcome (ensure (senderCodeAllowed code = true) (.transaction .rejectCallerWithCode))
    ofOutcome (checkNonce tx.nonce account.info.nonce)
    let spending ← ofOutcome (maxBalanceSpending tx)
    ofOutcome (ensure (spending ≤ account.info.balance.toNat)
      (.transaction (.lackOfFundForMaxFee spending account.info.balance.toNat)))
    pure j

/-! ### Before the execution -/

/-- The nonce after a call. The nonce for a contract creation is bumped by the creation. -/
def bumpedNonce (tx : TxEnv A) (nonce : Nat) : Nat :=
  if tx.kind.isSome then min (nonce + 1) (2 ^ 64 - 1) else nonce

/-- `deduct_caller`. -/
def deductCaller (block : BlockEnv A) (tx : TxEnv A) (j : Journal A H) :
    Prog A H EvmError (Journal A H) := do
  let (account, j) ← loadAccount env tx.caller j
  let info := { account.info with nonce := bumpedNonce tx account.info.nonce }
  if tx.caller = env.systemSigner then
    -- the system caller does not spend gas
    pure (j.set tx.caller { account with info := info, touched := true })
  else
    let gasCost := saturatingMulU128 tx.gasLimit (tx.effectiveGasPrice block.basefee)
    let balance := U256.saturatingSub account.info.balance (BitVec.ofNat 256 gasCost)
    pure (j.set tx.caller ({ account with info := info }.withBalance balance))

/-- The code of a delegation and its hash. A delegation to the zero address removes the code. -/
def delegation (address : A) : H × Bytecode :=
  if address = env.zeroAddress then (env.keccakEmpty, Bytecode.newLegacy env [])
  else (env.keccak256 ([0xef, 0x01, 0x00] ++ env.addressBytes address),
    Bytecode.newEip7702 env address)

/-- An account after its authorization was accepted. -/
def Account.delegated (account : Account H) (target : H × Bytecode) : Account H :=
  { account with
    info := { account.info with
      codeHash := target.1, code := some target.2, nonce := account.info.nonce + 1 }
    touched := true }

/-- One entry of `apply_eip7702_auth_list`. An entry that fails a check is skipped. -/
def applyAuthorization (chainId : Nat) (j : Journal A H) (auth : Authorization A) :
    Prog A H EvmError (Journal A H) :=
  if (auth.chainId ≠ 0 ∧ auth.chainId ≠ chainId) ∨ auth.nonce = 2 ^ 64 - 1 then pure j
  else
    match auth.authority with
    | none => pure j
    | some authority => do
      let (code, j) ← loadCode env authority j
      let (account, j) ← loadAccount env authority j
      if senderCodeAllowed code = false ∨ account.info.nonce ≠ auth.nonce then pure j
      else pure (j.set authority (account.delegated (delegation env auth.address)))

/-- `apply_eip7702_auth_list`. -/
def applyAuthList (chainId : Nat) : List (Authorization A) → Journal A H →
    Prog A H EvmError (Journal A H)
  | [], j => pure j
  | auth :: rest, j => do
    let j ← applyAuthorization env chainId j auth
    applyAuthList chainId rest j

/-! ### After the execution -/

/-- `change_balance` with `positive = true`. -/
def increaseBalance (amount : U256) (address : A) (j : Journal A H) :
    Prog A H EvmError (Journal A H) := do
  let (account, j) ← loadAccount env address j
  pure (j.set address (account.withBalance (U256.saturatingAdd account.info.balance amount)))

/-- `change_balance` with `positive = false`. It returns none when the balance is too small. -/
def decreaseBalance (amount : U256) (address : A) (j : Journal A H) :
    Prog A H EvmError (Option (Journal A H)) := do
  let (account, j) ← loadAccount env address j
  match U256.checkedSub account.info.balance amount with
  | none => pure none
  | some balance => pure (some (j.set address (account.withBalance balance)))

/-- `reimburse_caller`. -/
def reimburseCaller (block : BlockEnv A) (tx : TxEnv A) (unused : Nat) (j : Journal A H) :
    Prog A H EvmError (Journal A H) :=
  if tx.caller = env.systemSigner then pure j
  else do
    let (account, j) ← loadAccount env tx.caller j
    let refund := saturatingMulU128 (tx.effectiveGasPrice block.basefee) unused
    let balance := U256.saturatingAdd account.info.balance (BitVec.ofNat 256 refund)
    pure (j.set tx.caller { account with info := { account.info with balance := balance } })

/-- `reward_beneficiary`. The London fork is enabled in each spec that the chain uses. -/
def rewardBeneficiary (block : BlockEnv A) (tx : TxEnv A) (gasUsed : Nat) (j : Journal A H) :
    Prog A H EvmError (Journal A H) :=
  if tx.caller = env.systemSigner then pure j
  else do
    let baseFee : U256 := BitVec.ofNat 256 block.basefee * BitVec.ofNat 256 gasUsed
    let j ← increaseBalance env baseFee env.baseFeeVault j
    -- the mainnet handler gives the rest of the gas price to the coinbase
    let coinbaseGasPrice := tx.effectiveGasPrice block.basefee - block.basefee
    let reward := coinbaseGasPrice * gasUsed % 2 ^ 128
    increaseBalance env (BitVec.ofNat 256 reward) block.beneficiary j

/-! ### The size of the state diff -/

/-- `AccountChange`. -/
structure AccountChange (H : Type) [Ord H] where
  storageChanges : TreeSet H
  accountInfoChanged : Bool

/-- `AccountChange::default()`. -/
def AccountChange.default : AccountChange H := ⟨∅, false⟩

/-- `account_changes.entry(address).or_default().account_info_changed = true`. -/
def markInfo (changes : TreeMap A (AccountChange H)) (a : A) : TreeMap A (AccountChange H) :=
  changes.insert a { changes[a]?.getD .default with accountInfoChanged := true }

/-- `account_changes.entry(address).or_default().storage_changes.insert(key)`. -/
def markSlot (changes : TreeMap A (AccountChange H)) (a : A) (key : H) :
    TreeMap A (AccountChange H) :=
  let change := changes[a]?.getD .default
  changes.insert a { change with storageChanges := change.storageChanges.insert key }

/-- An authorization changed its authority if the authority now has the delegated code. -/
def markAuthorization (state : TreeMap A (Account H)) (changes : TreeMap A (AccountChange H))
    (auth : Authorization A) : TreeMap A (AccountChange H) :=
  match auth.authority with
  | none => changes
  | some authority =>
    match state[authority]? with
    | none => changes
    | some account =>
      if (auth.address = env.zeroAddress ∧ account.info.codeHash = env.keccakEmpty) ∨
          account.info.code = some (Bytecode.newEip7702 env auth.address)
      then markInfo changes authority
      else changes

/-- What one journal entry changes. -/
def markEntry (changes : TreeMap A (AccountChange H)) :
    JournalEntry A H → TreeMap A (AccountChange H)
  | .nonceChange a => markInfo changes a
  | .balanceTransfer src dst => markInfo (markInfo changes src) dst
  | .storageChanged a key => markSlot changes a key
  | .codeChange a => markInfo changes a
  | .accountCreated a => markInfo changes a
  | .accountDestroyed a target wasDestroyed hadBalance =>
    if wasDestroyed then changes
    else if a ≠ target ∧ hadBalance ≠ 0 then markInfo changes target
    else changes

/-- The size of the account infos that changed, and of the slots that changed. -/
def changedSizes (state : TreeMap A (Account H)) :
    List (A × AccountChange H) → Outcome EvmError (Nat × Nat)
  | [] => pure (0, 0)
  | (a, change) :: rest => do
    let accountSize ←
      if change.accountInfoChanged then do
        let account ← expect state[a]? "no entry found for key"
        let size := if account.info.codeHash = env.keccakEmpty then dbAccountSizeEoa
          else dbAccountSizeContract
        pure (size + dbAccountKeySize)
      else pure 0
    let storageSize := (storageKeySize + storageValueSize) * change.storageChanges.size
    let (accounts, slots) ← changedSizes state rest
    pure (accountSize + accounts, storageSize + slots)

/-- The size of the indices of the addresses that are new in the state. -/
def newAccountSizes : List A → Prog A H EvmError Nat
  | [] => pure 0
  | a :: rest => do
    let known ← accountExists a
    let size ← newAccountSizes rest
    pure (if known then size else accountIdxKeySize + accountIdxSize + size)

/-- `calc_diff_size`. -/
def calcDiffSize (tx : TxEnv A) (j : Journal A H) : Prog A H EvmError Nat := do
  let changes := markInfo ∅ tx.caller
  let changes := tx.authorizationList.foldl (markAuthorization env j.state) changes
  let changes := j.entries.foldl markEntry changes
  let (accountBasedDiff, storageBasedDiff) ←
    ofOutcome (changedSizes env j.state changes.toList)
  let newAccountBasedDiff ← newAccountSizes changes.keys
  pure (accountBasedDiff * accountDiscountedPercentage / 100 +
    storageBasedDiff * storageDiscountedPercentage / 100 + newAccountBasedDiff)

/-- `output`: the L1 fee goes from the caller to its vault. -/
def output (l1FeeRate : Nat) (tx : TxEnv A) (success : Bool) (gasUsed : Nat) (j : Journal A H) :
    Prog A H EvmError (ResultAndState A H) := do
  let uncompressedSize ← calcDiffSize env tx j
  let diffSize := uncompressedSize * brotliCompressionPercentage / 100 + l1FeeOverhead
  let l1Fee : U256 := BitVec.ofNat 256 l1FeeRate * BitVec.ofNat 256 diffSize
  if tx.caller = env.systemSigner then
    pure ⟨success, gasUsed, diffSize, l1Fee, j⟩
  else
    match ← decreaseBalance env l1Fee tx.caller j with
    | none =>
      ofOutcome
        (err (.custom ("Not enough funds for L1 fee: " ++ toString l1Fee.toNat)))
    | some j =>
      let j ← increaseBalance env l1Fee env.l1FeeVault j
      pure ⟨success, gasUsed, diffSize, l1Fee, j⟩

/-! ### The transaction -/

/-- The part of a transaction up to the first frame. -/
def preExecution (revm : Revm A H) (block : BlockEnv A) (tx : TxEnv A) :
    Prog A H EvmError (Journal A H) := do
  ofOutcome (validateEnv revm block tx)
  let j ← validateTxAgainstState env tx .empty
  let j ← deductCaller env block tx j
  applyAuthList env block.chainId tx.authorizationList j

/-- The part of a transaction after the last frame. -/
def postExecution (block : BlockEnv A) (l1FeeRate : Nat) (tx : TxEnv A)
    (result : FrameResult tx.gasLimit) (j : Journal A H) :
    Prog A H EvmError (ResultAndState A H) := do
  let gasUsed := tx.gasLimit - result.unused
  let j ← reimburseCaller env block tx result.unused j
  let j ← rewardBeneficiary env block tx gasUsed j
  output env l1FeeRate tx result.success gasUsed j

/-- `transact`: runs a transaction and returns its result and the changed accounts, which are not
written to the state yet. -/
def transact (revm : Revm A H) (block : BlockEnv A) (l1FeeRate : Nat) (tx : TxEnv A) :
    Prog A H EvmError (ResultAndState A H) := do
  let j ← preExecution env revm block tx
  let (result, j) ← (revm.interpret block tx).execute env j
  postExecution env block l1FeeRate tx result j

end

end Citrea.Spec.Evm
