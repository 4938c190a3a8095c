import Citrea.Lib.StoreProg
import Citrea.Spec.Bitcoin.Transaction
import Mathlib.Tactic.Linarith

/-!
# `Citrea.Spec.Evm.Journal`: the EVM state in the state tree

`crates/evm/src/provider_functions.rs`, `crates/evm/src/evm/{db.rs,conversions.rs}`.

The accounts of the EVM stand in the state tree under indices, and a second map gives the index
of an address. A storage slot stands under the SHA-256 hash of its account and its number.
`StateKey` is the key of one state value. The rest of the tree (the head block, the block hashes,
the values of other modules) stands under `StateKey.other`. Contract code is not in the tree. It
is in the offchain state, under its Keccak hash.

An address is a value of a type `A`. Code hashes, slot numbers and storage addresses are 32-byte
words that come from a hash function. They are values of a type `H`.
-/

namespace Citrea.Spec.Evm

open Lib
open Spec.Bitcoin (Bytes32)

/-! ### 256-bit words -/

/-- `U256`. -/
abbrev U256 := BitVec 256

namespace U256

def saturatingAdd (a b : U256) : U256 := BitVec.ofNat 256 (min (a.toNat + b.toNat) (2 ^ 256 - 1))

def checkedAdd (a b : U256) : Option U256 :=
  if a.toNat + b.toNat < 2 ^ 256 then some (a + b) else none

def checkedSub (a b : U256) : Option U256 := if b.toNat ≤ a.toNat then some (a - b) else none

def saturatingSub (a b : U256) : U256 := BitVec.ofNat 256 (a.toNat - b.toNat)

/-- `U256::from_be_bytes`. -/
def ofBeBytes (b : Bytes32) : U256 := BitVec.ofNat 256 (ofLeBytes b.data.reverse)

/-- `to_be_bytes::<32>()`. -/
def toBeBytes (w : U256) : Bytes32 := ⟨(leBytes 32 w.toNat).reverse, by simp⟩

end U256

/-! ### Contract code -/

/-- `revm::state::Bytecode`. The legacy variant holds the code with its padding, the length before
the padding, and the jump table. -/
inductive Bytecode where
  | legacyAnalyzed (bytecode : Bytes) (originalLen : Nat) (jumpTable : List Bool)
  | eof (raw : Bytes)
  | eip7702 (delegatedAddress : Bytes) (version : UInt8) (raw : Bytes)
deriving DecidableEq, Repr

/-- `original_byte_slice`. The slice panics when the length is larger than the code. -/
def Bytecode.originalByteSlice : Bytecode → Option Bytes
  | legacyAnalyzed bytecode originalLen _ =>
    if originalLen ≤ bytecode.length then some (bytecode.take originalLen) else none
  | eof raw => some raw
  | eip7702 _ _ raw => some raw

/-- The functions and constants that the EVM module uses. `analyzeLegacy` gives the padded code and
the jump table. `storageHash` is SHA-256 over the account and the slot number. A slot of a contract
is a number, or the Keccak hash of a key and the number of the mapping (`mappingSlot`). -/
structure EvmEnv (A H : Type) where
  keccak256 : Bytes → H
  analyzeLegacy : Bytes → Bytes × List Bool
  addressBytes : A → Bytes
  storageHash : A → H → H
  slot : U256 → H
  mappingSlot : (key base : U256) → H
  blockHashKey : Nat → Bytes
  zeroAddress : A
  systemSigner : A
  baseFeeVault : A
  l1FeeVault : A
  bitcoinLightClient : A

section
variable {A H : Type} (env : EvmEnv A H)

/-- `KECCAK_EMPTY`. -/
def EvmEnv.keccakEmpty : H := env.keccak256 []

/-- `Bytecode::new_legacy`. -/
def Bytecode.newLegacy (code : Bytes) : Bytecode :=
  .legacyAnalyzed (env.analyzeLegacy code).1 code.length (env.analyzeLegacy code).2

/-- `Bytecode::new_eip7702`: the code `0xef0100` followed by the address. -/
def Bytecode.newEip7702 (a : A) : Bytecode :=
  .eip7702 (env.addressBytes a) 0 ([0xef, 0x01, 0x00] ++ env.addressBytes a)

end

/-! ### State values -/

/-- `AccountInfo` of the EVM module. An account without code has no code hash. -/
structure AccountInfo (H : Type) where
  balance : U256
  codeHash : Option H
  nonce : Nat
deriving DecidableEq

/-- `AccountInfo::default()`. -/
def AccountInfo.default {H : Type} : AccountInfo H := ⟨0, none, 0⟩

/-- The key of a state value. -/
inductive StateKey (A H : Type) where
  | accountIdx (a : A)
  | accountAmount
  | account (idx : Nat)
  | storage (kaddr : H)
  | other (key : Bytes)
deriving DecidableEq

/-- The type of the value at a key. -/
abbrev StateKey.Value {A H : Type} : StateKey A H → Type
  | .accountIdx _ => Nat
  | .accountAmount => Nat
  | .account _ => AccountInfo H
  | .storage _ => U256
  | .other _ => Bytes

/-- A program of the EVM module. Its hints are contract code. -/
abbrev Prog (A H ε α : Type) := StoreProg (StateKey.Value (A := A) (H := H)) H Bytecode ε α

/-- The contents of the state tree. -/
abbrev StateStore (A H : Type) := (k : StateKey A H) → Option k.Value

section
variable {A H ε : Type} (env : EvmEnv A H)

/-- `account_exists`. -/
def accountExists (address : A) : Prog A H ε Bool := do
  let idx ← StoreProg.read (StateKey.accountIdx address)
  pure idx.isSome

/-- `account_info`. -/
def accountInfo (address : A) : Prog A H ε (Option (AccountInfo H)) := do
  match ← StoreProg.read (StateKey.accountIdx address) with
  | none => pure none
  | some idx => StoreProg.read (StateKey.account idx)

/-- `account_set`: an address without an index gets the next one. -/
def accountSet (address : A) (info : AccountInfo H) : Prog A H ε Unit := do
  match ← StoreProg.read (StateKey.accountIdx address) with
  | some idx => StoreProg.write (StateKey.account idx) info
  | none =>
    let amount ← StoreProg.read StateKey.accountAmount
    let currIdx := amount.getD 0
    StoreProg.write (StateKey.accountIdx address) currIdx
    StoreProg.write StateKey.accountAmount (currIdx + 1)
    StoreProg.write (StateKey.account currIdx) info

/-- `get_storage_address`. -/
def getStorageAddress (account : A) (key : H) : H := env.storageHash account key

/-- `storage_get`. -/
def storageGet (account : A) (key : H) : Prog A H ε (Option U256) :=
  StoreProg.read (StateKey.storage (getStorageAddress env account key))

/-- `storage_set`. -/
def storageSet (account : A) (key : H) (value : U256) : Prog A H ε Unit :=
  StoreProg.write (StateKey.storage (getStorageAddress env account key)) value

/-- `blockhash_get`. -/
def blockhashGet (number : Nat) : Prog A H ε (Option Bytes) :=
  StoreProg.read (StateKey.other (env.blockHashKey (number % 256)))

end

/-! ### The database of revm -/

/-- `DBError`. -/
inductive DBError where
  | codeHashMismatch
  | unknownCodeHash
deriving DecidableEq, Repr

/-- `AccountInfo` of revm. -/
structure RevmAccountInfo (H : Type) where
  balance : U256
  nonce : Nat
  codeHash : H
  code : Option Bytecode
deriving DecidableEq

section
variable {A H : Type} [DecidableEq H] (env : EvmEnv A H)

/-- `RevmAccountInfo::default()`, for an account that does not exist. -/
def RevmAccountInfo.default : RevmAccountInfo H := ⟨0, 0, env.keccakEmpty, none⟩

/-- `impl From<AccountInfo> for ReVmAccountInfo`. -/
def AccountInfo.toRevm (info : AccountInfo H) : RevmAccountInfo H where
  balance := info.balance
  nonce := info.nonce
  codeHash := info.codeHash.getD env.keccakEmpty
  code := none

/-- `impl From<ReVmAccountInfo> for AccountInfo`. -/
def RevmAccountInfo.toDb (info : RevmAccountInfo H) : AccountInfo H where
  balance := info.balance
  codeHash := if info.codeHash ≠ env.keccakEmpty then some info.codeHash else none
  nonce := info.nonce

/-- `EvmDb::basic`. -/
def basic {ε : Type} (address : A) : Prog A H ε (Option (RevmAccountInfo H)) := do
  let info ← accountInfo address
  pure (info.map (·.toRevm env))

/-- What `code_by_hash` makes of a value and the flag of the cache. A value that was not in the
cache must have the hash. A value from the cache is not checked. -/
def codeOfHint (codeHash : H) : Option Bytecode × Bool → Outcome DBError Bytecode
  | (none, _) => err .unknownCodeHash
  | (some code, true) => pure code
  | (some code, false) => do
    let original ← expect code.originalByteSlice "range end index out of range for slice"
    ensure (codeHash = env.keccak256 original) .codeHashMismatch
    pure code

/-- `EvmDb::code_by_hash`. -/
def codeByHash (codeHash : H) : Prog A H DBError Bytecode := do
  let hint ← StoreProg.readHint codeHash
  ofOutcome (codeOfHint env codeHash hint)

/-- `EvmDb::storage`. -/
def storage {ε : Type} (address : A) (index : H) : Prog A H ε U256 := do
  let value ← storageGet env address index
  pure (value.getD 0)

/-- `EvmDb::block_hash`. -/
def blockHash {ε : Type} (number : Nat) : Prog A H ε Bytes := do
  let hash ← blockhashGet env number
  ofOutcome
    (expect hash "Block hash does not exist for range checked by revm")

end

/-! ### The accounts of one transaction in revm

revm keeps the accounts that a transaction has loaded, with their status flags, and a journal of
its changes. The functions here are the operations on them as revm documents them. At the end of
a transaction the accounts go to `EvmDb::commit`.

`Interp` is a run of the interpreter, seen from the accounts: the values that it loads and the
changes that it makes. Frames that revert leave their loads behind and no change, so a run lists
the changes of the other frames only. What the interpreter does next may depend on all that it
has loaded.
-/

open Std (TreeMap)

/-- `InvalidTransaction`, the checks that are modelled one by one. -/
inductive InvalidTransaction where
  | nonceTooHigh (tx state : Nat)
  | nonceTooLow (tx state : Nat)
  | rejectCallerWithCode
  | priorityFeeGreaterThanMaxFee
  | gasPriceLessThanBasefee
  | overflowPaymentInTransaction
  | lackOfFundForMaxFee (fee balance : Nat)
  | other (message : String)
deriving DecidableEq, Repr

/-- `EVMError`. -/
inductive EvmError where
  | transaction (e : InvalidTransaction)
  | database (e : DBError)
  | custom (message : String)
deriving DecidableEq, Repr

/-- `JournalEntry`, the entries that `calc_diff_size` looks at. -/
inductive JournalEntry (A H : Type) where
  | nonceChange (address : A)
  | balanceTransfer (src dst : A)
  | storageChanged (address : A) (key : H)
  | codeChange (address : A)
  | accountCreated (address : A)
  | accountDestroyed (address target : A) (wasDestroyed : Bool) (hadBalance : U256)
deriving DecidableEq

section
variable {A H : Type} [Ord A] [Ord H]

/-- `revm::state::Account`: the status flags, and the present values of the loaded slots. -/
structure Account (H : Type) [Ord H] where
  info : RevmAccountInfo H
  storage : TreeMap H U256
  touched : Bool
  created : Bool
  selfdestructed : Bool

/-- An account that was just loaded. -/
def Account.loaded (info : RevmAccountInfo H) : Account H := ⟨info, ∅, false, false, false⟩

/-- A touched account with another balance. -/
def Account.withBalance (account : Account H) (balance : U256) : Account H :=
  { account with info := { account.info with balance := balance }, touched := true }

/-- A new contract. It keeps the balance that its address had. -/
def Account.asCreated (account : Account H) : Account H :=
  { account with
    info := { account.info with code := none, nonce := 1 }
    touched := true
    created := true }

/-- An account that has been destroyed. -/
def Account.destroyed (account : Account H) : Account H :=
  { account with
    info := { account.info with balance := 0 }
    touched := true
    selfdestructed := true }

/-- `JournaledState`. -/
structure Journal (A H : Type) [Ord A] [Ord H] where
  state : TreeMap A (Account H)
  entries : List (JournalEntry A H)

namespace Journal

/-- The journal at the start of a transaction. -/
def empty : Journal A H := ⟨∅, []⟩

/-- Replaces the account at an address. -/
def set (j : Journal A H) (a : A) (account : Account H) : Journal A H :=
  { j with state := j.state.insert a account }

def push (j : Journal A H) (entry : JournalEntry A H) : Journal A H :=
  { j with entries := j.entries ++ [entry] }

/-- Subtracts from one balance and adds to another one, and touches both accounts. -/
def moveBalance (j : Journal A H) (src dst : A) (value : U256) : Option (Journal A H) := do
  let source ← j.state[src]?
  let decreased ← U256.checkedSub source.info.balance value
  let j := j.set src (source.withBalance decreased)
  let target ← j.state[dst]?
  let increased ← U256.checkedAdd target.info.balance value
  pure (j.set dst (target.withBalance increased))

/-- Gives the balance of an account that is destroyed to its target. -/
def payOut [DecidableEq A] (j : Journal A H) (a target : A) (balance : U256) : Journal A H :=
  if a = target then j else (j.moveBalance a target balance).getD j

end Journal

variable [DecidableEq A] [DecidableEq H] (env : EvmEnv A H)

/-! ### Loads -/

/-- `load_account`. -/
def loadAccount (a : A) (j : Journal A H) : Prog A H EvmError (Account H × Journal A H) :=
  match j.state[a]? with
  | some account => pure (account, j)
  | none => do
    let info ← basic env a
    let account := Account.loaded (info.getD (RevmAccountInfo.default env))
    pure (account, j.set a account)

/-- The code for a code hash. The empty code is not in the database. -/
def fetchCode (codeHash : H) : Prog A H EvmError Bytecode :=
  if codeHash = env.keccakEmpty then pure (Bytecode.newLegacy env [])
  else (codeByHash env codeHash).mapError EvmError.database

/-- `load_code`. -/
def loadCode (a : A) (j : Journal A H) : Prog A H EvmError (Bytecode × Journal A H) := do
  let (account, j) ← loadAccount env a j
  match account.info.code with
  | some code => pure (code, j)
  | none =>
    let code ← fetchCode env account.info.codeHash
    pure (code, j.set a { account with info := { account.info with code := some code } })

/-- The value of a slot that is not loaded. A slot of an account that was created in this
transaction is not read from the database. -/
def fetchSlot (a : A) (created : Bool) (key : H) : Prog A H EvmError U256 :=
  if created then pure 0 else storage env a key

/-- `sload`. -/
def sload (a : A) (key : H) (j : Journal A H) : Prog A H EvmError (U256 × Journal A H) := do
  let (account, j) ← loadAccount env a j
  match account.storage[key]? with
  | some value => pure (value, j)
  | none =>
    let value ← fetchSlot env a account.created key
    pure (value, j.set a { account with storage := account.storage.insert key value })

/-! ### Changes -/

/-- `touch`. -/
def touch (a : A) (j : Journal A H) : Prog A H EvmError (Journal A H) := do
  let (account, j) ← loadAccount env a j
  pure (j.set a { account with touched := true })

/-- `transfer`. A transfer that fails makes its frame revert. -/
def transfer (src dst : A) (value : U256) (j : Journal A H) :
    Prog A H EvmError (Bool × Journal A H) :=
  if value = 0 then do
    let j ← touch env dst j
    pure (true, j)
  else do
    let (_, j) ← loadAccount env src j
    let (_, j) ← loadAccount env dst j
    match j.moveBalance src dst value with
    | some moved => pure (true, moved.push (.balanceTransfer src dst))
    | none => pure (false, j)

/-- `create_account_checkpoint`. An address with code or a nonce is a collision. An address with a
balance is not. -/
def createAccount (caller target : A) (value : U256) (j : Journal A H) :
    Prog A H EvmError (Bool × Journal A H) := do
  let (_, j) ← loadAccount env caller j
  let (account, j) ← loadAccount env target j
  if account.info.codeHash ≠ env.keccakEmpty ∨ account.info.nonce ≠ 0 then pure (false, j)
  else
    let created := (j.set target account.asCreated).push (.accountCreated target)
    match created.moveBalance caller target value with
    | some moved => pure (true, moved.push (.balanceTransfer caller target))
    | none => pure (false, j)

/-- `set_code`. Code that starts with `0xEF` is refused (EIP-3541). -/
def setCode (a : A) (code : Bytes) (j : Journal A H) : Prog A H EvmError (Journal A H) := do
  let (account, j) ← loadAccount env a j
  if code.head? = some 0xef then pure j
  else pure ((j.set a { account with
      info := { account.info with
        codeHash := env.keccak256 code, code := some (Bytecode.newLegacy env code) }
      touched := true }).push (.codeChange a))

/-- `inc_nonce`. -/
def incNonce (a : A) (j : Journal A H) : Prog A H EvmError (Journal A H) := do
  let (account, j) ← loadAccount env a j
  if account.info.nonce + 1 < 2 ^ 64 then
    pure ((j.set a { account with
        info := { account.info with nonce := account.info.nonce + 1 }
        touched := true }).push (.nonceChange a))
  else pure (j.set a { account with touched := true })

/-- `sstore`. -/
def sstore (a : A) (key : H) (value : U256) (j : Journal A H) :
    Prog A H EvmError (Journal A H) := do
  let (present, j) ← sload env a key j
  let (account, j) ← loadAccount env a j
  if present = value then pure j
  else pure ((j.set a { account with storage := account.storage.insert key value }).push
    (.storageChanged a key))

/-- `selfdestruct`. The balance goes to the target. An account that was created in this
transaction is marked, and its balance becomes zero also when it is its own target. An older
account stays. The account that executes has been touched by the call that entered it. -/
def selfdestruct (a target : A) (j : Journal A H) : Prog A H EvmError (Journal A H) := do
  let (account, j) ← loadAccount env a j
  let (_, j) ← loadAccount env target j
  let balance := account.info.balance
  let (account, j) ← loadAccount env a (j.payOut a target balance)
  if account.created then
    pure ((j.set a account.destroyed).push
      (.accountDestroyed a target account.selfdestructed balance))
  else if a ≠ target then pure (j.push (.balanceTransfer a target))
  else pure j

/-! ### The interpreter -/

/-- A run of the interpreter with the gas limit `limit`. It ends with a flag for success, and with
the gas that was not used or is refunded. -/
inductive Interp (A H : Type) (limit : Nat) where
  | done (success : Bool) (unused : Nat) (unused_le : unused ≤ limit)
  | loadAccount (a : A) (next : RevmAccountInfo H → Interp A H limit)
  | loadCode (a : A) (next : Bytecode → Interp A H limit)
  | sload (a : A) (key : H) (next : U256 → Interp A H limit)
  | blockHash (number : Nat) (next : Bytes → Interp A H limit)
  | touch (a : A) (next : Interp A H limit)
  | transfer (src dst : A) (value : U256) (next : Bool → Interp A H limit)
  | createAccount (caller target : A) (value : U256) (next : Bool → Interp A H limit)
  | setCode (a : A) (code : Bytes) (next : Interp A H limit)
  | incNonce (a : A) (next : Interp A H limit)
  | sstore (a : A) (key : H) (value : U256) (next : Interp A H limit)
  | selfdestruct (a target : A) (next : Interp A H limit)

/-- The end of a run: whether it was a success, and the unused gas. -/
structure FrameResult (limit : Nat) where
  success : Bool
  unused : Nat
  unused_le : unused ≤ limit

/-- Executes a run of the interpreter on the journal. -/
def Interp.execute {limit : Nat} :
    Interp A H limit → Journal A H → Prog A H EvmError (FrameResult limit × Journal A H)
  | done success unused unused_le, j => pure (⟨success, unused, unused_le⟩, j)
  | loadAccount a next, j => do
    let (account, j) ← Evm.loadAccount env a j
    (next account.info).execute j
  | loadCode a next, j => do
    let (code, j) ← Evm.loadCode env a j
    (next code).execute j
  | sload a key next, j => do
    let (value, j) ← Evm.sload env a key j
    (next value).execute j
  | blockHash number next, j => do
    let hash ← Evm.blockHash env number
    (next hash).execute j
  | touch a next, j => do
    let j ← Evm.touch env a j
    next.execute j
  | transfer src dst value next, j => do
    let (moved, j) ← Evm.transfer env src dst value j
    (next moved).execute j
  | createAccount caller target value next, j => do
    let (created, j) ← Evm.createAccount env caller target value j
    (next created).execute j
  | setCode a code next, j => do
    let j ← Evm.setCode env a code j
    next.execute j
  | incNonce a next, j => do
    let j ← Evm.incNonce env a j
    next.execute j
  | sstore a key value next, j => do
    let j ← Evm.sstore env a key value j
    next.execute j
  | selfdestruct a target next, j => do
    let j ← Evm.selfdestruct env a target j
    next.execute j

end

end Citrea.Spec.Evm
