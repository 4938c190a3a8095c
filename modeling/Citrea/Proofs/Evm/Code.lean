import Citrea.Lib.StoreTrace
import Citrea.Proofs.Evm.Balances
import Citrea.Spec.Evm.L2Block

/-!
# `Citrea.Proofs.Evm.Code`: contract code in the programs of a block

`IsCode h code` says that `code` is what the analysis of some bytes with the hash `h` gives. If each
hint that a program gets is such a code, then each hint that it sets is one too. And `code_by_hash`
fails on a hint from outside whose bytes do not have the hash. These are the rules of `codeRule`,
with the condition `Guarded` of the library, and `guarded_l2BlockProgram` proves them for the
program of a block. The invariant is `CodesOk`: each account in the journal that has code has the
code of its code hash. The code of an account comes from the offchain state, from a deployment, or
from an EIP-7702 delegation.
-/

set_option linter.unusedSectionVars false

namespace Citrea.Proofs.Evm

open Option List Lib
open Lib.StoreProg (Guarded)
open Spec.BatchProof (StateTransitionError)
open Spec.Evm
open Std (TransOrd LawfulEqOrd)

section
variable {A H : Type} (env : EvmEnv A H)

/-- What revm makes of the bytes of a contract: an EIP-7702 delegation for the magic bytes
`0xef0100`, and analysed legacy code otherwise. -/
def analyse (bytes : Bytes) : Bytecode :=
  if bytes.take 3 = [0xef, 0x01, 0x00] then .eip7702 (bytes.drop 3) 0 bytes
  else Bytecode.newLegacy env bytes

/-- The code is the analysis of bytes with the hash `h`. -/
def IsCode (h : H) (code : Bytecode) : Prop :=
  ∃ bytes, env.keccak256 bytes = h ∧ code = analyse env bytes

/-- The bytes of the code have the hash `h`. -/
def HasHash (h : H) (code : Bytecode) : Prop :=
  ∃ bytes, code.originalByteSlice = some bytes ∧ env.keccak256 bytes = h

/-- A good hint is the code of its hash. `code_by_hash` accepts what has the hash. -/
def codeRule : StoreProg.HintRule H Bytecode := ⟨IsCode env, HasHash env⟩

/-- The analysis of legacy code appends zeros to it. -/
def AnalysisPads : Prop := ∀ bytes, bytes <+: (env.analyzeLegacy bytes).1

variable {env}

/-- The bytes of a code are the bytes that it was made from. -/
theorem originalByteSlice_analyse (hpads : AnalysisPads env) (bytes : Bytes) :
    (analyse env bytes).originalByteSlice = some bytes := by
  rw [analyse]
  split
  · rfl
  · obtain ⟨padding, hpadding⟩ := hpads bytes
    have hle : bytes.length ≤ (env.analyzeLegacy bytes).1.length := by
      rw [← hpadding, length_append]
      omega
    show (if bytes.length ≤ _ then some ((env.analyzeLegacy bytes).1.take bytes.length)
      else none) = _
    rw [if_pos hle, ← hpadding, take_left]

/-- A hash has one code. -/
theorem IsCode.unique (hinj : Function.Injective env.keccak256) {h : H} {code code' : Bytecode}
    (hcode : IsCode env h code) (hcode' : IsCode env h code') : code = code' := by
  obtain ⟨bytes, hbytes, rfl⟩ := hcode
  obtain ⟨bytes', hbytes', rfl⟩ := hcode'
  rw [hinj (hbytes.trans hbytes'.symm)]

/-- Code that is deployed does not start with `0xEF`, so it is legacy code. -/
theorem isCode_newLegacy {bytes : Bytes} (h : bytes.head? ≠ some 0xef) :
    IsCode env (env.keccak256 bytes) (Bytecode.newLegacy env bytes) := by
  refine ⟨bytes, rfl, ?_⟩
  rw [analyse, if_neg]
  intro htake
  cases bytes with
  | nil => cases htake
  | cons b rest =>
    rw [take_succ_cons, List.cons.injEq] at htake
    exact h (by rw [List.head?_cons, htake.1])

theorem isCode_empty : IsCode env env.keccakEmpty (Bytecode.newLegacy env []) :=
  isCode_newLegacy (by simp)

theorem isCode_delegation [DecidableEq A] (a : A) :
    IsCode env (delegation env a).1 (delegation env a).2 := by
  rw [delegation]
  split
  · exact isCode_empty
  · exact ⟨_, rfl, rfl⟩

end

/-! ### The accounts of the journal -/

section
variable {A H : Type} [Ord A] [Ord H] [TransOrd A] [LawfulEqOrd A] [DecidableEq A]
  {env : EvmEnv A H} {j : Journal A H}

/-- The code of an account, if it is loaded, is the code of its hash. -/
def InfoOk (env : EvmEnv A H) (info : RevmAccountInfo H) : Prop :=
  ∀ code, info.code = some code → IsCode env info.codeHash code

/-- The accounts of a journal have the code of their hash. -/
def CodesOk (env : EvmEnv A H) (j : Journal A H) : Prop :=
  ∀ (a : A) (account : Account H), j.state[a]? = some account → InfoOk env account.info

theorem infoOk_of_none {info : RevmAccountInfo H} (h : info.code = none) : InfoOk env info := by
  intro code hcode
  rw [h] at hcode
  cases hcode

theorem CodesOk.set (h : CodesOk env j) (a : A) {account : Account H}
    (haccount : InfoOk env account.info) : CodesOk env (j.set a account) := by
  intro b other hb
  rw [getElem?_set] at hb
  split at hb
  · obtain rfl := some.inj hb
    exact haccount
  · exact h b other hb

/-- Another account with the code and the code hash of one that was there. -/
theorem CodesOk.update (h : CodesOk env j) {a : A} {account account' : Account H}
    (ha : j.state[a]? = some account) (hcode : account'.info.code = account.info.code)
    (hhash : account'.info.codeHash = account.info.codeHash) : CodesOk env (j.set a account') := by
  refine h.set a ?_
  rw [InfoOk, hcode, hhash]
  exact h a account ha

theorem CodesOk.push (h : CodesOk env j) (e : JournalEntry A H) : CodesOk env (j.push e) := h

theorem codesOk_empty : CodesOk env (Journal.empty : Journal A H) := by
  intro a account h
  have hnone : (Journal.empty : Journal A H).state[a]? = none := Std.TreeMap.getElem?_emptyc
  rw [hnone] at h
  cases h

/-- A change of balances leaves the code alone. -/
theorem CodesOk.moveBalance {j' : Journal A H} (h : CodesOk env j) {src dst : A} {value : U256}
    (hmove : j.moveBalance src dst value = some j') : CodesOk env j' := by
  simp only [Journal.moveBalance, Option.bind_eq_bind, Option.bind_eq_some_iff, Option.pure_def,
    Option.some.injEq] at hmove
  obtain ⟨source, hsource, decreased, -, target, htarget, increased, -, rfl⟩ := hmove
  have hset : CodesOk env (j.set src (source.withBalance decreased)) := h.update hsource rfl rfl
  exact hset.update htarget rfl rfl

theorem CodesOk.payOut (h : CodesOk env j) (a target : A) (balance : U256) :
    CodesOk env (j.payOut a target balance) := by
  rw [Journal.payOut]
  split
  · exact h
  · cases hmove : j.moveBalance a target balance with
    | none => exact h
    | some moved => exact h.moveBalance hmove

/-! ### Loads -/

variable [DecidableEq H] {j : Journal A H}

theorem guarded_accountInfo {ε : Type} (a : A) :
    Guarded (codeRule env) (fun _ => True) (accountInfo a : Prog A H ε _) := by
  refine Guarded.bind Guarded.read fun idx _ => ?_
  cases idx with
  | none => exact Guarded.pure trivial
  | some idx => exact Guarded.read

/-- The database gives an account without its code. -/
theorem guarded_basic {ε : Type} (a : A) :
    Guarded (codeRule env) (fun info => ∀ i, info = some i → i.code = none)
      (basic env a : Prog A H ε _) := by
  refine Guarded.bind (guarded_accountInfo a) fun info _ => Guarded.pure ?_
  intro i hi
  obtain ⟨dbInfo, -, rfl⟩ := map_eq_some_iff.mp hi
  rfl

/-- An account is loaded without its code, and the others stay as they are. -/
theorem guarded_loadAccount (a : A) (j : Journal A H) :
    Guarded (codeRule env) (fun r => (CodesOk env j → CodesOk env r.2) ∧ r.2.state[a]? = some r.1 ∧
      ∀ (b : A) account, j.state[b]? = some account → r.2.state[b]? = some account)
      (loadAccount env a j) := by
  rw [loadAccount]
  cases ha : j.state[a]? with
  | some account => exact Guarded.pure ⟨id, ha, fun _ _ => id⟩
  | none =>
    refine Guarded.bind (guarded_basic a) fun info hinfo => ?_
    have hcode : (info.getD (RevmAccountInfo.default env)).code = none := by
      cases info with
      | none => rfl
      | some i => exact hinfo i rfl
    refine Guarded.pure ⟨fun h => h.set a (infoOk_of_none hcode), ?_, fun b account hb => ?_⟩
    · rw [getElem?_set, if_pos rfl]
    · rw [getElem?_set, if_neg, hb]
      rintro rfl
      cases ha.symm.trans hb

/-- What `code_by_hash` returns for a value that is not from the cache has the hash. -/
theorem hasHash_of_codeOfHint {h : H} {found : Option Bytecode} {code : Bytecode}
    (hok : codeOfHint env h (found, false) = .ok code) :
    found = some code ∧ HasHash env h code := by
  cases found with
  | none => cases hok
  | some found =>
    simp only [codeOfHint, bind_eq_ok, expect_eq_ok, ensure_eq_ok, pure_eq_ok] at hok
    obtain ⟨bytes, hbytes, -, hhash, rfl⟩ := hok
    exact ⟨rfl, bytes, hbytes, hhash.symm⟩

/-- `code_by_hash` returns a code of the hash, if the hints are codes of their hashes. It refuses a
hint from outside that does not have the hash. -/
theorem guarded_codeByHash (codeHash : H) :
    Guarded (codeRule env) (IsCode env codeHash) (codeByHash (A := A) env codeHash) := by
  refine Guarded.readHint (fun code hno => ?_) fun w cached code hw hok => ?_
  · cases hok : codeOfHint env codeHash (some code, false) with
    | error fault => exact ⟨fault, rfl⟩
    | ok found =>
      obtain ⟨hfound, hhash⟩ := hasHash_of_codeOfHint hok
      exact absurd (some.inj hfound ▸ hhash) hno
  · cases cached with
    | false => exact hw code (hasHash_of_codeOfHint hok).1
    | true =>
      cases w with
      | none => cases hok
      | some found => exact Except.ok.inj hok ▸ hw found rfl

theorem guarded_fetchCode (codeHash : H) :
    Guarded (codeRule env) (IsCode env codeHash) (fetchCode env codeHash) := by
  rw [fetchCode]
  split
  · next heq =>
    rw [heq]
    exact Guarded.pure isCode_empty
  · exact Guarded.mapError (guarded_codeByHash codeHash)

theorem guarded_loadCode (a : A) (j : Journal A H) :
    Guarded (codeRule env) (fun r => CodesOk env j → CodesOk env r.2) (loadCode env a j) := by
  refine Guarded.bind (guarded_loadAccount a j) ?_
  rintro ⟨account, j₁⟩ ⟨hj, -⟩
  dsimp only
  cases hcode : account.info.code with
  | some code => exact Guarded.pure hj
  | none =>
    refine Guarded.bind (guarded_fetchCode _) fun code hfetched => Guarded.pure fun h => ?_
    refine CodesOk.set (hj h) a ?_
    intro code' hcode'
    obtain rfl := some.inj hcode'
    exact hfetched

theorem guarded_storage {ε : Type} (a : A) (key : H) :
    Guarded (codeRule env) (fun _ => True) (storage env a key : Prog A H ε U256) :=
  Guarded.bind Guarded.read fun _ _ => Guarded.pure trivial

theorem guarded_sload (a : A) (key : H) (j : Journal A H) :
    Guarded (codeRule env) (fun r => (CodesOk env j → CodesOk env r.2) ∧
      ∃ account, r.2.state[a]? = some account ∧
        ([TransOrd H] → account.storage[key]? = some r.1)) (sload env a key j) := by
  refine Guarded.bind (guarded_loadAccount a j) ?_
  rintro ⟨account, j₁⟩ ⟨hj, hself, -⟩
  dsimp only
  split
  · next value hvalue => exact Guarded.pure ⟨hj, account, hself, hvalue⟩
  · have hslot : Guarded (codeRule env) (fun _ => True) (fetchSlot env a account.created key) := by
      rw [fetchSlot]
      split
      · exact Guarded.pure trivial
      · exact guarded_storage a key
    refine Guarded.bind hslot fun value _ => Guarded.pure ⟨fun h => ?_, ?_⟩
    · exact (hj h).set a (hj h a account hself)
    · exact ⟨_, by rw [getElem?_set, if_pos rfl], Std.TreeMap.getElem?_insert_self⟩

/-! ### Changes -/

/-- The other edits keep the code of an account, or replace it by that of a delegation. -/
theorem CodesOk.edit {st : StateStore A H} {action : Action A H} {k : Journal A H}
    (hload : action ≠ .load) (hcode : ∀ a, action ≠ .setCode a) (hedit : Edit env st action j k)
    (h : CodesOk env j) : CodesOk env k := by
  cases hedit with
  | load => exact absurd rfl hload
  | loadCode => exact absurd rfl hload
  | loadSlot => exact absurd rfl hload
  | setCode => exact absurd rfl (hcode _)
  | touch ha => exact h.update ha rfl rfl
  | transfer hmove => exact (h.moveBalance hmove).push _
  | @createAccount _ moved _ target _ account _ _ _ hmoved =>
    -- the new contract has no code yet
    have hcreated : CodesOk env (j.set target account.asCreated) := h.set _ (infoOk_of_none rfl)
    have hmoved : CodesOk env moved := (hcreated.push _).moveBalance hmoved
    exact hmoved.push _
  | incNonce ha => exact h.update ha rfl rfl
  | fullNonce ha => exact h.update ha rfl rfl
  | sstore ha => exact h.update ha rfl rfl
  | selfdestruct ha htarget hpaid => exact (h.payOut _ _ _).update hpaid rfl rfl
  | sweep => exact (h.payOut _ _ _).push _
  | charge ha => exact h.update ha rfl rfl
  | delegate ha target =>
    refine h.set _ ?_
    intro code hcode
    obtain rfl := some.inj hcode
    exact isCode_delegation target

theorem guarded_setCode (a : A) (code : Bytes) (j : Journal A H) :
    Guarded (codeRule env) (fun k => CodesOk env j → CodesOk env k) (setCode env a code j) := by
  refine Guarded.bind (guarded_loadAccount a j) ?_
  rintro ⟨account, j₁⟩ ⟨hj, -⟩
  dsimp only
  split
  · exact Guarded.pure hj
  · next hhead =>
    refine Guarded.pure fun h => CodesOk.set (hj h) a ?_
    intro code' hcode'
    obtain rfl := some.inj hcode'
    exact isCode_newLegacy hhead

theorem guarded_blockHash {ε : Type} (number : Nat) :
    Guarded (codeRule env) (fun _ => True) (blockHash env number : Prog A H ε Bytes) :=
  Guarded.bind Guarded.read fun _ _ => Guarded.ofOutcome fun _ _ => trivial

theorem guarded_newAccountSizes (addresses : List A) :
    Guarded (codeRule env) (fun _ => True) (newAccountSizes addresses : Prog A H EvmError Nat) := by
  induction addresses with
  | nil => exact Guarded.pure trivial
  | cons a rest ih =>
    have hexists : Guarded (codeRule env) (fun _ => True)
        (accountExists a : Prog A H EvmError Bool) :=
      Guarded.bind Guarded.read fun _ _ => Guarded.pure trivial
    exact Guarded.bind hexists fun _ _ => Guarded.bind ih fun _ _ => Guarded.pure trivial

theorem guarded_calcDiffSize (tx : TxEnv A) (j : Journal A H) :
    Guarded (codeRule env) (fun _ => True) (calcDiffSize env tx j) := by
  refine Guarded.check ?_
  rintro ⟨accounts, slots⟩
  exact Guarded.bind (guarded_newAccountSizes _) fun _ _ => Guarded.pure trivial

/-! ### The transaction -/

/-- A transaction that relies on the code of each hash. -/
theorem tracks_codes (st : StateStore A H) : Tracks env st (fun _ => True) (Guarded (codeRule env))
    (fun j k => CodesOk env j → CodesOk env k) where
  toJudgement := Guarded.judgement
  refl := fun _ => id
  trans := fun h h' hj => h' (h hj)
  edit := fun _ => CodesOk.edit
  loadAccount := guarded_loadAccount
  loadCode := guarded_loadCode
  sload := guarded_sload
  setCode := fun a code j _ => guarded_setCode a code j
  blockHash := guarded_blockHash
  calcDiffSize := guarded_calcDiffSize

/-- A transaction leaves a journal whose accounts have the code of their hash. -/
theorem guarded_transact (revm : Revm A H) (block : BlockEnv A) (l1FeeRate : Nat) (tx : TxEnv A) :
    Guarded (codeRule env) (fun r => CodesOk env r.journal)
      (transact env revm block l1FeeRate tx) :=
  (tracks_transact (tracks_codes fun _ => none) ⟨fun _ => trivial, fun _ => trivial⟩ revm block
    l1FeeRate tx (allows_of_interpreter (fun _ _ _ => trivial) _)).mono fun _ hr => hr codesOk_empty

/-! ### Commit -/

/-- Code that `commit` writes to the offchain state is the code of its hash. -/
theorem guarded_commitCode {ε : Type} {info : RevmAccountInfo H} (h : InfoOk env info) :
    Guarded (codeRule env) (fun _ => True) (commitCode info : Prog A H ε Unit) := by
  rw [commitCode]
  cases hcode : info.code with
  | none => exact Guarded.pure trivial
  | some code =>
    refine Guarded.check fun original => ?_
    split
    · exact Guarded.pure trivial
    · refine Guarded.bind Guarded.lookupHint fun known _ => ?_
      split
      · exact ⟨h code hcode, trivial⟩
      · exact Guarded.pure trivial

theorem guarded_commitStorage {ε : Type} (a : A) (slots : List (H × U256)) :
    Guarded (codeRule env) (fun _ => True) (commitStorage env a slots : Prog A H ε Unit) := by
  induction slots with
  | nil => exact Guarded.pure trivial
  | cons slot rest ih => exact Guarded.bind Guarded.write fun _ _ => ih

theorem guarded_accountSet {ε : Type} (a : A) (info : AccountInfo H) :
    Guarded (codeRule env) (fun _ => True) (accountSet a info : Prog A H ε Unit) := by
  refine Guarded.bind Guarded.read fun idx _ => ?_
  cases idx with
  | some idx => exact Guarded.write
  | none =>
    refine Guarded.bind Guarded.read fun amount _ => ?_
    refine Guarded.bind Guarded.write fun _ _ => ?_
    exact Guarded.bind Guarded.write fun _ _ => Guarded.write

theorem guarded_commitAccount {ε : Type} (a : A) {account : Account H}
    (h : InfoOk env account.info) :
    Guarded (codeRule env) (fun _ => True) (commitAccount env a account : Prog A H ε Unit) := by
  rw [commitAccount]
  split
  · exact Guarded.pure trivial
  · split
    · exact Guarded.pure trivial
    · refine Guarded.bind (guarded_accountInfo a) fun stored _ => ?_
      refine Guarded.bind (guarded_commitCode h) fun _ _ => ?_
      refine Guarded.bind (guarded_commitStorage a _) fun _ _ => ?_
      split
      · exact guarded_accountSet a _
      · exact Guarded.pure trivial

theorem guarded_commitAccounts {ε : Type} (accounts : List (A × Account H))
    (h : ∀ entry ∈ accounts, InfoOk env entry.2.info) :
    Guarded (codeRule env) (fun _ => True) (commitAccounts env accounts : Prog A H ε Unit) := by
  induction accounts with
  | nil => exact Guarded.pure trivial
  | cons entry rest ih =>
    rw [forall_mem_cons] at h
    exact Guarded.bind (guarded_commitAccount entry.1 h.1) fun _ _ => ih h.2

theorem guarded_commit {ε : Type} (h : CodesOk env j) :
    Guarded (codeRule env) (fun _ => True) (commit env j : Prog A H ε Unit) :=
  guarded_commitAccounts _ fun entry hentry =>
    h entry.1 entry.2 (Std.TreeMap.mem_toList_iff_getElem?_eq_some.mp hentry)

end

/-! ### The transactions of a block -/

section
variable {A H : Type} [Ord A] [Ord H] [TransOrd A] [LawfulEqOrd A] [DecidableEq A] [DecidableEq H]

theorem guarded_verifySystemTx {rule : StoreProg.HintRule H Bytecode} (env : EvmEnv A H)
    (shp : ShortProofEnv) (selector : Bytes) (provider : ShortHeaderProofProvider) (data : Bytes)
    (l2Height : Nat) :
    Guarded rule (fun _ => True) (verifySystemTx env shp selector provider data l2Height) := by
  refine Guarded.check fun _ => ?_
  split
  · refine Guarded.check fun call => ?_
    refine Guarded.check fun _ => ?_
    have hread : Guarded rule (fun _ => True) (getLastL1HeightAndHashInLightClient env :
        Prog A H L2BlockModuleCallError (U256 × U256)) :=
      Guarded.bind Guarded.read fun _ _ => Guarded.bind Guarded.read fun _ _ =>
        Guarded.pure trivial
    refine Guarded.bind hread ?_
    rintro ⟨lastL1Height, prevHash⟩ _
    refine Guarded.check fun _ => ?_
    dsimp only
    split
    · exact Guarded.pure trivial
    all_goals exact Guarded.ofOutcome fun _ _ => trivial
  · exact Guarded.pure trivial

variable (env : ExecutorEnv A H)

theorem guarded_executeTx (block : BlockEnv A) (l1FeeRate l2Height : Nat) (s : ExecState)
    (tx : RecoveredTx A) : Guarded (codeRule env.evm) (fun _ => True)
      (executeTx env block l1FeeRate l2Height s tx) := by
  have hbefore : Guarded (codeRule env.evm) (fun _ => True) (beforeTransact env l2Height s tx) := by
    have hsigner : Guarded (codeRule env.evm) (fun _ => True) (checkSigner env l2Height s tx) := by
      rw [checkSigner]
      split
      · refine Guarded.check fun _ => ?_
        exact Guarded.bind (guarded_verifySystemTx ..) fun _ _ => Guarded.pure trivial
      · exact Guarded.pure trivial
    refine Guarded.bind hsigner fun s _ => ?_
    exact Guarded.check fun _ => Guarded.pure trivial
  refine Guarded.bind hbefore fun s₁ _ => ?_
  refine Guarded.bind (Guarded.mapError (guarded_transact ..)) fun result hresult => ?_
  refine Guarded.check fun _ => ?_
  refine Guarded.check fun _ => ?_
  exact Guarded.bind (guarded_commit hresult) fun _ _ => Guarded.pure trivial

theorem guarded_executeMultipleTx (block : BlockEnv A) (l1FeeRate l2Height : Nat)
    (txs : List (RecoveredTx A)) : ∀ s : ExecState, Guarded (codeRule env.evm) (fun _ => True)
      (executeMultipleTx env block l1FeeRate l2Height s txs) := by
  induction txs with
  | nil => exact fun s => Guarded.pure trivial
  | cons tx rest ih =>
    intro s
    exact Guarded.bind (guarded_executeTx env block l1FeeRate l2Height s tx) fun s₁ _ => ih s₁

/-- The programs of the other modules have no hints. -/
theorem guarded_lift {rule : StoreProg.HintRule H Bytecode} {ε α : Type} (p : ModuleProg ε α) :
    Guarded rule (fun _ => True) (p.lift : Prog A H ε α) := by
  induction p with
  | pure a => trivial
  | fail fault => trivial
  | get k next ih => exact fun v => ih v
  | set k v next ih => exact ih
  | getHint checked c next ih => exact c.elim
  | setHint c w next ih => exact c.elim

variable {R Tx Key : Type} (runtime : RuntimeEnv A H R Tx Key)

theorem guarded_applySovTx (info : HookL2BlockInfo R Tx Key) (block : BlockEnv A) (s : ExecState)
    (tx : Tx) : Guarded (codeRule runtime.executor.evm) (fun _ => True)
      (applySovTx runtime info block s tx) := by
  have hdispatch : ∀ call, Guarded (codeRule runtime.executor.evm) (fun _ => True)
      (dispatchCall runtime info block s call) := by
    intro call
    cases call with
    | evm txs =>
      refine Guarded.check fun txs => ?_
      refine Guarded.bind Guarded.read fun cfg _ => ?_
      refine Guarded.check fun _ => ?_
      exact guarded_executeMultipleTx _ _ _ _ txs s
    | other program =>
      exact Guarded.bind (guarded_lift program) fun _ _ => Guarded.pure trivial
  refine Guarded.check fun call => ?_
  refine Guarded.bind (guarded_lift _) fun _ _ => ?_
  refine Guarded.bind (Guarded.mapError (hdispatch call)) fun s₁ _ => ?_
  exact Guarded.bind (guarded_lift _) fun _ _ => Guarded.pure trivial

theorem guarded_applySovTxs (info : HookL2BlockInfo R Tx Key) (block : BlockEnv A)
    (txs : List Tx) : ∀ s : ExecState, Guarded (codeRule runtime.executor.evm) (fun _ => True)
      (applySovTxs runtime info block s txs) := by
  induction txs with
  | nil => exact fun s => Guarded.pure trivial
  | cons tx rest ih =>
    intro s
    exact Guarded.bind (guarded_applySovTx runtime info block s tx) fun s₁ _ => ih s₁

/-- The program of a block sets only codes of their hashes, if it gets only such codes. -/
theorem guarded_l2BlockProgram (provider : ShortHeaderProofProvider)
    (info : HookL2BlockInfo R Tx Key) : Guarded (codeRule runtime.executor.evm) (fun _ => True)
      (l2BlockProgram runtime provider info) := by
  refine Guarded.bind (guarded_lift _) fun block _ => ?_
  refine Guarded.bind (guarded_applySovTxs runtime info block _ _) fun s _ => ?_
  have hrules : Guarded (codeRule runtime.executor.evm) (fun _ => True)
      (ruleEnforcerHook runtime info.block.header.inner.timestamp) := by
    refine Guarded.bind Guarded.read fun stored _ => ?_
    refine Guarded.check fun bytes => ?_
    refine Guarded.check fun data => ?_
    have hread : Guarded (codeRule runtime.executor.evm) (fun _ => True)
        (getLastL1HeightAndHashInLightClient runtime.executor.evm :
          Prog A H L2BlockHookError (U256 × U256)) :=
      Guarded.bind Guarded.read fun _ _ => Guarded.bind Guarded.read fun _ _ =>
        Guarded.pure trivial
    refine Guarded.bind hread ?_
    rintro ⟨_, hash⟩ _
    refine Guarded.check fun _ => ?_
    exact Guarded.check fun _ => Guarded.write
  refine Guarded.bind (Guarded.mapError hrules) fun _ _ => ?_
  exact Guarded.bind (guarded_lift _) fun _ _ => Guarded.pure trivial

end

end Citrea.Proofs.Evm
