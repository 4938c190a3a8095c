import Citrea.Proofs.Evm.Fees

/-!
# `Citrea.Proofs.Evm.Conservation`: the coins of a list of transactions

`EvmDb::commit` writes the balances of the touched accounts to the state, but it skips an account
that was destroyed. Such an account keeps the balance that it had in the state before, although
`SELFDESTRUCT` has paid it out, and what it received after its destruction is not written.
`total_commit` is the exact account of both.

A transaction is clean if no account that it destroys had a stored balance or received coins after
its destruction. In a run of clean transactions the sum of all balances changes only by what
accounts destroy by naming themselves (`conservation_of_run`). An address that holds coins before a
contract is created at it and destroyed breaks the sum (`prefunded_contract_mints`).
-/

set_option linter.unusedSectionVars false

namespace Citrea.Proofs.Evm

open Option List Lib
open Lib.StoreProg (run mapStore HintBackend)
open Spec.Evm
open Std (TransOrd LawfulEqOrd)

section
variable {A H : Type} [Ord A] [Ord H] [TransOrd A] [LawfulEqOrd A] [DecidableEq A]
  [DecidableEq H] (env : EvmEnv A H) {τ ε : Type} {O : HintBackend H Bytecode τ}
  {st st' : StateStore A H} {t t' : τ}

/-! ### Commit -/

/-- The stored balance after an account of the journal was committed. -/
def committedBalance (st : StateStore A H) (a : A) (account : Account H) : Nat :=
  if account.touched = true ∧ account.selfdestructed = false then account.info.balance.toNat
  else storedBalance st a

theorem storedBalance_of_committedInfo {a : A} {account : Account H}
    (h : storedInfo st' a = committedInfo env st a account) :
    storedBalance st' a = committedBalance st a account := by
  rw [storedBalance, h, committedInfo, committedBalance]
  split_ifs with hwritten hlive hlive
  · rfl
  · exact absurd ⟨hwritten.1, hwritten.2.1⟩ hlive
  · -- nothing changed, so the stored balance is the new one
    obtain ⟨prev, hprev, hbalance, -, -⟩ :=
      stored_of_unchanged fun hchanged => hwritten ⟨hlive.1, hlive.2, hchanged⟩
    rw [hprev, map_some, getD_some, hbalance]
  · rfl

/-- The stored balances after a commit. -/
theorem commit_ok {j : Journal A H} (hwell : WellIndexed st)
    (h : run mapStore O (commit env j : Prog A H ε Unit) st t = .ok ((), st', t')) :
    WellIndexed st' ∧ ∀ a, storedBalance st' a =
      (j.state[a]?.map (committedBalance st a)).getD (storedBalance st a) := by
  obtain ⟨hwell', hinfo⟩ := commit_infos env hwell h
  refine ⟨hwell', fun a => ?_⟩
  have ha := hinfo a
  cases hj : j.state[a]? with
  | some account =>
    rw [hj] at ha
    exact storedBalance_of_committedInfo env ha
  | none =>
    rw [hj, elim_none] at ha
    rw [map_none, getD_none, storedBalance, ha, storedBalance]

/-- The balance of a destroyed account at the end of the transaction, and zero for others. -/
def destroyedBalance (j : Journal A H) (a : A) : Nat :=
  match j.state[a]? with
  | some account =>
    if account.touched = true ∧ account.selfdestructed = true then account.info.balance.toNat
    else 0
  | none => 0

/-- The stored balance of a destroyed account, and zero for others. -/
def destroyedStored (st : StateStore A H) (j : Journal A H) (a : A) : Nat :=
  match j.state[a]? with
  | some account =>
    if account.touched = true ∧ account.selfdestructed = true then storedBalance st a else 0
  | none => 0

variable [Fintype A]

/-- The exact sum after a commit: the coins of destroyed accounts are not written, and what they
had in the state stays there. -/
theorem total_commit {j : Journal A H} (hwell : WellIndexed st)
    (huntouched : UntouchedAsStored st j)
    (h : run mapStore O (commit env j : Prog A H ε Unit) st t = .ok ((), st', t')) :
    total st' + ∑ a, destroyedBalance j a = journalTotal st j + ∑ a, destroyedStored st j a := by
  obtain ⟨-, hbalance⟩ := commit_ok env hwell h
  unfold total journalTotal
  rw [← Finset.sum_add_distrib, ← Finset.sum_add_distrib]
  refine Finset.sum_congr rfl fun a _ => ?_
  rw [hbalance, destroyedBalance, destroyedStored, balanceOf]
  cases ha : j.state[a]? with
  | none => rfl
  | some account =>
    simp only [map_some, getD_some, committedBalance]
    cases htouched : account.touched with
    | false =>
      -- an account that nobody touched has its stored balance
      have := huntouched a account ha htouched
      simp [this]
    | true =>
      cases account.selfdestructed with
      | false => simp
      | true => simp [Nat.add_comm]

/-- No account that the transaction destroys had a stored balance, or has coins at the end. -/
def CleanDestructs (st : StateStore A H) (j : Journal A H) : Prop :=
  ∀ a, ∀ account ∈ j.state[a]?, account.touched = true → account.selfdestructed = true →
    storedBalance st a = 0 ∧ account.info.balance = 0

instance (st : StateStore A H) (j : Journal A H) : Decidable (CleanDestructs st j) := by
  unfold CleanDestructs
  infer_instance

theorem total_commit_of_clean {j : Journal A H} (hwell : WellIndexed st)
    (huntouched : UntouchedAsStored st j) (hclean : CleanDestructs st j)
    (h : run mapStore O (commit env j : Prog A H ε Unit) st t = .ok ((), st', t')) :
    total st' = journalTotal st j := by
  have hsum := total_commit env hwell huntouched h
  have hbalance : ∑ a, destroyedBalance j a = 0 := by
    refine Finset.sum_eq_zero fun a _ => ?_
    unfold destroyedBalance
    split
    · rename_i account ha
      split_ifs with hdestroyed
      · rw [(hclean a account ha hdestroyed.1 hdestroyed.2).2]
        rfl
      · rfl
    · rfl
  have hstored : ∑ a, destroyedStored st j a = 0 := by
    refine Finset.sum_eq_zero fun a _ => ?_
    unfold destroyedStored
    split
    · rename_i account ha
      split_ifs with hdestroyed
      · exact (hclean a account ha hdestroyed.1 hdestroyed.2).1
      · rfl
    · rfl
  omega

end

/-! ### The run -/

section
variable {A H : Type} [Ord A] [Ord H] [TransOrd A] [LawfulEqOrd A] [DecidableEq A] [DecidableEq H]
  (env : ExecutorEnv A H) {τ : Type} {O : HintBackend H Bytecode τ} {st st' : StateStore A H}
  {t t' : τ} {s s' : ExecState} {tx : RecoveredTx A} {block : BlockEnv A} {l1FeeRate l2Height : Nat}

/-- The provider stays as it is or has verified an update of L1. -/
def ProviderStep (l2Height : Nat) (provider provider' : ShortHeaderProofProvider) : Prop :=
  provider' = provider ∨
    ∃ update, provider.getAndVerify env.shp update l2Height = .ok (true, provider')

/-- The check of a system transaction only reads. -/
theorem verifySystemTx_ok {provider provider' : ShortHeaderProofProvider} {data : Bytes}
    (h : run mapStore O (verifySystemTx env.evm env.shp env.setBlockInfoSelector provider data
      l2Height) st t = .ok (provider', st', t')) :
    st' = st ∧ t' = t ∧ ProviderStep env l2Height provider provider' := by
  simp only [verifySystemTx, run_bind_eq_ok, run_ofOutcome_eq_ok] at h
  obtain ⟨_, _, _, ⟨-, rfl, rfl⟩, h⟩ := h
  split_ifs at h
  · simp only [verifySetBlockInfo, getLastL1HeightAndHashInLightClient, storageGet,
      run_bind_eq_ok, run_ofOutcome_eq_ok, run_read_mapStore,
      run_pure, Except.ok.injEq, Prod.mk.injEq] at h
    obtain ⟨call, _, _, ⟨-, rfl, rfl⟩, _, _, _, ⟨-, rfl, rfl⟩, last, _, _, ⟨_, _, _, ⟨-, rfl, rfl⟩,
      _, _, _, ⟨-, rfl, rfl⟩, -, rfl, rfl⟩, _, _, _, ⟨-, rfl, rfl⟩, h⟩ := h
    split at h
    · next hverified =>
      rw [run_pure, Except.ok.injEq] at h
      cases h
      exact ⟨rfl, rfl, .inr ⟨_, hverified⟩⟩
    all_goals simp at h
  · rw [run_pure, Except.ok.injEq] at h
    cases h
    exact ⟨rfl, rfl, .inl rfl⟩

theorem beforeTransact_ok
    (h : run mapStore O (beforeTransact env l2Height s tx) st t = .ok (s', st', t')) :
    st' = st ∧ t' = t ∧ ProviderStep env l2Height s.provider s'.provider := by
  simp only [beforeTransact, run_bind_eq_ok, run_ofOutcome_eq_ok, run_pure_eq_ok] at h
  obtain ⟨s₁, _, _, hsigner, _, _, _, ⟨-, rfl, rfl⟩, rfl, rfl, rfl⟩ := h
  unfold checkSigner at hsigner
  split_ifs at hsigner
  · simp only [run_bind_eq_ok, run_ofOutcome_eq_ok, run_pure_eq_ok] at hsigner
    obtain ⟨_, _, _, ⟨-, rfl, rfl⟩, provider, _, _, hverify, rfl, rfl, rfl⟩ := hsigner
    exact verifySystemTx_ok env hverify
  · rw [run_pure, Except.ok.injEq] at hsigner
    cases hsigner
    exact ⟨rfl, rfl, .inl rfl⟩

/-- The parts of a transaction that succeeded: it was checked, it ran, and its accounts were
committed. -/
theorem executeTx_ok
    (h : run mapStore O (executeTx env block l1FeeRate l2Height s tx) st t = .ok (s', st', t')) :
    ∃ s₁ result st₂ t₂, run mapStore O (beforeTransact env l2Height s tx) st t = .ok (s₁, st, t) ∧
      run mapStore O (transact env.evm env.revm block l1FeeRate tx.env) st t =
        .ok (result, st₂, t₂) ∧ (s₁.shouldBeEndOfSysTxs = true ∨ result.success = true) ∧
      run mapStore O (commit env.evm result.journal : Prog A H L2BlockModuleCallError Unit) st₂ t₂ =
        .ok ((), st', t') ∧
      s'.provider = s₁.provider ∧ s'.shouldBeEndOfSysTxs = s₁.shouldBeEndOfSysTxs := by
  simp only [executeTx, run_bind_eq_ok, run_mapError_eq_ok, run_ofOutcome_eq_ok, ensure_eq_ok,
    run_pure_eq_ok] at h
  obtain ⟨s₁, _, _, hbefore, result, _, _, htransact, _, _, _, ⟨hsuccess, rfl, rfl⟩, _, _, _,
    ⟨-, rfl, rfl⟩, _, _, _, hcommit, rfl, rfl, rfl⟩ := h
  obtain ⟨rfl, rfl, -⟩ := beforeTransact_ok env hbefore
  exact ⟨s₁, result, _, _, hbefore, htransact, hsuccess, hcommit, rfl, rfl⟩

/-- A transaction of a run: the state before it, and its result. -/
structure TxStep (A H τ : Type) [Ord A] [Ord H] where
  before : StateStore A H
  hints : τ
  tx : TxEnv A
  result : ResultAndState A H

/-- The transactions of a run of `execute_multiple_tx`, up to the first one that fails. -/
def steps (O : HintBackend H Bytecode τ) (block : BlockEnv A) (l1FeeRate l2Height : Nat) :
    List (RecoveredTx A) → ExecState → StateStore A H → τ → List (TxStep A H τ)
  | [], _, _, _ => []
  | tx :: rest, s, st, t =>
    match run mapStore O (transact env.evm env.revm block l1FeeRate tx.env) st t,
        run mapStore O (executeTx env block l1FeeRate l2Height s tx) st t with
    | .ok (result, _, _), .ok (s', st', t') =>
      ⟨st, t, tx.env, result⟩ :: steps O block l1FeeRate l2Height rest s' st' t'
    | _, _ => []

theorem steps_cons (rest : List (RecoveredTx A)) {result : ResultAndState A H}
    {st₂ : StateStore A H} {t₂ : τ}
    (htransact : run mapStore O (transact env.evm env.revm block l1FeeRate tx.env) st t =
      .ok (result, st₂, t₂))
    (h : run mapStore O (executeTx env block l1FeeRate l2Height s tx) st t = .ok (s', st', t')) :
    steps env O block l1FeeRate l2Height (tx :: rest) s st t =
      ⟨st, t, tx.env, result⟩ :: steps env O block l1FeeRate l2Height rest s' st' t' := by
  rw [steps, htransact, h]

variable [Fintype A]

/-- What a run destroys by accounts that name themselves as the target. -/
def burnedInRun (l : List (TxStep A H τ)) : Nat :=
  (l.map fun step => burned step.result.journal).sum

/-- One transaction keeps the indices apart and accounts for its coins. -/
theorem executeTx_accounting {result : ResultAndState A H} {st₂ : StateStore A H} {t₂ : τ}
    (hwell : WellIndexed st) (hsupply : total st < 2 ^ 256)
    (htransact : run mapStore O (transact env.evm env.revm block l1FeeRate tx.env) st t =
      .ok (result, st₂, t₂)) (hclean : CleanDestructs st result.journal)
    (hcommit : run mapStore O (commit env.evm result.journal : Prog A H L2BlockModuleCallError Unit)
      st₂ t₂ = .ok ((), st', t')) : WellIndexed st' ∧ total st' + burned result.journal = total st ∧
      TxAccounting env.evm env.revm block tx.env O st t result := by
  obtain ⟨rfl, haccounting⟩ := transact_accounting env.evm hsupply htransact
  refine ⟨(commit_ok env.evm hwell hcommit).1, ?_, haccounting⟩
  rw [total_commit_of_clean env.evm hwell haccounting.untouched hclean hcommit]
  exact haccounting.total_eq

/-- Conservation over a run. In a run of transactions that each meet `CleanDestructs`, the sum of
the stored balances changes only by what accounts destroy by naming themselves, and the fees of
each paying caller go to the two vaults and the coinbase. -/
theorem conservation_of_run (txs : List (RecoveredTx A)) :
    ∀ {s : ExecState} {st : StateStore A H} {t : τ}, WellIndexed st → total st < 2 ^ 256 →
      (∀ step ∈ steps env O block l1FeeRate l2Height txs s st t,
        CleanDestructs step.before step.result.journal) →
      run mapStore O (executeMultipleTx env block l1FeeRate l2Height s txs) st t =
        .ok (s', st', t') →
      (steps env O block l1FeeRate l2Height txs s st t).map (·.tx) = txs.map (·.env) ∧
      total st' + burnedInRun (steps env O block l1FeeRate l2Height txs s st t) = total st ∧
      ∀ step ∈ steps env O block l1FeeRate l2Height txs s st t,
        TxAccounting env.evm env.revm block step.tx O step.before step.hints step.result := by
  induction txs with
  | nil =>
    intro s st t _ _ _ hrun
    rw [executeMultipleTx, run_pure, Except.ok.injEq] at hrun
    cases hrun
    exact ⟨rfl, rfl, by simp [steps]⟩
  | cons tx rest ih =>
    intro s st t hwell hsupply hclean hrun
    simp only [executeMultipleTx, run_bind_eq_ok] at hrun
    obtain ⟨s₁, st₁, t₁, hfirst, hrun⟩ := hrun
    obtain ⟨_, result, st₂, t₂, -, htransact, -, hcommit, -, -⟩ := executeTx_ok env hfirst
    have hsteps := steps_cons env rest htransact hfirst
    rw [hsteps] at hclean ⊢
    obtain ⟨hwell₁, htotal, haccounting⟩ := executeTx_accounting env hwell hsupply htransact
      (hclean _ (mem_cons_self ..)) hcommit
    -- the rest of the run starts with no more coins than this one
    obtain ⟨htxs, htotal', hrest⟩ := ih hwell₁ (by omega)
      (fun step hstep => hclean step (mem_cons_of_mem _ hstep)) hrun
    refine ⟨?_, ?_, ?_⟩
    · rw [map_cons, htxs]
      rfl
    · simp only [burnedInRun, map_cons, sum_cons] at htotal' ⊢
      omega
    · intro step hstep
      rcases mem_cons.mp hstep with rfl | hstep
      · exact haccounting
      · exact hrest step hstep

end

/-! ### Two runs -/

instance neZeroEight : NeZero 8 := ⟨by decide⟩

theorem half_le_gasLimit (tx : TxEnv (Fin 8)) : tx.gasLimit / 2 ≤ tx.gasLimit := Nat.div_le_self ..

theorem zero_le_gasLimit (tx : TxEnv (Fin 8)) : 0 ≤ tx.gasLimit := Nat.zero_le _

/-- Eight addresses: the zero address, the system signer, the two vaults, the light client
contract, a user, the coinbase, and the address of a new contract. Hashes are numbers. A transaction
with data makes a contract at the last address that destroys itself in favour of the address that
the data names. -/
def sampleExecutor : ExecutorEnv (Fin 8) Nat where
  evm :=
    { keccak256 := fun b => ofLeBytes (b ++ [1])
      analyzeLegacy := fun b => (b, [])
      addressBytes := fun a => [UInt8.ofNat a]
      storageHash := fun a k => k * 8 + a
      slot := fun w => w.toNat
      mappingSlot := fun key base => key.toNat * 4 + base.toNat
      blockHashKey := fun n => leBytes 8 n
      zeroAddress := 0
      systemSigner := 1
      baseFeeVault := 2
      l1FeeVault := 3
      bitcoinLightClient := 4 }
  revm :=
    { validateEnv := fun _ _ => none
      interpret := fun _ tx =>
        match tx.data with
        | [] => .transfer tx.caller (tx.kind.getD 0) tx.value fun moved =>
          .done moved (tx.gasLimit / 2) (Nat.div_le_self ..)
        | target :: _ => .createAccount tx.caller 7 tx.value fun _ =>
          .selfdestruct 7 (Fin.ofNat 8 target.toNat) <|
            .done true (tx.gasLimit / 2) (Nat.div_le_self ..) }
  shp := ⟨⟨fun _ => .zero, fun _ => none, fun _ => none⟩, fun _ => none⟩
  setBlockInfoSelector := [1, 2, 3, 4]
  initializeBlockNumberSelector := [5, 6, 7, 8]

def sampleBlock : BlockEnv (Fin 8) where
  chainId := 1
  number := 1
  beneficiary := 6
  timestamp := 0
  basefee := 1
  gasLimit := 1000

/-- A transaction of the user, at a gas price of 3. -/
def sampleTx (kind : Option (Fin 8)) (value : U256) (data : Bytes) (nonce : Nat) :
    RecoveredTx (Fin 8) where
  env :=
    { caller := 5
      gasLimit := 20
      gasPrice := 3
      gasPriorityFee := none
      kind := kind
      value := value
      data := data
      nonce := nonce
      authorizationList := [] }
  isEip4844 := false

/-- An offchain state without code. -/
def noHints : HintBackend Nat Bytecode Unit where
  get := fun _ _ => .ok ((none, false), ())
  set := fun _ _ _ => ()

def sampleExecState : ExecState := ⟨.zk [] none, false, 0, []⟩

/-- A state in which the user has 10000 coins. -/
def fundedState : StateStore (Fin 8) Nat := setAccount (fun _ => none) 5 ⟨10000, none, 0⟩

theorem wellIndexed_fundedState : WellIndexed fundedState :=
  wellIndexed_setAccount ⟨by simp [idxOf], by simp [idxOf]⟩ _ _

/-- A transfer, and a contract that destroys its own coins. -/
def cleanTxs : List (RecoveredTx (Fin 8)) :=
  [sampleTx (some 6) 100 [] 0, sampleTx none 5 [7] 1]

/-- The theorem applied to a run of two transactions with fees. The contract destroys its 5 coins,
and all others are still there. -/
theorem conservation_of_clean_run : ∃ s' st',
    run mapStore noHints (executeMultipleTx sampleExecutor sampleBlock 2 1 sampleExecState cleanTxs)
      fundedState () = .ok (s', st', ()) ∧
    total st' + 5 = total fundedState ∧ storedBalance st' 2 = 20 ∧ storedBalance st' 6 = 140 := by
  have hrun : (run mapStore noHints (executeMultipleTx sampleExecutor sampleBlock 2 1
      sampleExecState cleanTxs) fundedState ()).map
        (fun r => (storedBalance r.2.1 2, storedBalance r.2.1 6)) = .ok (20, 140) := by
    decide +kernel
  obtain ⟨⟨s', st', ⟨⟩⟩, hok, hvalues⟩ := map_eq_ok.mp hrun
  obtain ⟨-, htotal, -⟩ := conservation_of_run sampleExecutor (O := noHints) cleanTxs
    wellIndexed_fundedState (by decide +kernel) (by decide +kernel) hok
  have hburned : burnedInRun (steps sampleExecutor noHints sampleBlock 2 1 cleanTxs
      sampleExecState fundedState ()) = 5 := by decide +kernel
  rw [hburned] at htotal
  exact ⟨s', st', hok, htotal, congrArg Prod.fst hvalues, congrArg Prod.snd hvalues⟩

/-- A state in which the address of the new contract holds 10 coins before the contract exists. -/
def prefundedState : StateStore (Fin 8) Nat := setAccount fundedState 7 ⟨10, none, 0⟩

/-- The user creates a contract at an address that holds 10 coins, and the contract destroys itself
in favour of the user. The user gets the 10 coins, and the state still has them at the address. -/
theorem prefunded_contract_mints : ∃ s' st',
    WellIndexed prefundedState ∧ total prefundedState < 2 ^ 256 ∧
    run mapStore noHints (executeMultipleTx sampleExecutor sampleBlock 2 1 sampleExecState
      [sampleTx none 5 [5] 0]) prefundedState () = .ok (s', st', ()) ∧
    burnedInRun (steps sampleExecutor noHints sampleBlock 2 1 [sampleTx none 5 [5] 0]
      sampleExecState prefundedState ()) = 0 ∧ total st' = total prefundedState + 10 := by
  have hrun : (run mapStore noHints (executeMultipleTx sampleExecutor sampleBlock 2 1
      sampleExecState [sampleTx none 5 [5] 0]) prefundedState ()).map
        (fun r => decide (total r.2.1 = total prefundedState + 10)) = .ok true := by
    decide +kernel
  obtain ⟨⟨s', st', ⟨⟩⟩, hok, htotal⟩ := map_eq_ok.mp hrun
  exact ⟨s', st', wellIndexed_setAccount wellIndexed_fundedState _ _, by decide +kernel, hok,
    by decide +kernel, of_decide_eq_true htotal⟩

end Citrea.Proofs.Evm
