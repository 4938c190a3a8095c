import Citrea.Proofs.Evm.Conservation

/-!
# `Citrea.Proofs.Evm.SystemSigner`: the nonce of the system signer

A system transaction must have the nonce of the system signer (`readOnly_transact_system`), and the
handler bumps it by one. A run of the interpreter changes the nonce of an account only when a
contract creates another one, and the system signer is not a contract (`LeavesSigner`). So the
committed nonce is the bumped one (`signerNonce_executeTx`). A transaction with another nonce is
refused, and the error is not the one of a transaction that reverted (`executeTx_wrong_nonce`).
-/

set_option linter.unusedSectionVars false

namespace Citrea.Proofs.Evm

open Option Lib
open Lib.StoreProg (run mapStore HintBackend ReadOnly Raises)
open Spec.Evm
open Std (TransOrd LawfulEqOrd)

section
variable {A H : Type} [Ord A] [Ord H] [TransOrd A] [LawfulEqOrd A] [TransOrd H] [LawfulEqOrd H]
  [DecidableEq A] [DecidableEq H]

/-- The actions that leave the nonce of an account and its existence as they are. -/
def LeavesNonce (signer : A) : Action A H → Prop
  | .createAccount _ target _ => target ≠ signer
  | .incNonce a => a ≠ signer
  | .selfdestruct a _ => a ≠ signer
  | .charge a => a ≠ signer
  | .delegate a => a ≠ signer
  | _ => True

/-- The account is loaded with the nonce, and it will be committed. -/
def NonceAt (signer : A) (nonce : Nat) (j : Journal A H) : Prop :=
  ∃ account, j.state[signer]? = some account ∧ account.info.nonce = nonce ∧
    account.touched = true ∧ account.selfdestructed = false

namespace NonceAt

variable {signer : A} {nonce : Nat} {j : Journal A H} {j' : Journal A H}

variable (h : NonceAt signer nonce j)
include h

theorem push (e : JournalEntry A H) : NonceAt signer nonce (j.push e) :=
  h

theorem setOther {a : A} (hne : a ≠ signer) (account : Account H) :
    NonceAt signer nonce (j.set a account) := by
  obtain ⟨old, hold, hrest⟩ := h
  refine ⟨old, ?_, hrest⟩
  rw [getElem?_set, if_neg (Ne.symm hne)]
  exact hold

/-- An account is replaced by one with the same nonce that is still touched and not destroyed. -/
theorem set {a : A} {old new : Account H}
    (hold : j.state[a]? = some old) (hnonce : new.info.nonce = old.info.nonce)
    (htouched : old.touched = true → new.touched = true)
    (hdestroyed : new.selfdestructed = old.selfdestructed) :
    NonceAt signer nonce (j.set a new) := by
  by_cases heq : a = signer
  · subst heq
    obtain ⟨account, haccount, hn, ht, hd⟩ := h
    obtain rfl := some_unique hold haccount
    refine ⟨new, ?_, hnonce.trans hn, htouched ht, hdestroyed.trans hd⟩
    rw [getElem?_set, if_pos rfl]
  · exact h.setOther heq new

theorem moveBalance {src dst : A} {value : U256}
    (hmove : j.moveBalance src dst value = some j') : NonceAt signer nonce j' := by
  obtain ⟨source, decreased, target, increased, hsource, -, htarget, -, rfl⟩ :=
    moveBalance_eq_some hmove
  have hfirst : NonceAt signer nonce (j.set src (source.withBalance decreased)) :=
    h.set hsource rfl (fun _ => rfl) rfl
  exact hfirst.set htarget rfl (fun _ => rfl) rfl

theorem payOut (a target : A) (balance : U256) :
    NonceAt signer nonce (j.payOut a target balance) := by
  rw [Journal.payOut]
  split
  · exact h
  · cases hmove : j.moveBalance a target balance with
    | none => exact h
    | some moved => exact h.moveBalance hmove

/-- One case for each edit. -/
theorem edit {env : EvmEnv A H} {st : StateStore A H} {action : Action A H}
    (hedit : Edit env st action j j')
    (hleaves : LeavesNonce signer action) : NonceAt signer nonce j' := by
  cases hedit with
  | load j a =>
    obtain ⟨account, haccount, hrest⟩ := h
    exact ⟨account, getElem?_loadInto_of_some haccount, hrest⟩
  | loadCode code hold => exact h.set hold rfl id rfl
  | loadSlot hold _ => exact h.set hold rfl id rfl
  | touch hold => exact h.set hold rfl (fun _ => rfl) rfl
  | transfer hmove => exact (h.moveBalance hmove).push _
  | createAccount hold _ _ hmoved =>
    exact (((h.setOther hleaves _).push _).moveBalance hmoved).push _
  | setCode code hold =>
    refine NonceAt.push ?_ _
    exact h.set hold rfl (fun _ => rfl) rfl
  | incNonce hold => exact (h.setOther hleaves _).push _
  | fullNonce hold _ => exact h.setOther hleaves _
  | sstore hold _ =>
    refine NonceAt.push ?_ _
    exact h.set hold rfl id rfl
  | selfdestruct hold _ _ _ => exact ((h.payOut _ _ _).setOther hleaves _).push _
  | sweep hold _ _ => exact (h.payOut _ _ _).push _
  | charge hold balance newNonce touched htouched => exact h.setOther hleaves _
  | delegate hold target => exact h.setOther hleaves _

/-- A run that leaves the nonce alone. -/
theorem edits {env : EvmEnv A H} {st : StateStore A H}
    (hedits : Edits env st (LeavesNonce signer) j j') : NonceAt signer nonce j' := by
  refine hedits.invariant ?_ h
  intro action k k' hallowed hedit hk
  refine hk.edit hedit ?_
  rcases hallowed with rfl | hleaves
  · trivial
  · exact hleaves

end NonceAt

/-! ### A system transaction -/

/-- The nonce of an account in the state, zero for an account that does not exist. -/
def storedNonce (st : StateStore A H) (a : A) : Nat := ((storedInfo st a).getD .default).nonce

/-- As revm documents it: a run of the interpreter for a system transaction that calls a contract
does not change the nonce of the system signer, and does not create or destroy its account. -/
def LeavesSigner (env : ExecutorEnv A H) : Prop :=
  ∀ (block : BlockEnv A) (tx : TxEnv A), tx.caller = env.evm.systemSigner → tx.kind ≠ none →
    Allows (LeavesNonce env.evm.systemSigner) (env.revm.interpret block tx)

variable {env : EvmEnv A H} {st : StateStore A H}

theorem nonce_accountAt_empty (a : A) :
    (accountAt env st (.empty : Journal A H) a).info.nonce = storedNonce st a := by
  have hnone : (Journal.empty : Journal A H).state[a]? = none := Std.TreeMap.getElem?_emptyc
  rw [accountAt, hnone, getD_none, storedNonce]
  cases storedInfo st a with
  | none => rfl
  | some info => rfl

/-- A transaction of the system signer has its nonce, and bumps it. -/
theorem readOnly_preExecution_system {revm : Revm A H} {block : BlockEnv A} {tx : TxEnv A}
    (hcaller : tx.caller = env.systemSigner) (hauths : tx.authorizationList = []) :
    ReadOnly st (fun j => tx.nonce = storedNonce st env.systemSigner ∧
      NonceAt env.systemSigner (bumpedNonce tx (storedNonce st env.systemSigner)) j)
      (preExecution env revm block tx) := by
  have hnone : (Journal.empty : Journal A H).state[env.systemSigner]? = none :=
    Std.TreeMap.getElem?_emptyc
  have hself : (loadInto env st .empty env.systemSigner).state[env.systemSigner]? =
      some (accountAt env st .empty env.systemSigner) := getElem?_loadInto_self ..
  have hvalidate : ReadOnly st (fun j => tx.nonce = storedNonce st env.systemSigner ∧
      j = loadInto env st .empty env.systemSigner) (validateTxAgainstState env tx .empty) := by
    rw [validateTxAgainstState, if_pos hcaller, hcaller]
    refine ReadOnly.bind (readOnly_loadAccount _ _) ?_
    rintro _ rfl
    refine ReadOnly.bind ReadOnly.ofOutcome fun _ hcheck => ReadOnly.pure ⟨?_, rfl⟩
    simp only [checkNonce, bind_eq_ok, ensure_eq_ok, nonce_accountAt_empty] at hcheck
    obtain ⟨_, hle, hge⟩ := hcheck
    omega
  refine ReadOnly.bind ReadOnly.ofOutcome fun _ _ => ?_
  refine ReadOnly.bind hvalidate ?_
  rintro _ ⟨hnonce, rfl⟩
  have hdeduct : ReadOnly st
      (NonceAt env.systemSigner (bumpedNonce tx (storedNonce st env.systemSigner)))
      (deductCaller env block tx (loadInto env st .empty env.systemSigner)) := by
    rw [deductCaller, hcaller]
    refine ReadOnly.bind (readOnly_loadAccount _ _) ?_
    rintro _ rfl
    dsimp only
    rw [if_pos rfl]
    have hat : accountAt env st (loadInto env st .empty env.systemSigner) env.systemSigner =
        accountAt env st .empty env.systemSigner := by
      rw [accountAt, hself, getD_some]
    refine ReadOnly.pure ⟨_, by rw [getElem?_set, if_pos rfl], ?_, rfl, ?_⟩
    · show bumpedNonce tx (accountAt env st _ env.systemSigner).info.nonce = _
      rw [hat, nonce_accountAt_empty]
    · show (accountAt env st _ env.systemSigner).selfdestructed = false
      rw [hat, accountAt, hnone]
      rfl
  refine ReadOnly.bind hdeduct fun j hj => ?_
  rw [hauths]
  exact ReadOnly.pure ⟨hnonce, hj⟩

/-- A transaction of the system signer, up to its commit. -/
theorem readOnly_transact_system {revm : Revm A H} {block : BlockEnv A} {l1FeeRate : Nat}
    {tx : TxEnv A} (hcaller : tx.caller = env.systemSigner) (hauths : tx.authorizationList = [])
    (hleaves : Allows (LeavesNonce env.systemSigner) (revm.interpret block tx)) :
    ReadOnly st (fun r => tx.nonce = storedNonce st env.systemSigner ∧
      NonceAt env.systemSigner (bumpedNonce tx (storedNonce st env.systemSigner)) r.journal)
      (transact env revm block l1FeeRate tx) := by
  refine ReadOnly.bind (readOnly_preExecution_system hcaller hauths) ?_
  rintro j ⟨hnonce, hj⟩
  refine ReadOnly.bind (tracks_execute tracks_edits _ j hleaves) ?_
  rintro ⟨result, j'⟩ hedits
  -- the system signer neither gets gas back nor pays fees
  have hpost : ReadOnly st (fun r : ResultAndState A H => r.journal = j')
      (postExecution env block l1FeeRate tx result j') := by
    rw [postExecution, reimburseCaller, if_pos hcaller]
    refine ReadOnly.bind (ReadOnly.pure rfl) ?_
    rintro _ rfl
    rw [rewardBeneficiary, if_pos hcaller]
    refine ReadOnly.bind (ReadOnly.pure rfl) ?_
    rintro _ rfl
    refine ReadOnly.bind (readOnly_calcDiffSize tx j') fun size _ => ?_
    dsimp only
    rw [if_pos hcaller]
    exact ReadOnly.pure rfl
  refine hpost.mono fun r hr => ⟨hnonce, ?_⟩
  rw [hr]
  exact hj.edits hedits

end

/-! ### The executor -/

section
variable {A H : Type} [Ord A] [Ord H] [TransOrd A] [LawfulEqOrd A] [TransOrd H] [LawfulEqOrd H]
  [DecidableEq A] [DecidableEq H] {env : ExecutorEnv A H} {τ : Type} {O : HintBackend H Bytecode τ}
  {block : BlockEnv A} {l1FeeRate l2Height : Nat} {s s' : ExecState} {tx : RecoveredTx A}
  {st st' : StateStore A H} {t t' : τ}

/-- The nonce of an account that the journal commits. -/
theorem storedNonce_commit {evm : EvmEnv A H} {ε : Type} {a : A} {nonce : Nat} {j : Journal A H}
    (hwell : WellIndexed st) (hj : NonceAt a nonce j)
    (h : run mapStore O (commit evm j : Prog A H ε Unit) st t = .ok ((), st', t')) :
    WellIndexed st' ∧ storedNonce st' a = nonce := by
  obtain ⟨hwell', hinfo⟩ := commit_infos evm hwell h
  obtain ⟨account, haccount, hnonce, htouched, hdestroyed⟩ := hj
  refine ⟨hwell', ?_⟩
  have ha := hinfo a
  rw [haccount, elim_some, committedInfo] at ha
  split_ifs at ha with hwritten
  · rw [storedNonce, ha]
    exact hnonce
  · -- nothing changed, so the stored nonce is this one
    obtain ⟨prev, hprev, -, hsame, -⟩ :=
      stored_of_unchanged fun hchanged => hwritten ⟨htouched, hdestroyed, hchanged⟩
    rw [storedNonce, ha, hprev]
    exact hsame.trans hnonce

/-- A system transaction that succeeds had the nonce of the system signer and bumped it. -/
theorem signerNonce_executeTx (hleaves : LeavesSigner env) (hwell : WellIndexed st)
    (hcaller : tx.env.caller = env.evm.systemSigner) (hkind : tx.env.kind ≠ none)
    (hauths : tx.env.authorizationList = [])
    (h : run mapStore O (executeTx env block l1FeeRate l2Height s tx) st t = .ok (s', st', t')) :
    tx.env.nonce = storedNonce st env.evm.systemSigner ∧ WellIndexed st' ∧
      storedNonce st' env.evm.systemSigner =
        bumpedNonce tx.env (storedNonce st env.evm.systemSigner) := by
  obtain ⟨_, result, st₂, t₂, -, htransact, -, hcommit, -, -⟩ := executeTx_ok env h
  obtain ⟨rfl, hnonce, hj⟩ := (readOnly_transact_system hcaller hauths
    (hleaves block tx.env hcaller hkind)).sound htransact
  exact ⟨hnonce, storedNonce_commit hwell hj hcommit⟩

/-- The checks before a transaction runs do not report that it reverted. -/
theorem raises_beforeTransact :
    Raises (· ≠ .evmSystemTransactionNotSuccessful) (beforeTransact env l2Height s tx) := by
  have hupdate : ∀ provider data,
      Raises (· ≠ L2BlockModuleCallError.evmSystemTransactionNotSuccessful)
      (verifySetBlockInfo env.evm env.shp provider data l2Height) := by
    intro provider data
    rw [verifySetBlockInfo]
    refine Raises.bind (Raises.ofOutcome fun e he => ?_) fun call => ?_
    · split at he
      · cases he
      · obtain rfl : L2BlockModuleCallError.evmSystemTxParseError = e := by simpa [err] using he
        decide
    · refine Raises.bind (Raises.ensure (by decide)) fun _ => ?_
      refine Raises.bind (Raises.bind (Raises.read _) fun _ => Raises.bind (Raises.read _) fun _ =>
        Raises.pure) fun height => ?_
      refine Raises.bind (Raises.ofOutcome fun e he => ?_) fun _ => ?_
      · rw [assert] at he
        split at he <;> cases he
      · dsimp only
        split
        · exact Raises.pure
        · exact Raises.ofOutcome fun e he => by
            obtain rfl : L2BlockModuleCallError.shortHeaderProofVerificationError = e := by
              simpa [err] using he
            decide
        · exact Raises.ofOutcome fun e he => by
            obtain rfl : L2BlockModuleCallError.shortHeaderProofNotFound = e := by
              simpa [err] using he
            decide
        · exact Raises.ofOutcome fun e he => by cases he
  have hsigner : Raises (· ≠ L2BlockModuleCallError.evmSystemTransactionNotSuccessful)
      (checkSigner env l2Height s tx) := by
    rw [checkSigner]
    split
    · refine Raises.bind (Raises.ensure (by decide)) fun _ => Raises.bind ?_ fun _ => Raises.pure
      rw [verifySystemTx]
      refine Raises.bind (Raises.ensure (by decide)) fun _ => ?_
      split
      · exact hupdate _ _
      · exact Raises.pure
    · exact Raises.pure
  exact Raises.bind hsigner fun _ => Raises.bind (Raises.ensure (by simp)) fun _ => Raises.pure

/-- A system transaction with another nonce than the system signer fails, and the error is not the
one of a transaction that reverted. -/
theorem executeTx_wrong_nonce (hcaller : tx.env.caller = env.evm.systemSigner)
    (hauths : tx.env.authorizationList = [])
    (hnonce : tx.env.nonce ≠ storedNonce st env.evm.systemSigner) :
    (∀ r, run mapStore O (executeTx env block l1FeeRate l2Height s tx) st t ≠ .ok r) ∧
    run mapStore O (executeTx env block l1FeeRate l2Height s tx) st t ≠
      err .evmSystemTransactionNotSuccessful := by
  have htransact : ∀ r, run mapStore O (transact env.evm env.revm block l1FeeRate tx.env) st t ≠
      .ok r := by
    rintro ⟨result, st', t'⟩ h
    rw [transact, run_bind_eq_ok] at h
    obtain ⟨j, m, n, hpre, -⟩ := h
    exact hnonce ((readOnly_preExecution_system hcaller hauths).sound hpre).2.1
  constructor
  · rintro ⟨s', st', t'⟩ h
    obtain ⟨_, result, st₂, t₂, -, hrun, -⟩ := executeTx_ok env h
    exact htransact _ hrun
  · intro h
    rw [executeTx, StoreProg.run_bind_eq_err] at h
    rcases h with h | ⟨s₁, st₁, t₁, hbefore, h⟩
    · exact raises_beforeTransact.sound h rfl
    · obtain ⟨rfl, rfl, -⟩ := beforeTransact_ok env hbefore
      rcases StoreProg.run_bind_eq_err.mp h with h | ⟨result, st₂, t₂, hrun, -⟩
      · -- the error of a transaction that could not run has another constructor
        have hraises : Raises (· ≠ L2BlockModuleCallError.evmSystemTransactionNotSuccessful)
            ((transact env.evm env.revm block l1FeeRate tx.env).mapError moduleCallError) :=
          Raises.mapError fun e => by cases e <;> simp [moduleCallError]
        exact hraises.sound h rfl
      · exact htransact _ (run_mapError_eq_ok.mp hrun)

end

end Citrea.Proofs.Evm
