import Citrea.Proofs.Sequencer.EvmCall

/-!
# `Citrea.Proofs.Sequencer.SystemTransactions`: deposits that revert

The EVM nonces of the system transactions are given out before any of them runs. A deposit that
reverts is left out and does not use up its nonce, so each system transaction after it has a nonce
that is too high and fails for another reason. Then `process_sys_txs` returns an error, and no block
is produced.

`Plays` runs the events with the nonce that the system signer has at each of them, and says which
deposits revert. `processSysTxs_iff`: `process_sys_txs` does what it should exactly if no deposit
that reverts has an event behind it. The second part of the condition is the range of a nonce.
`second_deposit_stops` has two deposits of which the first one reverts.
-/

set_option linter.unusedSectionVars false

namespace Citrea.Proofs.Sequencer

open List Lib
open Lib.StoreProg (run mapStore HintBackend)
open Spec.Evm hiding executeCall applySovTx
open Spec.Sequencer Proofs.Evm
open Std (TransOrd LawfulEqOrd)

section
variable {A H Key L τ : Type} [Ord A] [Ord H] [TransOrd A] [LawfulEqOrd A] [TransOrd H]
  [LawfulEqOrd H] [DecidableEq A] [DecidableEq H] [DecidableEq Key] {env : SequencerEnv A H Key L τ}
  {info : L2BlockInfo} {m m' : EvmModule A L} {ws ws' : WorkingSet A H Key L τ}
  {txs : List (RecoveredTx A)} {tx : SovTx A Key} {l l' : SysTxState A H Key L τ} {deposit : Bool}
  {event : SystemEvent} {nonce : Nat} {store : EvmStore A H L τ}
  {events : List (SystemEvent × Bool)} {cfg : EvmChainConfig A}

/-! ### One rollup transaction -/

/-- The address of the sequencer is free as long as the sequencer has no account. -/
def Ready (env : SequencerEnv A H Key L τ) (ws : WorkingSet A H Key L τ) : Prop :=
  ws.accounts env.pubKey = none → ws.publicKeys (env.toAddress env.pubKey) = none

/-- The accounts module takes a rollup transaction of the sequencer with the right nonce. -/
theorem preDispatchTxHook_ok (hready : Ready env ws) (txs : List (RecoveredTx A)) :
    ∃ ws₁ account, preDispatchTxHook env ⟨env.pubKey, getNonce env ws, txs⟩ ws = .ok ws₁ ∧
      ws₁.evm = ws.evm ∧ ws₁.ruleData = ws.ruleData ∧
      ws₁.accounts env.pubKey = some account ∧ account.nonce = getNonce env ws := by
  cases haccount : ws.accounts env.pubKey with
  | some account =>
    have hnonce : account.nonce = getNonce env ws := by rw [getNonce, haccount]; rfl
    refine ⟨ws, account, ?_, rfl, rfl, haccount, hnonce⟩
    simp only [preDispatchTxHook, bind_eq_ok, ensure_eq_ok, pure_eq_ok]
    exact ⟨(account, ws), by rw [getOrCreateDefault, haccount]; rfl, (), hnonce, rfl⟩
  | none =>
    have hnonce : getNonce env ws = 0 := by rw [getNonce, haccount]; rfl
    have hfree := hready haccount
    let account : SovAccount := ⟨env.toAddress env.pubKey, 0⟩
    let created : WorkingSet A H Key L τ :=
      { ws with
        accounts := Function.update ws.accounts env.pubKey (some account)
        publicKeys := Function.update ws.publicKeys (env.toAddress env.pubKey) (some env.pubKey) }
    refine ⟨created, account, ?_, rfl, rfl, Function.update_self .., hnonce.symm⟩
    simp only [preDispatchTxHook, bind_eq_ok, ensure_eq_ok, pure_eq_ok]
    refine ⟨(account, created), ?_, (), hnonce.symm, rfl⟩
    rw [getOrCreateDefault, haccount]
    simp only [bind_eq_ok, ensure_eq_ok, pure_eq_ok]
    exact ⟨(), hfree, rfl⟩

/-- A rollup transaction of the sequencer whose call returns. -/
theorem applySovTx_of_ok (hready : Ready env ws) {evm : EvmStore A H L τ}
    (h : executeCall env info txs m ws.evm = .ok (m', evm)) :
    ∃ ws', applySovTx env info ⟨env.pubKey, getNonce env ws, txs⟩ m ws = .ok (m', ws') ∧
      ws'.evm = evm ∧ ws'.ruleData = ws.ruleData ∧ getNonce env ws' = getNonce env ws + 1 ∧
      Ready env ws' := by
  obtain ⟨ws₁, account, hpre, hevm, hrule, haccount, hnonce⟩ := preDispatchTxHook_ok hready txs
  refine ⟨{ ws₁ with
      evm := evm
      accounts := Function.update ws₁.accounts env.pubKey
        (some { account with nonce := account.nonce + 1 }) }, ?_, rfl, hrule, ?_, ?_⟩
  · rw [applySovTx, hpre]
    dsimp only [bind, Except.bind]
    rw [hevm, h]
    simp only [postDispatchTxHook, haccount]
    rfl
  · rw [← hnonce]
    simp [getNonce]
  · intro hnone
    simp only [Function.update_self] at hnone
    exact nomatch hnone

/-- A rollup transaction of the sequencer whose call returns an error. -/
theorem applySovTx_of_err (hready : Ready env ws) {e : L2BlockModuleCallError}
    (h : executeCall env info txs m ws.evm = err e) :
    applySovTx env info ⟨env.pubKey, getNonce env ws, txs⟩ m ws = err (.moduleCallError e) := by
  obtain ⟨ws₁, account, hpre, hevm, -, -, -⟩ := preDispatchTxHook_ok hready txs
  rw [applySovTx, hpre]
  dsimp only [bind, Except.bind]
  rw [hevm, h]
  rfl

/-- What the accounts module checks, and that it does not touch the state of the other modules. -/
theorem preDispatchTxHook_inv (h : preDispatchTxHook env tx ws = .ok ws') :
    ws'.evm = ws.evm ∧ ws'.ruleData = ws.ruleData ∧
      (tx.pubKey = env.pubKey → Ready env ws ∧ tx.nonce = getNonce env ws) := by
  simp only [preDispatchTxHook, bind_eq_ok, ensure_eq_ok, pure_eq_ok] at h
  obtain ⟨⟨sender, ws₁⟩, hcreate, _, hnonce, rfl⟩ := h
  rw [getOrCreateDefault] at hcreate
  split at hcreate
  · next account haccount =>
    obtain ⟨rfl, rfl⟩ := Prod.mk.inj (pure_eq_ok.mp hcreate)
    refine ⟨rfl, rfl, fun hkey => ⟨fun hnone => ?_, ?_⟩⟩
    · rw [← hkey, haccount] at hnone
      cases hnone
    · rw [← hnonce, getNonce, ← hkey, haccount]
      rfl
  · next haccount =>
    simp only [bind_eq_ok, ensure_eq_ok, pure_eq_ok] at hcreate
    obtain ⟨_, hfree, hpair⟩ := hcreate
    obtain ⟨rfl, rfl⟩ := Prod.mk.inj hpair
    refine ⟨rfl, rfl, fun hkey => ⟨fun _ => hkey ▸ hfree, ?_⟩⟩
    rw [← hnonce, getNonce, ← hkey, haccount]
    rfl

/-- What a rollup transaction that returns did. -/
theorem applySovTx_ok (h : applySovTx env info tx m ws = .ok (m', ws')) :
    executeCall env info tx.txs m ws.evm = .ok (m', ws'.evm) ∧ ws'.ruleData = ws.ruleData ∧
      (tx.pubKey = env.pubKey → Ready env ws ∧ tx.nonce = getNonce env ws) := by
  rw [applySovTx, bind_eq_ok] at h
  obtain ⟨ws₁, hpre, h⟩ := h
  obtain ⟨hevm, hrule, hkey⟩ := preDispatchTxHook_inv hpre
  rw [hevm] at h
  split at h
  · next m₁ evm hrun =>
    simp only [bind_eq_ok, pure_eq_ok] at h
    obtain ⟨ws₂, hpost, hpair⟩ := h
    obtain ⟨rfl, rfl⟩ := Prod.mk.inj hpair
    rw [postDispatchTxHook] at hpost
    split at hpost
    · cases hpost
    · rw [← pure_eq_ok.mp hpost]
      exact ⟨hrun, hrule, hkey⟩
  all_goals cases h

/-- The errors of the accounts module are hook errors. -/
theorem preDispatchTxHook_err {e : ApplyTxError} (h : preDispatchTxHook env tx ws = err e) :
    ∃ hook, e = .hookError hook := by
  rcases Outcome.bind_eq_err.mp h with hcreate | ⟨r, -, hcheck⟩
  · rw [getOrCreateDefault] at hcreate
    split at hcreate
    · exact nomatch hcreate
    · rcases Outcome.bind_eq_err.mp hcreate with hfree | ⟨_, -, hpure⟩
      · exact ⟨_, (Outcome.ensure_eq_err.mp hfree).2.symm⟩
      · exact nomatch hpure
  · rcases Outcome.bind_eq_err.mp hcheck with hnonce | ⟨_, -, hpure⟩
    · exact ⟨_, (Outcome.ensure_eq_err.mp hnonce).2.symm⟩
    · exact nomatch hpure

/-- A rollup transaction that reports a reverted transaction. -/
theorem applySovTx_reverted (h : applySovTx env info tx m ws = err (.moduleCallError
      .evmSystemTransactionNotSuccessful)) : executeCall env info tx.txs m ws.evm =
      err .evmSystemTransactionNotSuccessful := by
  rw [applySovTx, Outcome.bind_eq_err] at h
  rcases h with hpre | ⟨ws₁, hpre, h⟩
  · obtain ⟨hook, heq⟩ := preDispatchTxHook_err hpre
    cases heq
  · rw [(preDispatchTxHook_inv hpre).1] at h
    split at h
    · rw [Outcome.bind_eq_err] at h
      rcases h with hpost | ⟨_, -, hpure⟩
      · rw [postDispatchTxHook] at hpost
        split at hpost
        all_goals cases hpost
      · cases hpure
    · next e hrun =>
      obtain rfl : e = .evmSystemTransactionNotSuccessful := by simpa [err] using h
      exact hrun
    · cases h

/-! ### The loop -/

/-- One turn of the loop: the transaction was applied, or it was a deposit that reverted. -/
theorem processSysTx_ok {item : RecoveredTx A × Bool} (h : processSysTx env info l item = .ok l') :
    (∃ evm ws, applySovTx env info ⟨env.pubKey, l.nonce, [item.1]⟩ l.evm l.workingSet =
        .ok (evm, ws) ∧ l' = ⟨l.nonce + 1, evm, ws, l.allTxs ++ [item.1]⟩) ∨
    applySovTx env info ⟨env.pubKey, l.nonce, [item.1]⟩ l.evm l.workingSet =
        err (.moduleCallError .evmSystemTransactionNotSuccessful) ∧
      l' = { l with nonce := saturatingPred (l.nonce + 1) } := by
  simp only [processSysTx, applyL2BlockTxs, foldlM_cons, foldlM_nil, bind_pure] at h
  split at h
  · next evm ws hrun => exact .inl ⟨evm, ws, hrun, (pure_eq_ok.mp h).symm⟩
  · next e hrun =>
    split at h
    · next hcond =>
      rw [hcond.1] at hrun
      exact .inr ⟨hrun, (pure_eq_ok.mp h).symm⟩
    · exact nomatch h
  · exact nomatch h

theorem processSysTx_of_applied {tx : RecoveredTx A} {evm : EvmModule A L}
    {ws : WorkingSet A H Key L τ}
    (h : applySovTx env info ⟨env.pubKey, l.nonce, [tx]⟩ l.evm l.workingSet = .ok (evm, ws)) :
    processSysTx env info l (tx, deposit) = .ok ⟨l.nonce + 1, evm, ws, l.allTxs ++ [tx]⟩ := by
  simp only [processSysTx, applyL2BlockTxs, foldlM_cons, foldlM_nil, bind_pure, h]
  rfl

theorem processSysTx_of_reverted {tx : RecoveredTx A}
    (h : applySovTx env info ⟨env.pubKey, l.nonce, [tx]⟩ l.evm l.workingSet = err
      (.moduleCallError .evmSystemTransactionNotSuccessful)) : processSysTx env info l (tx, true) =
      .ok { l with nonce := saturatingPred (l.nonce + 1) } := by
  simp only [processSysTx, applyL2BlockTxs, foldlM_cons, foldlM_nil, bind_pure, h]
  rfl

/-- The nonce of the system signer. -/
abbrev signerNonce (env : SequencerEnv A H Key L τ) (store : EvmStore A H L τ) : Nat :=
  storedNonce store.state env.executor.evm.systemSigner

/-- A system transaction with a wrong EVM nonce ends the loop. -/
theorem processSysTx_wrong_nonce (hnonce : nonce ≠ signerNonce env l.workingSet.evm) :
    processSysTx env info l (signedSystemTransaction env event nonce, deposit) ≠ .ok l' := by
  intro h
  rcases processSysTx_ok h with ⟨evm, ws, happlied, -⟩ | ⟨hreverted, -⟩
  · obtain ⟨cfg, s, -, hrun⟩ := executeCall_singleton (applySovTx_ok happlied).1
    exact (executeTx_wrong_nonce rfl rfl hnonce).1 _ hrun
  · obtain ⟨cfg, -, hrun⟩ := executeCall_singleton_err (applySovTx_reverted hreverted)
    exact (executeTx_wrong_nonce rfl rfl hnonce).2 hrun

/-! ### The events with the right nonces -/

variable (env info) in
/-- The call message of one system event. -/
def systemCall (event : SystemEvent) (nonce : Nat) (m : EvmModule A L) (store : EvmStore A H L τ) :
    Outcome L2BlockModuleCallError (EvmModule A L × EvmStore A H L τ) :=
  executeCall env info [signedSystemTransaction env event nonce] m store

variable (env info) in
/-- The events one after the other, each with the nonce that the system signer has then. The flag of
an event says whether it reverts. Only a deposit may revert, and it leaves the state as it was. -/
inductive Plays : EvmModule A L → EvmStore A H L τ → List (SystemEvent × Bool) → Prop
  | nil (m : EvmModule A L) (store : EvmStore A H L τ) : Plays m store []
  | succeeds {m m' : EvmModule A L} {store store' : EvmStore A H L τ} (event : SystemEvent)
      {rest : List (SystemEvent × Bool)}
      (run : systemCall env info event (signerNonce env store) m store = .ok (m', store'))
      (next : Plays m' store' rest) : Plays m store ((event, false) :: rest)
  | reverts {m : EvmModule A L} {store : EvmStore A H L τ} (params : Bytes)
      {rest : List (SystemEvent × Bool)}
      (run : systemCall env info (.bridgeDeposit params) (signerNonce env store) m store =
        err .evmSystemTransactionNotSuccessful)
      (next : Plays m store rest) : Plays m store ((.bridgeDeposit params, true) :: rest)

variable (env) in
/-- The transactions of the events, without those that revert. -/
def keptTxs (events : List (SystemEvent × Bool)) (nonce : Nat) : List (RecoveredTx A) :=
  ((createSystemTransactions env (events.map Prod.fst) nonce).zip (events.map Prod.snd)).filterMap
    fun item => if item.2 then none else some item.1

variable (env info) in
/-- Transactions one after the other, each in a rollup transaction of its own. -/
def applyEach (txs : List (RecoveredTx A)) (m : EvmModule A L) (ws : WorkingSet A H Key L τ) :
    Outcome ApplyTxError (EvmModule A L × WorkingSet A H Key L τ) :=
  txs.foldlM (fun r tx => applySovTx env info ⟨env.pubKey, getNonce env r.2, [tx]⟩ r.1 r.2) (m, ws)

variable (env) in
/-- The transactions of the events with their flags, as the loop goes through them. -/
def sysTxItems (events : List (SystemEvent × Bool)) (nonce : Nat) : List (RecoveredTx A × Bool) :=
  (createSystemTransactions env (events.map Prod.fst) nonce).zip
    ((events.map Prod.fst).map SystemEvent.isDeposit)

/-- A state at a turn of the loop. -/
structure LoopState (env : SequencerEnv A H Key L τ) (l : SysTxState A H Key L τ) : Prop where
  ready : Ready env l.workingSet
  nonce : l.nonce = getNonce env l.workingSet
  well : WellIndexed l.workingSet.evm.state
  range : signerNonce env l.workingSet.evm < 2 ^ 64

/-- A system call that succeeds bumps the nonce of the system signer. -/
theorem signerNonce_systemCall (hleaves : LeavesSigner env.executor) {store' : EvmStore A H L τ}
    (hwell : WellIndexed store.state)
    (h : systemCall env info event nonce m store = .ok (m', store')) : WellIndexed store'.state ∧
      signerNonce env store' = min (signerNonce env store + 1) (2 ^ 64 - 1) := by
  obtain ⟨cfg, s, -, hrun⟩ := executeCall_singleton h
  obtain ⟨-, hwell', hnonce⟩ := signerNonce_executeTx hleaves hwell rfl (Option.some_ne_none _)
    rfl hrun
  exact ⟨hwell', hnonce⟩

/-- A turn of the loop whose call succeeds. -/
theorem processSysTx_of_succeeds
    (hrun : systemCall env info event nonce l.evm l.workingSet.evm = .ok (m', store))
    (h : processSysTx env info l (signedSystemTransaction env event nonce, deposit) = .ok l') :
    l'.evm = m' ∧ l'.workingSet.evm = store := by
  rcases processSysTx_ok h with ⟨evm, ws, happlied, rfl⟩ | ⟨hreverted, -⟩
  · exact Prod.mk.inj (Except.ok.inj ((applySovTx_ok happlied).1.symm.trans hrun))
  · exact nomatch (applySovTx_reverted hreverted).symm.trans hrun

/-- A turn of the loop whose call reverts. -/
theorem processSysTx_of_reverts (hrun : systemCall env info event nonce l.evm l.workingSet.evm = err
      .evmSystemTransactionNotSuccessful)
    (h : processSysTx env info l (signedSystemTransaction env event nonce, deposit) = .ok l') :
    l'.evm = l.evm ∧ l'.workingSet = l.workingSet := by
  rcases processSysTx_ok h with ⟨evm, ws, happlied, -⟩ | ⟨-, rfl⟩
  · exact nomatch (applySovTx_ok happlied).1.symm.trans hrun
  · exact ⟨rfl, rfl⟩

/-- If the loop returns, the nonces were right and only the last event may have reverted. -/
theorem condition_of_loop (hleaves : LeavesSigner env.executor) :
    ∀ {l r : SysTxState A H Key L τ} {nonce : Nat}, WellIndexed l.workingSet.evm.state →
      signerNonce env l.workingSet.evm < 2 ^ 64 → Plays env info l.evm l.workingSet.evm events →
      (sysTxItems env events nonce).foldlM (processSysTx env info) l = .ok r → events ≠ [] →
      nonce = signerNonce env l.workingSet.evm ∧ (∀ e ∈ events.dropLast, e.2 = false) ∧
        signerNonce env l.workingSet.evm + events.length ≤ 2 ^ 64 := by
  induction events with
  | nil => exact fun _ _ _ _ hne => absurd rfl hne
  | cons item rest ih =>
    obtain ⟨event, flag⟩ := item
    intro l r nonce hwell hrange hplays h _
    have hitems : sysTxItems env ((event, flag) :: rest) nonce =
      (signedSystemTransaction env event nonce, event.isDeposit) ::
        sysTxItems env rest ((nonce + 1) % 2 ^ 64) := rfl
    rw [hitems, foldlM_cons, bind_eq_ok] at h
    obtain ⟨l', hstep, hrest⟩ := h
    have hnonce : nonce = signerNonce env l.workingSet.evm := by
      by_contra hne
      exact processSysTx_wrong_nonce hne hstep
    refine ⟨hnonce, ?_⟩
    cases hplays with
    | @succeeds _ m₁ _ store₁ _ _ hrun next =>
      obtain ⟨hwell', hbumped⟩ := signerNonce_systemCall hleaves hwell hrun
      -- the loop has made the same step
      obtain ⟨rfl, rfl⟩ := processSysTx_of_succeeds hrun (hnonce ▸ hstep)
      cases hcase : rest with
      | nil =>
        refine ⟨by simp, ?_⟩
        simp only [length_cons, length_nil]
        omega
      | cons second rest' =>
        have hne : rest ≠ [] := by rw [hcase]; exact cons_ne_nil _ _
        obtain ⟨heq, hlast, hfits⟩ := ih hwell' (by omega) next hrest hne
        rw [← hcase, dropLast_cons_of_ne_nil hne]
        refine ⟨?_, ?_⟩
        · intro e he
          rcases mem_cons.mp he with rfl | he
          · rfl
          · exact hlast e he
        · rw [length_cons]
          omega
    | reverts params hrun next =>
      -- the nonce of the event behind it is too high
      have hsame := processSysTx_of_reverts hrun (hnonce ▸ hstep)
      rw [← hsame.1, ← hsame.2] at next
      cases hcase : rest with
      | nil =>
        refine ⟨by simp, ?_⟩
        simp only [length_cons, length_nil]
        omega
      | cons second rest' =>
        have hne : rest ≠ [] := by rw [hcase]; exact cons_ne_nil _ _
        obtain ⟨heq, -, -⟩ := ih (hsame.2 ▸ hwell) (by rw [hsame.2]; exact hrange) next hrest hne
        rw [hsame.2, hnonce] at heq
        omega

/-- If only the last event may revert and the nonces fit, the loop returns. -/
theorem loop_of_condition (hleaves : LeavesSigner env.executor) :
    ∀ {l : SysTxState A H Key L τ}, LoopState env l → Plays env info l.evm l.workingSet.evm events →
      (∀ e ∈ events.dropLast, e.2 = false) →
      signerNonce env l.workingSet.evm + events.length ≤ 2 ^ 64 →
      ∃ r, (sysTxItems env events (signerNonce env l.workingSet.evm)).foldlM
          (processSysTx env info) l = .ok r ∧
        r.allTxs = l.allTxs ++ keptTxs env events (signerNonce env l.workingSet.evm) ∧
        applyEach env info (keptTxs env events (signerNonce env l.workingSet.evm)) l.evm
          l.workingSet = .ok (r.evm, r.workingSet) := by
  induction events with
  | nil => exact fun {l} _ _ _ _ => ⟨l, rfl, (append_nil _).symm, rfl⟩
  | cons item rest ih =>
    obtain ⟨event, flag⟩ := item
    intro l hl hplays hlast hfits
    have hitems : sysTxItems env ((event, flag) :: rest) (signerNonce env l.workingSet.evm) =
      (signedSystemTransaction env event (signerNonce env l.workingSet.evm), event.isDeposit) ::
        sysTxItems env rest ((signerNonce env l.workingSet.evm + 1) % 2 ^ 64) := rfl
    rw [hitems, foldlM_cons]
    rw [length_cons] at hfits
    cases hplays with
    | @succeeds _ m₁ _ store₁ _ _ hrun next =>
      obtain ⟨hwell', hbumped⟩ := signerNonce_systemCall hleaves hl.well hrun
      obtain ⟨ws', happlied, rfl, -, hnonce', hready'⟩ := applySovTx_of_ok hl.ready hrun
      let tx := signedSystemTransaction env event (signerNonce env l.workingSet.evm)
      let l' : SysTxState A H Key L τ := ⟨l.nonce + 1, m₁, ws', l.allTxs ++ [tx]⟩
      have hstep : processSysTx env info l (tx, event.isDeposit) = .ok l' :=
        processSysTx_of_applied (hl.nonce ▸ happlied)
      have hkept : keptTxs env ((event, false) :: rest) (signerNonce env l.workingSet.evm) =
        tx :: keptTxs env rest ((signerNonce env l.workingSet.evm + 1) % 2 ^ 64) := rfl
      rw [hstep, hkept]
      cases hcase : rest with
      | nil =>
        refine ⟨l', rfl, rfl, ?_⟩
        show (applySovTx env info _ l.evm l.workingSet >>= fun r => pure r) = _
        rw [bind_pure, happlied]
      | cons second rest' =>
        have hne : rest ≠ [] := by rw [hcase]; exact cons_ne_nil _ _
        have hpos : 0 < rest.length := length_pos_iff.mpr hne
        -- the next nonce does not wrap, so the system signer has it
        have hsigner : signerNonce env ws'.evm =
            (signerNonce env l.workingSet.evm + 1) % 2 ^ 64 := by omega
        have hrange' : signerNonce env ws'.evm < 2 ^ 64 := by omega
        have hfits' : signerNonce env ws'.evm + rest.length ≤ 2 ^ 64 := by omega
        have hl' : LoopState env l' := ⟨hready', by rw [hnonce', ← hl.nonce], hwell', hrange'⟩
        rw [dropLast_cons_of_ne_nil hne] at hlast
        obtain ⟨r, hfold, htxs, heach⟩ := ih hl' next
          (fun e he => hlast e (mem_cons_of_mem _ he)) hfits'
        rw [← hcase, ← hsigner]
        refine ⟨r, hfold, ?_, ?_⟩
        · rw [htxs, append_assoc, singleton_append]
        · rw [applyEach, foldlM_cons, happlied]
          exact heach
    | reverts params hrun next =>
      have hstep := processSysTx_of_reverted (l := l) (hl.nonce ▸ applySovTx_of_err hl.ready hrun)
      have hrest : rest = [] := by
        by_contra hne
        rw [dropLast_cons_of_ne_nil hne] at hlast
        exact nomatch hlast _ (mem_cons_self ..)
      subst hrest
      show ∃ r, (processSysTx env info l (_, true) >>= _) = .ok r ∧ _
      rw [hstep]
      exact ⟨_, rfl, (append_nil _).symm, rfl⟩

/-! ### The block -/

/-- Transactions that succeed one by one also succeed in one call message, with the same receipts
and the same state. -/
theorem executeCall_of_applyEach (hcfg : ws.evm.cfg = some cfg)
    (h : applyEach env info txs m ws = .ok (m', ws')) :
    executeCall env info txs m ws.evm = .ok (m', ws'.evm) ∧ ws'.ruleData = ws.ruleData := by
  induction txs generalizing m ws with
  | nil =>
    obtain ⟨rfl, rfl⟩ := Prod.mk.inj (pure_eq_ok.mp h)
    exact ⟨executeCall_nil hcfg, rfl⟩
  | cons tx rest ih =>
    rw [applyEach, foldlM_cons, bind_eq_ok] at h
    obtain ⟨⟨m₁, ws₁⟩, hfirst, hrest⟩ := h
    obtain ⟨hrun, hrule, -⟩ := applySovTx_ok hfirst
    obtain ⟨hnext, hrule'⟩ := ih ((executeCall_frame hrun).2.1.trans hcfg) hrest
    exact ⟨executeCall_append hrun hnext, hrule'.trans hrule⟩

/-- The rollup transaction of the block succeeds, if its transactions succeed one by one. -/
theorem applyL2BlockTxs_of_applyEach (hcfg : ws.evm.cfg = some cfg)
    (h : applyEach env info txs m ws = .ok (m', ws')) :
    ∃ ws'', applyL2BlockTxs env info (encodeAndSignEvmTxsIntoSovTxs env ws txs) m ws =
        .ok (m', ws'') ∧ ws''.evm = ws'.evm ∧ ws''.ruleData = ws'.ruleData := by
  obtain ⟨hrun, hrule⟩ := executeCall_of_applyEach hcfg h
  cases txs with
  | nil =>
    obtain ⟨rfl, rfl⟩ := Prod.mk.inj (pure_eq_ok.mp h)
    exact ⟨ws, rfl, rfl, rfl⟩
  | cons tx rest =>
    rw [applyEach, foldlM_cons, bind_eq_ok] at h
    obtain ⟨_, hfirst, -⟩ := h
    -- the first transaction alone has shown that the accounts module takes it
    have hready := ((applySovTx_ok hfirst).2.2 rfl).1
    obtain ⟨ws'', happlied, hevm, hrule'', -, -⟩ := applySovTx_of_ok hready hrun
    refine ⟨ws'', ?_, hevm, hrule''.trans hrule.symm⟩
    show (applySovTx env info _ m ws >>= fun r => pure r) = _
    rw [bind_pure]
    exact happlied

/-- A failing deposit and block production. Take any events whose transactions, run one after the
other with the right nonces, succeed, except for deposits that revert. `process_sys_txs` returns the
transactions of the events without the reverting deposits and the working set after them, and the
block that is built from them executes, exactly if no reverting deposit has an event behind it and
the nonces of the system signer fit into 64 bits. -/
theorem processSysTxs_iff (hleaves : LeavesSigner env.executor) (hready : Ready env ws)
    (hwell : WellIndexed ws.evm.state) (hrange : signerNonce env ws.evm < 2 ^ 64)
    {cfg : EvmChainConfig A} (hcfg : ws.evm.cfg = some cfg) (events : List (SystemEvent × Bool))
    (hplays : Plays env info m ws.evm events) :
    (∃ r, processSysTxs env info (events.map Prod.fst) (getNonce env ws) m ws = .ok r ∧
      r.allTxs = keptTxs env events (signerNonce env ws.evm) ∧
      applyEach env info r.allTxs m ws = .ok (r.evm, r.workingSet) ∧
      ∃ final, applyL2BlockTxs env info (encodeAndSignEvmTxsIntoSovTxs env ws r.allTxs) m ws =
        .ok final) ↔
    (∀ e ∈ events.dropLast, e.2 = false) ∧ signerNonce env ws.evm + events.length ≤ 2 ^ 64 := by
  have hprocess : processSysTxs env info (events.map Prod.fst) (getNonce env ws) m ws =
      (sysTxItems env events (signerNonce env ws.evm)).foldlM (processSysTx env info)
        ⟨getNonce env ws, m, ws, []⟩ := by
    rw [processSysTxs, run_accountInfo, hcfg]
    rfl
  rw [hprocess]
  constructor
  · rintro ⟨r, hloop, -⟩
    by_cases hempty : events = []
    · subst hempty
      refine ⟨by simp, ?_⟩
      rw [length_nil]
      omega
    · exact (condition_of_loop hleaves hwell hrange hplays hloop hempty).2
  · rintro ⟨hlast, hfits⟩
    obtain ⟨r, hloop, htxs, heach⟩ := loop_of_condition hleaves
      (l := ⟨getNonce env ws, m, ws, []⟩) ⟨hready, rfl, hwell, hrange⟩ hplays hlast hfits
    rw [nil_append] at htxs
    rw [← htxs] at heach
    obtain ⟨ws'', hblock, -, -⟩ := applyL2BlockTxs_of_applyEach hcfg heach
    exact ⟨r, hloop, htxs, heach, _, hblock⟩

end

/-! ### Two blocks with deposits -/

/-- A sequencer over the addresses of `sampleExecutor`. A system transaction is a call that does
nothing, and the deposit with the parameter 1 reverts. -/
def sampleSequencer : SequencerEnv (Fin 8) Nat Unit Nat Unit where
  executor :=
    { sampleExecutor with
      revm :=
        { validateEnv := fun _ _ => none
          interpret := fun _ tx => .done (tx.data ≠ [9, 9, 9, 9, 1]) 0 (zero_le_gasLimit tx) } }
  contracts :=
    { bridgeWrapper := 7
      init := fun _ => [5, 6, 7, 8]
      setBlockInfo := fun _ _ _ => [1, 2, 3, 4]
      bridgeInit := fun params => [8, 8, 8, 8] ++ params
      deposit := fun params => [9, 9, 9, 9] ++ params }
  shortHeaderProofs := fun _ => none
  offchain := noHints
  logs := fun _ tx _ _ => [tx.nonce]
  calculateNextBlockBaseFee := fun _ _ _ _ _ => 1
  sealHash := fun block => leBytes 8 block.number
  bodyRoots := fun _ => []
  toAddress := fun _ => []
  pubKey := ()

def sampleInfo : L2BlockInfo := ⟨1, [], .tangerine, 2, 100⟩

/-- The module at the start of the first block. -/
def sampleModule : EvmModule (Fin 8) Nat :=
  ⟨[], { sampleBlock with gasLimit := 10000000 }, false⟩

/-- A state with a configuration and no accounts. -/
def configuredWorkingSet : WorkingSet (Fin 8) Nat Unit Nat Unit where
  accounts := fun _ => none
  publicKeys := fun _ => none
  evm :=
    { cfg := some ⟨1, 6, 10000000⟩
      head := none
      state := fun _ => none
      offchain := ()
      receipts := [] }
  ruleData := none

theorem sampleSequencer_leavesSigner : LeavesSigner sampleSequencer.executor :=
  fun _ _ _ _ => trivial

theorem configured_wellIndexed : WellIndexed configuredWorkingSet.evm.state := by
  constructor
  · intro a b idx ha
    exact nomatch ha
  · intro a idx ha
    exact nomatch ha

/-- The deposit with the parameter 1 reverts on the start state. -/
theorem sample_reverts : systemCall sampleSequencer sampleInfo (.bridgeDeposit [1])
    (signerNonce sampleSequencer configuredWorkingSet.evm) sampleModule configuredWorkingSet.evm =
      err .evmSystemTransactionNotSuccessful := by
  have hrun : (systemCall sampleSequencer sampleInfo (.bridgeDeposit [1])
      (signerNonce sampleSequencer configuredWorkingSet.evm) sampleModule
      configuredWorkingSet.evm).map (fun _ => ()) =
        .error (.error .evmSystemTransactionNotSuccessful) := by decide +kernel
  exact Outcome.map_eq_error.mp hrun

/-- A deposit that succeeds, and then one that reverts. -/
def lastReverts : List (SystemEvent × Bool) :=
  [(.bridgeDeposit [0], false), (.bridgeDeposit [1], true)]

/-- The theorem applied to two deposits of which the second one reverts: the first one is returned,
and the block executes. -/
theorem last_deposit_left_out :
    ∃ r, processSysTxs sampleSequencer sampleInfo (lastReverts.map Prod.fst) 0 sampleModule
        configuredWorkingSet = .ok r ∧
      r.allTxs = [signedSystemTransaction sampleSequencer (.bridgeDeposit [0]) 0] ∧
      ∃ final, applyL2BlockTxs sampleSequencer sampleInfo
        (encodeAndSignEvmTxsIntoSovTxs sampleSequencer configuredWorkingSet r.allTxs)
        sampleModule configuredWorkingSet = .ok final := by
  have hfirst : (systemCall sampleSequencer sampleInfo (.bridgeDeposit [0])
      (signerNonce sampleSequencer configuredWorkingSet.evm) sampleModule
      configuredWorkingSet.evm).map (fun r => ((systemCall sampleSequencer sampleInfo
        (.bridgeDeposit [1]) (signerNonce sampleSequencer r.2) r.1 r.2).map (fun _ => ()))) =
      .ok (.error (.error .evmSystemTransactionNotSuccessful)) := by decide +kernel
  obtain ⟨⟨m₁, store₁⟩, hrun, hsecond⟩ := map_eq_ok.mp hfirst
  have hplays : Plays sampleSequencer sampleInfo sampleModule configuredWorkingSet.evm
      lastReverts :=
    .succeeds _ hrun (.reverts _ (Outcome.map_eq_error.mp hsecond) (.nil ..))
  obtain ⟨r, hprocess, htxs, -, hblock⟩ := (processSysTxs_iff sampleSequencer_leavesSigner
    (fun _ => rfl) configured_wellIndexed (by decide +kernel) rfl lastReverts hplays).mpr
    ⟨by decide, by decide +kernel⟩
  exact ⟨r, hprocess, htxs, hblock⟩

/-- The first of two deposits reverts. The second one would succeed with the nonce 0 that the system
signer still has, but it was made with the nonce 1. `process_sys_txs` returns an error. -/
theorem second_deposit_stops :
    LeavesSigner sampleSequencer.executor ∧ Ready sampleSequencer configuredWorkingSet ∧
    WellIndexed configuredWorkingSet.evm.state ∧
    configuredWorkingSet.evm.cfg = some ⟨1, 6, 10000000⟩ ∧
    Plays sampleSequencer sampleInfo sampleModule configuredWorkingSet.evm
      [(.bridgeDeposit [1], true), (.bridgeDeposit [0], false)] ∧
    processSysTxs sampleSequencer sampleInfo [.bridgeDeposit [1], .bridgeDeposit [0]] 0
      sampleModule configuredWorkingSet = err "Failed to apply system transaction" := by
  refine ⟨sampleSequencer_leavesSigner, fun _ => rfl, configured_wellIndexed, rfl, ?_, ?_⟩
  · have hsecond : (systemCall sampleSequencer sampleInfo (.bridgeDeposit [0])
        (signerNonce sampleSequencer configuredWorkingSet.evm) sampleModule
        configuredWorkingSet.evm).map (fun _ => ()) = .ok () := by decide +kernel
    obtain ⟨⟨m₁, store₁⟩, hrun, -⟩ := map_eq_ok.mp hsecond
    exact .reverts _ sample_reverts (.succeeds _ hrun (.nil ..))
  · have hrun : (processSysTxs sampleSequencer sampleInfo
        [.bridgeDeposit [1], .bridgeDeposit [0]] 0 sampleModule configuredWorkingSet).map
          (fun _ => ()) = .error (.error "Failed to apply system transaction") := by decide +kernel
    exact Outcome.map_eq_error.mp hrun

end Citrea.Proofs.Sequencer
