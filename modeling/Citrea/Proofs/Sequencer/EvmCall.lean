import Citrea.Proofs.Evm.SystemSigner
import Citrea.Spec.Sequencer.Runtime

/-!
# `Citrea.Proofs.Sequencer.EvmCall`: call messages and their receipts

`executeCall_append`: two call messages one after the other do the same as one call message with the
transactions of both. A call message takes the gas and the index of the next log from the last
pending transaction, so it goes on where the loop of the call message before it stopped.

`other_executeCall`: a call message writes accounts, slots and code only.
-/

set_option linter.unusedSectionVars false

namespace Citrea.Proofs.Sequencer

open List Lib
open Lib.StoreProg (run mapStore HintBackend)
open Spec.Bitcoin (Bytes32)
open Spec.Evm hiding executeCall applySovTx
open Spec.Sequencer Proofs.Evm
open Std (TransOrd LawfulEqOrd)

/-! ### One transaction -/

section
variable {A H : Type} [Ord A] [Ord H] [TransOrd A] [LawfulEqOrd A] [TransOrd H] [LawfulEqOrd H]
  [DecidableEq A] [DecidableEq H] {env : ExecutorEnv A H} {τ : Type} {O : HintBackend H Bytecode τ}
  {block : BlockEnv A} {l1FeeRate l2Height : Nat} {s s' : ExecState} {tx : RecoveredTx A}
  {st st' : StateStore A H} {t t' : τ} {ledger : Bytes32 → Option Bytes}
  {queried : List (Nat × Bytes32)}

/-- The checks before a transaction neither use nor change the results so far. -/
theorem beforeTransact_results
    (h : run mapStore O (beforeTransact env l2Height s tx) st t = .ok (s', st', t')) :
    s'.cumulativeGasUsed = s.cumulativeGasUsed ∧ s'.txResults = s.txResults ∧
    ∀ results,
      run mapStore O (beforeTransact env l2Height { s with txResults := results } tx) st t =
      .ok ({ s' with txResults := results }, st', t') := by
  simp only [beforeTransact, checkSigner, run_bind_eq_ok, run_ofOutcome_eq_ok,
    run_pure_eq_ok] at h ⊢
  obtain ⟨s₁, st₁, t₁, hsigner, u, _, _, hkind, rfl, rfl, rfl⟩ := h
  split_ifs at hsigner ⊢ with hcaller
  · simp only [run_bind_eq_ok, run_ofOutcome_eq_ok, run_pure_eq_ok] at hsigner ⊢
    obtain ⟨_, _, _, hend, provider, _, _, hverify, rfl, rfl, rfl⟩ := hsigner
    refine ⟨rfl, rfl, fun results => ?_⟩
    exact ⟨_, _, _, ⟨_, _, _, hend, provider, _, _, hverify, rfl, rfl, rfl⟩, _, _, _,
      hkind, rfl, rfl,
      rfl⟩
  · rw [run_pure, Except.ok.injEq] at hsigner
    cases hsigner
    refine ⟨rfl, rfl, fun results => ?_⟩
    exact ⟨_, _, _, rfl, _, _, _, hkind, rfl, rfl, rfl⟩

/-- A transaction adds its gas and its result, whatever the results before it are. -/
theorem executeTx_results
    (h : run mapStore O (executeTx env block l1FeeRate l2Height s tx) st t = .ok (s', st', t')) :
    ∃ result : ExecutionResult, s'.cumulativeGasUsed = s.cumulativeGasUsed + result.gasUsed ∧
      s'.txResults = s.txResults ++ [result] ∧
      ∀ results, run mapStore O (executeTx env block l1FeeRate l2Height
          { s with txResults := results } tx) st t =
        .ok ({ s' with txResults := results ++ [result] }, st', t') := by
  simp only [executeTx, run_bind_eq_ok, run_mapError_eq_ok, run_ofOutcome_eq_ok, ensure_eq_ok,
    run_pure_eq_ok] at h ⊢
  obtain ⟨s₁, _, _, hbefore, result, _, _, htransact, _, _, _, ⟨hsuccess, rfl, rfl⟩, _, _, _,
    ⟨hgas, rfl, rfl⟩, _, _, _, hcommit, rfl, rfl, rfl⟩ := h
  obtain ⟨hcumulative, hresults, hany⟩ := beforeTransact_results hbefore
  refine ⟨⟨result.success, result.gasUsed, result.l1DiffSize⟩, by rw [← hcumulative],
    by rw [← hresults], fun results => ?_⟩
  exact ⟨_, _, _, hany results, _, _, _, htransact, (), _, _, ⟨hsuccess, rfl, rfl⟩, (), _, _,
    ⟨hgas, rfl, rfl⟩, (), _, _, hcommit, rfl, rfl, rfl⟩

/-- A native provider that does not save the hashes stays as it is. -/
theorem executeTx_provider (hs : s.provider = .native ledger false queried)
    (h : run mapStore O (executeTx env block l1FeeRate l2Height s tx) st t = .ok (s', st', t')) :
    s'.provider = .native ledger false queried := by
  obtain ⟨s₁, _, _, _, hbefore, -, -, -, hprovider, -⟩ := executeTx_ok env h
  rw [hprovider]
  rcases (beforeTransact_ok env hbefore).2.2 with heq | ⟨update, hverified⟩
  · rw [heq, hs]
  · rw [hs, ShortHeaderProofProvider.getAndVerify] at hverified
    split at hverified
    · exact nomatch hverified
    · simp only [bind_eq_ok, pure_eq_ok, Bool.false_eq_true, and_false, if_false,
        Prod.mk.injEq] at hverified
      obtain ⟨_, -, -, heq⟩ := hverified
      exact heq.symm

end

/-! ### The transactions of a call message -/

section
variable {A H Key L τ : Type} [Ord A] [Ord H] [TransOrd A] [LawfulEqOrd A] [TransOrd H]
  [LawfulEqOrd H] [DecidableEq A] [DecidableEq H] {env : SequencerEnv A H Key L τ}
  {info : L2BlockInfo} {block : BlockEnv A} {s s' : ExecState} {st st' : StateStore A H} {t t' : τ}
  {txs : List (RecoveredTx A)} {logs : List (List L)} {txs₁ txs₂ : List (RecoveredTx A)}
  {logs₁ logs₂ : List (List L)} {results : List ExecutionResult}

/-- The gas of a list of results. -/
def totalGas (results : List ExecutionResult) : Nat := (results.map ExecutionResult.gasUsed).sum

/-- The number of logs of a list of transactions. -/
def totalLogs (logs : List (List L)) : Nat := (logs.map List.length).sum

/-- What the transactions of a call message add, whatever the results before them are. -/
structure Adds (env : SequencerEnv A H Key L τ) (block : BlockEnv A) (info : L2BlockInfo)
    (txs : List (RecoveredTx A)) (s : ExecState) (st : StateStore A H) (t : τ)
    (logs : List (List L)) (s' : ExecState) (st' : StateStore A H) (t' : τ)
    (results : List ExecutionResult) : Prop where
  provider : s'.provider = s.provider
  lengthResults : results.length = txs.length
  lengthLogs : logs.length = txs.length
  gas : s'.cumulativeGasUsed = s.cumulativeGasUsed + totalGas results
  txResults : s'.txResults = s.txResults ++ results
  any : ∀ before, executeTxs env block info txs { s with txResults := before } st t =
    .ok (logs, { s' with txResults := before ++ results }, st', t')

theorem executeTxs_adds (hs : s.provider = env.provider)
    (h : executeTxs env block info txs s st t = .ok (logs, s', st', t')) :
    ∃ results, Adds env block info txs s st t logs s' st' t' results := by
  induction txs generalizing s st t logs with
  | nil =>
    simp only [executeTxs, pure_eq_ok, Prod.mk.injEq] at h
    obtain ⟨rfl, rfl, rfl, rfl⟩ := h
    refine ⟨[], rfl, rfl, rfl, rfl, (append_nil _).symm, fun before => ?_⟩
    rw [executeTxs, append_nil]
    rfl
  | cons tx rest ih =>
    simp only [executeTxs, bind_eq_ok, pure_eq_ok, Prod.mk.injEq] at h
    obtain ⟨⟨s₁, st₁, t₁⟩, htx, ⟨restLogs, tail⟩, hrest, rfl, rfl⟩ := h
    obtain ⟨result, hgas, hresults, hany⟩ := executeTx_results htx
    have hs₁ : s₁.provider = env.provider := executeTx_provider hs htx
    obtain ⟨results, hadds⟩ := ih hs₁ hrest
    refine ⟨result :: results, hadds.provider.trans (hs₁.trans hs.symm), ?_, ?_, ?_, ?_, ?_⟩
    · rw [length_cons, hadds.lengthResults, length_cons]
    · rw [length_cons, hadds.lengthLogs, length_cons]
    · rw [hadds.gas, hgas, totalGas, totalGas, map_cons, sum_cons, Nat.add_assoc]
    · rw [hadds.txResults, hresults, append_assoc, singleton_append]
    · intro before
      simp only [executeTxs, bind_eq_ok, pure_eq_ok]
      refine ⟨_, hany before, _, hadds.any (before ++ [result]), ?_⟩
      rw [append_assoc, singleton_append]

theorem executeTxs_append {s₁ s₂ : ExecState} {st₁ st₂ : StateStore A H} {t₁ t₂ : τ}
    (h₁ : executeTxs env block info txs₁ s st t = .ok (logs₁, s₁, st₁, t₁))
    (h₂ : executeTxs env block info txs₂ s₁ st₁ t₁ = .ok (logs₂, s₂, st₂, t₂)) :
    executeTxs env block info (txs₁ ++ txs₂) s st t = .ok (logs₁ ++ logs₂, s₂, st₂, t₂) := by
  induction txs₁ generalizing s st t logs₁ with
  | nil =>
    simp only [executeTxs, pure_eq_ok, Prod.mk.injEq] at h₁
    obtain ⟨rfl, rfl, rfl, rfl⟩ := h₁
    exact h₂
  | cons tx rest ih =>
    simp only [executeTxs, bind_eq_ok, pure_eq_ok, Prod.mk.injEq] at h₁
    obtain ⟨next, htx, ⟨restLogs, tail⟩, hrest, rfl, rfl⟩ := h₁
    simp only [cons_append, executeTxs, bind_eq_ok, pure_eq_ok]
    exact ⟨next, htx, _, ih hrest, rfl⟩

/-! ### The receipts -/

theorem toPending_append (number : Nat) {results₁ results₂ : List ExecutionResult}
    (hresults : results₁.length = txs₁.length) (hlogs : logs₁.length = txs₁.length)
    (gas index : Nat) :
    toPending number (txs₁ ++ txs₂) (results₁ ++ results₂) (logs₁ ++ logs₂) gas index =
      toPending number txs₁ results₁ logs₁ gas index ++
        toPending number txs₂ results₂ logs₂ (gas + totalGas results₁)
            (index + totalLogs logs₁) := by
  induction txs₁ generalizing results₁ logs₁ gas index with
  | nil =>
    obtain rfl := length_eq_zero_iff.mp hresults
    obtain rfl := length_eq_zero_iff.mp hlogs
    rfl
  | cons tx rest ih =>
    cases results₁ with
    | nil => exact nomatch hresults
    | cons result results =>
      cases logs₁ with
      | nil => exact nomatch hlogs
      | cons log logs =>
        have htail := ih (Nat.succ.inj hresults) (Nat.succ.inj hlogs) (gas + result.gasUsed)
          (index + log.length)
        simp only [cons_append, toPending, htail, totalGas, totalLogs, map_cons,
          sum_cons, Nat.add_assoc]

/-- The transactions that are pushed are the ones that ran. -/
theorem map_tx_toPending (number : Nat) (hresults : results.length = txs.length)
    (hlogs : logs.length = txs.length) (gas index : Nat) :
    (toPending number txs results logs gas index).map PendingTransaction.tx = txs := by
  induction txs generalizing results logs gas index with
  | nil =>
    obtain rfl := length_eq_zero_iff.mp hresults
    rfl
  | cons tx rest ih =>
    cases results with
    | nil => exact nomatch hresults
    | cons result results =>
      cases logs with
      | nil => exact nomatch hlogs
      | cons log logs =>
        rw [toPending, map_cons, ih (Nat.succ.inj hresults) (Nat.succ.inj hlogs)]

/-- The last pending transaction has the gas and the logs of all. -/
theorem totals_toPending {m : EvmModule A L} (number : Nat)
    (hresults : results.length = txs.length) (hlogs : logs.length = txs.length) : let m' := { m with
      pendingTransactions := m.pendingTransactions ++
        toPending number txs results logs m.cumulativeGasUsed m.logIndexStart }
    m'.cumulativeGasUsed = m.cumulativeGasUsed + totalGas results ∧
      m'.logIndexStart = m.logIndexStart + totalLogs logs := by
  induction txs generalizing m results logs with
  | nil =>
    obtain rfl := length_eq_zero_iff.mp hresults
    obtain rfl := length_eq_zero_iff.mp hlogs
    simp [toPending, totalGas, totalLogs]
  | cons tx rest ih =>
    cases results with
    | nil => exact nomatch hresults
    | cons result results =>
      cases logs with
      | nil => exact nomatch hlogs
      | cons log logs =>
        let receipt : Receipt L :=
          ⟨result.success, m.cumulativeGasUsed + result.gasUsed, log, result.gasUsed,
            m.logIndexStart,
            result.l1DiffSize⟩
        -- the module after the first transaction
        let m₁ : EvmModule A L :=
          { m with pendingTransactions := m.pendingTransactions ++ [⟨tx, number, receipt⟩] }
        have hgas : m₁.cumulativeGasUsed = m.cumulativeGasUsed + result.gasUsed := by
          simp [m₁, receipt, EvmModule.cumulativeGasUsed]
        have hindex : m₁.logIndexStart = m.logIndexStart + log.length := by
          simp [m₁, receipt, EvmModule.logIndexStart]
        have htail := ih (m := m₁) (Nat.succ.inj hresults) (Nat.succ.inj hlogs)
        dsimp only at htail ⊢
        rw [hgas, hindex] at htail
        simp only [m₁, append_assoc, singleton_append] at htail
        simp only [toPending, totalGas, totalLogs, map_cons, sum_cons, ← Nat.add_assoc]
        exact htail

/-! ### Call messages -/

variable {m m' : EvmModule A L} {store store' : EvmStore A H L τ}

/-- The variables at the start of the loop of a call message. -/
def startState (env : SequencerEnv A H Key L τ) (m : EvmModule A L) : ExecState :=
  ⟨env.provider, m.shouldBeEndOfSysTxs, m.cumulativeGasUsed, []⟩

/-- The block environment of a call message. -/
abbrev callBlock (cfg : EvmChainConfig A) (m : EvmModule A L) : BlockEnv A :=
  { m.blockEnv with chainId := cfg.chainId }

/-- The module after a call message. -/
def afterCall (m : EvmModule A L) (txs : List (RecoveredTx A)) (s : ExecState)
    (logs : List (List L)) : EvmModule A L :=
  { m with
    shouldBeEndOfSysTxs := s.shouldBeEndOfSysTxs
    pendingTransactions := m.pendingTransactions ++
      toPending m.blockEnv.number txs s.txResults logs m.cumulativeGasUsed m.logIndexStart }

/-- A call message returns exactly if its transactions do. -/
theorem executeCall_eq_ok {txs : List (RecoveredTx A)} :
    executeCall env info txs m store = .ok (m', store') ↔ ∃ cfg logs s st t, store.cfg = some cfg ∧
      executeTxs env (callBlock cfg m) info txs (startState env m) store.state store.offchain =
        .ok (logs, s, st, t) ∧
      m' = afterCall m txs s logs ∧ store' = { store with state := st, offchain := t } := by
  simp only [executeCall, bind_eq_ok, expect_eq_ok, pure_eq_ok, Prod.mk.injEq]
  constructor
  · rintro ⟨cfg, hcfg, ⟨logs, s, st, t⟩, hrun, rfl, rfl⟩
    exact ⟨cfg, logs, s, st, t, hcfg, hrun, rfl, rfl⟩
  · rintro ⟨cfg, logs, s, st, t, hcfg, hrun, rfl, rfl⟩
    exact ⟨cfg, hcfg, ⟨logs, s, st, t⟩, hrun, rfl, rfl⟩

/-- A call message pushes its transactions and touches neither the configuration nor the head. -/
theorem executeCall_frame {txs : List (RecoveredTx A)}
    (h : executeCall env info txs m store = .ok (m', store')) :
    m'.blockEnv = m.blockEnv ∧ store'.cfg = store.cfg ∧ store'.head = store.head ∧
      store'.receipts = store.receipts ∧ m'.pendingTransactions.map PendingTransaction.tx =
        m.pendingTransactions.map PendingTransaction.tx ++ txs := by
  obtain ⟨cfg, logs, s, st, t, -, hrun, rfl, rfl⟩ := executeCall_eq_ok.mp h
  obtain ⟨results, hadds⟩ := executeTxs_adds rfl hrun
  refine ⟨rfl, rfl, rfl, rfl, ?_⟩
  have hresults : s.txResults = results := hadds.txResults
  show (m.pendingTransactions ++ toPending _ txs s.txResults logs _ _).map _ = _
  rw [map_append, hresults, map_tx_toPending _ hadds.lengthResults hadds.lengthLogs]

/-- Two call messages one after the other are one call message with all transactions. -/
theorem executeCall_append {txs₁ txs₂ : List (RecoveredTx A)} {m₁ m₂ : EvmModule A L}
    {store₁ store₂ : EvmStore A H L τ} (h₁ : executeCall env info txs₁ m store = .ok (m₁, store₁))
    (h₂ : executeCall env info txs₂ m₁ store₁ = .ok (m₂, store₂)) :
    executeCall env info (txs₁ ++ txs₂) m store = .ok (m₂, store₂) := by
  obtain ⟨cfg, logs₁, s₁, st₁, t₁, hcfg, hrun₁, rfl, rfl⟩ := executeCall_eq_ok.mp h₁
  obtain ⟨cfg₂, logs₂, s₂, st₂, t₂, hcfg₂, hrun₂, rfl, rfl⟩ := executeCall_eq_ok.mp h₂
  obtain rfl := some_unique hcfg₂ hcfg
  obtain ⟨results₁, hadds₁⟩ := executeTxs_adds rfl hrun₁
  obtain ⟨results₂, hadds₂⟩ := executeTxs_adds rfl hrun₂
  have hresults₁ : s₁.txResults = results₁ := hadds₁.txResults
  have hresults₂ : s₂.txResults = results₂ := hadds₂.txResults
  obtain ⟨hgas, hindex⟩ := totals_toPending (m := m) m.blockEnv.number hadds₁.lengthResults
    hadds₁.lengthLogs
  -- the second message starts with the variables with which the first one stopped
  have hstart : { startState env (afterCall m txs₁ s₁ logs₁) with txResults := results₁ } = s₁ := by
    obtain ⟨provider, flag, gas, results⟩ := s₁
    have hprovider : provider = env.provider := hadds₁.provider
    have htotal : gas = m.cumulativeGasUsed + totalGas results₁ := hadds₁.gas
    have hsame : results = results₁ := hresults₁
    subst hprovider hsame htotal
    exact congrArg (ExecState.mk _ _ · _) hgas
  have hnext := hadds₂.any results₁
  rw [hstart] at hnext
  refine executeCall_eq_ok.mpr ⟨cfg₂, logs₁ ++ logs₂, _, st₂, t₂, hcfg,
    executeTxs_append hrun₁ hnext,
    ?_, rfl⟩
  have hpending : (afterCall m txs₁ s₁ logs₁).pendingTransactions = m.pendingTransactions ++
      toPending m.blockEnv.number txs₁ results₁ logs₁ m.cumulativeGasUsed m.logIndexStart := by
    rw [← hresults₁]
    rfl
  have hgas₁ : (afterCall m txs₁ s₁ logs₁).cumulativeGasUsed =
      m.cumulativeGasUsed + totalGas results₁ := by
    rw [← hgas, EvmModule.cumulativeGasUsed, EvmModule.cumulativeGasUsed, hpending]
  have hindex₁ : (afterCall m txs₁ s₁ logs₁).logIndexStart = m.logIndexStart + totalLogs logs₁ := by
    rw [← hindex, EvmModule.logIndexStart, EvmModule.logIndexStart, hpending]
  simp only [afterCall] at hpending hgas₁ hindex₁ ⊢
  rw [hgas₁, hindex₁, hresults₂, hresults₁,
    toPending_append _ hadds₁.lengthResults hadds₁.lengthLogs, append_assoc]

/-- The empty call message. -/
theorem executeCall_nil {cfg : EvmChainConfig A} (hcfg : store.cfg = some cfg) :
    executeCall env info [] m store = .ok (m, store) := by
  refine executeCall_eq_ok.mpr ⟨cfg, [], startState env m, _, _, hcfg, rfl, ?_, rfl⟩
  simp [afterCall, toPending, startState]

/-- The transaction of a call message with one transaction. -/
theorem executeCall_singleton {tx : RecoveredTx A}
    (h : executeCall env info [tx] m store = .ok (m', store')) : ∃ cfg s, store.cfg = some cfg ∧
      run mapStore env.offchain (executeTx env.executor (callBlock cfg m) info.l1FeeRate
        info.l2Height
        (startState env m) tx) store.state store.offchain =
          .ok (s, store'.state, store'.offchain) := by
  obtain ⟨cfg, logs, s, st, t, hcfg, hrun, rfl, rfl⟩ := executeCall_eq_ok.mp h
  simp only [executeTxs, bind_eq_ok, pure_eq_ok, Prod.mk.injEq] at hrun
  obtain ⟨⟨s₁, st₁, t₁⟩, htx, _, rfl, -, heq⟩ := hrun
  obtain ⟨rfl, rfl, rfl⟩ : s₁ = s ∧ st₁ = st ∧ t₁ = t := by simpa using heq
  exact ⟨cfg, s₁, hcfg, htx⟩

/-- An error of a call message with one transaction. -/
theorem executeCall_singleton_err {tx : RecoveredTx A} {e : L2BlockModuleCallError}
    (h : executeCall env info [tx] m store = err e) : ∃ cfg, store.cfg = some cfg ∧
      run mapStore env.offchain (executeTx env.executor (callBlock cfg m) info.l1FeeRate
        info.l2Height
        (startState env m) tx) store.state store.offchain = err e := by
  rw [executeCall, Outcome.bind_eq_err] at h
  rcases h with h | ⟨cfg, hcfg, h⟩
  · cases hcfg : store.cfg with
    | none => rw [hcfg] at h; exact nomatch h
    | some cfg => rw [hcfg] at h; exact nomatch h
  · refine ⟨cfg, expect_eq_ok.mp hcfg, ?_⟩
    simp only [Outcome.bind_eq_err, executeTxs] at h
    rcases h with (h | ⟨_, -, h⟩) | ⟨_, -, h⟩
    · exact h
    · rcases h with h | ⟨_, -, h⟩ <;> exact nomatch h
    · exact nomatch h

end

end Citrea.Proofs.Sequencer
