import Citrea.Proofs.Sequencer.SystemTransactions

/-!
# `Citrea.Proofs.Sequencer.BlockProduction`: the dry run and the block

The dry run applies each transaction in a rollup transaction of its own, and the block has all of
them in one. `applyEach_dryRun` says what the dry run is: the transactions that it returns, applied
one by one. The skipped ones are not in it, so they leave no trace. With `executeCall_append` the
block comes to the same receipts and the same state.

`dryRun_predicts` is the main result. Up to the end hooks the block cannot fail. The dry run does
not run the end hooks, and the one of the rule enforcer can fail: too many blocks on one L1 block,
or a clock that went back. `clock_went_back` is a block of this kind. `InSync` is about the
accessory state: the receipts of the next block start where those of the head block end.
-/

set_option linter.unusedSectionVars false

namespace Citrea.Proofs.Sequencer

open List Lib
open Lib.StoreProg (run mapStore HintBackend)
open Spec.Bitcoin (Bytes32)
open Spec.Evm hiding executeCall applySovTx
open Spec.Sequencer Proofs.Evm
open Std (TransOrd LawfulEqOrd)

section
variable {A H Key L τ : Type} [Ord A] [Ord H] [TransOrd A] [LawfulEqOrd A] [TransOrd H]
  [LawfulEqOrd H] [DecidableEq A] [DecidableEq H] [DecidableEq Key] {env : SequencerEnv A H Key L τ}
  {info : L2BlockInfo} {m m' : EvmModule A L} {ws ws' : WorkingSet A H Key L τ}
  {txs : List (RecoveredTx A)} {store : EvmStore A H L τ} {nonce : UInt64}
  {events : List SystemEvent} {pool : List (RecoveredTx A)} {store' : EvmStore A H L τ}

/-! ### The dry run -/

/-- One more transaction, with any rollup nonce that the accounts module takes. -/
theorem applyEach_concat {m₁ m₂ : EvmModule A L} {ws₁ ws₂ : WorkingSet A H Key L τ}
    {tx : RecoveredTx A} (h : applyEach env info txs m ws = .ok (m₁, ws₁))
    (htx : applySovTx env info ⟨env.pubKey, nonce, [tx]⟩ m₁ ws₁ = .ok (m₂, ws₂)) :
    applyEach env info (txs ++ [tx]) m ws = .ok (m₂, ws₂) := by
  obtain rfl : nonce = getNonce env ws₁ := ((applySovTx_ok htx).2.2 rfl).2
  rw [applyEach] at h ⊢
  rw [foldlM_concat_eq_ok]
  exact ⟨_, h, htx⟩

/-- The transactions before a point also apply one by one. -/
theorem applyEach_of_append {txs₁ txs₂ : List (RecoveredTx A)}
    (h : applyEach env info (txs₁ ++ txs₂) m ws = .ok (m', ws')) :
    ∃ m₁ ws₁, applyEach env info txs₁ m ws = .ok (m₁, ws₁) := by
  rw [applyEach, foldlM_append, bind_eq_ok] at h
  obtain ⟨⟨m₁, ws₁⟩, hfirst, -⟩ := h
  exact ⟨m₁, ws₁, hfirst⟩

/-- The system transactions that are returned, applied one by one. -/
theorem applyEach_processSysTxs {r : SysTxState A H Key L τ}
    (h : processSysTxs env info events nonce m ws = .ok r) :
    applyEach env info r.allTxs m ws = .ok (r.evm, r.workingSet) := by
  simp only [processSysTxs, bind_eq_ok] at h
  obtain ⟨_, -, _, -, hloop⟩ := h
  refine foldlM_invariant
    (P := fun l : SysTxState A H Key L τ =>
      applyEach env info l.allTxs m ws = .ok (l.evm, l.workingSet)) ?_ hloop rfl
  intro item l l' hl hstep
  rcases processSysTx_ok hstep with ⟨evm, ws₁, happlied, rfl⟩ | ⟨-, rfl⟩
  · exact applyEach_concat hl happlied
  · exact hl

/-- The transactions that the loop over the pool accepts, applied one by one. -/
theorem applyEach_dryRunPool {m₀ : EvmModule A L} {ws₀ : WorkingSet A H Key L τ}
    {s r : DryRun A H Key L τ} (hs : applyEach env info s.allTxs m₀ ws₀ = .ok (s.evm, s.workingSet))
    (h : dryRunPool env info pool s = .ok r) :
    applyEach env info r.allTxs m₀ ws₀ = .ok (r.evm, r.workingSet) := by
  induction pool generalizing s with
  | nil =>
    obtain rfl := pure_eq_ok.mp h
    exact hs
  | cons tx rest ih =>
    simp only [dryRunPool, applyL2BlockTxs, foldlM_cons, foldlM_nil, bind_pure] at h
    split at h
    · next evm ws₁ happlied => exact ih (applyEach_concat hs happlied) h
    · cases h
    · cases h
    · -- a transaction that failed: the loop goes on with the same module and working set, or ends
      split at h
      · split_ifs at h
        · obtain rfl := pure_eq_ok.mp h
          exact hs
        · exact ih (by exact hs) h
      · exact ih (by exact hs) h
      · exact ih (by exact hs) h
      all_goals cases h

/-- What the dry run is: the begin hook, and then the transactions that it returns, one by one. -/
theorem applyEach_dryRun {dry : DryRun A H Key L τ}
    (h : dryRunTransactions env info events pool ws = .ok dry) :
    ∃ m₀ ws₀, (∀ {ε : Type}, (beginL2Block env info ws : Outcome ε _) = .ok (m₀, ws₀)) ∧
      applyEach env info dry.allTxs m₀ ws₀ = .ok (dry.evm, dry.workingSet) := by
  simp only [dryRunTransactions, bind_eq_ok] at h
  obtain ⟨⟨m₀, ws₀⟩, hbegin, s, hsys, hpool⟩ := h
  refine ⟨m₀, ws₀, ?_, applyEach_dryRunPool (applyEach_processSysTxs hsys) hpool⟩
  intro ε
  simpa only [beginL2Block, beginL2BlockHook, bind_eq_ok, expect_eq_ok, pure_eq_ok] using hbegin

/-! ### The hooks -/

/-- The state that the begin hook leaves, and that the end hook needs. -/
structure Begun (env : SequencerEnv A H Key L τ) (m : EvmModule A L) (store : EvmStore A H L τ) :
    Prop where
  cfg : ∃ cfg, store.cfg = some cfg
  head : ∃ parent, store.head = some parent ∧ m.blockEnv.number = parent.number + 1 ∧
    ∃ hash, store.state (blockhashKey env parent.number) = some hash

theorem begun_beginL2Block {ε : Type}
    (h : (beginL2Block env info ws : Outcome ε _) = .ok (m', ws')) :
    Begun env m' ws'.evm ∧ m'.pendingTransactions = [] ∧ ws'.ruleData = ws.ruleData ∧
      ws'.evm.receipts = ws.evm.receipts ∧
      ws'.evm.head.map Block.endTx = ws.evm.head.map Block.endTx := by
  simp only [beginL2Block, beginL2BlockHook, bind_eq_ok, expect_eq_ok,
    pure_eq_ok, Prod.mk.injEq] at h
  obtain ⟨_, ⟨head, hhead, cfg, hcfg, rfl⟩, rfl, rfl⟩ := h
  refine ⟨⟨⟨cfg, hcfg⟩, _, rfl, rfl, env.sealHash { head with stateRoot := some info.preStateRoot },
    ?_⟩, rfl, rfl, rfl, ?_⟩
  · exact Function.update_self ..
  · rw [hhead]
    rfl

/-- A call message writes no key of the other modules. -/
theorem other_executeCall (h : executeCall env info txs m store = .ok (m', store')) (key : Bytes) :
    store'.state (.other key) = store.state (.other key) := by
  obtain ⟨cfg, logs, s, st, t, -, hrun, -, rfl⟩ := executeCall_eq_ok.mp h
  have hloop : ∀ (txs : List (RecoveredTx A)) {s s' : ExecState} {st st' : StateStore A H}
      {t t' : τ}
      {logs : List (List L)}, executeTxs env (callBlock cfg m) info txs s st t =
        .ok (logs, s', st', t') → st' (.other key) = st (.other key) := by
    intro txs
    induction txs with
    | nil =>
      intro s s' st st' t t' logs h
      simp only [executeTxs, pure_eq_ok, Prod.mk.injEq] at h
      obtain ⟨-, -, rfl, -⟩ := h
      rfl
    | cons tx rest ih =>
      intro s s' st st' t t' logs h
      simp only [executeTxs, bind_eq_ok, pure_eq_ok, Prod.mk.injEq] at h
      obtain ⟨⟨s₁, st₁, t₁⟩, htx, ⟨restLogs, tail⟩, hrest, -, rfl⟩ := h
      obtain ⟨_, result, st₂, t₂, -, htransact, -, hcommit, -, -⟩ := executeTx_ok env.executor htx
      exact (ih hrest).trans ((other_commit env.executor.evm hcommit key).trans
        (congrFun (state_transact htransact) _))
  exact hloop txs hrun

theorem Begun.executeCall (h : Begun env m store)
    (hrun : executeCall env info txs m store = .ok (m', store')) : Begun env m' store' := by
  obtain ⟨hblock, hcfg, hhead, -, -⟩ := executeCall_frame hrun
  obtain ⟨parent, hparent, hnumber, hash, hhash⟩ := h.head
  refine ⟨hcfg ▸ h.cfg, parent, hhead.trans hparent, by rw [hblock, hnumber], hash, ?_⟩
  exact (other_executeCall hrun _).trans hhash

/-- The hash of the last L1 block in the light client contract. -/
def lastL1Hash (env : SequencerEnv A H Key L τ) (store : EvmStore A H L τ) : U256 :=
  let evm := env.executor.evm
  let height := storedSlot evm store.state evm.bitcoinLightClient (evm.slot 0)
  storedSlot evm store.state evm.bitcoinLightClient
    (evm.mappingSlot (U256.saturatingSub height 1) 1)

/-- The rules of the rule enforcer: there is room for a block on the last L1 block, and the clock
has not gone back. -/
structure RulesHold (env : SequencerEnv A H Key L τ) (info : L2BlockInfo)
    (ws : WorkingSet A H Key L τ) (data : RuleEnforcerData) : Prop where
  stored : ws.ruleData = some data
  count : U256.toBeBytes (lastL1Hash env ws.evm) = data.lastDaRootHash →
    data.counter + 1 ≤ data.maxL2BlocksPerL1
  clock : data.lastTimestamp ≤ info.timestamp

/-- The hook of the rule enforcer returns exactly if the rules hold, and changes only its own data.
-/
theorem hookHandler_iff :
    (∃ ws', hookHandler env info ws = .ok ws') ↔ ∃ data, RulesHold env info ws data := by
  have hread : run mapStore env.offchain (getLastL1HeightAndHashInLightClient env.executor.evm)
      ws.evm.state ws.evm.offchain = (.ok ((storedSlot env.executor.evm ws.evm.state
        env.executor.evm.bitcoinLightClient (env.executor.evm.slot 0), lastL1Hash env ws.evm),
        ws.evm.state, ws.evm.offchain) : Outcome L2BlockHookError _) := rfl
  simp only [hookHandler, hread, bind_eq_ok, expect_eq_ok, pure_eq_ok,
    Except.ok.injEq, exists_eq_left', applyTimestampRule, ensure_eq_ok]
  constructor
  · rintro ⟨_, data, hdata, counted, hcount, _, ⟨_, hclock, -⟩, -⟩
    rw [applyBlockCountRule] at hcount
    split_ifs at hcount with hsame
    · simp only [bind_eq_ok, ensure_eq_ok, pure_eq_ok] at hcount
      obtain ⟨_, hroom, rfl⟩ := hcount
      exact ⟨data, hdata, fun _ => hroom, hclock⟩
    · obtain rfl := pure_eq_ok.mp hcount
      exact ⟨data, hdata, fun heq => absurd heq hsame, hclock⟩
  · rintro ⟨data, hdata, hroom, hclock⟩
    have hcount : ∃ counted, applyBlockCountRule (U256.toBeBytes (lastL1Hash env ws.evm)) data =
        .ok counted ∧ counted.lastTimestamp = data.lastTimestamp := by
      rw [applyBlockCountRule]
      split_ifs with hsame
      · simp only [bind_eq_ok, ensure_eq_ok, pure_eq_ok]
        exact ⟨_, ⟨(), hroom hsame, rfl⟩, rfl⟩
      · exact ⟨_, rfl, rfl⟩
    obtain ⟨counted, hcount, hlast⟩ := hcount
    exact ⟨_, data, hdata, counted, hcount, _, ⟨(), hlast ▸ hclock, rfl⟩, rfl⟩

theorem evm_hookHandler (h : hookHandler env info ws = .ok ws') : ws'.evm = ws.evm := by
  simp only [hookHandler, bind_eq_ok, pure_eq_ok] at h
  obtain ⟨_, -, _, -, _, -, _, -, rfl⟩ := h
  rfl

/-! ### The receipts -/

/-- The receipts of the next block start where those of the head block end. -/
def InSync (store : EvmStore A H L τ) : Prop :=
  store.head.map Block.endTx = some store.receipts.length

/-- The elements of a list behind a first part, read by their indices. -/
theorem filterMap_range' {α : Type} (first second : List α) :
    (List.range' first.length second.length).filterMap ((first ++ second)[·]?) = second := by
  induction second generalizing first with
  | nil => rfl
  | cons a rest ih =>
    have htail := ih (first ++ [a])
    rw [append_assoc, singleton_append, length_append, length_singleton] at htail
    rw [length_cons, List.range'_succ, filterMap_cons,
      List.getElem?_append_right (by omega), Nat.sub_self, List.getElem?_cons_zero]
    exact congrArg (a :: ·) htail

/-- The end hook of the EVM after the transactions of a block. -/
theorem endL2BlockHook_ok (ε : Type) (info : L2BlockInfo) (hbegun : Begun env m store)
    (hsync : InSync store) :
    ∃ m' store', (endL2BlockHook env info m store : Outcome ε _) = .ok (m', store') ∧
      InSync store' ∧ (extractReceipts store' : Outcome ε _) =
        .ok (m.pendingTransactions.map PendingTransaction.receipt) := by
  obtain ⟨parent, hparent, hnumber, hash, hhash⟩ := hbegun.head
  have hend : parent.endTx = store.receipts.length := by
    rw [InSync, hparent] at hsync
    exact Option.some.inj hsync
  have hhook : ∃ r, (endL2BlockHook env info m store : Outcome ε _) = .ok r := by
    simp only [endL2BlockHook, bind_eq_ok, expect_eq_ok, assert_eq_ok, pure_eq_ok]
    exact ⟨_, parent, hparent, hash, hhash, (), hnumber, rfl⟩
  obtain ⟨⟨m', store'⟩, hhook⟩ := hhook
  refine ⟨m', store', hhook, ?_⟩
  simp only [endL2BlockHook, bind_eq_ok, expect_eq_ok, assert_eq_ok,
    pure_eq_ok, Prod.mk.injEq] at hhook
  obtain ⟨_, hparent', _, -, _, -, -, rfl⟩ := hhook
  obtain rfl := some_unique hparent hparent'
  constructor
  · simp [InSync, hend]
  · simp only [extractReceipts, bind_eq_ok, expect_eq_ok, pure_eq_ok]
    refine ⟨_, rfl, ?_⟩
    have hlength : m.pendingTransactions.length =
        (m.pendingTransactions.map PendingTransaction.receipt).length := (length_map _).symm
    dsimp only
    rw [Nat.add_sub_cancel_left, hend, hlength]
    exact filterMap_range' _ _

/-! ### The block -/

/-- The dry run and the block. Whatever the pool and the system events are, if the dry run returns,
then the rollup transaction with all accepted transactions succeeds on the storage of the dry run,
and it leaves the receipts and the state that the dry run left. At each transaction the module and
the state are the same in both, and the skipped transactions are in neither. The block is then
produced exactly if the rule enforcer accepts it. -/
theorem dryRun_predicts {events : List SystemEvent} {pool : List (RecoveredTx A)}
    {dry : DryRun A H Key L τ} (hdry : dryRunTransactions env info events pool ws = .ok dry)
    (hsync : InSync ws.evm) (version : Nat) (hversion : version = info.l2Height) :
    (∃ m₀ ws₀ ws₁, (beginL2Block env info ws : Outcome ProduceError _) = .ok (m₀, ws₀) ∧
      applyL2BlockTxs env info (encodeAndSignEvmTxsIntoSovTxs env ws₀ dry.allTxs) m₀ ws₀ =
        .ok (dry.evm, ws₁) ∧ ws₁.evm = dry.workingSet.evm ∧
      (∀ txs₁ txs₂, dry.allTxs = txs₁ ++ txs₂ → ∃ m' ws',
        applyEach env info txs₁ m₀ ws₀ = .ok (m', ws') ∧
        executeCall env info txs₁ m₀ ws₀.evm = .ok (m', ws'.evm))) ∧
    dry.evm.pendingTransactions.map PendingTransaction.tx = dry.allTxs ∧
    ((∃ block, produceL2BlockInner env info events pool version ws = .ok block ∧
        block.txs = dry.allTxs ∧ InSync block.workingSet.evm ∧
        block.receipts = dry.evm.pendingTransactions.map PendingTransaction.receipt) ↔
      ∃ data, RulesHold env info dry.workingSet data) := by
  obtain ⟨m₀, ws₀, hbegin, heach⟩ := applyEach_dryRun hdry
  have hbegin₀ : (beginL2Block env info ws : Outcome ProduceError _) = .ok (m₀, ws₀) := hbegin
  obtain ⟨hbegun, hpending, hrule, hreceipts, hendTx⟩ := begun_beginL2Block hbegin₀
  obtain ⟨cfg, hcfg⟩ := hbegun.cfg
  obtain ⟨hrun, hrule'⟩ := executeCall_of_applyEach hcfg heach
  obtain ⟨ws₁, hblock, hevm, hrule₁⟩ := applyL2BlockTxs_of_applyEach hcfg heach
  obtain ⟨-, -, hhead, hkept, htxs⟩ := executeCall_frame hrun
  rw [hpending, map_nil, nil_append] at htxs
  refine ⟨⟨m₀, ws₀, ws₁, hbegin₀, hblock, hevm, ?_⟩, htxs, ?_⟩
  · intro txs₁ txs₂ hsplit
    rw [hsplit] at heach
    obtain ⟨m', ws', hfirst⟩ := applyEach_of_append heach
    exact ⟨m', ws', hfirst, (executeCall_of_applyEach hcfg hfirst).1⟩
  · -- the rule enforcer sees the same data and the same state
    have hrules : (∃ data, RulesHold env info ws₁ data) ↔
        ∃ data, RulesHold env info dry.workingSet data := by
      constructor
      · rintro ⟨data, hstored, hcount, hclock⟩
        exact ⟨data, hrule₁ ▸ hstored, hevm ▸ hcount, hclock⟩
      · rintro ⟨data, hstored, hcount, hclock⟩
        exact ⟨data, hrule₁.trans hstored, by rw [hevm]; exact hcount, hclock⟩
    rw [← hrules, ← hookHandler_iff]
    have hsync₁ : InSync ws₁.evm := by
      rw [InSync, hevm, hhead, hkept, hendTx, hreceipts]
      exact hsync
    have hbegun₁ : Begun env dry.evm ws₁.evm := hevm ▸ hbegun.executeCall hrun
    have hlength : (dry.evm.pendingTransactions.map PendingTransaction.receipt).length =
        dry.allTxs.length := by
      rw [← htxs, length_map, length_map]
    constructor
    · rintro ⟨block, hproduce, -⟩
      simp only [produceL2BlockInner, bind_eq_ok, Outcome.mapErr_eq_ok,
        assert_eq_ok, endL2Block] at hproduce
      obtain ⟨other, hother, _, -, _, hbegin', _, happly, _, ⟨ws₂, hhook, -⟩, -⟩ := hproduce
      obtain rfl := ok_unique hdry hother
      obtain rfl := ok_unique hbegin₀ hbegin'
      obtain rfl := ok_unique hblock happly
      exact ⟨ws₂, hhook⟩
    · rintro ⟨ws₂, hhook⟩
      have hevm₂ := evm_hookHandler hhook
      obtain ⟨m₃, store₃, hend, hsync₃, hextract⟩ := endL2BlockHook_ok
        L2BlockHookError info (hevm₂ ▸ hbegun₁) (hevm₂ ▸ hsync₁)
      refine ⟨⟨dry.allTxs, dry.evm.pendingTransactions.map PendingTransaction.receipt, m₃,
        { ws₂ with evm := store₃ }⟩, ?_, rfl, hsync₃, rfl⟩
      simp only [produceL2BlockInner, bind_eq_ok, Outcome.mapErr_eq_ok,
        assert_eq_ok, endL2Block, pure_eq_ok]
      refine ⟨dry, hdry, (), hversion, _, hbegin₀, _, hblock, _,
        ⟨ws₂, hhook, _, hend, rfl⟩, _, ?_, (),
        hlength, rfl⟩
      simpa only [extractReceipts, bind_eq_ok, expect_eq_ok, pure_eq_ok]
        using hextract

end

/-! ### Two blocks -/

/-- A storage with a funded user, after a first block without transactions. The last block had the
timestamp `lastTimestamp`. -/
def fundedWorkingSet (lastTimestamp : UInt64) : WorkingSet (Fin 8) Nat Unit Nat Unit where
  accounts := fun _ => none
  publicKeys := fun _ => none
  evm :=
    { cfg := some ⟨1, 6, 10000000⟩
      head := some ⟨[], 0, 0, 6, none, [], 10000000, 0, some 1, 2, 0, 0⟩
      state := fundedState
      offchain := ()
      receipts := [] }
  ruleData := some ⟨10, .zero, 3, lastTimestamp⟩

/-- Three transactions of the user. The second one has a nonce that was used before. -/
def samplePool : List (RecoveredTx (Fin 8)) :=
  [sampleTx (some 6) 100 [] 0, sampleTx (some 6) 100 [] 0, sampleTx (some 6) 50 [] 1]

/-- The theorem applied to a block with a deposit and the transactions of the pool. The second one
of them is skipped, and the block is produced with the receipts of the dry run. -/
theorem sample_block_produced :
    ∃ dry block, dryRunTransactions sampleSequencer sampleInfo [.bridgeDeposit [0]] samplePool
        (fundedWorkingSet 50) = .ok dry ∧ InSync (fundedWorkingSet 50).evm ∧
      produceL2BlockInner sampleSequencer sampleInfo [.bridgeDeposit [0]] samplePool 1
        (fundedWorkingSet 50) = .ok block ∧
      block.txs = [signedSystemTransaction sampleSequencer (.bridgeDeposit [0]) 0,
        sampleTx (some 6) 100 [] 0, sampleTx (some 6) 50 [] 1] ∧
      block.receipts = dry.evm.pendingTransactions.map PendingTransaction.receipt := by
  have hrun : (dryRunTransactions sampleSequencer sampleInfo [.bridgeDeposit [0]] samplePool
      (fundedWorkingSet 50)).map (fun dry => (dry.allTxs, dry.workingSet.ruleData)) =
        .ok ([signedSystemTransaction sampleSequencer (.bridgeDeposit [0]) 0,
          sampleTx (some 6) 100 [] 0, sampleTx (some 6) 50 [] 1], some ⟨10, .zero, 3, 50⟩) := by
    decide +kernel
  obtain ⟨dry, hdry, heq⟩ := map_eq_ok.mp hrun
  obtain ⟨htxs, hdata⟩ := Prod.mk.inj heq
  have hrules : RulesHold sampleSequencer sampleInfo dry.workingSet ⟨10, .zero, 3, 50⟩ :=
    ⟨hdata, fun _ => by decide, by decide⟩
  obtain ⟨-, -, hiff⟩ := dryRun_predicts hdry rfl 1 rfl
  obtain ⟨block, hproduce, hblock, -, hreceipts⟩ := hiff.mpr ⟨_, hrules⟩
  exact ⟨dry, block, hdry, rfl, hproduce, hblock.trans htxs, hreceipts⟩

/-- The clock is behind the timestamp of the last block. The dry run returns, and the block is not
produced. -/
theorem clock_went_back :
    (∃ dry, dryRunTransactions sampleSequencer sampleInfo [.bridgeDeposit [0]] samplePool
      (fundedWorkingSet 200) = .ok dry) ∧ InSync (fundedWorkingSet 200).evm ∧
    produceL2BlockInner sampleSequencer sampleInfo [.bridgeDeposit [0]] samplePool 1
      (fundedWorkingSet 200) = err (.endBlock .timestampShouldBeGreater) := by
  have hdry : (dryRunTransactions sampleSequencer sampleInfo [.bridgeDeposit [0]] samplePool
      (fundedWorkingSet 200)).map (fun _ => ()) = .ok () := by decide +kernel
  have hproduce : (produceL2BlockInner sampleSequencer sampleInfo [.bridgeDeposit [0]] samplePool 1
      (fundedWorkingSet 200)).map (fun _ => ()) =
        .error (.error (.endBlock .timestampShouldBeGreater)) := by decide +kernel
  obtain ⟨dry, hdry, -⟩ := map_eq_ok.mp hdry
  exact ⟨⟨dry, hdry⟩, rfl, Outcome.map_eq_error.mp hproduce⟩

end Citrea.Proofs.Sequencer
