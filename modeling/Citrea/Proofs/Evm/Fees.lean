import Citrea.Proofs.Evm.Balances
import Mathlib.Algebra.BigOperators.Group.Finset.Piecewise

/-!
# `Citrea.Proofs.Evm.Fees`: where the fees of a transaction go

Before the first frame the caller pays the whole gas limit. After the last frame the price of the
unused gas goes back to it, the base fee goes to its vault and the rest of the gas price to the
coinbase. Then the L1 fee goes from the caller to its vault. Each of these steps changes one
balance (`ChangesBalance`), and no sum saturates as long as all coins together fit in 256 bits.

`transact_accounting` puts the parts of a transaction together: the coins in the journal at the
end, with those that were destroyed, are the coins in the state at the start.
-/

set_option linter.unusedSectionVars false

namespace Citrea.Proofs.Evm

open Lib
open Lib.StoreProg (run mapStore HintBackend)
open Spec.Evm
open Std (TransOrd LawfulEqOrd)

section
variable {A H : Type} [Ord A] [Ord H] [TransOrd A] [LawfulEqOrd A] [DecidableEq A] [DecidableEq H]
  (env : EvmEnv A H) {τ : Type} {O : HintBackend H Bytecode τ} {st st' : StateStore A H} {t t' : τ}
  {j j' : Journal A H} {a : A} {debit credit : Nat} {k : Journal A H} {new : Account H}
  {tx : TxEnv A}

/-! ### A change of one balance -/

/-- The account `a` loses `debit` and gets `credit`. All other balances stay. -/
structure ChangesBalance (st : StateStore A H) (j j' : Journal A H) (a : A)
    (debit credit : Nat) : Prop where
  balance : ∀ b, balanceOf st j' b + (if b = a then debit else 0) =
    balanceOf st j b + if b = a then credit else 0
  burned_eq : burned j' = burned j
  untouched : UntouchedAsStored st j → UntouchedAsStored st j'
  touched : ∀ b, IsTouched j b → IsTouched j' b

theorem ChangesBalance.after (h : KeepsBalances st j k)
    (h' : ChangesBalance st k j' a debit credit) : ChangesBalance st j j' a debit credit where
  balance := fun b => by rw [h'.balance, h.balance]
  burned_eq := h'.burned_eq.trans h.burned_eq
  untouched := h'.untouched ∘ h.untouched
  touched := fun b => h'.touched b ∘ h.touched b

theorem ChangesBalance.before (h : ChangesBalance st j k a debit credit)
    (h' : KeepsBalances st k j') : ChangesBalance st j j' a debit credit where
  balance := fun b => by rw [h'.balance, h.balance]
  burned_eq := h'.burned_eq.trans h.burned_eq
  untouched := h'.untouched ∘ h.untouched
  touched := fun b => h'.touched b ∘ h.touched b

/-- A touched account with another balance. -/
theorem changesBalance_set {old : Account H} (hold : j.state[a]? = some old)
    (hbalance : new.info.balance.toNat + debit = old.info.balance.toNat + credit)
    (htouched : new.touched = true) : ChangesBalance st j (j.set a new) a debit credit where
  balance := by
    intro b
    rw [balanceOf_set]
    by_cases hba : b = a
    · subst hba
      simp only [if_true, balanceOf_of_some hold]
      exact hbalance
    · simp [hba]
  burned_eq := rfl
  untouched := fun h => untouched_set h (by simp [htouched])
  touched := touched_set fun _ => htouched

theorem changesBalance_loadSet
    (hbalance : new.info.balance.toNat + debit = balanceOf st j a + credit)
    (htouched : new.touched = true) :
    ChangesBalance st j ((loadInto env st j a).set a new) a debit credit :=
  ChangesBalance.after (KeepsBalances.load env _ j a)
    (changesBalance_set (getElem?_loadInto_self env j a)
      (by rw [balance_accountAt, hbalance]) htouched)

/-- The sum of all balances changes by the same amounts. -/
theorem ChangesBalance.total_eq [Fintype A] (h : ChangesBalance st j j' a debit credit) :
    journalTotal st j' + debit = journalTotal st j + credit := by
  have hsum : ∑ b, (balanceOf st j' b + if b = a then debit else 0) =
      ∑ b, (balanceOf st j b + if b = a then credit else 0) :=
    Finset.sum_congr rfl fun b _ => h.balance b
  simp only [Finset.sum_add_distrib, Finset.sum_ite_eq', Finset.mem_univ, if_true] at hsum
  exact hsum

theorem toNat_saturatingAdd {a b : U256} (h : a.toNat + b.toNat < 2 ^ 256) :
    (U256.saturatingAdd a b).toNat = a.toNat + b.toNat := by
  rw [U256.saturatingAdd, BitVec.toNat_ofNat, Nat.min_eq_left (by omega), Nat.mod_eq_of_lt h]

theorem toNat_saturatingSub {a b : U256} (h : b.toNat ≤ a.toNat) :
    (U256.saturatingSub a b).toNat + b.toNat = a.toNat := by
  have := a.isLt
  rw [U256.saturatingSub, BitVec.toNat_ofNat, Nat.mod_eq_of_lt (by omega)]
  omega

/-! ### Before the execution -/

/-- The checks change no balance. A caller that pays can pay the whole gas limit. -/
theorem keeps_validate
    (h : run mapStore O (validateTxAgainstState env tx j) st t = .ok (j', st', t')) :
    st' = st ∧ KeepsBalances st j j' ∧ (tx.caller ≠ env.systemSigner →
      tx.gasLimit * tx.gasPrice < 2 ^ 128 ∧
        tx.gasLimit * tx.gasPrice ≤ balanceOf st j' tx.caller) := by
  unfold validateTxAgainstState at h
  split_ifs at h with hsystem
  · simp only [run_bind_eq_ok, run_loadAccount, run_ofOutcome_eq_ok, run_pure_eq_ok] at h
    obtain ⟨⟨_, j₁⟩, m, n, ⟨⟨rfl, rfl⟩, rfl, rfl⟩, u, m, n, ⟨-, rfl, rfl⟩, rfl, rfl, rfl⟩ := h
    exact ⟨rfl, KeepsBalances.load env _ j _, fun hne => absurd hsystem hne⟩
  · simp only [run_bind_eq_ok, run_loadAccount, run_ofOutcome_eq_ok, run_pure_eq_ok,
      ensure_eq_ok] at h
    obtain ⟨⟨code, j₁⟩, m, n, hcode, h⟩ := h
    obtain ⟨rfl, hedits⟩ := (readOnly_loadCode IsDelegate tx.caller j).sound hcode
    have hkeeps := hedits.keepsBalances env
    have hload := KeepsBalances.load env m j₁ tx.caller
    obtain ⟨⟨_, j₂⟩, _, _, ⟨⟨rfl, rfl⟩, rfl, rfl⟩, -, _, _, ⟨-, rfl, rfl⟩, -, _, _,
      ⟨-, rfl, rfl⟩, spending, _, _, ⟨hspending, rfl, rfl⟩, -, _, _, ⟨hfunds, rfl, rfl⟩, rfl,
      rfl, rfl⟩ := h
    refine ⟨rfl, hkeeps.trans hload, fun _ => ?_⟩
    simp only [maxBalanceSpending, bind_eq_ok, ensure_eq_ok, pure_eq_ok] at hspending
    obtain ⟨-, ⟨hsmall, -⟩, rfl⟩ := hspending
    refine ⟨hsmall, ?_⟩
    dsimp only at hfunds
    rw [hload.balance, ← balance_accountAt env]
    omega

/-- The price of a unit of gas is at most the price that the caller offers. -/
theorem effectiveGasPrice_le (tx : TxEnv A) (basefee : Nat) :
    tx.effectiveGasPrice basefee ≤ tx.gasPrice := by
  unfold TxEnv.effectiveGasPrice
  split
  · exact le_rfl
  · exact Nat.min_le_left _ _

/-- What the caller pays before the first frame. -/
def prepaidGas (block : BlockEnv A) (tx : TxEnv A) : Nat :=
  if tx.caller = env.systemSigner then 0 else tx.gasLimit * tx.effectiveGasPrice block.basefee

theorem changes_deductCaller {block : BlockEnv A}
    (hfunds : tx.caller ≠ env.systemSigner → tx.gasLimit * tx.gasPrice < 2 ^ 128 ∧ tx.gasLimit *
      tx.gasPrice ≤ balanceOf st j tx.caller)
    (h : run mapStore O (deductCaller env block tx j) st t = .ok (j', st', t')) :
    st' = st ∧ ChangesBalance st j j' tx.caller (prepaidGas env block tx) 0 ∧
      IsTouched j' tx.caller := by
  simp only [deductCaller, run_bind_eq_ok, run_loadAccount, Except.ok.injEq, Prod.mk.injEq] at h
  obtain ⟨⟨_, j₁⟩, m, n, ⟨⟨rfl, rfl⟩, rfl, rfl⟩, h⟩ := h
  split_ifs at h with hsystem
  · rw [run_pure, Except.ok.injEq] at h
    cases h
    refine ⟨rfl, ?_, _, by rw [getElem?_set, if_pos rfl], rfl⟩
    rw [prepaidGas, if_pos hsystem]
    refine changesBalance_loadSet env ?_ rfl
    rw [← balance_accountAt env]
  · rw [run_pure, Except.ok.injEq] at h
    cases h
    refine ⟨rfl, ?_, _, by rw [getElem?_set, if_pos rfl], rfl⟩
    rw [prepaidGas, if_neg hsystem]
    obtain ⟨hsmall, hbalance⟩ := hfunds hsystem
    -- the product neither saturates in 128 bits nor exceeds the balance
    have hle : tx.gasLimit * tx.effectiveGasPrice block.basefee ≤ tx.gasLimit * tx.gasPrice :=
      Nat.mul_le_mul_left _ (effectiveGasPrice_le tx block.basefee)
    have hcost : (BitVec.ofNat 256 (saturatingMulU128 tx.gasLimit
        (tx.effectiveGasPrice block.basefee)) : U256).toNat =
          tx.gasLimit * tx.effectiveGasPrice block.basefee := by
      rw [BitVec.toNat_ofNat, saturatingMulU128, Nat.min_eq_left (by omega)]
      exact Nat.mod_eq_of_lt (by omega)
    refine changesBalance_loadSet env ?_ rfl
    rw [← balance_accountAt env] at hbalance ⊢
    rw [← hcost]
    have hle' := hle.trans hbalance
    rw [← hcost] at hle'
    exact toNat_saturatingSub hle'

/-! ### After the execution -/

variable [Fintype A] {block : BlockEnv A} {l1FeeRate : Nat} {result : ResultAndState A H}
  {amount : U256} {gasUsed : Nat} {revm : Revm A H} {frame : FrameResult tx.gasLimit}

theorem changes_increaseBalance (hfits : journalTotal st j + amount.toNat < 2 ^ 256)
    (h : run mapStore O (increaseBalance env amount a j) st t = .ok (j', st', t')) :
    st' = st ∧ ChangesBalance st j j' a 0 amount.toNat := by
  simp only [increaseBalance, run_bind_eq_ok, run_loadAccount, run_pure_eq_ok] at h
  obtain ⟨⟨_, j₁⟩, m, n, ⟨⟨rfl, rfl⟩, rfl, rfl⟩, rfl, rfl, rfl⟩ := h
  refine ⟨rfl, changesBalance_loadSet env ?_ rfl⟩
  have hle := balanceOf_le_total st j a
  rw [← balance_accountAt env] at hle ⊢
  show (U256.saturatingAdd (accountAt env st j a).info.balance amount).toNat + 0 = _
  rw [toNat_saturatingAdd (by omega), Nat.add_zero]

theorem changes_decreaseBalance {paid : Option (Journal A H)}
    (h : run mapStore O (decreaseBalance env amount a j) st t = .ok (paid, st', t')) :
    st' = st ∧ ∀ j' ∈ paid, ChangesBalance st j j' a amount.toNat 0 := by
  simp only [decreaseBalance, run_bind_eq_ok, run_loadAccount, Except.ok.injEq, Prod.mk.injEq] at h
  obtain ⟨⟨_, j₁⟩, m, n, ⟨⟨rfl, rfl⟩, rfl, rfl⟩, h⟩ := h
  dsimp only at h
  split at h
  · rw [run_pure, Except.ok.injEq] at h
    cases h
    exact ⟨rfl, by simp⟩
  · rename_i balance hsub
    rw [run_pure, Except.ok.injEq] at h
    cases h
    refine ⟨rfl, ?_⟩
    intro j' hj'
    obtain rfl := Option.some.inj hj'
    refine changesBalance_loadSet env ?_ rfl
    rw [← balance_accountAt env]
    exact toNat_checkedSub hsub

/-- The gas price, split into the base fee and the part of the coinbase. -/
theorem gas_split (gasUsed : Nat) {price basefee : Nat} (h : basefee ≤ price) :
    price * gasUsed = basefee * gasUsed + (price - basefee) * gasUsed := by
  rw [← Nat.add_mul]
  congr 1
  omega

theorem changes_reimburseCaller {unused : Nat} (hpays : tx.caller ≠ env.systemSigner)
    (htouched : IsTouched j tx.caller)
    (hsmall : tx.effectiveGasPrice block.basefee * unused < 2 ^ 128)
    (hfits : journalTotal st j + tx.effectiveGasPrice block.basefee * unused < 2 ^ 256)
    (h : run mapStore O (reimburseCaller env block tx unused j) st t = .ok (j', st', t')) :
    st' = st ∧
      ChangesBalance st j j' tx.caller 0 (tx.effectiveGasPrice block.basefee * unused) := by
  simp only [reimburseCaller, if_neg hpays, run_bind_eq_ok, run_loadAccount, run_pure_eq_ok] at h
  obtain ⟨⟨_, j₁⟩, m, n, ⟨⟨rfl, rfl⟩, rfl, rfl⟩, rfl, rfl, rfl⟩ := h
  have hrefund : (BitVec.ofNat 256 (saturatingMulU128 (tx.effectiveGasPrice block.basefee) unused) :
      U256).toNat = tx.effectiveGasPrice block.basefee * unused := by
    rw [BitVec.toNat_ofNat, saturatingMulU128, Nat.min_eq_left (by omega)]
    exact Nat.mod_eq_of_lt (by omega)
  have hle := balanceOf_le_total st j tx.caller
  refine ⟨rfl, changesBalance_loadSet env ?_ ?_⟩
  · rw [← balance_accountAt env] at hle ⊢
    show (U256.saturatingAdd (accountAt env st j tx.caller).info.balance _).toNat + 0 = _
    rw [toNat_saturatingAdd (by rw [hrefund]; omega), hrefund, Nat.add_zero]
  · obtain ⟨account, haccount, htrue⟩ := htouched
    show (accountAt env st j tx.caller).touched = true
    rw [accountAt, haccount, Option.getD_some, htrue]

theorem changes_rewardBeneficiary (hpays : tx.caller ≠ env.systemSigner)
    (hprice : block.basefee ≤ tx.effectiveGasPrice block.basefee)
    (hsmall : tx.effectiveGasPrice block.basefee * gasUsed < 2 ^ 128)
    (hfits : journalTotal st j + tx.effectiveGasPrice block.basefee * gasUsed < 2 ^ 256)
    (h : run mapStore O (rewardBeneficiary env block tx gasUsed j) st t = .ok (j', st', t')) :
    st' = st ∧ ∃ k, ChangesBalance st j k env.baseFeeVault 0 (block.basefee * gasUsed) ∧
      ChangesBalance st k j' block.beneficiary 0
        ((tx.effectiveGasPrice block.basefee - block.basefee) * gasUsed) := by
  have hsplit := gas_split gasUsed hprice
  simp only [rewardBeneficiary, if_neg hpays, run_bind_eq_ok] at h
  obtain ⟨k, m, n, hbase, hreward⟩ := h
  have hbaseFee : ((BitVec.ofNat 256 block.basefee * BitVec.ofNat 256 gasUsed : U256)).toNat =
      block.basefee * gasUsed := by
    rw [BitVec.toNat_mul, BitVec.toNat_ofNat, BitVec.toNat_ofNat, ← Nat.mul_mod]
    exact Nat.mod_eq_of_lt (by omega)
  obtain ⟨rfl, hfirst⟩ := changes_increaseBalance env (by rw [hbaseFee]; omega) hbase
  rw [hbaseFee] at hfirst
  have htotal := hfirst.total_eq
  have hrewardFee : (BitVec.ofNat 256 ((tx.effectiveGasPrice block.basefee - block.basefee) *
      gasUsed % 2 ^ 128) : U256).toNat =
        (tx.effectiveGasPrice block.basefee - block.basefee) * gasUsed := by
    rw [BitVec.toNat_ofNat, Nat.mod_eq_of_lt (by omega : _ < 2 ^ 128)]
    exact Nat.mod_eq_of_lt (by omega)
  obtain ⟨rfl, hsecond⟩ := changes_increaseBalance env (by rw [hrewardFee]; omega) hreward
  rw [hrewardFee] at hsecond
  exact ⟨rfl, k, hfirst, hsecond⟩

/-- The L1 fee goes from the caller to its vault. -/
theorem changes_output {success : Bool} (hpays : tx.caller ≠ env.systemSigner)
    (hfits : journalTotal st j < 2 ^ 256)
    (h : run mapStore O (output env l1FeeRate tx success gasUsed j) st t = .ok (result, st', t')) :
    st' = st ∧ result.gasUsed = gasUsed ∧ ∃ k,
      ChangesBalance st j k tx.caller result.l1Fee.toNat 0 ∧
      ChangesBalance st k result.journal env.l1FeeVault 0 result.l1Fee.toNat := by
  simp only [output, if_neg hpays, run_bind_eq_ok] at h
  obtain ⟨size, _, _, hsize, paid, _, _, hpaid, h⟩ := h
  obtain ⟨rfl, -⟩ := (readOnly_calcDiffSize tx j).sound hsize
  obtain ⟨rfl, hdecrease⟩ := changes_decreaseBalance env hpaid
  split at h
  · simp at h
  · rename_i k
    simp only [run_bind_eq_ok, run_pure_eq_ok] at h
    obtain ⟨j₁, _, _, hincrease, rfl, rfl, rfl⟩ := h
    have hfirst := hdecrease k rfl
    have htotal := hfirst.total_eq
    obtain ⟨rfl, hsecond⟩ := changes_increaseBalance env (by omega) hincrease
    exact ⟨rfl, rfl, k, hfirst, hsecond⟩

/-! ### The transaction -/

/-- The journal at the first frame. The caller has paid for the gas. -/
theorem preExecution_ok
    (h : run mapStore O (preExecution env revm block tx) st t = .ok (j', st', t')) :
    st' = st ∧ ChangesBalance st .empty j' tx.caller (prepaidGas env block tx) 0 ∧
      IsTouched j' tx.caller ∧ block.basefee ≤ tx.effectiveGasPrice block.basefee ∧
      (tx.caller ≠ env.systemSigner → tx.gasLimit * tx.gasPrice < 2 ^ 128) := by
  simp only [preExecution, run_bind_eq_ok, run_ofOutcome_eq_ok] at h
  obtain ⟨u, _, _, ⟨henv, rfl, rfl⟩, j₁, _, _, hvalidate, j₂, _, _, hdeduct, hauth⟩ := h
  simp only [validateEnv, bind_eq_ok, ensure_eq_ok] at henv
  obtain ⟨-, -, -, hprice, -⟩ := henv
  obtain ⟨rfl, hkeeps, hfunds⟩ := keeps_validate env hvalidate
  obtain ⟨rfl, hchanges, htouched⟩ := changes_deductCaller env hfunds hdeduct
  have hdelegate : ∀ a, IsDelegate (.delegate a : Action A H) := fun a => ⟨a, rfl⟩
  obtain ⟨rfl, hedits⟩ := (tracks_applyAuthList tracks_edits hdelegate _ _ j₂).sound hauth
  have hkeeps' := Edits.keepsBalances env hedits
  refine ⟨rfl, ?_, hkeeps'.touched _ htouched, hprice, fun hne => (hfunds hne).1⟩
  exact (ChangesBalance.after hkeeps hchanges).before hkeeps'

/-- What a transaction of a paying caller does to the balances outside of its execution: the gas
limit is paid before the first frame, and after the last frame the price of the unused gas goes
back, the base fee and the coinbase reward are paid out of the price of the used gas, and the L1
fee goes from the caller to its vault. -/
structure FeeFlow (block : BlockEnv A) (tx : TxEnv A) (st : StateStore A H)
    (start executed : Journal A H) (result : ResultAndState A H) : Prop where
  gas_le : result.gasUsed ≤ tx.gasLimit
  prepaid : ∀ a, balanceOf st start a +
    (if a = tx.caller then tx.effectiveGasPrice block.basefee * tx.gasLimit else 0) =
      storedBalance st a
  settled : ∀ a, balanceOf st result.journal a + (if a = tx.caller then result.l1Fee.toNat else 0) =
    balanceOf st executed a +
      (if a = tx.caller then
        tx.effectiveGasPrice block.basefee * (tx.gasLimit - result.gasUsed) else 0) +
      (if a = env.baseFeeVault then block.basefee * result.gasUsed else 0) +
      (if a = block.beneficiary then
        (tx.effectiveGasPrice block.basefee - block.basefee) * result.gasUsed else 0) +
      (if a = env.l1FeeVault then result.l1Fee.toNat else 0)
  split : tx.effectiveGasPrice block.basefee * result.gasUsed = block.basefee * result.gasUsed +
    (tx.effectiveGasPrice block.basefee - block.basefee) * result.gasUsed

/-- The part after the last frame for a caller that pays. The coins that were set aside for the
gas come back into the journal. -/
theorem postExecution_ok {start : Journal A H} (hpays : tx.caller ≠ env.systemSigner)
    (htouched : IsTouched j tx.caller) (hprice : block.basefee ≤ tx.effectiveGasPrice block.basefee)
    (hsmall : tx.gasLimit * tx.gasPrice < 2 ^ 128)
    (hfits : journalTotal st j + tx.effectiveGasPrice block.basefee * tx.gasLimit < 2 ^ 256)
    (hprepaid : ∀ a, balanceOf st start a + (if a = tx.caller then tx.effectiveGasPrice
      block.basefee * tx.gasLimit else 0) = storedBalance st a)
    (h : run mapStore O (postExecution env block l1FeeRate tx frame j) st t = .ok (result, st',
      t')) : st' = st ∧ FeeFlow env block tx st start j result ∧ journalTotal st result.journal =
        journalTotal st j + tx.effectiveGasPrice block.basefee * tx.gasLimit ∧
      burned result.journal = burned j ∧
      (UntouchedAsStored st j → UntouchedAsStored st result.journal) := by
  simp only [postExecution, run_bind_eq_ok] at h
  obtain ⟨j₁, _, _, hreimburse, j₂, _, _, hreward, houtput⟩ := h
  have hunused := frame.unused_le
  -- the price of the unused gas and of the used gas
  have hparts : tx.effectiveGasPrice block.basefee * frame.unused +
      tx.effectiveGasPrice block.basefee * (tx.gasLimit - frame.unused) =
        tx.effectiveGasPrice block.basefee * tx.gasLimit := by
    rw [← Nat.mul_add]
    congr 1
    omega
  have hbound : tx.effectiveGasPrice block.basefee * tx.gasLimit ≤ tx.gasLimit * tx.gasPrice := by
    rw [Nat.mul_comm]
    exact Nat.mul_le_mul_left _ (effectiveGasPrice_le tx block.basefee)
  obtain ⟨rfl, hrefund⟩ := changes_reimburseCaller env hpays htouched (by omega) (by omega)
    hreimburse
  have htotal₁ := hrefund.total_eq
  obtain ⟨rfl, k, hbase, htip⟩ := changes_rewardBeneficiary env hpays hprice (by omega) (by omega)
    hreward
  have htotal₂ := hbase.total_eq
  have htotal₃ := htip.total_eq
  have hsplit := gas_split (tx.gasLimit - frame.unused) hprice
  obtain ⟨rfl, hgas, k', hpay, hvault⟩ := changes_output env hpays (by omega) houtput
  have htotal₄ := hpay.total_eq
  have htotal₅ := hvault.total_eq
  refine ⟨rfl, ⟨by omega, hprepaid, ?_, ?_⟩, by omega, ?_, ?_⟩
  · intro a
    have h₁ := hrefund.balance a
    have h₂ := hbase.balance a
    have h₃ := htip.balance a
    have h₄ := hpay.balance a
    have h₅ := hvault.balance a
    have hback : tx.gasLimit - (tx.gasLimit - frame.unused) = frame.unused := by omega
    rw [hgas, hback]
    simp only [ite_self, Nat.add_zero] at h₁ h₂ h₃ h₄ h₅
    omega
  · rw [hgas]
    exact hsplit
  · rw [hvault.burned_eq, hpay.burned_eq, htip.burned_eq, hbase.burned_eq, hrefund.burned_eq]
  · intro huntouched
    exact hvault.untouched (hpay.untouched (htip.untouched (hbase.untouched
      (hrefund.untouched huntouched))))

/-- Nothing happens after the last frame of the system caller. -/
theorem postExecution_system (hsystem : tx.caller = env.systemSigner)
    (h : run mapStore O (postExecution env block l1FeeRate tx frame j) st t = .ok (result, st',
      t')) : st' = st ∧ result.journal = j := by
  simp only [postExecution, reimburseCaller, rewardBeneficiary, output, if_pos hsystem,
    run_bind_eq_ok, run_pure_eq_ok] at h
  obtain ⟨_, _, _, ⟨rfl, rfl, rfl⟩, _, _, _, ⟨rfl, rfl, rfl⟩, size, _, _, hsize, rfl, rfl, rfl⟩ := h
  exact ⟨((readOnly_calcDiffSize tx _).sound hsize).1, rfl⟩

/-- The coins of a transaction. -/
structure TxAccounting (revm : Revm A H) (block : BlockEnv A) (tx : TxEnv A)
    (O : HintBackend H Bytecode τ) (st : StateStore A H) (t : τ) (result : ResultAndState A H) :
    Prop where
  total_eq : journalTotal st result.journal + burned result.journal = total st
  untouched : UntouchedAsStored st result.journal
  fees : tx.caller ≠ env.systemSigner → ∃ start t₁ frame executed t₂,
    run mapStore O (preExecution env revm block tx) st t = .ok (start, st, t₁) ∧
    run mapStore O ((revm.interpret block tx).execute env start) st t₁ =
      .ok ((frame, executed), st, t₂) ∧
    FeeFlow env block tx st start executed result

theorem balanceOf_empty (a : A) :
    balanceOf st (Journal.empty : Journal A H) a = storedBalance st a := by
  simp [balanceOf, Journal.empty]

/-- A transaction does not change the state, and its journal accounts for all coins. -/
theorem transact_accounting (hfits : total st < 2 ^ 256)
    (h : run mapStore O (transact env revm block l1FeeRate tx) st t = .ok (result, st', t')) :
    st' = st ∧ TxAccounting env revm block tx O st t result := by
  simp only [transact, run_bind_eq_ok] at h
  obtain ⟨start, st, t₁, hpre, ⟨frame, executed⟩, st₂, t₂, hexecute, hpost⟩ := h
  obtain ⟨rfl, hchanges, htouched, hprice, hsmall⟩ := preExecution_ok env hpre
  have hprepaid := hchanges.total_eq
  rw [journalTotal_empty] at hprepaid
  obtain ⟨rfl, hconserves⟩ := conserves_execute env _ (by omega) hexecute
  have hexecuted := hconserves.total_eq
  have hle := hconserves.total_le
  have hnone : burned start = 0 := hchanges.burned_eq
  have huntouched : UntouchedAsStored _ executed :=
    hconserves.untouched (hchanges.untouched untouchedAsStored_empty)
  by_cases hsystem : tx.caller = env.systemSigner
  · obtain ⟨rfl, hjournal⟩ := postExecution_system env hsystem hpost
    rw [prepaidGas, if_pos hsystem] at hprepaid
    refine ⟨rfl, ?_, ?_, fun hne => absurd hsystem hne⟩
    · rw [hjournal]
      show journalTotal _ executed + burned executed = _
      omega
    · rw [hjournal]
      exact huntouched
  · have hgas : prepaidGas env block tx = tx.effectiveGasPrice block.basefee * tx.gasLimit := by
      rw [prepaidGas, if_neg hsystem, Nat.mul_comm]
    have hstart : ∀ a, balanceOf st₂ start a + (if a = tx.caller then
        tx.effectiveGasPrice block.basefee * tx.gasLimit else 0) = storedBalance st₂ a := by
      intro a
      have := hchanges.balance a
      rw [hgas, balanceOf_empty, ite_self, Nat.add_zero] at this
      exact this
    obtain ⟨rfl, hflow, htotal, hburned, hkept⟩ := postExecution_ok env hsystem
      (hconserves.touched _ htouched) hprice (hsmall hsystem) (by omega) hstart hpost
    exact ⟨rfl, by omega, hkept huntouched,
      fun _ => ⟨start, t₁, frame, executed, t₂, hpre, hexecute, hflow⟩⟩

end

end Citrea.Proofs.Evm
