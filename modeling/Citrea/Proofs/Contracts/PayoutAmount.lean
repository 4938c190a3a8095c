import Citrea.Proofs.Contracts.Bridge

/-!
# `Citrea.Proofs.Contracts.PayoutAmount`: the amount that `safeWithdraw` asks for

The value of a Bitcoin output is in satoshi. `safeWithdraw` compares it with
`optimisticWithdrawAmount`. But `initialize` computes this field from the deposit amount, which is
in wei, and takes off an anchor amount in satoshi. So the check does not ask for the right value
(`payout_check_iff`), and a withdrawal with the right payout is rejected (`right_payout_rejected`).
It is right as soon as the owner sets the field to the amount in satoshi.
-/

namespace Citrea.Proofs.Contracts

open List Lib Spec.Bitcoin Spec.Contracts

section
variable {A : Type}

/-- The check on the payout asks for the deposit in satoshi without the anchor output. -/
def AsksForPayout (depositAmount : Nat) (bridge : Bridge A) : Prop :=
  ∀ output, checkPayoutValue bridge output = .ok () ↔
    (SpvLibrary.extractValue output).toNat + payoutAnchorOutputAmount = depositAmount / satToWei

/-- Every value is the value of an output. -/
theorem extractValue_leBytes {value : Nat} (h : value < 2 ^ 64) :
    (SpvLibrary.extractValue (leBytes 8 value)).toNat = value := by
  have htake : (leBytes 8 value).take 8 = leBytes 8 value :=
    take_of_length_le (by rw [length_leBytes])
  rw [SpvLibrary.extractValue, htake, ofLeBytes_leBytes (by omega), UInt64.toNat_ofNat']
  exact Nat.mod_eq_of_lt h

theorem checkPayoutValue_iff {bridge : Bridge A} {output : Bytes} :
    checkPayoutValue bridge output = .ok () ↔
      (SpvLibrary.extractValue output).toNat = bridge.optimisticWithdrawAmount :=
  ensure_eq_ok

/-- What the field must be, for a deposit amount of at most `2 ^ 64 - 1` satoshi. For an amount
below the anchor output no payout is right, and then the field must be out of reach. -/
theorem asksForPayout_iff {bridge : Bridge A} {depositAmount : Nat}
    (hfits : depositAmount / satToWei ≤ 2 ^ 64 - 1) : AsksForPayout depositAmount bridge ↔
      if payoutAnchorOutputAmount ≤ depositAmount / satToWei then
        bridge.optimisticWithdrawAmount + payoutAnchorOutputAmount = depositAmount / satToWei
      else 2 ^ 64 ≤ bridge.optimisticWithdrawAmount := by
  simp only [AsksForPayout, checkPayoutValue_iff]
  split_ifs with hanchor
  · constructor
    · intro h
      -- the output with the right value
      have hright := h (leBytes 8 (depositAmount / satToWei - payoutAnchorOutputAmount))
      rw [extractValue_leBytes (by omega)] at hright
      have heq := hright.mpr (by omega)
      omega
    · intro h output
      omega
  · constructor
    · intro h
      by_contra hlt
      -- the output that has the value of the field
      have hfield := h (leBytes 8 bridge.optimisticWithdrawAmount)
      rw [extractValue_leBytes (by omega)] at hfield
      have heq := hfield.mp rfl
      omega
    · intro h output
      have hlt := (SpvLibrary.extractValue output).toNat_lt
      omega

variable [DecidableEq A] {env : BridgeEnv A} {w₀ w : World A}

/-- What `initialize` leaves. -/
theorem initialize_amounts {msg : Msg A} {depositPrefix depositSuffix : Bytes} {depositAmount : Nat}
    {recipient vault : World A → World A × Bool}
    (hinit : callBridge env msg (.initializeBridge depositPrefix depositSuffix depositAmount)
      recipient vault w₀ = .ok w) :
    depositAmount ≠ 0 ∧ depositAmount % satToWei = 0 ∧ depositAmount / satToWei ≤ 2 ^ 64 - 1 ∧
      w.bridge.optimisticWithdrawAmount + payoutAnchorOutputAmount = depositAmount := by
  simp only [callBridge, callSettings, initializeBridge, nonPayable, require, bind_eq_ok,
    ensure_eq_ok, pure_eq_ok, exists_const, checkedSub] at hinit
  obtain ⟨-, bridge', ⟨-, -, hne, -, hmod, hfits, optimistic, hsub, rfl⟩, rfl⟩ := hinit
  split_ifs at hsub with hle
  · rw [pure_eq_ok] at hsub
    exact ⟨hne, hmod, hfits, by rw [← hsub]; exact Nat.sub_add_cancel hle⟩
  · simp at hsub

/-- After `initialize` and any history, the check asks for the right payout exactly if the field has
the right amount in satoshi. That is not so as long as the field is what `initialize` made it. -/
theorem payout_check_iff {msg : Msg A} {depositPrefix depositSuffix : Bytes} {depositAmount : Nat}
    {recipient vault : World A → World A × Bool}
    (hinit : callBridge env msg (.initializeBridge depositPrefix depositSuffix depositAmount)
      recipient vault w₀ = .ok w) (history : Frame A) :
    let bridge := (history.run env w).1.bridge
    (AsksForPayout depositAmount bridge ↔
      if payoutAnchorOutputAmount ≤ depositAmount / satToWei then
        bridge.optimisticWithdrawAmount + payoutAnchorOutputAmount = depositAmount / satToWei
      else 2 ^ 64 ≤ bridge.optimisticWithdrawAmount) ∧
    (bridge.optimisticWithdrawAmount = w.bridge.optimisticWithdrawAmount →
      ¬ AsksForPayout depositAmount bridge) := by
  obtain ⟨hne, hmod, hfits, hfield⟩ := initialize_amounts hinit
  refine ⟨asksForPayout_iff hfits, fun hsame => ?_⟩
  rw [asksForPayout_iff hfits, hsame]
  by_cases hanchor : payoutAnchorOutputAmount ≤ depositAmount / satToWei
  · rw [if_pos hanchor, hfield]
    simp only [satToWei] at hmod ⊢
    omega
  · rw [if_neg hanchor]
    simp only [satToWei, payoutAnchorOutputAmount] at hmod hfield hanchor
    omega

end

/-! ### A deposit of ten bitcoin -/

/-- Ten bitcoin in wei. -/
def tenBitcoin : Nat := 10 ^ 9 * satToWei

/-- The owner sets the amount of a payout. -/
def setPayoutAmount : Frame Nat :=
  .call ⟨8, 0, 6⟩ (.setOptimisticWithdrawAmount (10 ^ 9 - 240)) (.finish true) (.finish true)
    (.finish true)

/-- The theorem applied to this owner: the check is right after the call. -/
theorem payout_check_after_owner :
    ∃ w, callBridge sampleEnv ⟨1, 0, 5⟩ (.initializeBridge samplePrefix [] tenBitcoin)
        (fun w => (w, true)) (fun w => (w, true)) sampleWorld = .ok w ∧
      ¬ AsksForPayout tenBitcoin w.bridge ∧
      AsksForPayout tenBitcoin (setPayoutAmount.run sampleEnv w).1.bridge := by
  have hrun : (callBridge sampleEnv ⟨1, 0, 5⟩ (.initializeBridge samplePrefix [] tenBitcoin)
      (fun w => (w, true)) (fun w => (w, true)) sampleWorld).map (fun w =>
        (setPayoutAmount.run sampleEnv w).1.bridge.optimisticWithdrawAmount) =
          .ok (10 ^ 9 - 240) := by
    decide +kernel
  obtain ⟨w, hinit, hfield⟩ := map_eq_ok.mp hrun
  refine ⟨w, hinit, (payout_check_iff hinit (.finish true)).2 rfl, ?_⟩
  rw [(payout_check_iff hinit setPayoutAmount).1, hfield]
  decide

/-- Every compact number is 1. The first transaction of the block 0 is the one of `prepareTx`. -/
def payoutEnv : BridgeEnv Nat :=
  { sampleEnv with lib := { sampleLib with parseVarIntAt := fun _ _ => (0, 1) } }

theorem length_four_zeros : ([0, 0, 0, 0] : Bytes).length = 4 := rfl

def noBytes4 : Bytes4 := ⟨[0, 0, 0, 0], length_four_zeros⟩

/-- A withdrawal whose payout has the right value: 999999760 satoshi. -/
def payoutArgs : SafeWithdrawArgs where
  prepareTx := ⟨noBytes4, [], [], [], [], noBytes4⟩
  prepareProof := ⟨[], 0, 0⟩
  payoutTx := ⟨noBytes4, [], [], leBytes 8 999999760, [0, 0, 0], noBytes4⟩
  blockHeader := List.replicate 80 0
  withdrawalAddressPubKey := []

/-- The right payout of a deposit of ten bitcoin is rejected for its value. -/
theorem right_payout_rejected :
    (SpvLibrary.extractValue payoutArgs.payoutTx.vout).toNat + payoutAnchorOutputAmount =
        tenBitcoin / satToWei ∧
    (callBridge payoutEnv ⟨1, 0, 5⟩ (.initializeBridge samplePrefix [] tenBitcoin)
        (fun w => (w, true)) (fun w => (w, true)) sampleWorld).map (fun w =>
      (callBridge payoutEnv ⟨4, tenBitcoin, 6⟩ (.safeWithdraw payoutArgs)
        (fun w => (w, true)) (fun w => (w, true)) w).map World.balance) =
      .ok (err "Payout output value does not match optimistic withdraw amount") := by
  constructor
  all_goals decide +kernel

end Citrea.Proofs.Contracts
