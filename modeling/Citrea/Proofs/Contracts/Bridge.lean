import Citrea.Spec.Contracts.Bridge
import Mathlib.Data.List.Nodup
import Mathlib.Tactic.LinearCombination
import Mathlib.Tactic.Zify

/-!
# `Citrea.Proofs.Contracts.Bridge`: deposits, withdrawals and the balance of the bridge

`Sound` is the invariant of the bridge after `initialize`. It has a number `owed`: what the bridge
has and is about to record (a withdrawal) or to send (a deposit). It is 0 between two calls, and
also when `deposit` runs the code of a recipient, because the transaction id is stored and the value
is gone before that code starts. So whatever the code does,
the invariant holds again when it returns.

`Later` is what a run leaves behind for the caller that waits for it: no id that was processed
before is accepted in it.

`Frame.run_sound` is the induction over what any code does, and `bridge_sound` is the result for
every history.
-/

namespace Citrea.Proofs.Contracts

open Function (update update_of_ne update_self)
open Option List Lib Spec.Bitcoin Spec.Contracts

variable {A : Type}

/-- The transaction id that an event says is accepted. -/
def acceptedId : BridgeEvent A → Option Bytes32
  | .deposit _ txId _ _ _ => some txId
  | .depositTransferFailed _ txId _ _ _ => some txId
  | .depositReplaced _ _ newTxId => some newTxId
  | _ => none

/-- The entry of `depositTxIds` that an event says is replaced. -/
def replacedId : BridgeEvent A → Option Bytes32
  | .depositReplaced _ oldTxId _ => some oldTxId
  | _ => none

/-- The transaction ids that `deposit` and `replaceDeposit` accepted. -/
def acceptedTxIds (w : World A) : List Bytes32 := w.events.filterMap acceptedId

/-- The entries of `depositTxIds` that were replaced. -/
def replacedTxIds (w : World A) : List Bytes32 := w.events.filterMap replacedId

/-- The invariant. `amount` is the amount of a deposit and `base` the balance at the start. -/
structure Sound (env : BridgeEnv A) (amount base owed : Nat) (w : World A) : Prop where
  initialized : w.bridge.initialized = true
  depositAmount : w.bridge.depositAmount = amount
  deposits : w.bridge.depositTxIds.Nodup
  processed : ∀ t ∈ w.bridge.depositTxIds, w.bridge.processedTxIds t = true
  accepted : (acceptedTxIds w).Nodup
  acceptedProcessed : ∀ t ∈ acceptedTxIds w, w.bridge.processedTxIds t = true
  replaced : ∀ t ∈ replacedTxIds w, w.bridge.processedTxIds t = true ∧ t ∉ w.bridge.depositTxIds
  withdrawals : (w.bridge.withdrawalUTXOs.map (utxoKey env)).Nodup
  used : ∀ u ∈ w.bridge.withdrawalUTXOs, w.bridge.usedWithdrawalUTXO (utxoKey env u) = true
  balance : w.balance + amount * w.bridge.depositTxIds.length =
    base + w.forced + amount * w.bridge.withdrawalUTXOs.length + owed

/-- A later world: processed ids stay processed, and a new accepted id was not processed before. -/
structure Later (w w' : World A) : Prop where
  processed : ∀ t, w.bridge.processedTxIds t = true → w'.bridge.processedTxIds t = true
  accepted : ∀ t ∈ acceptedTxIds w', t ∈ acceptedTxIds w ∨ w.bridge.processedTxIds t = false
  replaced : ∀ t ∈ replacedTxIds w, t ∈ replacedTxIds w'

theorem Later.refl (w : World A) : Later w w :=
  ⟨fun _ h => h, fun _ h => .inl h, fun _ h => h⟩

theorem Later.trans {w₁ w₂ w₃ : World A} (h₁ : Later w₁ w₂) (h₂ : Later w₂ w₃) : Later w₁ w₃ where
  processed t h := h₂.processed t (h₁.processed t h)
  accepted := by
    intro t ht
    rcases h₂.accepted t ht with hmem | hnew
    · exact h₁.accepted t hmem
    · refine .inr (Bool.eq_false_iff.mpr fun hold => ?_)
      rw [h₁.processed t hold] at hnew
      exact absurd hnew (by decide)
  replaced t h := h₂.replaced t (h₁.replaced t h)

section
variable {env : BridgeEnv A} {amount base owed : Nat} {w w₀ w' : World A} {e : BridgeEvent A}
  {t txId : Bytes32} {utxo : UTXO} {msg : Msg A} {timestamp : Nat} {f : Bytes32 → Bool}

/-! ### Steps that keep the entries -/

/-- The entries of the storage that the invariant is about. -/
def ledger (bridge : Bridge A) :=
  (bridge.initialized, bridge.depositAmount, bridge.depositTxIds, bridge.processedTxIds,
    bridge.withdrawalUTXOs, bridge.usedWithdrawalUTXO)

/-- A step that changes neither the entries nor the accepted ids. -/
theorem Sound.of_ledger (h : Sound env amount base owed w) {owed' : Nat}
    (hledger : ledger w'.bridge = ledger w.bridge) (haccepted : acceptedTxIds w' = acceptedTxIds w)
    (hreplaced : replacedTxIds w' = replacedTxIds w)
    (hbalance : w'.balance + (w.forced + owed) = w.balance + (w'.forced + owed')) :
    Sound env amount base owed' w' ∧ Later w w' := by
  simp only [ledger, Prod.mk.injEq] at hledger
  obtain ⟨hinit, hamount, hdeposits, hprocessed, hwithdrawals, hused⟩ := hledger
  have hsum := h.balance
  constructor
  · exact {
      initialized := hinit.trans h.initialized
      depositAmount := hamount.trans h.depositAmount
      deposits := by rw [hdeposits]; exact h.deposits
      processed := by rw [hdeposits, hprocessed]; exact h.processed
      accepted := by rw [haccepted]; exact h.accepted
      acceptedProcessed := by rw [haccepted, hprocessed]; exact h.acceptedProcessed
      replaced := by rw [hreplaced, hdeposits, hprocessed]; exact h.replaced
      withdrawals := by rw [hwithdrawals]; exact h.withdrawals
      used := by rw [hwithdrawals, hused]; exact h.used
      balance := by rw [hdeposits, hwithdrawals]; omega }
  · refine ⟨?_, ?_, ?_⟩
    · rw [hprocessed]
      exact fun _ ht => ht
    · rw [haccepted]
      exact fun _ ht => .inl ht
    · rw [hreplaced]
      exact fun _ ht => ht

/-! ### Events -/

/-- The world with one more event. -/
def emit (e : BridgeEvent A) (w : World A) : World A := { w with events := w.events ++ [e] }

theorem mem_acceptedTxIds_emit :
    t ∈ acceptedTxIds (emit e w) ↔ t ∈ acceptedTxIds w ∨ acceptedId e = some t := by
  simp [acceptedTxIds, emit]

theorem mem_replacedTxIds_emit :
    t ∈ replacedTxIds (emit e w) ↔ t ∈ replacedTxIds w ∨ replacedId e = some t := by
  simp [replacedTxIds, emit]

/-- An event for an id that is processed and that no event has named. -/
theorem Sound.emit (h : Sound env amount base owed w)
    (haccepted : ∀ t, acceptedId e = some t → w.bridge.processedTxIds t = true ∧ t ∉ acceptedTxIds
      w) (hreplaced : ∀ t, replacedId e = some t → w.bridge.processedTxIds t = true ∧ t ∉
      w.bridge.depositTxIds) : Sound env amount base owed (Contracts.emit e w) :=
  { h with
    accepted := by
      have happend :
          acceptedTxIds (Contracts.emit e w) = acceptedTxIds w ++ (acceptedId e).toList := by
        rw [acceptedTxIds, Contracts.emit, filterMap_append]
        cases hid : acceptedId e <;> simp [acceptedTxIds, hid]
      rw [happend]
      refine nodup_append.mpr ⟨h.accepted, by cases acceptedId e <;> simp, ?_⟩
      intro t ht t' hnew heq
      exact (haccepted t' (by simpa using hnew)).2 (heq ▸ ht)
    acceptedProcessed := by
      intro t ht
      rcases mem_acceptedTxIds_emit.mp ht with hold | hnew
      · exact h.acceptedProcessed t hold
      · exact (haccepted t hnew).1
    replaced := by
      intro t ht
      rcases mem_replacedTxIds_emit.mp ht with hold | hnew
      · exact h.replaced t hold
      · exact hreplaced t hnew }

theorem Later.emit (h : Later w₀ w)
    (haccepted : ∀ t, acceptedId e = some t → w₀.bridge.processedTxIds t = false) :
    Later w₀ (Contracts.emit e w) where
  processed := h.processed
  accepted := by
    intro t ht
    rcases mem_acceptedTxIds_emit.mp ht with hold | hnew
    · exact h.accepted t hold
    · exact .inr (haccepted t hnew)
  replaced t ht := mem_replacedTxIds_emit.mpr (.inl (h.replaced t ht))

/-! ### Withdrawals -/

/-- The storage with one more withdrawal. -/
def withWithdrawal (env : BridgeEnv A) (utxo : UTXO) (w : World A) : World A :=
  { w with bridge := { w.bridge with
      usedWithdrawalUTXO := update w.bridge.usedWithdrawalUTXO (utxoKey env utxo) true
      withdrawalUTXOs := w.bridge.withdrawalUTXOs ++ [utxo] } }

/-- A withdrawal with a new key. The value of one deposit is no longer owed. -/
theorem Sound.withWithdrawal (h : Sound env amount base (owed + amount) w)
    (hnew : w.bridge.usedWithdrawalUTXO (utxoKey env utxo) = false) :
    Sound env amount base owed (withWithdrawal env utxo w) :=
  { h with
    withdrawals := by
      show ((w.bridge.withdrawalUTXOs ++ [utxo]).map (utxoKey env)).Nodup
      rw [map_append, nodup_append]
      refine ⟨h.withdrawals, by simp, ?_⟩
      intro key hkey key' hkey' heq
      obtain ⟨u, hu, rfl⟩ := mem_map.mp hkey
      rw [map_singleton, mem_singleton] at hkey'
      rw [← hkey', ← heq, h.used u hu] at hnew
      exact absurd hnew (by decide)
    used := by
      intro u hu
      show update w.bridge.usedWithdrawalUTXO (utxoKey env utxo) true (utxoKey env u) = true
      by_cases heq : utxoKey env u = utxoKey env utxo
      · rw [heq, update_self]
      · rw [update_of_ne heq]
        rcases mem_append.mp hu with hold | hlast
        · exact h.used u hold
        · exact absurd (congrArg (utxoKey env) (mem_singleton.mp hlast)) heq
    balance := by
      have hsum := h.balance
      show w.balance + amount * w.bridge.depositTxIds.length =
        base + w.forced + amount * (w.bridge.withdrawalUTXOs ++ [utxo]).length + owed
      rw [length_append, length_singleton, Nat.mul_add, Nat.mul_one]
      omega }

theorem Sound.recordWithdrawal (h : Sound env amount base (owed + amount) w)
    (hok : recordWithdrawal env timestamp w utxo = .ok w') :
    Sound env amount base owed w' ∧ Later w w' := by
  simp only [Spec.Contracts.recordWithdrawal, require, bind_eq_ok, ensure_eq_ok,
    pure_eq_ok, exists_const] at hok
  obtain ⟨hnew, rfl⟩ := hok
  have hstored : Later w (Contracts.withWithdrawal env utxo w) :=
    ⟨fun _ ht => ht, fun _ ht => .inl ht, fun _ ht => ht⟩
  exact ⟨(h.withWithdrawal hnew).emit (fun t ht => by cases ht) (fun t ht => by cases ht),
    hstored.emit fun t ht => by cases ht⟩

/-- The loop of `batchWithdraw`, one deposit amount for each turn. -/
theorem Sound.recordWithdrawals (utxos : List UTXO)
    (h : Sound env amount base (owed + amount * utxos.length) w)
    (hok : utxos.foldlM (Spec.Contracts.recordWithdrawal env timestamp) w = .ok w') :
    Sound env amount base owed w' ∧ Later w w' := by
  induction utxos generalizing w with
  | nil =>
    obtain rfl := pure_eq_ok.mp hok
    exact ⟨h, Later.refl w⟩
  | cons utxo rest ih =>
    rw [foldlM_cons, bind_eq_ok] at hok
    obtain ⟨w₁, hfirst, hrest⟩ := hok
    rw [length_cons, Nat.mul_add, Nat.mul_one, ← Nat.add_assoc] at h
    obtain ⟨hsound, hlater⟩ := h.recordWithdrawal hfirst
    obtain ⟨hsound', hlater'⟩ := ih hsound hrest
    exact ⟨hsound', hlater.trans hlater'⟩

/-- The value of a call is on the balance before the function runs. -/
theorem Sound.credit (h : Sound env amount base 0 w) (value : Nat) :
    Sound env amount base value { w with balance := w.balance + value } ∧
      Later w { w with balance := w.balance + value } :=
  h.of_ledger rfl rfl rfl
    (by show w.balance + value + (w.forced + 0) = w.balance + (w.forced + value); omega)

theorem Sound.withdraw (h : Sound env amount base msg.value w)
    (hok : withdraw env msg utxo w = .ok w') : Sound env amount base 0 w' ∧ Later w w' := by
  simp only [Spec.Contracts.withdraw, whenNotPaused, require, bind_eq_ok,
    ensure_eq_ok, exists_const] at hok
  obtain ⟨-, hvalue, hrecord⟩ := hok
  rw [hvalue, h.depositAmount] at h
  exact Sound.recordWithdrawal (by rwa [Nat.zero_add]) hrecord

/-- `safeWithdraw` ends with `withdraw`, after an event. -/
theorem safeWithdraw_withdraw [DecidableEq A] {args : SafeWithdrawArgs}
    (hok : safeWithdraw env msg args w = .ok w') : ∃ utxo,
      withdraw env msg utxo (emit (.safeWithdrawal args.payoutTx utxo
        w.bridge.withdrawalUTXOs.length) w) = .ok w' := by
  revert w'
  show Outcome.Returns (fun w' => ∃ utxo, withdraw env msg utxo (emit (.safeWithdrawal args.payoutTx
    utxo w.bridge.withdrawalUTXOs.length) w) = .ok w') (safeWithdraw env msg args w)
  unfold safeWithdraw
  repeat' first | with_reducible refine Outcome.returns_bind fun _ => ?_ | split
  exact fun w' h => ⟨_, h⟩

theorem Sound.batchWithdraw {txIds : List Bytes32} {outputIds : List Bytes4}
    (h : Sound env amount base msg.value w)
    (hok : batchWithdraw env msg txIds outputIds w = .ok w') :
    Sound env amount base 0 w' ∧ Later w w' := by
  simp only [Spec.Contracts.batchWithdraw, whenNotPaused, checkedMul, require, bind_eq_ok,
    ensure_eq_ok, exists_const] at hok
  obtain ⟨-, hlength, total, htotal, hvalue, hrecord⟩ := hok
  split_ifs at htotal with hfits
  · rw [pure_eq_ok] at htotal
    have hmul : amount * txIds.length = msg.value := by rw [← h.depositAmount, htotal, hvalue]
    refine Sound.recordWithdrawals _ ?_ hrecord
    rw [length_zipWith, ← hlength, Nat.min_self, Nat.zero_add, hmul]
    exact h
  · simp at htotal

/-! ### Deposits -/

/-- The storage with one more deposit. -/
def withDeposit (txId : Bytes32) (w : World A) : World A :=
  { w with bridge := { w.bridge with
      processedTxIds := update w.bridge.processedTxIds txId true
      depositTxIds := w.bridge.depositTxIds ++ [txId] } }

/-- The storage with another deposit in the place of an old one. -/
def withReplacement (index : Nat) (newTxId : Bytes32) (w : World A) : World A :=
  { w with bridge := { w.bridge with
      processedTxIds := update w.bridge.processedTxIds newTxId true
      depositTxIds := w.bridge.depositTxIds.set index newTxId } }

theorem processed_update (h : f t = true) : update f txId true t = true := by
  by_cases heq : t = txId
  · rw [heq, update_self]
  · rw [update_of_ne heq]
    exact h

/-- An id that is not processed is different from all that are. -/
theorem ne_of_processed (hnew : f txId = false) (h : f t = true) : t ≠ txId := by
  rintro rfl
  rw [h] at hnew
  exact absurd hnew (by decide)

/-- A deposit with a new id. Its value is owed until it is sent. -/
theorem Sound.withDeposit (h : Sound env amount base owed w)
    (hnew : w.bridge.processedTxIds txId = false) :
    Sound env amount base (owed + amount) (withDeposit txId w) :=
  { h with
    deposits := by
      refine nodup_append.mpr ⟨h.deposits, by simp, ?_⟩
      intro t ht t' ht' heq
      rw [mem_singleton.mp ht'] at heq
      exact ne_of_processed hnew (h.processed t ht) heq
    processed := by
      intro t ht
      rcases mem_append.mp ht with hold | hlast
      · exact processed_update (h.processed t hold)
      · rw [mem_singleton.mp hlast]
        exact update_self ..
    acceptedProcessed t ht := processed_update (h.acceptedProcessed t ht)
    replaced := by
      intro t ht
      obtain ⟨hprocessed, hother⟩ := h.replaced t ht
      refine ⟨processed_update hprocessed, fun hmem => ?_⟩
      rcases mem_append.mp hmem with hold | hlast
      · exact hother hold
      · exact ne_of_processed hnew hprocessed (mem_singleton.mp hlast)
    balance := by
      have hsum := h.balance
      show w.balance + amount * (w.bridge.depositTxIds ++ [txId]).length =
        base + w.forced + amount * w.bridge.withdrawalUTXOs.length + (owed + amount)
      rw [length_append, length_singleton, Nat.mul_add, Nat.mul_one]
      omega }

/-- Replacing an entry of a list without duplicates removes its value. -/
theorem not_mem_set {l : List Bytes32} {i : Nat} {old new : Bytes32} (hnodup : l.Nodup)
    (hold : l[i]? = some old) (hne : old ≠ new) : old ∉ l.set i new := by
  intro hmem
  obtain ⟨j, hj⟩ := mem_iff_getElem?.mp hmem
  rw [List.getElem?_set] at hj
  split_ifs at hj with hij hlt
  · exact hne (some.inj hj).symm
  · exact hij ((List.getElem?_inj (List.getElem?_eq_some_iff.mp hold).1 hnodup).mp
      (hold.trans hj.symm))

theorem Sound.withReplacement {index : Nat} {newTxId : Bytes32} (h : Sound env amount base owed w)
    (hnew : w.bridge.processedTxIds newTxId = false) :
    Sound env amount base owed (withReplacement index newTxId w) :=
  { h with
    deposits := List.Nodup.set h.deposits fun hmem => ne_of_processed hnew (h.processed _ hmem) rfl
    processed := by
      intro t ht
      rcases mem_or_eq_of_mem_set ht with hold | rfl
      · exact processed_update (h.processed t hold)
      · exact update_self ..
    acceptedProcessed t ht := processed_update (h.acceptedProcessed t ht)
    replaced := by
      intro t ht
      obtain ⟨hprocessed, hother⟩ := h.replaced t ht
      refine ⟨processed_update hprocessed, fun hmem => ?_⟩
      rcases mem_or_eq_of_mem_set hmem with hold | heq
      · exact hother hold
      · exact ne_of_processed hnew hprocessed heq
    balance := by
      have hsum := h.balance
      show w.balance + amount * (w.bridge.depositTxIds.set index newTxId).length = _
      rw [length_set]
      exact hsum }

/-- Code that keeps the invariant. -/
def Keeps (env : BridgeEnv A) (amount base : Nat) (code : World A → World A × Bool) : Prop :=
  ∀ w, Sound env amount base 0 w → Sound env amount base 0 (code w).1 ∧ Later w (code w).1

/-- A processed id that no event has named stays so for a caller that waits. -/
theorem Later.not_accepted (h : Later w w') (hprocessed : w.bridge.processedTxIds txId = true)
    (hfresh : txId ∉ acceptedTxIds w) : txId ∉ acceptedTxIds w' := by
  intro hmem
  rcases h.accepted txId hmem with hold | hunprocessed
  · exact hfresh hold
  · rw [hprocessed] at hunprocessed
    exact absurd hunprocessed (by decide)

/-- The event that ends a deposit. -/
theorem Sound.emitDeposit (h : Sound env amount base owed w) (hbefore : Later w₀ w)
    (hnew : w₀.bridge.processedTxIds txId = false)
    (hprocessed : w.bridge.processedTxIds txId = true) (hfresh : txId ∉ acceptedTxIds w)
    (haccepted : acceptedId e = some txId) (hreplaced : replacedId e = none) :
    Sound env amount base owed (Contracts.emit e w) ∧ Later w₀ (Contracts.emit e w) := by
  constructor
  · refine h.emit (fun t ht => ?_) (fun t ht => ?_)
    · rw [haccepted] at ht
      rw [← some.inj ht]
      exact ⟨hprocessed, hfresh⟩
    · rw [hreplaced] at ht
      exact nomatch ht
  · refine hbefore.emit fun t ht => ?_
    rw [haccepted] at ht
    rw [← some.inj ht]
    exact hnew

variable [DecidableEq A] {msg : Msg A} {recipientCode vaultCode : World A → World A × Bool}
  {proof : MerkleProof} {shaScriptPubkeys : Bytes32} {message : Message A}

/-- Sending the value of a deposit. The code runs when it is already gone. -/
theorem Sound.sendEther {code : World A → World A × Bool} (h : Sound env amount base amount w)
    (target : A) (hcode : Keeps env amount base code) :
    (sendEther env target w.bridge.depositAmount code w = (w, false)) ∨
    ∃ w', sendEther env target w.bridge.depositAmount code w = (w', true) ∧
      Sound env amount base 0 w' ∧ Later w w' := by
  rw [Spec.Contracts.sendEther]
  split_ifs with hcan
  · have hsent : Sound env amount base 0 { w with balance := w.balance - w.bridge.depositAmount } ∧
        Later w { w with balance := w.balance - w.bridge.depositAmount } := by
      refine h.of_ledger rfl rfl rfl ?_
      have hle := hcan.1
      rw [h.depositAmount] at hle ⊢
      show w.balance - amount + (w.forced + amount) = w.balance + (w.forced + 0)
      omega
    obtain ⟨hsound, hlater⟩ := hcode _ hsent.1
    simp only
    split_ifs
    · exact .inr ⟨_, rfl, hsound, hsent.2.trans hlater⟩
    · exact .inl rfl
  · exact .inl rfl

/-- The end of `deposit`, for the world `w₀` before the id was stored. -/
theorem Sound.payOut {wtxId txId : Bytes32} {recipient : A} (h : Sound env amount base amount w)
    (hrecipient : Keeps env amount base recipientCode) (hvault : Keeps env amount base vaultCode)
    (hbefore : Later w₀ w) (hnew : w₀.bridge.processedTxIds txId = false)
    (hprocessed : w.bridge.processedTxIds txId = true) (hfresh : txId ∉ acceptedTxIds w)
    (hok : payOut env msg wtxId txId recipient recipientCode vaultCode w = .ok w') :
    Sound env amount base 0 w' ∧ Later w₀ w' := by
  simp only [Spec.Contracts.payOut] at hok
  rcases h.sendEther recipient hrecipient with hfail | ⟨w₁, hsend, hsound, hlater⟩
  · -- the recipient reverted: the event comes first, and then the value goes to the vault
    rw [hfail] at hok
    obtain ⟨hemit, hlaterEmit⟩ := h.emitDeposit (e := .depositTransferFailed wtxId txId recipient
      msg.timestamp (w.bridge.depositTxIds.length - 1)) hbefore hnew hprocessed hfresh rfl rfl
    rcases hemit.sendEther w.bridge.failedDepositVault hvault with
      hfail' | ⟨w₂, hsend', hsound, hlater⟩
    · rw [Contracts.emit] at hfail'
      simp only [hfail', require, bind_eq_ok, ensure_eq_ok, Bool.false_eq_true,
        if_false, exists_const, false_and] at hok
    · rw [Contracts.emit] at hsend'
      simp only [hsend', require, bind_eq_ok, ensure_eq_ok, Bool.false_eq_true,
        if_false, pure_eq_ok, exists_const, true_and] at hok
      rw [← hok]
      exact ⟨hsound, hlaterEmit.trans hlater⟩
  · rw [hsend] at hok
    simp only [if_true, pure_eq_ok] at hok
    rw [← hok]
    exact hsound.emitDeposit (hbefore.trans hlater) hnew (hlater.processed txId hprocessed)
      (hlater.not_accepted hprocessed hfresh) rfl rfl

theorem Sound.deposit {moveTx : BridgeTransaction} (h : Sound env amount base 0 w)
    (hrecipient : Keeps env amount base recipientCode) (hvault : Keeps env amount base vaultCode)
    (hok : deposit env msg moveTx proof shaScriptPubkeys recipientCode vaultCode w = .ok w') :
    Sound env amount base 0 w' ∧ Later w w' := by
  simp only [Spec.Contracts.deposit, whenNotPaused, require, bind_eq_ok,
    ensure_eq_ok, exists_const] at hok
  obtain ⟨-, -, ⟨wtxId, txId, witness0⟩, -, hnew, -, -, recipient, -, hpay⟩ := hok
  have hpushed := h.withDeposit hnew
  rw [Nat.zero_add] at hpushed
  have hfresh : txId ∉ acceptedTxIds w := fun hmem =>
    ne_of_processed hnew (h.acceptedProcessed txId hmem) rfl
  have hbefore : Later w (Contracts.withDeposit txId w) :=
    ⟨fun _ ht => processed_update ht, fun _ ht => .inl ht, fun _ ht => ht⟩
  exact hpushed.payOut hrecipient hvault hbefore hnew (update_self ..) hfresh hpay

theorem Sound.replaceDeposit {replaceTx : BridgeTransaction} {idToReplace : Nat}
    (h : Sound env amount base 0 w)
    (hok : replaceDeposit env msg replaceTx proof idToReplace shaScriptPubkeys w = .ok w') :
    Sound env amount base 0 w' ∧ Later w w' := by
  simp only [Spec.Contracts.replaceDeposit, require, bind_eq_ok, ensure_eq_ok,
    expect_eq_ok, pure_eq_ok, exists_const] at hok
  obtain ⟨-, -, -, ⟨wtxId, newTxId, witness0⟩, -, hnew, old, hold, -, -, -, -, txId, -,
    rfl, rfl⟩ := hok
  have hmem : txId ∈ w.bridge.depositTxIds := mem_of_getElem? hold
  have hstored : Sound env amount base 0 (Contracts.withReplacement idToReplace newTxId w) :=
    h.withReplacement hnew
  have hbefore : Later w (Contracts.withReplacement idToReplace newTxId w) :=
    ⟨fun _ ht => processed_update ht, fun _ ht => .inl ht, fun _ ht => ht⟩
  constructor
  · refine hstored.emit (fun t ht => ?_) (fun t ht => ?_)
    · rw [← some.inj ht]
      exact ⟨update_self .., fun hmem =>
        ne_of_processed hnew (h.acceptedProcessed newTxId hmem) rfl⟩
    · rw [← some.inj ht]
      exact ⟨processed_update (h.processed txId hmem),
        not_mem_set h.deposits hold (ne_of_processed hnew (h.processed txId hmem))⟩
  · refine hbefore.emit fun t ht => ?_
    rw [← some.inj ht]
    exact hnew

/-! ### Calls and frames -/

/-- The settings do not touch the entries, because `initialize` runs only once. -/
theorem callSettings_ledger {bridge bridge' : Bridge A} (hinit : bridge.initialized = true)
    (hok : callSettings env msg message bridge = .ok bridge') : ledger bridge' = ledger bridge := by
  revert bridge'
  show Outcome.Returns (fun bridge' => ledger bridge' = ledger bridge)
    (callSettings env msg message bridge)
  have hpure : ∀ bridge' : Bridge A, ledger bridge' = ledger bridge →
      Outcome.Returns (fun b => ledger b = ledger bridge) (pure bridge' : Call (Bridge A)) := by
    intro bridge' heq b hb
    rw [← pure_eq_ok.mp hb]
    exact heq
  cases message with
  | initializeBridge depositPrefix depositSuffix depositAmount =>
    intro bridge' hok
    simp only [callSettings, initializeBridge, require, hinit, bind_eq_ok, ensure_eq_ok] at hok
    obtain ⟨-, -, -, hfalse, -⟩ := hok
    exact absurd hfalse (by decide)
  | _ =>
    -- each function ends with a change of other fields
    dsimp only [callSettings, setDepositScript, setReplaceScript, setFailedDepositVault,
      setOptimisticWithdrawAmount, setOperator, pause, unpause, transferOwnership, acceptOwnership,
      renounceOwnership]
    repeat with_reducible refine Outcome.returns_bind fun _ => ?_
    exact hpure _ rfl

/-- A call of the bridge keeps the invariant, if the code that it calls does. -/
theorem Sound.callBridge (h : Sound env amount base 0 w)
    (hrecipient : Keeps env amount base recipientCode) (hvault : Keeps env amount base vaultCode)
    (hok : callBridge env msg message recipientCode vaultCode w = .ok w') :
    Sound env amount base 0 w' ∧ Later w w' := by
  obtain ⟨hcredit, hlater⟩ := h.credit msg.value
  -- a function that is not payable has no value to record
  have hfree : msg.value = 0 →
      Sound env amount base 0 { w with balance := w.balance + msg.value } :=
    fun hzero => by rw [hzero] at hcredit ⊢; exact hcredit
  cases message with
  | deposit moveTx proof shaScriptPubkeys =>
    simp only [Spec.Contracts.callBridge, nonPayable, require, bind_eq_ok,
      ensure_eq_ok, exists_const] at hok
    obtain ⟨hsound, hlater'⟩ := (hfree hok.1).deposit hrecipient hvault hok.2
    exact ⟨hsound, hlater.trans hlater'⟩
  | withdraw utxo =>
    obtain ⟨hsound, hlater'⟩ := hcredit.withdraw hok
    exact ⟨hsound, hlater.trans hlater'⟩
  | safeWithdraw args =>
    obtain ⟨utxo, hwithdraw⟩ := safeWithdraw_withdraw hok
    let e : BridgeEvent A := .safeWithdrawal args.payoutTx utxo w.bridge.withdrawalUTXOs.length
    have hemit := hcredit.emit (e := e) (fun t ht => by cases ht) (fun t ht => by cases ht)
    obtain ⟨hsound, hlater'⟩ := hemit.withdraw hwithdraw
    exact ⟨hsound, (hlater.emit (e := e) fun t ht => by cases ht).trans hlater'⟩
  | batchWithdraw txIds outputIds =>
    obtain ⟨hsound, hlater'⟩ := hcredit.batchWithdraw hok
    exact ⟨hsound, hlater.trans hlater'⟩
  | replaceDeposit replaceTx proof idToReplace shaScriptPubkeys =>
    simp only [Spec.Contracts.callBridge, nonPayable, require, bind_eq_ok,
      ensure_eq_ok, exists_const] at hok
    obtain ⟨hsound, hlater'⟩ := (hfree hok.1).replaceDeposit hok.2
    exact ⟨hsound, hlater.trans hlater'⟩
  | _ =>
    simp only [Spec.Contracts.callBridge, nonPayable, require, bind_eq_ok,
      ensure_eq_ok, exists_const, pure_eq_ok] at hok
    obtain ⟨hzero, bridge', hsettings, rfl⟩ := hok
    have hsame :
        Sound env amount base 0 { w with bridge := bridge', balance := w.balance + msg.value } ∧
        Later { w with balance := w.balance + msg.value } _ :=
      (hfree hzero).of_ledger (callSettings_ledger h.initialized hsettings) rfl rfl rfl
    exact ⟨hsame.1, hlater.trans hsame.2⟩

/-- Any code keeps the invariant. By induction over what it does. -/
theorem Sound.run (frame : Frame A) : Keeps env amount base (frame.run env) := by
  induction frame with
  | finish success => exact fun w h => ⟨h, Later.refl w⟩
  | call msg message recipient vault next hrecipient hvault ih =>
    intro w h
    have hcall : Sound env amount base 0 (afterCall w (Spec.Contracts.callBridge env msg message
        (recipient.run env) (vault.run env) w)) ∧ Later w (afterCall w
          (Spec.Contracts.callBridge env msg message (recipient.run env) (vault.run env) w)) := by
      cases hok :
          Spec.Contracts.callBridge env msg message (recipient.run env) (vault.run env) w with
      | error fault => exact ⟨h, Later.refl w⟩
      | ok w' => exact h.callBridge hrecipient hvault hok
    obtain ⟨hsound, hlater⟩ := ih _ hcall.1
    exact ⟨hsound, hcall.2.trans hlater⟩
  | forceTransfer amount' next ih =>
    intro w h
    have hforced : Sound env amount base 0
        { w with balance := w.balance + amount', forced := w.forced + amount' } ∧ Later w _ :=
      h.of_ledger rfl rfl rfl
        (by show w.balance + amount' + (w.forced + 0) = w.balance + (w.forced + amount' + 0); omega)
    obtain ⟨hsound, hlater⟩ := ih _ hforced.1
    exact ⟨hsound, hforced.2.trans hlater⟩
  | lightClient isSystem request next ih =>
    intro w h
    have hsame : Sound env amount base 0
        { w with lightClient := w.lightClient.step isSystem request } ∧ Later w _ :=
      h.of_ledger rfl rfl rfl rfl
    obtain ⟨hsound, hlater⟩ := ih _ hsame.1
    exact ⟨hsound, hsame.2.trans hlater⟩
  | frame inner next hinner ih =>
    intro w h
    have hafter : Sound env amount base 0 (afterFrame w (inner.run env w)) ∧
        Later w (afterFrame w (inner.run env w)) := by
      rw [afterFrame]
      split_ifs
      · exact hinner w h
      · exact ⟨h, Later.refl w⟩
    obtain ⟨hsound, hlater⟩ := ih _ hafter.1
    exact ⟨hsound, hafter.2.trans hlater⟩

/-- The contract before `initialize`. -/
structure Fresh (w : World A) : Prop where
  deposits : w.bridge.depositTxIds = []
  withdrawals : w.bridge.withdrawalUTXOs = []
  events : w.events = []
  forced : w.forced = 0

theorem initialize_sound {depositPrefix depositSuffix : Bytes} {depositAmount : Nat}
    {recipient vault : World A → World A × Bool} (hfresh : Fresh w₀)
    (hinit : callBridge env msg (.initializeBridge depositPrefix depositSuffix depositAmount)
      recipient vault w₀ = .ok w) : Sound env depositAmount w.balance 0 w := by
  simp only [callBridge, callSettings, initializeBridge, nonPayable, require, bind_eq_ok,
    ensure_eq_ok, pure_eq_ok, exists_const] at hinit
  obtain ⟨-, bridge', ⟨-, -, -, -, -, -, optimistic, -, rfl⟩, rfl⟩ := hinit
  obtain ⟨hdeposits, hwithdrawals, hevents, hforced⟩ := hfresh
  constructor <;> simp [acceptedTxIds, replacedTxIds, hdeposits, hwithdrawals, hevents, hforced]

/-- The bridge. Take any history after `initialize`, with any code of the recipients and the vault.
No id is accepted twice, the deposits are distinct and processed, and the withdrawals are distinct.
Take then any history after that one. No entry that was replaced before is there again, and the
balance has changed by the deposit amount times the new withdrawals minus the new deposits, up to
transfers that the bridge could not refuse. -/
theorem bridge_sound {msg : Msg A} {depositPrefix depositSuffix : Bytes} {depositAmount : Nat}
    {recipient vault : World A → World A × Bool} (hfresh : Fresh w₀)
    (hinit : callBridge env msg (.initializeBridge depositPrefix depositSuffix depositAmount)
      recipient vault w₀ = .ok w) (history next : Frame A) :
    let w₁ := (history.run env w).1
    let w₂ := (next.run env w₁).1
    (acceptedTxIds w₁).Nodup ∧ w₁.bridge.depositTxIds.Nodup ∧
    (∀ t ∈ w₁.bridge.depositTxIds, w₁.bridge.processedTxIds t = true) ∧
    (∀ t ∈ replacedTxIds w₁, t ∉ w₂.bridge.depositTxIds) ∧ w₁.bridge.withdrawalUTXOs.Nodup ∧
    (w₂.balance : Int) - w₁.balance = depositAmount *
      (((w₂.bridge.withdrawalUTXOs.length : Int) - w₁.bridge.withdrawalUTXOs.length) -
        ((w₂.bridge.depositTxIds.length : Int) - w₁.bridge.depositTxIds.length)) +
      ((w₂.forced : Int) - w₁.forced) := by
  intro w₁ w₂
  have hstart := initialize_sound hfresh hinit
  obtain ⟨hsound, -⟩ := Sound.run history w hstart
  obtain ⟨hsound', hlater⟩ := Sound.run next w₁ hsound
  refine ⟨hsound.accepted, hsound.deposits, hsound.processed, ?_, ?_, ?_⟩
  · exact fun t ht => (hsound'.replaced t (hlater.replaced t ht)).2
  · exact List.Nodup.of_map _ hsound.withdrawals
  · have h₁ := hsound.balance
    have h₂ := hsound'.balance
    zify at h₁ h₂
    linear_combination h₂ - h₁

end

/-! ### A recipient that calls the bridge -/

/-- A library for small inputs: a compact number is one byte, and a hash is the first 32 bytes. -/
def sampleLib : SpvLibrary where
  sha256 := toBytes32
  validateVin := fun _ => true
  validateVout := fun _ => true
  parseVarIntAt := fun b i => (b[i]?).elim (errBadArg, 0) fun n => (0, n.toNat)
  extractInputAtIndex := fun b _ => pure b
  extractOutputAtIndex := fun b _ => pure b
  extractOutpoint := id
  extractInputTxIdLE := toBytes32
  extractTxIndexLE := fun _ => ⟨[0, 0, 0, 0], rfl⟩
  extractSequenceLEWitness := fun _ => ⟨[0, 0, 0, 0], rfl⟩

def sampleEnv : BridgeEnv Nat where
  lib := sampleLib
  schnorrVerifierPrecompile := fun _ => (true, List.replicate 31 0 ++ [1])
  bridge := 0
  systemCaller := 1
  zeroAddress := 2
  defaultVault := 3
  toAddress := fun _ => 4

/-- The first part of the script. Its first byte is the length of the script. -/
def samplePrefix : Bytes := 53 :: List.replicate 33 0

/-- A transaction with one witness: a signature, the script and a control block. -/
def sampleMoveTx : BridgeTransaction where
  version := ⟨[2, 0, 0, 0], rfl⟩
  flag := [0, 1]
  vin := [1]
  vout := [0]
  witness := [3] ++ (64 :: List.replicate 64 0) ++
    (samplePrefix ++ List.replicate 20 0) ++ [1, 0xC0]
  locktime := ⟨[0, 0, 0, 0], rfl⟩

/-- The world before `initialize`. The light client knows one block, with this transaction alone. -/
def sampleWorld : World Nat where
  bridge :=
    { owner := 8, pendingOwner := 2, paused := false, initialized := false, operator := 2,
      depositAmount := 0, failedDepositVault := 2, depositPrefix := [], depositSuffix := [],
      replacePrefix := [], replaceSuffix := [], withdrawalUTXOs := [], depositTxIds := [],
      processedTxIds := fun _ => false, usedWithdrawalUTXO := fun _ => false,
      optimisticWithdrawAmount := 0 }
  balance := 50 * 10 ^ 10
  events := []
  lightClient := { LightClient.empty with
    witnessRoots := fun _ => WitnessUtils.calculateWtxId sampleLib sampleMoveTx.version
      sampleMoveTx.flag sampleMoveTx.vin sampleMoveTx.vout sampleMoveTx.witness
      sampleMoveTx.locktime }
  forced := 0

/-- The recipient of the deposit withdraws at once, and the deposit is tried a second time. -/
def sampleHistory : Frame Nat :=
  let depositCall := Message.deposit sampleMoveTx ⟨[], 0, 0⟩ .zero
  let withdrawCall := Message.withdraw ⟨.zero, ⟨[0, 0, 0, 0], rfl⟩⟩
  let recipient := Frame.call ⟨4, 20 * 10 ^ 10, 6⟩ withdrawCall (.finish true) (.finish true)
    (.finish true)
  .call ⟨1, 0, 6⟩ depositCall recipient (.finish true) <|
    .call ⟨1, 0, 6⟩ depositCall recipient (.finish true) (.finish true)

/-- The theorem applied to this history. The second deposit is rejected, so that the recipient does
not run again. -/
theorem reentrant_deposit_sound :
    ∃ w, callBridge sampleEnv ⟨1, 0, 5⟩ (.initializeBridge samplePrefix [] (20 * 10 ^ 10))
        (fun w => (w, true)) (fun w => (w, true)) sampleWorld = .ok w ∧
      let w₁ := (sampleHistory.run sampleEnv w).1
      w₁.bridge.depositTxIds.length = 1 ∧ w₁.bridge.withdrawalUTXOs.length = 1 ∧
      w₁.balance = 50 * 10 ^ 10 ∧ (acceptedTxIds w₁).Nodup := by
  have hrun : (callBridge sampleEnv ⟨1, 0, 5⟩ (.initializeBridge samplePrefix [] (20 * 10 ^ 10))
      (fun w => (w, true)) (fun w => (w, true)) sampleWorld).map (fun w =>
        let w₁ := (sampleHistory.run sampleEnv w).1
        (w₁.bridge.depositTxIds.length, w₁.bridge.withdrawalUTXOs.length, w₁.balance)) =
      .ok (1, 1, 50 * 10 ^ 10) := by decide +kernel
  obtain ⟨w, hinit, hresult⟩ := map_eq_ok.mp hrun
  have hfresh : Fresh sampleWorld := ⟨rfl, rfl, rfl, rfl⟩
  have hsound := bridge_sound hfresh hinit sampleHistory (.finish true)
  simp only [Prod.mk.injEq] at hresult
  exact ⟨w, hinit, hresult.1, hresult.2.1, hresult.2.2, hsound.1⟩

end Citrea.Proofs.Contracts
