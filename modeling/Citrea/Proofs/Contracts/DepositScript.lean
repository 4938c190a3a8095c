import Citrea.Proofs.Contracts.Witness

/-!
# `Citrea.Proofs.Contracts.DepositScript`: which scripts the bridge accepts

`isBytesEqual_iff` says that the comparison of two byte strings is equality. The source compares
words of the memory, at offsets that count the word of the length, and then the remaining bytes.
`isBytesEqualInMemory_iff` says that no word reaches behind the bytes, so the comparison does not
depend on what is there.

`scriptOf_eq_ok` is the check of a script: the item is the first part, some bytes and the last part.
`Paid` is what `deposit` does when this check has passed, and `payOut_eq_ok` says so.
`deposit_script_recognition` is about `deposit` and `replaceDeposit` after their signature check.
-/

namespace Citrea.Proofs.Contracts

open List Lib Spec.Bitcoin Spec.Contracts Spec.Contracts.WitnessUtils

variable {a b : Bytes}

/-! ### Equal bytes -/

/-- A piece of 32 bytes. -/
def piece (l : Bytes) (k : Nat) : Bytes := (l.drop (32 * k)).take 32

/-- Bytes of one length are equal, if their whole pieces and their remaining bytes are. -/
theorem eq_of_pieces (hlength : a.length = b.length)
    (hpieces : ∀ k < a.length / 32, piece a k = piece b k)
    (hrest : ∀ i, 32 * (a.length / 32) ≤ i → i < a.length → a[i]? = b[i]?) : a = b := by
  apply ext_getElem?
  intro i
  rcases Nat.lt_or_ge i (32 * (a.length / 32)) with hlt | hge
  · -- The byte is in a whole piece.
    have hpiece := congrArg (fun l : Bytes => l[i % 32]?) (hpieces (i / 32) (by omega))
    simp only [piece, List.getElem?_take, List.getElem?_drop] at hpiece
    rw [if_pos (Nat.mod_lt i (by omega)), if_pos (Nat.mod_lt i (by omega)),
      Nat.div_add_mod] at hpiece
    exact hpiece
  · rcases Nat.lt_or_ge i a.length with hlt | hge'
    · exact hrest i hge hlt
    · rw [List.getElem?_eq_none hge', List.getElem?_eq_none (by omega)]

/-- `isBytesEqual` is equality. -/
theorem isBytesEqual_iff (a b : Bytes) : isBytesEqual a b = true ↔ a = b := by
  constructor
  · intro h
    rw [isBytesEqual] at h
    split at h
    · cases h
    · next hlength =>
      simp only [Bool.and_eq_true, all_eq_true, mem_range, beq_iff_eq] at h
      refine eq_of_pieces (not_not.mp hlength) h.1 fun i hge hlt => ?_
      have hbyte := h.2 (i - 32 * (a.length / 32)) (by omega)
      rwa [Nat.add_sub_cancel' hge] at hbyte
  · rintro rfl
    simp [isBytesEqual]

/-- A word inside the bytes is one of their pieces, whatever is behind them. -/
theorem mload_memoryFrom (behind : Bytes) {k : Nat} (h : 32 * (k + 1) ≤ a.length) :
    mload (memoryFrom a behind) (32 * (k + 1)) = piece a k := by
  have hlength : ((leBytes 32 a.length).reverse).length = 32 := by simp
  rw [mload, memoryFrom, append_assoc, piece]
  have hdrop : ((leBytes 32 a.length).reverse ++ (a ++ behind)).drop (32 * (k + 1)) =
      (a ++ behind).drop (32 * k) := by
    rw [show 32 * (k + 1) = 32 + 32 * k by omega, ← drop_drop, drop_left' hlength]
  rw [hdrop, drop_append_of_le_length (by omega), take_append_of_le_length]
  rw [length_drop]
  omega

/-- The loop over words compares the pieces from its offset on. -/
theorem equalWords_eq (hlength : a.length = b.length) (behindA behindB : Bytes) {k : Nat}
    (hk : k ≤ a.length / 32) :
    equalWords (memoryFrom a behindA) (memoryFrom b behindB) a.length (32 * (k + 1)) =
      if ∀ i, k ≤ i → i < a.length / 32 → piece a i = piece b i
      then some (32 * (a.length / 32 + 1)) else none := by
  -- The induction is on the number of pieces that are left.
  obtain ⟨left, hleft⟩ := Nat.exists_eq_add_of_le hk
  induction left generalizing k with
  | zero =>
    have hend : k = a.length / 32 := by omega
    rw [equalWords, if_neg (by omega), if_pos fun i hki hi => by omega, hend]
  | succ left ih =>
    have hinside : 32 * (k + 1) ≤ a.length := by omega
    rw [equalWords, if_pos hinside, mload_memoryFrom behindA hinside,
      mload_memoryFrom behindB (by omega), show 32 * (k + 1) + 32 = 32 * (k + 1 + 1) by omega]
    by_cases hpiece : piece a k = piece b k
    · rw [if_pos hpiece, ih (by omega) (by omega)]
      refine if_congr ⟨fun h i hki hi => ?_, fun h i hki hi => h i (by omega) hi⟩ rfl rfl
      rcases Nat.lt_or_eq_of_le hki with hlt | rfl
      · exact h i hlt hi
      · exact hpiece
    · rw [if_neg hpiece, if_neg fun h => hpiece (h k (Nat.le_refl k) (by omega))]

/-- The comparison in memory is equality. -/
theorem isBytesEqualInMemory_iff (a b behindA behindB : Bytes) :
    isBytesEqualInMemory a b behindA behindB = true ↔ a = b := by
  rw [isBytesEqualInMemory]
  by_cases hlength : a.length = b.length
  · rw [if_neg (not_not.mpr hlength)]
    have hwords := equalWords_eq hlength behindA behindB (Nat.zero_le (a.length / 32))
    rw [Nat.zero_add, Nat.mul_one] at hwords
    rw [hwords]
    constructor
    · intro h
      split at h
      · cases h
      · next offset hoffset =>
        split at hoffset
        · next hpieces =>
          obtain rfl := Option.some.inj hoffset
          refine eq_of_pieces hlength (fun k hk => hpieces k (by omega) hk) fun i hge hlt => ?_
          simp only [all_eq_true, mem_range'_1, beq_iff_eq] at h
          exact h i ⟨by omega, by omega⟩
        · cases hoffset
    · rintro rfl
      rw [if_pos fun _ _ _ => rfl]
      simp
  · rw [if_pos hlength]
    constructor
    · intro h
      cases h
    · exact fun h => absurd (congrArg List.length h) hlength

/-! ### The script of a stack -/

theorem slice_of_le {i n : Nat} (h : i + n ≤ b.length) : slice b i n = .ok ((b.drop i).take n) := by
  rw [slice]
  by_cases hzero : n = 0
  · rw [if_pos hzero, hzero, take_zero]
    rfl
  · rw [if_neg hzero, if_pos h]
    rfl

theorem slice_mid (first mid last : Bytes) :
    slice (first ++ mid ++ last) first.length mid.length = .ok mid := by
  rw [append_assoc]
  exact slice_of_drop drop_left

theorem bytesToBytes32_eq_ok {source : Bytes} {b : Bytes32} (h : source.length = 32) :
    bytesToBytes32 source = .ok b ↔ b.data = source := by
  rw [bytesToBytes32, if_neg (by omega), dif_pos (by omega), pure_eq_ok]
  have hpad : List.replicate (32 - source.length) 0 ++ source = source := by
    rw [h]
    rfl
  constructor
  · rintro rfl
    exact hpad
  · rintro rfl
    exact Bytes32.ext hpad

/-- The stack has three items, and the second one is `script`, with its count in front. -/
def IsScript {counts : Bytes → Nat → Prop} (stack : WitnessStack counts) (script : Bytes) : Prop :=
  stack.items.length = 3 ∧ ∃ item, stack.items[1]? = some item ∧ item.bytes = script

section
variable {A : Type} {env : BridgeEnv A} {counts : Bytes → Nat → Prop}

/-- What `extractItemFromWitness` returns for a stack. -/
theorem extractItemFromWitness_eq_ok (hlib : ParsesCounts env.lib counts)
    {stack : WitnessStack counts} (hstack : stack.bytes.length < 2 ^ 256) {i : Nat} {b : Bytes} :
    extractItemFromWitness env.lib stack.bytes i = .ok b ↔
      ∃ item, stack.items[i]? = some item ∧ item.bytes = b := by
  constructor
  · intro h
    have hread := h
    rw [extractItemFromWitness_eq, parseVarInt_of_stack hlib] at hread
    simp only [require, bind_eq_ok, ensure_eq_ok] at hread
    obtain ⟨-, -, -, hindex, -⟩ := hread
    have hitem := List.getElem?_eq_getElem hindex
    rw [extractItemFromWitness_of_stack hlib hstack hitem] at h
    exact ⟨_, hitem, Except.ok.inj h⟩
  · rintro ⟨item, hitem, rfl⟩
    exact extractItemFromWitness_of_stack hlib hstack hitem

theorem isScript_iff (hlib : ParsesCounts env.lib counts) {stack : WitnessStack counts}
    (hstack : stack.bytes.length < 2 ^ 256) {script : Bytes} : IsScript stack script ↔
      (env.lib.parseVarInt stack.bytes).2 = 3 ∧
      extractItemFromWitness env.lib stack.bytes 1 = .ok script := by
  rw [IsScript, parseVarInt_of_stack hlib, extractItemFromWitness_eq_ok hlib hstack]

/-- The check of a script. -/
theorem scriptOf_eq_ok (hlib : ParsesCounts env.lib counts) {stack : WitnessStack counts}
    (hstack : stack.bytes.length < 2 ^ 256) {first last script : Bytes} {length : Nat}
    {firstReason lastReason : String} :
    scriptOf env stack.bytes first last length firstReason lastReason = .ok script ↔
      IsScript stack script ∧ ∃ mid, mid.length = length ∧ script = first ++ mid ++ last := by
  simp only [scriptOf, isScript_iff hlib hstack, require, bind_eq_ok, ensure_eq_ok, pure_eq_ok,
    isBytesEqual_iff, exists_const]
  constructor
  · rintro ⟨hthree, script', hitem, hlength, scriptFirst, hfirst, rfl, scriptLast, hlast, rfl, rfl⟩
    refine ⟨⟨hthree, hitem⟩, (script'.drop scriptFirst.length).take length, ?_, ?_⟩
    · rw [length_take, length_drop]
      omega
    · rw [slice_of_le (by omega)] at hfirst hlast
      have hbegin : script'.take scriptFirst.length = scriptFirst := Except.ok.inj hfirst
      have hend : script'.drop (scriptFirst.length + length) = scriptLast := by
        have hend := Except.ok.inj hlast
        rw [take_of_length_le (by rw [length_drop]; omega)] at hend
        rw [← hend]
        congr 1
        omega
      conv_lhs => rw [← take_append_drop scriptFirst.length script', hbegin]
      rw [append_assoc, ← hend, ← drop_drop, take_append_drop]
  · rintro ⟨⟨hthree, hitem⟩, mid, rfl, rfl⟩
    refine ⟨hthree, _, hitem, ?_, first, ?_, rfl, last, ?_, rfl, rfl⟩
    · rw [length_append, length_append]
    · rw [append_assoc]
      exact slice_of_drop rfl
    · have hdrop : (first ++ mid ++ last).drop ((first ++ mid ++ last).length - last.length) =
          last ++ [] := by
        rw [append_nil]
        refine drop_left' ?_
        simp only [length_append]
        omega
      exact slice_of_drop hdrop

/-! ### The signature -/

/-- The first item of the stack is a signature by the key in the deposit prefix. It is one of the
input, the outputs and the script, which is the second item. -/
def IsSigned (env : BridgeEnv A) (bridge : Bridge A) (txn : BridgeTransaction)
    (shaScriptPubkeys : Bytes32) (stack : WitnessStack counts) : Prop :=
  ∃ input signature script controlBlock first,
    env.lib.extractInputAtIndex txn.vin 0 = .ok input ∧ stack.items[0]? = some signature ∧
    stack.items[1]? = some script ∧ stack.items[2]? = some controlBlock ∧
    controlBlock.bytes[1]? = some first ∧
    isSchnorrSigValid env ((bridge.depositPrefix.drop 2).take 32)
      (depositSighash env bridge input (txn.vout.drop 1) script.bytes first txn.version txn.locktime
        shaScriptPubkeys) (signature.bytes.drop 1) = .ok true

/-- The bytes behind the first one. -/
theorem slice_behind_first {n : Nat} (hn : checkedSub b.length 1 = .ok n) :
    slice b 1 n = .ok (b.drop 1) := by
  rw [checkedSub] at hn
  split_ifs at hn with hle
  · obtain rfl := pure_eq_ok.mp hn
    rw [slice_of_le (by omega), take_of_length_le (by rw [length_drop])]
  · cases hn

theorem getAggregatedKey_eq_ok {bridge : Bridge A} {key : Bytes}
    (h : getAggregatedKey bridge = .ok key) : key = (bridge.depositPrefix.drop 2).take 32 := by
  rw [getAggregatedKey, slice, if_neg (by decide)] at h
  split at h
  · exact (pure_eq_ok.mp h).symm
  · cases h

/-- A transaction that passes the signature check. -/
theorem signedTransaction_ok (hlib : ParsesCounts env.lib counts) {w : World A}
    {txn : BridgeTransaction} {proof : MerkleProof} {shaScriptPubkeys : Bytes32}
    {wtxId txId : Bytes32} {witness0 : Bytes} (hwitness : txn.witness.length < errBadArg)
    (h : signedTransaction env w txn proof shaScriptPubkeys = .ok (wtxId, txId, witness0)) :
    witness0.length < 2 ^ 256 ∧ (∃ stack : WitnessStack counts, witness0 = stack.bytes) ∧
    getAggregatedKey w.bridge = .ok ((w.bridge.depositPrefix.drop 2).take 32) ∧
    ∀ stack : WitnessStack counts, witness0 = stack.bytes →
      IsSigned env w.bridge txn shaScriptPubkeys stack := by
  simp only [signedTransaction, require, bind_eq_ok, ensure_eq_ok, pure_eq_ok] at h
  obtain ⟨⟨wtxId', nIns⟩, hinclusion, -, hone, input, hinput, outputsLength, hsub,
    outputs, houtputs,
    witness', hextract, ⟨⟩, hverify, hresult⟩ := h
  obtain ⟨rfl, rfl, rfl⟩ : wtxId' = wtxId ∧ _ = txId ∧ witness' = witness0 := by
    simpa only [Prod.mk.injEq] using hresult
  obtain rfl := ok_unique (slice_behind_first hsub) houtputs
  obtain ⟨stack, rfl, hstack⟩ : ∃ stack : WitnessStack counts, witness' = stack.bytes ∧
      stack.bytes.length < 2 ^ 256 := by
    simp only [validateAndCheckInclusion, require, bind_eq_ok, ensure_eq_ok,
      pure_eq_ok, Prod.mk.injEq] at hinclusion
    obtain ⟨-, -, -, -, wellFormed, hvalid, -, rfl, -, -, -, -, -, rfl⟩ := hinclusion
    have hcount : (env.lib.parseVarInt txn.vin).2 = 1 := hone
    rw [hcount, validateWitness, if_neg (by decide)] at hvalid
    obtain ⟨wits, hlength, hbytes⟩ := stacks_of_validateStacks hlib hvalid
    rw [drop_zero] at hbytes
    obtain ⟨stack, hstack⟩ : ∃ stack, wits[0]? = some stack :=
      ⟨_, List.getElem?_eq_getElem (by omega)⟩
    rw [hbytes] at hwitness hextract
    rw [extractWitnessAtIndex_of_stacks hlib hwitness hstack] at hextract
    have hle := length_stack_le hstack
    have herr : errBadArg = 2 ^ 256 - 1 := rfl
    exact ⟨stack, (Except.ok.inj hextract).symm, by omega⟩
  simp only [verifySigInTx, signatureOf, require, bind_eq_ok, ensure_eq_ok, expect_eq_ok] at hverify
  obtain ⟨script, hscript, controlBlock, hcontrol, first, hfirst, signatureWithLen, hsignature,
    signature, ⟨length, hlength, hslice⟩, key, hkey, valid, hvalid, rfl⟩ := hverify
  obtain rfl := ok_unique (slice_behind_first hlength) hslice
  obtain rfl := getAggregatedKey_eq_ok hkey
  refine ⟨hstack, ⟨stack, rfl⟩, hkey, fun stack' heq => ?_⟩
  rw [heq] at hstack hscript hcontrol hsignature
  rw [extractItemFromWitness_eq_ok hlib hstack] at hscript hcontrol hsignature
  obtain ⟨script, hscript, rfl⟩ := hscript
  obtain ⟨controlBlock, hcontrol, rfl⟩ := hcontrol
  obtain ⟨signature, hsignature, rfl⟩ := hsignature
  exact ⟨input, signature, script, controlBlock, first, hinput, hsignature, hscript,
    hcontrol, hfirst,
    hvalid⟩

/-! ### The payment -/

variable {target recipient : A} {code recipientCode vaultCode : World A → World A × Bool}
  {w w' after : World A} {msg : Msg A} {wtxId txId : Bytes32}

/-- `target` takes the value of a deposit, and the world is `after` then. Its code runs when the
value is gone from the contract. -/
def Received (env : BridgeEnv A) (target : A) (code : World A → World A × Bool)
    (w after : World A) :
    Prop :=
  w.bridge.depositAmount ≤ w.balance ∧ target ≠ env.bridge ∧
    code { w with balance := w.balance - w.bridge.depositAmount } = (after, true)

/-- The recipient takes the value, or it does not and the vault does. Each has its own event. -/
inductive Paid (env : BridgeEnv A) (msg : Msg A) (wtxId txId : Bytes32) (recipient : A)
    (recipientCode vaultCode : World A → World A × Bool) (w : World A) : World A → Prop where
  | recipient {after : World A} (h : Received env recipient recipientCode w after) :
    Paid env msg wtxId txId recipient recipientCode vaultCode w (emit (.deposit wtxId txId recipient
      msg.timestamp (after.bridge.depositTxIds.length - 1)) after)
  | vault {after : World A} (hfail : ∀ after, ¬Received env recipient recipientCode w after)
    (h : Received env w.bridge.failedDepositVault vaultCode (emit (.depositTransferFailed wtxId txId
      recipient msg.timestamp (w.bridge.depositTxIds.length - 1)) w) after) :
    Paid env msg wtxId txId recipient recipientCode vaultCode w after

variable [DecidableEq A]

theorem sendEther_of_received (h : Received env target code w after) :
    sendEther env target w.bridge.depositAmount code w = (after, true) := by
  rw [sendEther, if_pos ⟨h.1, h.2.1⟩, h.2.2]
  rfl

theorem sendEther_of_not_received (h : ∀ after, ¬Received env target code w after) :
    sendEther env target w.bridge.depositAmount code w = (w, false) := by
  rw [sendEther]
  split_ifs with hcan
  · rcases hrun : code { w with balance := w.balance - w.bridge.depositAmount } with
      ⟨after, success⟩
    cases success
    · rfl
    · exact absurd ⟨hcan.1, hcan.2, hrun⟩ (h after)
  · rfl

theorem payOut_of_received (h : Received env recipient recipientCode w after) :
    payOut env msg wtxId txId recipient recipientCode vaultCode w = .ok (emit (.deposit wtxId txId
      recipient msg.timestamp (after.bridge.depositTxIds.length - 1)) after) := by
  rw [payOut, sendEther_of_received h]
  rfl

/-- The end of `payOut`, if the recipient does not take the value. -/
theorem payOut_of_not_received (h : ∀ after, ¬Received env recipient recipientCode w after)
    {sent : World A × Bool}
    (hsent : sendEther env w.bridge.failedDepositVault w.bridge.depositAmount vaultCode
      (emit (.depositTransferFailed wtxId txId recipient msg.timestamp
        (w.bridge.depositTxIds.length - 1)) w) = sent) :
    payOut env msg wtxId txId recipient recipientCode vaultCode w = (do
      require (sent.2 = true) "Failed to send to failed deposit vault"
      pure sent.1) := by
  subst hsent
  rw [payOut, sendEther_of_not_received h]
  rfl

theorem payOut_of_paid (h : Paid env msg wtxId txId recipient recipientCode vaultCode w w') :
    payOut env msg wtxId txId recipient recipientCode vaultCode w = .ok w' := by
  cases h with
  | recipient h => exact payOut_of_received h
  | vault hfail h => exact payOut_of_not_received hfail (sendEther_of_received h)

variable (env msg wtxId txId recipient recipientCode vaultCode w) in
/-- `payOut` pays, or it reverts because the vault does not take the value. -/
theorem paid_or_err :
    (∃ w', Paid env msg wtxId txId recipient recipientCode vaultCode w w') ∨
    payOut env msg wtxId txId recipient recipientCode vaultCode w =
      err "Failed to send to failed deposit vault" := by
  by_cases hreceived : ∃ after, Received env recipient recipientCode w after
  · obtain ⟨after, h⟩ := hreceived
    exact .inl ⟨_, .recipient h⟩
  · have hfail := not_exists.mp hreceived
    by_cases hvault : ∃ after, Received env w.bridge.failedDepositVault vaultCode
        (emit (.depositTransferFailed wtxId txId recipient msg.timestamp
          (w.bridge.depositTxIds.length - 1)) w) after
    · obtain ⟨after, h⟩ := hvault
      exact .inl ⟨after, .vault hfail h⟩
    · exact .inr (payOut_of_not_received hfail (sendEther_of_not_received (not_exists.mp hvault)))

theorem payOut_eq_ok : payOut env msg wtxId txId recipient recipientCode vaultCode w = .ok w' ↔
    Paid env msg wtxId txId recipient recipientCode vaultCode w w' := by
  refine ⟨fun h => ?_, payOut_of_paid⟩
  rcases paid_or_err env recipient recipientCode vaultCode w msg wtxId txId with ⟨w₁, hpaid⟩ | herr
  · rwa [← ok_unique (payOut_of_paid hpaid) h]
  · rw [herr] at h
    cases h

/-! ### The calls -/

theorem require_of {c : Prop} [Decidable c] (h : c) (reason : String) :
    require c reason = .ok () := if_pos h

/-- The steps of `deposit` before its script check. -/
structure DepositChecked (env : BridgeEnv A) (msg : Msg A) (w : World A) (txId : Bytes32) :
    Prop where
  caller : msg.sender = env.systemCaller ∨ msg.sender = w.bridge.operator
  notPaused : w.bridge.paused = false
  unspent : w.bridge.processedTxIds txId = false

/-- The steps of `replaceDeposit` before its script check. -/
structure ReplaceChecked (msg : Msg A) (w : World A) (idToReplace : Nat)
    (oldTxId newTxId : Bytes32) :
    Prop where
  caller : msg.sender = w.bridge.operator
  old : w.bridge.depositTxIds[idToReplace]? = some oldTxId
  scriptSet : w.bridge.replacePrefix.length ≠ 0
  unspent : w.bridge.processedTxIds newTxId = false

/-- The script checks. Take a transaction in Bitcoin that passes the signature check. Its witness is
a stack. `deposit` pays the 20 bytes between the two parts of the deposit script, if the script is
of this form, and reverts otherwise. `replaceDeposit` puts the new id in the place of the old one,
exactly if the bytes between the two parts of the replace script are the old id. The signature is
one of this transaction, by the key in the deposit prefix, and bytes are compared for equality, also
in the memory of the source's loop. -/
theorem deposit_script_recognition (hlib : ParsesCounts env.lib counts) {w : World A}
    {txn : BridgeTransaction} {proof : MerkleProof} {shaScriptPubkeys : Bytes32}
    {wtxId txId : Bytes32} {witness0 : Bytes} (hwitness : txn.witness.length < errBadArg)
    (h : signedTransaction env w txn proof shaScriptPubkeys = .ok (wtxId, txId, witness0)) :
    (∃ stack : WitnessStack counts, witness0 = stack.bytes) ∧
    ∀ stack : WitnessStack counts, witness0 = stack.bytes →
    (∀ msg recipientCode vaultCode, DepositChecked env msg w txId →
      (∀ recipient : Bytes, recipient.length = 20 →
        IsScript stack (w.bridge.depositPrefix ++ recipient ++ w.bridge.depositSuffix) →
        (∀ w', deposit env msg txn proof shaScriptPubkeys recipientCode vaultCode w = .ok w' ↔
          Paid env msg wtxId txId (env.toAddress recipient) recipientCode vaultCode
            (withDeposit txId w) w') ∧
        ((∃ w', deposit env msg txn proof shaScriptPubkeys recipientCode vaultCode w = .ok w') ∨
          deposit env msg txn proof shaScriptPubkeys recipientCode vaultCode w =
            err "Failed to send to failed deposit vault")) ∧
      ((∀ recipient : Bytes, recipient.length = 20 →
        ¬IsScript stack (w.bridge.depositPrefix ++ recipient ++ w.bridge.depositSuffix)) →
        ∀ w', deposit env msg txn proof shaScriptPubkeys recipientCode vaultCode w ≠ .ok w')) ∧
    (∀ msg idToReplace oldTxId, ReplaceChecked msg w idToReplace oldTxId txId →
      ∀ w', replaceDeposit env msg txn proof idToReplace shaScriptPubkeys w = .ok w' ↔
        IsScript stack (w.bridge.replacePrefix ++ oldTxId.data ++ w.bridge.replaceSuffix) ∧
        w' = emit (.depositReplaced idToReplace oldTxId txId)
          (withReplacement idToReplace txId w)) ∧
    (getAggregatedKey w.bridge = .ok ((w.bridge.depositPrefix.drop 2).take 32) ∧
      IsSigned env w.bridge txn shaScriptPubkeys stack) ∧
    ∀ a b behindA behindB : Bytes, (isBytesEqual a b = true ↔ a = b) ∧
      (isBytesEqualInMemory a b behindA behindB = true ↔ a = b) := by
  obtain ⟨hstack, hexists, hkey, hsigned⟩ := signedTransaction_ok hlib hwitness h
  refine ⟨hexists, ?_⟩
  rintro stack rfl
  refine ⟨?_, ?_, ⟨hkey, hsigned stack rfl⟩, fun a b behindA behindB =>
    ⟨isBytesEqual_iff a b, isBytesEqualInMemory_iff a b behindA behindB⟩⟩
  · intro msg recipientCode vaultCode hchecked
    have hdeposit : deposit env msg txn proof shaScriptPubkeys recipientCode vaultCode w = (do
        let script ← scriptOf env stack.bytes w.bridge.depositPrefix w.bridge.depositSuffix 20
          "Invalid deposit script" "Invalid script suffix"
        let recipient ← slice script w.bridge.depositPrefix.length 20
        payOut env msg wtxId txId (env.toAddress recipient) recipientCode vaultCode
          (withDeposit txId w)) := by
      rw [deposit, whenNotPaused, require_of hchecked.caller, require_of hchecked.notPaused, h]
      show (require _ _ >>= _) = _
      rw [require_of hchecked.unspent]
      rfl
    constructor
    · intro recipient hlength hscript
      have hpay : deposit env msg txn proof shaScriptPubkeys recipientCode vaultCode w =
          payOut env msg wtxId txId (env.toAddress recipient) recipientCode vaultCode
            (withDeposit txId w) := by
        have hslice : slice (w.bridge.depositPrefix ++ recipient ++ w.bridge.depositSuffix)
            w.bridge.depositPrefix.length 20 = .ok recipient := by
          rw [← hlength]
          exact slice_mid ..
        rw [hdeposit, (scriptOf_eq_ok hlib hstack).mpr ⟨hscript, recipient, hlength, rfl⟩]
        show (slice _ _ _ >>= _) = _
        rw [hslice]
        rfl
      rw [hpay]
      refine ⟨fun w' => payOut_eq_ok, ?_⟩
      rcases paid_or_err env (env.toAddress recipient) recipientCode vaultCode (withDeposit txId w)
        msg wtxId txId with ⟨w', hpaid⟩ | herr
      · exact .inl ⟨w', payOut_of_paid hpaid⟩
      · exact .inr herr
    · intro hno w' hok
      rw [hdeposit, bind_eq_ok] at hok
      obtain ⟨script, hscript, -⟩ := hok
      obtain ⟨hitem, recipient, hlength, rfl⟩ := (scriptOf_eq_ok hlib hstack).mp hscript
      exact hno recipient hlength hitem
  · intro msg idToReplace oldTxId hchecked w'
    have hindex : idToReplace < w.bridge.depositTxIds.length :=
      (List.getElem?_eq_some_iff.mp hchecked.old).1
    simp only [replaceDeposit, require, h, bind_eq_ok, ensure_eq_ok, expect_eq_ok, pure_eq_ok,
      exists_const, hchecked.caller, hindex, hchecked.old]
    constructor
    · rintro ⟨-, -, -, _, hsigned, -, _, hold, script, hscript, part, hpart, txId',
        htxId', rfl, rfl⟩
      obtain rfl := Except.ok.inj hsigned
      obtain rfl := Option.some.inj hold
      obtain ⟨hitem, mid, hmid, rfl⟩ := (scriptOf_eq_ok hlib hstack).mp hscript
      rw [← hmid, slice_mid] at hpart
      obtain rfl := Except.ok.inj hpart
      rw [← (bytesToBytes32_eq_ok hmid).mp htxId'] at hitem
      exact ⟨hitem, rfl⟩
    · rintro ⟨hitem, rfl⟩
      have hmid := oldTxId.length_eq
      refine ⟨trivial, trivial, hchecked.scriptSet, _, rfl, hchecked.unspent, _, rfl, _,
        (scriptOf_eq_ok hlib hstack).mpr ⟨hitem, oldTxId.data, hmid, rfl⟩, oldTxId.data,
        ?_, oldTxId,
        (bytesToBytes32_eq_ok hmid).mpr rfl, rfl, rfl⟩
      rw [← hmid]
      exact slice_mid ..

end

/-! ### A deposit that is replaced -/

/-- A hash is the last 32 bytes. A signature is the hash that is signed, with 32 zeros behind it. -/
def scriptEnv : BridgeEnv Nat :=
  { sampleEnv with
    lib := { countLib with sha256 := fun b => toBytes32 b.reverse }
    schnorrVerifierPrecompile := fun b =>
      (true, List.replicate 31 0 ++ [if (b.drop 32).take 32 = (b.drop 64).take 32 then 1 else 0])
    toAddress := ofLeBytes }

theorem scriptEnv_parses : ParsesCounts scriptEnv.lib countForms :=
  ⟨countForms_forms, countLib_parses.read, countLib_parses.fail⟩

/-- The contract before the deposit. The operator is 5. -/
def scriptBridge : Bridge Nat :=
  { sampleWorld.bridge with
    operator := 5
    depositAmount := 20 * 10 ^ 10
    depositPrefix := samplePrefix
    replacePrefix := 65 :: List.replicate 33 0 }

/-- A transaction that is signed for `script`. -/
def signedTx (script : Bytes) (locktime : Bytes4) : BridgeTransaction :=
  { sampleMoveTx with
    witness := [3] ++ (64 :: (depositSighash scriptEnv scriptBridge [1] [] script 0xC0
      sampleMoveTx.version locktime .zero).data ++ List.replicate 32 0) ++ script ++ [1, 0xC0]
    locktime := locktime }

def txIdOf (txn : BridgeTransaction) : Bytes32 :=
  scriptEnv.lib.calculateTxId txn.version txn.vin txn.vout txn.locktime

def wtxIdOf (txn : BridgeTransaction) : Bytes32 :=
  calculateWtxId scriptEnv.lib txn.version txn.flag txn.vin txn.vout txn.witness txn.locktime

/-- The deposit is for the address 7. -/
def moveTx : BridgeTransaction := signedTx (samplePrefix ++ leBytes 20 7) sampleMoveTx.locktime

def replaceTx : BridgeTransaction :=
  signedTx (scriptBridge.replacePrefix ++ (txIdOf moveTx).data) sampleMoveTx.version

/-- The light client knows two blocks, with one of the transactions in each. -/
def scriptWorld : World Nat :=
  { sampleWorld with
    bridge := scriptBridge
    lightClient := { LightClient.empty with
      blockHashes := fun number => toBytes32 [UInt8.ofNat number]
      witnessRoots := fun hash => if hash = .zero then wtxIdOf moveTx else wtxIdOf replaceTx } }

/-- The world after the deposit. -/
def depositWorld : World Nat :=
  emit (.deposit (wtxIdOf moveTx) (txIdOf moveTx) 7 100 0)
    { withDeposit (txIdOf moveTx) scriptWorld with balance := 30 * 10 ^ 10 }

/-- Both calls return. The address 7 is paid, and then the new id is in the place of the old one. -/
theorem deposit_replaced :
    deposit scriptEnv ⟨5, 0, 100⟩ moveTx ⟨[], 0, 0⟩ .zero (fun w => (w, true)) (fun w => (w, true))
      scriptWorld = .ok depositWorld ∧
    ∃ w, replaceDeposit scriptEnv ⟨5, 0, 101⟩ replaceTx ⟨[], 1, 0⟩ 0 .zero depositWorld = .ok w ∧
      w.balance = 30 * 10 ^ 10 ∧ w.bridge.depositTxIds = [txIdOf replaceTx] ∧
      w.events = [.deposit (wtxIdOf moveTx) (txIdOf moveTx) 7 100 0,
        .depositReplaced 0 (txIdOf moveTx) (txIdOf replaceTx)] := by
  have hmove : signedTransaction scriptEnv scriptWorld moveTx ⟨[], 0, 0⟩ .zero =
      .ok (wtxIdOf moveTx, txIdOf moveTx, moveTx.witness) := by decide +kernel
  have hreplace : signedTransaction scriptEnv depositWorld replaceTx ⟨[], 1, 0⟩ .zero =
      .ok (wtxIdOf replaceTx, txIdOf replaceTx, replaceTx.witness) := by decide +kernel
  have hlib := scriptEnv_parses
  constructor
  · obtain ⟨⟨stack, hstack⟩, hall⟩ := deposit_script_recognition hlib (by decide +kernel) hmove
    obtain ⟨hdeposit, -⟩ := hall stack hstack
    have hscript : IsScript stack (samplePrefix ++ leBytes 20 7 ++ []) := by
      rw [isScript_iff hlib (by rw [← hstack]; decide +kernel), ← hstack]
      decide +kernel
    obtain ⟨hpaid, -⟩ := (hdeposit ⟨5, 0, 100⟩ (fun w => (w, true)) (fun w => (w, true))
      ⟨.inr rfl, rfl, rfl⟩).1 (leBytes 20 7) rfl hscript
    exact (hpaid depositWorld).mpr (.recipient ⟨by decide, by decide, rfl⟩)
  · obtain ⟨⟨stack, hstack⟩, hall⟩ := deposit_script_recognition hlib (by decide +kernel) hreplace
    obtain ⟨-, hreplaced, -⟩ := hall stack hstack
    have hscript : IsScript stack (scriptBridge.replacePrefix ++ (txIdOf moveTx).data ++ []) := by
      rw [isScript_iff hlib (by rw [← hstack]; decide +kernel), ← hstack]
      decide +kernel
    refine ⟨_, (hreplaced ⟨5, 0, 101⟩ 0 (txIdOf moveTx)
      ⟨rfl, rfl, by decide, by decide +kernel⟩ _).mpr
      ⟨hscript, rfl⟩, rfl, rfl, rfl⟩

end Citrea.Proofs.Contracts
