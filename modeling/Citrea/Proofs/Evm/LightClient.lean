import Citrea.Proofs.Evm.Slots
import Citrea.Spec.Evm.BitcoinLightClient
import Citrea.Spec.Evm.L2Block

/-!
# `Citrea.Proofs.Evm.LightClient`: the light client contract under transactions

`LightClient` is the contract as its users see it: a number and three maps. `TxEffect` says what one
transaction does to it. A transaction either leaves it alone, or sets the first block number, or
records the next L1 block after a short header proof was verified against the state before the
transaction. `blockProgram_effects` says that a whole L2 block is a sequence of such effects.

The hypotheses are about the EVM: `Layout` (no two slots have the same address), and `ContractRuns`
(a transaction of the system signer to the contract runs its code, and no other transaction writes
to its storage).
-/

set_option linter.unusedSectionVars false

namespace Citrea.Proofs.Evm

open Option List Lib
open Lib.StoreProg (run mapStore HintBackend ReadOnly)
open Spec.Bitcoin (Bytes32 BitcoinHeaderShortProof)
open Spec.BatchProof (StateTransitionError)
open Spec.Evm
open Std (TransOrd LawfulEqOrd)

/-! ### The contract -/

/-- The state of the contract. -/
structure LightClient where
  blockNumber : U256
  blockHashes : U256 → U256
  witnessRoots : U256 → U256
  coinbaseDepths : U256 → U256

namespace LightClient

/-- `setBlockInfo`. -/
def record (lc : LightClient) (call : SetBlockInfoCall) : LightClient where
  blockNumber := lc.blockNumber + 1
  blockHashes := Function.update lc.blockHashes lc.blockNumber (U256.ofBeBytes call.blockHash)
  witnessRoots := Function.update lc.witnessRoots (U256.ofBeBytes call.blockHash)
    (U256.ofBeBytes call.witnessRoot)
  coinbaseDepths := Function.update lc.coinbaseDepths (U256.ofBeBytes call.blockHash)
    call.coinbaseDepth

/-- `initializeBlockNumber`. -/
def initializeBlockNumber (lc : LightClient) (number : U256) : LightClient :=
  { lc with blockNumber := number }

/-- What a call of `setBlockInfo` is compared with. -/
def l1Update (lc : LightClient) (call : SetBlockInfoCall) : L1Update where
  blockHash := call.blockHash
  prevBlockHash := U256.toBeBytes (lc.blockHashes (U256.saturatingSub lc.blockNumber 1))
  l1Height := UInt64.ofNat lc.blockNumber.toNat
  txsCommitment := call.witnessRoot
  coinbaseDepth := UInt8.ofNat call.coinbaseDepth.toNat

end LightClient

/-- The effect of one transaction on the provider of short header proofs and on the contract. -/
inductive TxEffect (shp : ShortProofEnv) : ShortHeaderProofProvider → LightClient →
    ShortHeaderProofProvider → LightClient → Prop where
  | idle (provider : ShortHeaderProofProvider) (lc : LightClient) :
      TxEffect shp provider lc provider lc
  | initializeBlockNumber (provider : ShortHeaderProofProvider) {lc : LightClient}
      (h : lc.blockNumber = 0) (number : U256) :
      TxEffect shp provider lc provider (lc.initializeBlockNumber number)
  | record {provider provider' : ShortHeaderProofProvider} {lc : LightClient}
      {call : SetBlockInfoCall} {l2Height : Nat} (hnumber : lc.blockNumber ≠ 0)
      (hheight : lc.blockNumber.toNat < 2 ^ 64) (hdepth : call.coinbaseDepth.toNat < 2 ^ 8)
      (hverified : provider.getAndVerify shp (lc.l1Update call) l2Height = .ok (true, provider')) :
      TxEffect shp provider lc provider' (lc.record call)

/-- A sequence of effects. -/
inductive TxEffects (shp : ShortProofEnv) : ShortHeaderProofProvider → LightClient →
    ShortHeaderProofProvider → LightClient → Prop where
  | refl (provider : ShortHeaderProofProvider) (lc : LightClient) :
      TxEffects shp provider lc provider lc
  | step {p₁ p₂ p₃ : ShortHeaderProofProvider} {lc₁ lc₂ lc₃ : LightClient}
      (h : TxEffect shp p₁ lc₁ p₂ lc₂) (hs : TxEffects shp p₂ lc₂ p₃ lc₃) :
      TxEffects shp p₁ lc₁ p₃ lc₃

theorem TxEffects.trans {shp : ShortProofEnv} {p₁ p₂ p₃ : ShortHeaderProofProvider}
    {lc₁ lc₂ lc₃ : LightClient} (h : TxEffects shp p₁ lc₁ p₂ lc₂)
    (h' : TxEffects shp p₂ lc₂ p₃ lc₃) : TxEffects shp p₁ lc₁ p₃ lc₃ := by
  induction h with
  | refl => exact h'
  | step hstep _ ih => exact .step hstep (ih h')

/-- What each effect keeps, a sequence of them keeps. -/
theorem TxEffects.invariant {shp : ShortProofEnv}
    {P : ShortHeaderProofProvider → LightClient → Prop}
    (step : ∀ p lc p' lc', TxEffect shp p lc p' lc' → P p lc → P p' lc')
    {p p' : ShortHeaderProofProvider} {lc lc' : LightClient} (h : TxEffects shp p lc p' lc')
    (hp : P p lc) : P p' lc' := by
  induction h with
  | refl => exact hp
  | step hstep _ ih => exact ih (step _ _ _ _ hstep hp)

/-! ### Its storage -/

section
variable {A H : Type} (env : EvmEnv A H)

open BitcoinLightClient

/-- No two slots have the same address. -/
structure Layout : Prop where
  storage : StorageDistinct env
  mapping : ∀ {key key' base base'}, env.mappingSlot key base = env.mappingSlot key' base' →
    key = key' ∧ base = base'
  number : ∀ key base, env.mappingSlot key base ≠ env.slot 0

/-- The contract with the given slots. -/
def lightClientAt (slots : H → U256) : LightClient where
  blockNumber := slots (blockNumberSlot env)
  blockHashes := fun n => slots (blockHashSlot env n)
  witnessRoots := fun hash => slots (witnessRootSlot env hash)
  coinbaseDepths := fun hash => slots (coinbaseDepthSlot env hash)

/-- The contract in a state. -/
def lightClientOf (st : StateStore A H) : LightClient :=
  lightClientAt env (storedSlot env st env.bitcoinLightClient)

variable {env}

section
variable [DecidableEq H] (hlayout : Layout env)
include hlayout

/-- The slots after the writes of `initializeBlockNumber`. -/
theorem lightClientAt_initialize (slots : H → U256) (number : U256) :
    lightClientAt env (fun k => if k = blockNumberSlot env then number else slots k) =
      (lightClientAt env slots).initializeBlockNumber number := by
  have hslot : ∀ key base, env.mappingSlot key base ≠ blockNumberSlot env := hlayout.number
  simp [lightClientAt, LightClient.initializeBlockNumber, blockHashSlot, witnessRootSlot,
    coinbaseDepthSlot, hslot]

/-- The slots after the writes of `setBlockInfo`. -/
theorem lightClientAt_record {slots slots' : H → U256} {call : SetBlockInfoCall}
    (h : ∀ k, slots' k =
      if k = coinbaseDepthSlot env (U256.ofBeBytes call.blockHash) then call.coinbaseDepth
      else if k = witnessRootSlot env (U256.ofBeBytes call.blockHash) then
        U256.ofBeBytes call.witnessRoot
      else if k = blockNumberSlot env then slots (blockNumberSlot env) + 1
      else if k = blockHashSlot env (slots (blockNumberSlot env)) then U256.ofBeBytes call.blockHash
      else slots k) : lightClientAt env slots' = (lightClientAt env slots).record call := by
  have hmapping : ∀ key key' base base', env.mappingSlot key base = env.mappingSlot key' base' ↔
      key = key' ∧ base = base' := fun _ _ _ _ =>
    ⟨hlayout.mapping, fun heq => by rw [heq.1, heq.2]⟩
  have hslot : ∀ key base, env.mappingSlot key base ≠ env.slot 0 := hlayout.number
  have hslot' : ∀ key base, env.slot 0 ≠ env.mappingSlot key base :=
    fun key base => (hslot key base).symm
  simp only [lightClientAt, LightClient.record, LightClient.mk.injEq, h, blockNumberSlot,
    blockHashSlot, witnessRootSlot, coinbaseDepthSlot, hmapping, hslot, hslot', if_false, if_true,
    and_false, and_true, BitVec.reduceEq]
  refine ⟨trivial, funext fun n => ?_, funext fun n => ?_, funext fun n => ?_⟩
  all_goals rw [Function.update_apply]

end

end

/-! ### A call of the contract -/

section
variable {A H : Type} [Ord A] [Ord H] [TransOrd A] [LawfulEqOrd A] [TransOrd H] [LawfulEqOrd H]
  [DecidableEq A] [DecidableEq H] {env : EvmEnv A H} {st : StateStore A H} {limit : Nat}

open BitcoinLightClient

/-- What a run of the contract leaves, if it is a success: the contract is settled and touched, and
it has changed as `change` says. -/
structure ContractRan (env : EvmEnv A H) (st : StateStore A H) (j : Journal A H)
    (change : LightClient → LightClient → Prop) (r : FrameResult limit × Journal A H) : Prop where
  settled : Settled env.bitcoinLightClient r.2
  touched : IsTouched r.2 env.bitcoinLightClient
  change : change (lightClientAt env (slotOf env st env.bitcoinLightClient j))
    (lightClientAt env (slotOf env st env.bitcoinLightClient r.2))

variable {gas : GasMeter limit} {post : FrameResult limit × Journal A H → Prop} {j : Journal A H}
  (hsettled : Settled env.bitcoinLightClient j) {key : H} {next : Interp A H limit}
include hsettled

/-- The rule for a load of the contract. -/
theorem readOnly_load {seen : List U256} {next : U256 → Interp A H limit}
    (hfail : ∀ r : FrameResult limit × Journal A H, r.1.success = false → post r)
    (hnext : ∀ j', SameContract env st env.bitcoinLightClient j j' → ReadOnly st post ((next
      (slotOf env st env.bitcoinLightClient j key)).execute env j')) :
    ReadOnly st post ((load env gas seen key next).execute env j) := by
  refine ReadOnly.bind (readOnly_sload_settled env hsettled key) ?_
  rintro ⟨_, j'⟩ ⟨rfl, hsame⟩
  dsimp only
  split
  · exact hnext j' hsame
  · exact ReadOnly.pure (hfail _ rfl)

/-- The rule for a write of the contract. -/
theorem readOnly_store {value : U256}
    (hnext : ∀ j', SlotWritten env st env.bitcoinLightClient key value j j' → ReadOnly st post
      (next.execute env j')) :
    ReadOnly st post ((Interp.sstore env.bitcoinLightClient key value next).execute env j) :=
  ReadOnly.bind (readOnly_sstore_settled env hsettled key value) hnext

/-- The rule for the call itself, which touches the contract. -/
theorem readOnly_touched
    (hnext : ∀ j', SameContract env st env.bitcoinLightClient j j' → IsTouched j'
      env.bitcoinLightClient → ReadOnly st post (next.execute env j')) :
    ReadOnly st post ((Interp.touch env.bitcoinLightClient next).execute env j) := by
  have htouch : ReadOnly st (fun j' => SameContract env st env.bitcoinLightClient j j' ∧
      IsTouched j' env.bitcoinLightClient) (touch env env.bitcoinLightClient j) := by
    refine ReadOnly.bind (readOnly_loadAccount _ j) ?_
    rintro _ rfl
    refine ReadOnly.pure ⟨(SameContract.load j env.bitcoinLightClient).trans ?_, ?_⟩
    · exact SameContract.set (getElem?_loadInto_self env j env.bitcoinLightClient) (fun _ => rfl)
        rfl rfl fun _ => rfl
    · exact ⟨{ accountAt env st j env.bitcoinLightClient with touched := true },
        by rw [getElem?_set, if_pos rfl], rfl⟩
  exact ReadOnly.bind htouch fun j' hj' => hnext j' hj'.1 hj'.2

theorem readOnly_initializeBlockNumber (hlayout : Layout env) (number : U256) :
    ReadOnly st (fun r => r.1.success = true → ContractRan env st j
      (fun lc lc' => lc.blockNumber = 0 ∧ lc' = lc.initializeBlockNumber number) r)
      ((initializeBlockNumber env gas number).execute env j) := by
  refine readOnly_load hsettled (fun r hfail hsuccess => ?_) fun j₁ h₁ => ?_
  · rw [hfail] at hsuccess
    cases hsuccess
  split
  · exact ReadOnly.pure nofun
  · next hzero =>
    have hsettled₁ := h₁.settled hsettled
    refine readOnly_touched hsettled₁ fun j₂ h₂ htouched => ?_
    refine readOnly_store (h₂.settled hsettled₁) fun j₃ h₃ => ?_
    refine ReadOnly.pure fun _ => ⟨h₃.settled, h₃.touched htouched, Decidable.not_not.mp hzero, ?_⟩
    rw [← lightClientAt_initialize hlayout]
    congr 1
    funext k
    rw [h₃.slots, h₂.slots, h₁.slots]

theorem readOnly_setBlockInfo (hlayout : Layout env) (call : SetBlockInfoCall) :
    ReadOnly st (fun r => r.1.success = true → ContractRan env st j
      (fun lc lc' => lc.blockNumber ≠ 0 ∧ lc' = lc.record call) r)
      ((setBlockInfo env gas call).execute env j) := by
  have hfail : ∀ r : FrameResult limit × Journal A H, r.1.success = false → r.1.success = true →
      ContractRan env st j (fun lc lc' => lc.blockNumber ≠ 0 ∧ lc' = lc.record call) r := by
    intro r hfalse htrue
    rw [hfalse] at htrue
    cases htrue
  refine readOnly_load hsettled hfail fun j₁ h₁ => ?_
  split
  · exact ReadOnly.pure (hfail _ rfl)
  next hnumber =>
  have hsettled₁ := h₁.settled hsettled
  refine readOnly_load hsettled₁ hfail fun j₂ h₂ => ?_
  split
  · exact ReadOnly.pure (hfail _ rfl)
  have hsettled₂ := h₂.settled hsettled₁
  refine readOnly_load hsettled₂ hfail fun j₃ h₃ => ?_
  have hsettled₃ := h₃.settled hsettled₂
  refine readOnly_load hsettled₃ hfail fun j₄ h₄ => ?_
  have hsettled₄ := h₄.settled hsettled₃
  refine readOnly_touched hsettled₄ fun j₅ h₅ htouched => ?_
  -- the four writes of the function
  refine readOnly_store (h₅.settled hsettled₄) fun j₆ h₆ => ?_
  refine readOnly_store h₆.settled fun j₇ h₇ => ?_
  refine readOnly_store h₇.settled fun j₈ h₈ => ?_
  refine readOnly_store h₈.settled fun j₉ h₉ => ?_
  refine ReadOnly.pure fun _ => ⟨h₉.settled, ?_, hnumber, ?_⟩
  · exact h₉.touched (h₈.touched (h₇.touched (h₆.touched htouched)))
  · refine lightClientAt_record hlayout fun k => ?_
    rw [h₉.slots, h₈.slots, h₇.slots, h₆.slots, h₅.slots, h₄.slots, h₃.slots, h₂.slots, h₁.slots]

end

/-! ### A transaction -/

section
variable {A H : Type} [Ord A] [Ord H] [TransOrd A] [LawfulEqOrd A] [TransOrd H] [LawfulEqOrd H]
  [DecidableEq A] [DecidableEq H] (env : ExecutorEnv A H)

/-- What the EVM does for the contract. A transaction of the system signer to the contract runs its
code, and a selector that is not one of the two functions writes nothing. Every other transaction
fails in `onlySystem` if it gets to the contract. -/
structure ContractRuns : Prop where
  direct : ∀ block tx, tx.caller = env.evm.systemSigner →
    tx.kind = some env.evm.bitcoinLightClient →
    ∃ gas other, Allows (Quiet env.evm.bitcoinLightClient) other ∧
      env.revm.interpret block tx = BitcoinLightClient.call env tx gas other
  elsewhere : ∀ block tx,
    ¬ (tx.caller = env.evm.systemSigner ∧ tx.kind = some env.evm.bitcoinLightClient) →
    Allows (Quiet env.evm.bitcoinLightClient) (env.revm.interpret block tx)

/-- A system transaction with the selector of `setBlockInfo` is addressed to the contract. -/
def Addressed (tx : RecoveredTx A) : Prop :=
  tx.env.caller = env.evm.systemSigner → tx.env.data.take 4 = env.setBlockInfoSelector →
    tx.env.kind = some env.evm.bitcoinLightClient

/-- What a successful call of the contract does to it. -/
def CallEffect (data : Bytes) (lc lc' : LightClient) : Prop :=
  if data.take 4 = env.setBlockInfoSelector then
    ∃ call, decodeSetBlockInfo data = some call ∧ lc.blockNumber ≠ 0 ∧ lc' = lc.record call
  else lc' = lc ∨ lc.blockNumber = 0 ∧ ∃ number, lc' = lc.initializeBlockNumber number

variable {env} {st : StateStore A H} {tx : TxEnv A}

/-- The contract in a journal: settled, and touched if it differs from the stored one. -/
structure ContractIn (env : EvmEnv A H) (st : StateStore A H) (j : Journal A H)
    (change : LightClient → LightClient → Prop) : Prop where
  settled : Settled env.bitcoinLightClient j
  touched : IsTouched j env.bitcoinLightClient ∨
    ∀ key, slotOf env st env.bitcoinLightClient j key = storedSlot env st env.bitcoinLightClient key
  change : change (lightClientOf env st)
    (lightClientAt env (slotOf env st env.bitcoinLightClient j))

/-- Quiet edits before and after. -/
theorem ContractIn.quiet {evm : EvmEnv A H} {j j' : Journal A H}
    {change : LightClient → LightClient → Prop} (h : ContractIn evm st j change)
    (hsame : SameContract evm st evm.bitcoinLightClient j j') : ContractIn evm st j' change where
  settled := hsame.settled h.settled
  touched := h.touched.imp hsame.touched fun heq key => (hsame.slots key).trans (heq key)
  change := by
    rw [show slotOf evm st evm.bitcoinLightClient j' = slotOf evm st evm.bitcoinLightClient j from
      funext hsame.slots]
    exact h.change

theorem contractIn_empty (evm : EvmEnv A H) (st : StateStore A H) :
    ContractIn evm st .empty fun lc lc' => lc' = lc where
  settled := settled_empty
  touched := .inr slotOf_empty
  change := by
    rw [show slotOf evm st evm.bitcoinLightClient .empty = _ from funext slotOf_empty]
    rfl

/-- A transaction that does not run the contract leaves it alone. -/
theorem readOnly_transact_elsewhere (hruns : ContractRuns env) (block : BlockEnv A)
    (l1FeeRate : Nat)
    (h : ¬ (tx.caller = env.evm.systemSigner ∧ tx.kind = some env.evm.bitcoinLightClient)) :
    ReadOnly st (fun r => ContractIn env.evm st r.journal fun lc lc' => lc' = lc)
      (transact env.evm env.revm block l1FeeRate tx) := by
  refine (tracks_transact tracks_edits allowsHandler_quiet env.revm block l1FeeRate tx
    (hruns.elsewhere block tx h)).mono fun r hedits => ?_
  exact (contractIn_empty env.evm st).quiet (sameContract_of_edits hedits settled_empty)

/-- The run of the contract in a transaction of the system signer. -/
theorem readOnly_call (hlayout : Layout env.evm) (gas : BitcoinLightClient.GasMeter tx.gasLimit)
    {other : Interp A H tx.gasLimit} (hother : Allows (Quiet env.evm.bitcoinLightClient) other)
    {j : Journal A H} (hj : ContractIn env.evm st j fun lc lc' => lc' = lc) :
    ReadOnly st (fun r => r.1.success = true → ContractIn env.evm st r.2 (CallEffect env tx.data))
      ((BitcoinLightClient.call env tx gas other).execute env.evm j) := by
  refine ReadOnly.bind (readOnly_loadCode (Quiet env.evm.bitcoinLightClient) _ j) ?_
  rintro ⟨code, j₁⟩ hedits
  replace hj : ContractIn env.evm st j₁ fun lc lc' => lc' = lc :=
    hj.quiet (sameContract_of_edits hedits hj.settled)
  have hlc := hj.change
  show ReadOnly st _ (Interp.execute env.evm (if tx.value ≠ 0 then _ else _) j₁)
  split
  · exact ReadOnly.pure nofun
  split
  · next hselector =>
    split
    · next call hcall =>
      refine (readOnly_setBlockInfo hj.settled hlayout call).mono fun r hr hsuccess => ?_
      obtain ⟨hsettled, htouched, hnumber, hrecord⟩ := hr hsuccess
      refine ⟨hsettled, .inl htouched, ?_⟩
      rw [CallEffect, if_pos hselector]
      exact ⟨call, hcall, hlc ▸ hnumber, hlc ▸ hrecord⟩
    · exact ReadOnly.pure nofun
  next hselector =>
  split
  · split
    · refine (readOnly_initializeBlockNumber hj.settled hlayout _).mono fun r hr hsuccess => ?_
      obtain ⟨hsettled, htouched, hnumber, hinit⟩ := hr hsuccess
      refine ⟨hsettled, .inl htouched, ?_⟩
      rw [CallEffect, if_neg hselector]
      exact .inr ⟨hlc ▸ hnumber, _, hlc ▸ hinit⟩
    · exact ReadOnly.pure nofun
  · refine (tracks_execute tracks_edits other j₁ hother).mono fun r hr _ => ?_
    obtain ⟨hsettled, htouched, hsame⟩ := hj.quiet (sameContract_of_edits hr hj.settled)
    refine ⟨hsettled, htouched, ?_⟩
    rw [CallEffect, if_neg hselector]
    exact .inl hsame

/-- A transaction of the system signer to the contract. -/
theorem readOnly_transact_direct (hruns : ContractRuns env) (hlayout : Layout env.evm)
    (block : BlockEnv A) (l1FeeRate : Nat) (hcaller : tx.caller = env.evm.systemSigner)
    (hkind : tx.kind = some env.evm.bitcoinLightClient) : ReadOnly st (fun r => r.success = true →
      ContractIn env.evm st r.journal (CallEffect env tx.data))
      (transact env.evm env.revm block l1FeeRate tx) := by
  obtain ⟨gas, other, hother, hinterpret⟩ := hruns.direct block tx hcaller hkind
  have hhandler : AllowsHandler (Quiet (H := H) env.evm.bitcoinLightClient) := allowsHandler_quiet
  refine ReadOnly.bind (tracks_preExecution tracks_edits hhandler env.revm block tx) fun j₁ h₁ => ?_
  have hj₁ := (contractIn_empty env.evm st).quiet (sameContract_of_edits h₁ settled_empty)
  rw [hinterpret]
  refine ReadOnly.bind (readOnly_call hlayout gas hother hj₁) ?_
  rintro ⟨result, j₂⟩ h₂
  refine (tracks_postExecution tracks_edits hhandler block l1FeeRate tx result j₂).mono ?_
  rintro r ⟨hsuccess, hedits⟩ htrue
  have hj₂ := h₂ (hsuccess ▸ htrue)
  exact hj₂.quiet (sameContract_of_edits hedits hj₂.settled)

/-- The check of a system transaction. -/
theorem readOnly_verifySystemTx (provider : ShortHeaderProofProvider) (data : Bytes)
    (l2Height : Nat) : ReadOnly st (fun provider' =>
      if data.take 4 = env.setBlockInfoSelector then
        ∃ call, decodeSetBlockInfo data = some call ∧ call.coinbaseDepth.toNat < 2 ^ 8 ∧
          (lightClientOf env.evm st).blockNumber.toNat < 2 ^ 64 ∧
          provider.getAndVerify env.shp ((lightClientOf env.evm st).l1Update call) l2Height =
            .ok (true, provider') else provider' = provider)
      (verifySystemTx env.evm env.shp env.setBlockInfoSelector provider data l2Height) := by
  refine ReadOnly.bind ReadOnly.ofOutcome fun _ _ => ?_
  split
  · next hselector =>
    refine ReadOnly.bind ReadOnly.ofOutcome fun call hcall => ?_
    refine ReadOnly.bind ReadOnly.ofOutcome fun _ hdepth => ?_
    have hlast : ReadOnly st (fun r => r = ((lightClientOf env.evm st).blockNumber,
        (lightClientOf env.evm st).blockHashes
          (U256.saturatingSub (lightClientOf env.evm st).blockNumber 1)))
        (getLastL1HeightAndHashInLightClient env.evm :
          Prog A H L2BlockModuleCallError (U256 × U256)) := rfl
    refine ReadOnly.bind hlast ?_
    rintro _ rfl
    refine ReadOnly.bind ReadOnly.ofOutcome fun _ hheight => ?_
    rw [ensure_eq_ok] at hdepth
    rw [assert_eq_ok] at hheight
    have hdecode : decodeSetBlockInfo data = some call := by
      rw [SetBlockInfoCall.abiDecode] at hcall
      split at hcall
      · next decoded hdecoded =>
        rw [pure_eq_ok] at hcall
        split at hdecoded
        · rw [hdecoded, hcall]
        · cases hdecoded
      · simp at hcall
    dsimp only
    split
    · next provider' hverified =>
      exact ReadOnly.pure ⟨call, hdecode, hdepth, hheight, hverified⟩
    · exact ReadOnly.ofOutcome.mono fun _ hok => absurd hok err_ne_ok
    · exact ReadOnly.ofOutcome.mono fun _ hok => absurd hok err_ne_ok
    · exact ReadOnly.ofOutcome.mono fun _ hok => absurd hok panic_ne_ok
  · exact ReadOnly.pure rfl

section
variable {τ : Type} {O : HintBackend H Bytecode τ} {st' : StateStore A H} {t t' : τ}
  {s s' : ExecState} {block : BlockEnv A} {l1FeeRate l2Height : Nat}
  (hruns : ContractRuns env) (hlayout : Layout env.evm)

omit hruns hlayout in
/-- The provider after the checks before a transaction. -/
theorem beforeTransact_provider {tx : RecoveredTx A}
    (h : run mapStore O (beforeTransact env l2Height s tx) st t = .ok (s', st', t')) :
    (tx.env.caller ≠ env.evm.systemSigner ∧ s'.provider = s.provider) ∨
    tx.env.caller = env.evm.systemSigner ∧ s'.shouldBeEndOfSysTxs = false ∧
      if tx.env.data.take 4 = env.setBlockInfoSelector then
        ∃ call, decodeSetBlockInfo tx.env.data = some call ∧ call.coinbaseDepth.toNat < 2 ^ 8 ∧
          (lightClientOf env.evm st).blockNumber.toNat < 2 ^ 64 ∧
          s.provider.getAndVerify env.shp ((lightClientOf env.evm st).l1Update call) l2Height =
            .ok (true, s'.provider) else s'.provider = s.provider := by
  simp only [beforeTransact, run_bind_eq_ok, run_ofOutcome_eq_ok, run_pure_eq_ok] at h
  obtain ⟨s₁, _, _, hsigner, _, _, _, ⟨-, rfl, rfl⟩, rfl, rfl, rfl⟩ := h
  unfold checkSigner at hsigner
  split at hsigner
  · next hcaller =>
    simp only [run_bind_eq_ok, run_ofOutcome_eq_ok, ensure_eq_ok, run_pure_eq_ok] at hsigner
    obtain ⟨_, _, _, ⟨hend, rfl, rfl⟩, provider, _, _, hverify, rfl, rfl, rfl⟩ := hsigner
    exact .inr ⟨hcaller, hend, ((readOnly_verifySystemTx s.provider _ _).sound hverify).2⟩
  · next hcaller =>
    rw [run_pure, Except.ok.injEq] at hsigner
    cases hsigner
    exact .inl ⟨hcaller, rfl⟩

include hruns hlayout

/-- One transaction of the loop. -/
theorem executeTx_effect {tx : RecoveredTx A} (haddressed : Addressed env tx)
    (h : run mapStore O (executeTx env block l1FeeRate l2Height s tx) st t = .ok (s', st', t')) :
    TxEffect env.shp s.provider (lightClientOf env.evm st) s'.provider
      (lightClientOf env.evm st') := by
  obtain ⟨s₁, result, st₂, t₂, hbefore, htransact, hsuccess, hcommit, hprovider, -⟩ :=
    executeTx_ok env h
  -- the contract in the state after the commit
  have hfinal : ∀ {change : LightClient → LightClient → Prop},
      ContractIn env.evm st result.journal change → st₂ = st →
      change (lightClientOf env.evm st) (lightClientOf env.evm st') := by
    rintro change hin rfl
    have hslots := storedSlot_commit hlayout.storage hcommit hin.settled hin.touched
    rw [show lightClientOf env.evm st' = lightClientAt env.evm _ from
      congrArg (lightClientAt env.evm) (funext hslots)]
    exact hin.change
  rw [hprovider]
  by_cases hdirect : tx.env.caller = env.evm.systemSigner ∧
      tx.env.kind = some env.evm.bitcoinLightClient
  · obtain ⟨hcaller, hkind⟩ := hdirect
    obtain ⟨hst₂, hin⟩ := (readOnly_transact_direct hruns hlayout block l1FeeRate hcaller
      hkind).sound htransact
    rcases beforeTransact_provider hbefore with ⟨hother, -⟩ | ⟨-, hend, hchecked⟩
    · exact absurd hcaller hother
    have htrue : result.success = true := by
      rcases hsuccess with hafter | htrue
      · rw [hend] at hafter
        cases hafter
      · exact htrue
    have heffect := hfinal (hin htrue) hst₂
    rw [CallEffect] at heffect
    split at hchecked
    · next hselector =>
      rw [if_pos hselector] at heffect
      obtain ⟨call, hcall, hdepth, hheight, hverified⟩ := hchecked
      obtain ⟨call', hcall', hnumber, hrecord⟩ := heffect
      obtain rfl := some_unique hcall hcall'
      rw [hrecord]
      exact .record hnumber hheight hdepth hverified
    · next hselector =>
      rw [if_neg hselector] at heffect
      rw [hchecked]
      rcases heffect with hsame | ⟨hnumber, number, hinit⟩
      · rw [hsame]
        exact .idle _ _
      · rw [hinit]
        exact .initializeBlockNumber _ hnumber number
  · obtain ⟨hst₂, hin⟩ := (readOnly_transact_elsewhere hruns block l1FeeRate hdirect).sound
      htransact
    have hsame := hfinal hin hst₂
    have hprovider₁ : s₁.provider = s.provider := by
      rcases beforeTransact_provider hbefore with ⟨-, heq⟩ | ⟨hcaller, -, hchecked⟩
      · exact heq
      · rw [if_neg fun hselector => hdirect ⟨hcaller, haddressed hcaller hselector⟩] at hchecked
        exact hchecked
    rw [hsame, hprovider₁]
    exact .idle _ _

/-- The loop over the transactions, by induction on the list. -/
theorem executeMultipleTx_effects (txs : List (RecoveredTx A)) :
    ∀ {s : ExecState} {st : StateStore A H} {t : τ}, (∀ tx ∈ txs, Addressed env tx) →
      run mapStore O (executeMultipleTx env block l1FeeRate l2Height s txs) st t =
        .ok (s', st', t') → TxEffects env.shp s.provider (lightClientOf env.evm st) s'.provider
        (lightClientOf env.evm st') := by
  induction txs with
  | nil =>
    intro s st t _ h
    rw [executeMultipleTx, run_pure, Except.ok.injEq] at h
    cases h
    exact .refl _ _
  | cons tx rest ih =>
    intro s st t haddressed h
    rw [forall_mem_cons] at haddressed
    rw [executeMultipleTx, run_bind_eq_ok] at h
    obtain ⟨s₁, st₁, t₁, hfirst, h⟩ := h
    exact .step (executeTx_effect hruns hlayout haddressed.1 hfirst) (ih haddressed.2 h)

end

end

/-! ### A block -/

section
variable {A H R Tx Key : Type} [Ord A] [Ord H] [TransOrd A] [LawfulEqOrd A] [TransOrd H]
  [LawfulEqOrd H] [DecidableEq A] [DecidableEq H] (env : RuntimeEnv A H R Tx Key)

/-- The system transactions of a list with the selector of `setBlockInfo` are addressed to the
contract. -/
def SystemTxsAddressed (txs : List Tx) : Prop :=
  ∀ tx ∈ txs, ∀ messages, env.decodeTx tx = .ok (.evm messages) →
    ∀ recovered, some recovered ∈ messages → Addressed env.executor recovered

/-- The contract stands in the storage part of the state. -/
theorem lightClientOf_congr (evm : EvmEnv A H) {st st' : StateStore A H}
    (h : ∀ k, st' (.storage k) = st (.storage k)) :
    lightClientOf evm st' = lightClientOf evm st := by
  have hslots : ∀ key, storedSlot evm st' evm.bitcoinLightClient key =
      storedSlot evm st evm.bitcoinLightClient key := fun key => by rw [storedSlot, storedSlot, h]
  exact congrArg (lightClientAt evm) (funext hslots)

variable {env} {τ : Type} {O : HintBackend H Bytecode τ} {st st' : StateStore A H} {t t' : τ}

omit [TransOrd A] [LawfulEqOrd A] [TransOrd H] [LawfulEqOrd H] [DecidableEq A] [DecidableEq H]
  [Ord A] [Ord H] in
/-- The values of a list of options that are all present. -/
theorem mem_of_mapM_id {α : Type} {l : List (Option α)} {values : List α}
    (h : l.mapM id = some values) : ∀ x ∈ values, some x ∈ l := by
  induction l generalizing values with
  | nil =>
    obtain rfl : [] = values := some.inj h
    simp
  | cons head rest ih =>
    simp only [mapM_cons, id, Option.bind_eq_bind, Option.bind_eq_some_iff, Option.pure_def,
      Option.some.injEq] at h
    obtain ⟨value, rfl, others, hothers, rfl⟩ := h
    intro x hx
    rcases mem_cons.mp hx with rfl | hx
    · exact mem_cons_self ..
    · exact mem_cons_of_mem _ (ih hothers x hx)

/-- The programs of the other modules write no storage. -/
theorem storage_lift {ε α : Type} (p : ModuleProg ε α) : ∀ {st : StateStore A H} {t : τ} {a : α},
    run mapStore O (p.lift : Prog A H ε α) st t = .ok (a, st', t') →
      ∀ k, st' (.storage k) = st (.storage k) := by
  induction p with
  | pure b =>
    intro st t a h k
    cases h
    rfl
  | fail fault =>
    intro st t a h
    cases h
  | get key next ih =>
    intro st t a h
    exact ih _ h
  | set key v next ih =>
    intro st t a h k
    have hne : StateKey.storage (A := A) k ≠ .other key := nofun
    rw [ih h k]
    exact Function.update_of_ne hne v st
  | getHint checked c next ih => exact c.elim
  | setHint c w next ih => exact c.elim

/-- The hook of the rule enforcer writes no storage. -/
theorem storage_ruleEnforcerHook {timestamp : UInt64}
    (h : run mapStore O (ruleEnforcerHook env timestamp) st t = .ok ((), st', t')) (k : H) :
    st' (.storage k) = st (.storage k) := by
  simp only [ruleEnforcerHook, getLastL1HeightAndHashInLightClient, storageGet,
    run_bind_eq_ok, run_read_mapStore, run_ofOutcome_eq_ok,
    run_pure, run_write_mapStore, Except.ok.injEq, Prod.mk.injEq] at h
  obtain ⟨_, _, _, ⟨-, rfl, rfl⟩, _, _, _, ⟨-, rfl, rfl⟩, _, _, _, ⟨-, rfl, rfl⟩, _, _, _,
    ⟨_, _, _, ⟨-, rfl, rfl⟩, _, _, _, ⟨-, rfl, rfl⟩, -, rfl, rfl⟩, _, _, _, ⟨-, rfl, rfl⟩, _, _, _,
    ⟨-, rfl, rfl⟩, -, rfl, rfl⟩ := h
  exact Function.update_of_ne (by simp) _ _

variable (hruns : ContractRuns env.executor) (hlayout : Layout env.executor.evm)
  {info : HookL2BlockInfo R Tx Key} {block : BlockEnv A}
include hruns hlayout

theorem applySovTx_effects {s s' : ExecState} {tx : Tx} (haddressed : SystemTxsAddressed env [tx])
    (h : run mapStore O (applySovTx env info block s tx) st t = .ok (s', st', t')) :
    TxEffects env.executor.shp s.provider (lightClientOf env.executor.evm st) s'.provider
      (lightClientOf env.executor.evm st') := by
  simp only [applySovTx, run_bind_eq_ok, run_ofOutcome_eq_ok, run_mapError_eq_ok,
    run_pure_eq_ok] at h
  obtain ⟨call, _, _, ⟨hcall, rfl, rfl⟩, _, st₁, t₁, hpre, s₁, st₂, t₂, hdispatch, _, _, _, hpost,
    rfl, rfl, rfl⟩ := h
  rw [lightClientOf_congr _ (storage_lift _ hpost), ← lightClientOf_congr _ (storage_lift _ hpre)]
  cases call with
  | evm txs =>
    simp only [dispatchCall, executeCall, run_bind_eq_ok, run_ofOutcome_eq_ok,
      run_read_mapStore, Except.ok.injEq, Prod.mk.injEq] at hdispatch
    obtain ⟨recovered, _, _, ⟨hrecovered, rfl, rfl⟩, _, _, _, ⟨-, rfl, rfl⟩, _, _, _,
      ⟨-, rfl, rfl⟩, hexecute⟩ := hdispatch
    refine executeMultipleTx_effects hruns hlayout recovered (fun tx' htx' => ?_) hexecute
    -- all transactions of the message could be converted
    have hall : txs.mapM id = some recovered := by
      split at hrecovered
      · next found hfound => rw [hfound, pure_eq_ok.mp hrecovered]
      · simp at hrecovered
    exact haddressed tx (mem_singleton_self tx) txs hcall tx' (mem_of_mapM_id hall tx' htx')
  | other program =>
    simp only [dispatchCall, run_bind_eq_ok, run_pure_eq_ok] at hdispatch
    obtain ⟨_, _, _, hprogram, rfl, rfl, rfl⟩ := hdispatch
    rw [lightClientOf_congr _ (storage_lift _ hprogram)]
    exact .refl _ _

theorem applySovTxs_effects (txs : List Tx) (haddressed : SystemTxsAddressed env txs) :
    ∀ {s s' : ExecState} {st : StateStore A H} {t : τ},
    run mapStore O (applySovTxs env info block s txs) st t = .ok (s', st', t') →
    TxEffects env.executor.shp s.provider (lightClientOf env.executor.evm st) s'.provider
      (lightClientOf env.executor.evm st') := by
  induction txs with
  | nil =>
    intro s s' st t h
    rw [applySovTxs, run_pure, Except.ok.injEq] at h
    cases h
    exact .refl _ _
  | cons tx rest ih =>
    intro s s' st t h
    rw [applySovTxs, run_bind_eq_ok] at h
    obtain ⟨s₁, st₁, t₁, hfirst, h⟩ := h
    have hhead : SystemTxsAddressed env [tx] := fun tx' htx' =>
      haddressed tx' (mem_singleton.mp htx' ▸ mem_cons_self)
    have hrest : SystemTxsAddressed env rest := fun tx' htx' =>
      haddressed tx' (mem_cons_of_mem _ htx')
    exact (applySovTx_effects hruns hlayout hhead hfirst).trans (ih hrest h)

/-- A block that is executed is a sequence of effects on the contract. -/
theorem blockProgram_effects {provider provider' : ShortHeaderProofProvider}
    (haddressed : SystemTxsAddressed env info.block.txs)
    (h : run mapStore O (l2BlockProgram env provider info) st t = .ok (provider', st', t')) :
    TxEffects env.executor.shp provider (lightClientOf env.executor.evm st) provider'
      (lightClientOf env.executor.evm st') := by
  simp only [l2BlockProgram, run_bind_eq_ok, run_mapError_eq_ok, run_pure_eq_ok] at h
  obtain ⟨block, _, _, hbegin, s, _, _, htxs, _, _, _, hrules, _, _, _, hend, rfl, rfl, rfl⟩ := h
  rw [lightClientOf_congr _ (storage_lift _ hend),
    lightClientOf_congr _ (storage_ruleEnforcerHook hrules),
    ← lightClientOf_congr _ (storage_lift _ hbegin)]
  exact applySovTxs_effects hruns hlayout _ haddressed htxs

end

end Citrea.Proofs.Evm
