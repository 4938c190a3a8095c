import Citrea.Proofs.Bitcoin.ShortProof
import Citrea.Proofs.Evm.CodeAuthenticity
import Citrea.Proofs.Evm.LightClient

/-!
# `Citrea.Proofs.Evm.L1Chain`: the L1 blocks that the light client contract records

`IsChain` says that the contract holds a chain: from a start height up to the block number there is
one hash for each height, each hash belongs to a short header proof that verifies, and each header
names the hash before it. `Extends` says that nothing recorded has changed.

One transaction keeps both (`isChain_step`). The argument needs two facts about the headers that the
short header proofs are about. No header has the hash zero, because the check reads a zero as "no
block yet". The links from a header to its predecessor have no cycle, because the maps of the
contract have the hash as their key and a hash that comes back would be written a second time.
-/

set_option linter.unusedSectionVars false

namespace Citrea.Spec.Evm.U256

open List Lib
open Spec.Bitcoin (Bytes32)

theorem toNat_ofBeBytes (b : Bytes32) : (ofBeBytes b).toNat = ofLeBytes b.data.reverse := by
  have hlt := ofLeBytes_lt b.data.reverse
  rw [length_reverse, b.length_eq] at hlt
  rw [ofBeBytes, BitVec.toNat_ofNat, Nat.mod_eq_of_lt]
  simpa using hlt

theorem toBeBytes_ofBeBytes (b : Bytes32) : toBeBytes (ofBeBytes b) = b := by
  have hbytes := leBytes_ofLeBytes b.data.reverse
  rw [length_reverse, b.length_eq] at hbytes
  ext1
  show (leBytes 32 (ofBeBytes b).toNat).reverse = b.data
  rw [toNat_ofBeBytes, hbytes, reverse_reverse]

theorem ofBeBytes_toBeBytes (w : U256) : ofBeBytes (toBeBytes w) = w := by
  have hlt : w.toNat < 256 ^ 32 := by simpa using w.isLt
  refine BitVec.eq_of_toNat_eq ?_
  rw [toNat_ofBeBytes, toBeBytes, reverse_reverse, ofLeBytes_leBytes hlt]

theorem toNat_sub_one {w : U256} (h : 0 < w.toNat) : (w - 1).toNat = w.toNat - 1 := by
  have hle : (1 : U256) ≤ w := BitVec.le_def.mpr h
  rw [BitVec.toNat_sub_of_le hle]
  rfl

theorem saturatingSub_one {w : U256} (h : w ≠ 0) : saturatingSub w 1 = w - 1 := by
  have hpos : 0 < w.toNat := Nat.pos_of_ne_zero fun h0 => h (BitVec.eq_of_toNat_eq h0)
  refine BitVec.eq_of_toNat_eq ?_
  rw [toNat_sub_one hpos, saturatingSub, BitVec.toNat_ofNat, Nat.mod_eq_of_lt]
  · rfl
  · exact lt_of_le_of_lt (by omega) w.isLt

theorem toBeBytes_injective : Function.Injective toBeBytes :=
  Function.LeftInverse.injective ofBeBytes_toBeBytes

theorem toBeBytes_zero : toBeBytes 0 = .zero := rfl

theorem toBeBytes_eq_zero {w : U256} : toBeBytes w = .zero ↔ w = 0 :=
  toBeBytes_injective.eq_iff' toBeBytes_zero

end Citrea.Spec.Evm.U256

namespace Citrea.Proofs.Evm

open Lib
open Lib.StoreProg (run mapStore HintBackend)
open Proofs.Bitcoin Spec.Bitcoin Spec.Evm
open Relation (ReflTransGen TransGen)
open Std (TransOrd LawfulEqOrd)

/-! ### The short header proofs that are supplied -/

section
variable (shp : ShortProofEnv) (S : Set BitcoinHeaderShortProof)

/-- A proof of the set verifies, and tells these facts about its block. -/
def Verified (info : L1UpdateSystemTransactionInfo) : Prop :=
  ∃ proof ∈ S, proof.verify shp.script = .ok info

/-- Every proof that the provider can read belongs to the set. -/
def SuppliedFrom : ShortHeaderProofProvider → Prop
  | .zk shortHeaderProofs _ =>
    ∀ bytes ∈ shortHeaderProofs, ∀ proof, shp.tryFromSlice bytes = some proof → proof ∈ S
  | .native ledger _ _ =>
    ∀ hash bytes, ledger hash = some bytes → ∀ proof, shp.tryFromSlice bytes = some proof →
      proof ∈ S

/-- The second hash belongs to a header that names the first one as its predecessor. -/
def Precedes (hash hash' : Bytes32) : Prop :=
  ∃ info, Verified shp S info ∧ info.prevHeaderHash = hash ∧ info.headerHash = hash'

/-- What is assumed of the hash function, for the headers of the set. -/
structure HeadersHashed : Prop where
  nonzero : ∀ info, Verified shp S info → info.headerHash ≠ .zero
  acyclic : ∀ hash, ¬ TransGen (Precedes shp S) hash hash

variable {shp S}

theorem checkShortHeaderProof_eq_true {bytes : Bytes} {update : L1Update}
    (h : checkShortHeaderProof shp bytes update = .ok true) :
    ∃ proof info, shp.tryFromSlice bytes = some proof ∧ proof.verify shp.script = .ok info ∧
      update.agrees info = true := by
  rw [checkShortHeaderProof, bind_eq_ok] at h
  obtain ⟨proof, hproof, h⟩ := h
  rw [expect_eq_ok] at hproof
  split at h
  · next info hinfo => exact ⟨proof, info, hproof, hinfo, pure_eq_ok.mp h⟩
  · exact absurd (pure_eq_ok.mp h) Bool.false_ne_true
  · simp at h

/-- An update that the provider accepts agrees with a proof of the set. -/
theorem SuppliedFrom.getAndVerify {provider provider' : ShortHeaderProofProvider}
    {update : L1Update} {l2Height : Nat} (hfrom : SuppliedFrom shp S provider)
    (h : provider.getAndVerify shp update l2Height = .ok (true, provider')) :
    SuppliedFrom shp S provider' ∧ ∃ info, Verified shp S info ∧ update.agrees info = true := by
  cases provider with
  | zk proofs last =>
    cases proofs with
    | nil => exact absurd h panic_ne_ok
    | cons bytes rest =>
      rw [ShortHeaderProofProvider.getAndVerify, bind_eq_ok] at h
      obtain ⟨verified, hcheck, h⟩ := h
      obtain ⟨rfl, rfl⟩ := Prod.mk.inj (pure_eq_ok.mp h)
      obtain ⟨proof, info, hproof, hinfo, hagrees⟩ := checkShortHeaderProof_eq_true hcheck
      have hmem : proof ∈ S := hfrom bytes List.mem_cons_self proof hproof
      exact ⟨fun b hb => hfrom b (List.mem_cons_of_mem _ hb), info, ⟨proof, hmem, hinfo⟩, hagrees⟩
  | native ledger saveHashes queried =>
    rw [ShortHeaderProofProvider.getAndVerify] at h
    split at h
    · simp at h
    · next bytes hbytes =>
      rw [bind_eq_ok] at h
      obtain ⟨verified, hcheck, h⟩ := h
      obtain ⟨rfl, rfl⟩ := Prod.mk.inj (pure_eq_ok.mp h)
      obtain ⟨proof, info, hproof, hinfo, hagrees⟩ := checkShortHeaderProof_eq_true hcheck
      exact ⟨hfrom, info, ⟨proof, hfrom _ bytes hbytes proof hproof, hinfo⟩, hagrees⟩

end

/-! ### The chain -/

section
variable (shp : ShortProofEnv) (S : Set BitcoinHeaderShortProof)

/-- The entry for the height `n` agrees with the facts of a short header proof. -/
structure Records (lc : LightClient) (n : U256) (info : L1UpdateSystemTransactionInfo) : Prop where
  verified : Verified shp S info
  hash : info.headerHash = U256.toBeBytes (lc.blockHashes n)
  height : info.blockHeight.toNat = n.toNat
  witnessRoot : info.txCommitment = U256.toBeBytes (lc.witnessRoots (lc.blockHashes n))
  coinbaseDepth : info.coinbaseTxidMerkleProofHeight.toNat =
    (lc.coinbaseDepths (lc.blockHashes n)).toNat

/-- The contract holds a chain of L1 blocks from the height `s` on. -/
structure IsChain (lc : LightClient) (s : U256) : Prop where
  start_le : s ≤ lc.blockNumber
  nonzero_iff : ∀ n, lc.blockHashes n ≠ 0 ↔ s ≤ n ∧ n < lc.blockNumber
  records : ∀ n, s ≤ n → n < lc.blockNumber → ∃ info, Records shp S lc n info ∧
    (s < n → info.prevHeaderHash = U256.toBeBytes (lc.blockHashes (n - 1)))

/-- What is recorded stays as it is. -/
structure Extends (lc lc' : LightClient) : Prop where
  blockHashes : ∀ n, lc.blockHashes n ≠ 0 → lc'.blockHashes n = lc.blockHashes n
  witnessRoots : ∀ n, lc.blockHashes n ≠ 0 →
    lc'.witnessRoots (lc.blockHashes n) = lc.witnessRoots (lc.blockHashes n)
  coinbaseDepths : ∀ n, lc.blockHashes n ≠ 0 →
    lc'.coinbaseDepths (lc.blockHashes n) = lc.coinbaseDepths (lc.blockHashes n)

variable {shp S} {lc : LightClient} {s : U256}

theorem Extends.refl (lc : LightClient) : Extends lc lc :=
  ⟨fun _ _ => rfl, fun _ _ => rfl, fun _ _ => rfl⟩

theorem Extends.trans {lc₁ lc₂ lc₃ : LightClient} (h : Extends lc₁ lc₂) (h' : Extends lc₂ lc₃) :
    Extends lc₁ lc₃ := by
  have hkept : ∀ n, lc₁.blockHashes n ≠ 0 → lc₂.blockHashes n ≠ 0 := fun n hn => by
    rw [h.blockHashes n hn]
    exact hn
  refine ⟨fun n hn => ?_, fun n hn => ?_, fun n hn => ?_⟩
  · rw [h'.blockHashes n (hkept n hn), h.blockHashes n hn]
  · rw [← h.witnessRoots n hn, ← h.blockHashes n hn, h'.witnessRoots n (hkept n hn)]
  · rw [← h.coinbaseDepths n hn, ← h.blockHashes n hn, h'.coinbaseDepths n (hkept n hn)]

/-- An entry that stays still agrees with its short header proof. -/
theorem Records.of_extends {lc' : LightClient} {n : U256} {info : L1UpdateSystemTransactionInfo}
    (h : Records shp S lc n info) (hext : Extends lc lc') (hn : lc.blockHashes n ≠ 0) :
    Records shp S lc' n info where
  verified := h.verified
  hash := by rw [hext.blockHashes n hn, h.hash]
  height := h.height
  witnessRoot := by rw [hext.blockHashes n hn, hext.witnessRoots n hn, h.witnessRoot]
  coinbaseDepth := by rw [hext.blockHashes n hn, hext.coinbaseDepths n hn, h.coinbaseDepth]

/-- A contract that has recorded nothing holds an empty chain. -/
theorem isChain_empty (h : ∀ n, lc.blockHashes n = 0) : IsChain shp S lc lc.blockNumber where
  start_le := BitVec.le_refl _
  nonzero_iff := fun n => by
    rw [h n]
    simp only [ne_eq, not_true_eq_false, false_iff, not_and]
    exact fun hle => BitVec.not_lt.mpr hle
  records := fun n hle hlt => absurd hlt (BitVec.not_lt.mpr hle)

/-- The path from one recorded hash to a later one, by induction on the distance. -/
theorem IsChain.path (hchain : IsChain shp S lc s) (d : Nat) :
    ∀ {n m : U256}, n.toNat + d = m.toNat → s ≤ n → m < lc.blockNumber →
      ReflTransGen (Precedes shp S) (U256.toBeBytes (lc.blockHashes n))
        (U256.toBeBytes (lc.blockHashes m)) := by
  induction d with
  | zero =>
    intro n m hnm _ _
    obtain rfl : n = m := BitVec.eq_of_toNat_eq hnm
    exact .refl
  | succ d ih =>
    intro n m hnm hsn hm
    rw [BitVec.le_def] at hsn
    rw [BitVec.lt_def] at hm
    have hpred := U256.toNat_sub_one (w := m) (by omega)
    have hsm : s < m := BitVec.lt_def.mpr (by omega)
    obtain ⟨info, hrecords, hprev⟩ :=
      hchain.records m (BitVec.le_of_lt hsm) (BitVec.lt_def.mpr hm)
    have hlast : Precedes shp S (U256.toBeBytes (lc.blockHashes (m - 1)))
        (U256.toBeBytes (lc.blockHashes m)) :=
      ⟨info, hrecords.verified, hprev hsm, hrecords.hash⟩
    have hpath := ih (n := n) (m := m - 1) (by omega) (BitVec.le_def.mpr hsn)
      (BitVec.lt_def.mpr (by omega))
    exact hpath.tail hlast

variable {call : SetBlockInfoCall} {info : L1UpdateSystemTransactionInfo}

/-- The facts of an update that agrees with a short header proof. -/
theorem agrees_l1Update (h : (lc.l1Update call).agrees info = true) :
    call.blockHash = info.headerHash ∧ call.witnessRoot = info.txCommitment ∧
      (lc.blockHashes (U256.saturatingSub lc.blockNumber 1) = 0 ∨ info.prevHeaderHash =
          U256.toBeBytes (lc.blockHashes (U256.saturatingSub lc.blockNumber 1))) ∧
      UInt64.ofNat lc.blockNumber.toNat = info.blockHeight ∧
      UInt8.ofNat call.coinbaseDepth.toNat = info.coinbaseTxidMerkleProofHeight := by
  obtain ⟨hroot, hhash, hprev, hheight, hdepth⟩ := of_decide_eq_true h
  exact ⟨hhash, hroot, hprev.imp U256.toBeBytes_eq_zero.mp Eq.symm, hheight, hdepth⟩

section
variable (hhashed : HeadersHashed shp S) (hchain : IsChain shp S lc s)
  (hnumber : lc.blockNumber ≠ 0) (hverified : Verified shp S info)
  (hagrees : (lc.l1Update call).agrees info = true)
include hchain hnumber hagrees

/-- If there is a last block, then the new header names it. -/
theorem IsChain.prevHeaderHash (hs : s < lc.blockNumber) :
    info.prevHeaderHash = U256.toBeBytes (lc.blockHashes (lc.blockNumber - 1)) := by
  obtain ⟨-, -, hprev, -, -⟩ := agrees_l1Update hagrees
  rw [U256.saturatingSub_one hnumber] at hprev
  refine hprev.resolve_left ((hchain.nonzero_iff _).mpr ?_)
  rw [BitVec.lt_def] at hs
  have hpred := U256.toNat_sub_one (w := lc.blockNumber) (by omega)
  constructor
  · exact BitVec.le_def.mpr (by omega)
  · exact BitVec.lt_def.mpr (by omega)

include hhashed hverified

/-- The new hash is not recorded yet. Otherwise there would be a cycle from it to itself. -/
theorem IsChain.hash_fresh (n : U256) : lc.blockHashes n ≠ U256.ofBeBytes call.blockHash := by
  intro heq
  have hhash := (agrees_l1Update hagrees).1
  have hcall : U256.toBeBytes (lc.blockHashes n) = info.headerHash := by
    rw [heq, U256.toBeBytes_ofBeBytes, hhash]
  have hne : lc.blockHashes n ≠ 0 := fun hzero =>
    hhashed.nonzero info hverified (by rw [← hcall, hzero, U256.toBeBytes_zero])
  obtain ⟨hsn, hn⟩ := (hchain.nonzero_iff n).mp hne
  rw [BitVec.lt_def] at hn
  have hstart : s < lc.blockNumber :=
    BitVec.lt_def.mpr (lt_of_le_of_lt (BitVec.le_def.mp hsn) hn)
  have hprev := hchain.prevHeaderHash hnumber hagrees hstart
  have hpred := U256.toNat_sub_one (w := lc.blockNumber) (by omega)
  have hpath := hchain.path (lc.blockNumber.toNat - 1 - n.toNat) (n := n)
    (m := lc.blockNumber - 1) (by omega) hsn (BitVec.lt_def.mpr (by omega))
  rw [hcall] at hpath
  exact hhashed.acyclic info.headerHash
    (TransGen.tail' hpath ⟨info, hverified, hprev, rfl⟩)

theorem IsChain.extends_record : Extends lc (lc.record call) := by
  have hfresh := hchain.hash_fresh hhashed hnumber hverified hagrees
  refine ⟨fun n hn => ?_, fun n _ => ?_, fun n _ => ?_⟩
  · have hlt := ((hchain.nonzero_iff n).mp hn).2
    exact Function.update_of_ne (BitVec.ne_of_lt hlt) _ _
  all_goals exact Function.update_of_ne (hfresh n) _ _

variable (hheight : lc.blockNumber.toNat < 2 ^ 64) (hdepth : call.coinbaseDepth.toNat < 2 ^ 8)
include hheight hdepth

/-- The new entry agrees with the short header proof. -/
theorem IsChain.records_new : Records shp S (lc.record call) lc.blockNumber info := by
  obtain ⟨hhash, hroot, -, hinfoHeight, hinfoDepth⟩ := agrees_l1Update hagrees
  have hnew : (lc.record call).blockHashes lc.blockNumber = U256.ofBeBytes call.blockHash :=
    Function.update_self ..
  refine ⟨hverified, ?_, ?_, ?_, ?_⟩
  · rw [hnew, U256.toBeBytes_ofBeBytes, hhash]
  · rw [← hinfoHeight, UInt64.toNat_ofNat', Nat.mod_eq_of_lt hheight]
  · rw [hnew, show (lc.record call).witnessRoots _ = _ from Function.update_self ..,
      U256.toBeBytes_ofBeBytes, hroot]
  · rw [hnew, show (lc.record call).coinbaseDepths _ = _ from Function.update_self ..,
      ← hinfoDepth, UInt8.toNat_ofNat', Nat.mod_eq_of_lt hdepth]

/-- A recorded block makes the chain longer by one. -/
theorem IsChain.record : IsChain shp S (lc.record call) s := by
  have hext := hchain.extends_record hhashed hnumber hverified hagrees
  have hsucc : (lc.record call).blockNumber.toNat = lc.blockNumber.toNat + 1 := by
    show (lc.blockNumber + 1).toNat = _
    rw [BitVec.toNat_add_of_lt (by simp; omega)]
    rfl
  have hnew : (lc.record call).blockHashes lc.blockNumber = U256.ofBeBytes call.blockHash :=
    Function.update_self ..
  have hstart := BitVec.le_def.mp hchain.start_le
  refine ⟨BitVec.le_def.mpr (by omega), fun n => ?_, fun n hsn hn => ?_⟩
  · by_cases hn : n = lc.blockNumber
    · subst hn
      have hne : (lc.record call).blockHashes lc.blockNumber ≠ 0 := by
        intro hzero
        rw [hnew, ← U256.toBeBytes_eq_zero, U256.toBeBytes_ofBeBytes,
          (agrees_l1Update hagrees).1] at hzero
        exact hhashed.nonzero info hverified hzero
      exact iff_of_true hne ⟨hchain.start_le, BitVec.lt_def.mpr (by omega)⟩
    · rw [show (lc.record call).blockHashes n = _ from Function.update_of_ne hn _ _,
        hchain.nonzero_iff]
      have hn' : n.toNat ≠ lc.blockNumber.toNat := fun h => hn (BitVec.eq_of_toNat_eq h)
      rw [BitVec.lt_def, BitVec.lt_def]
      exact and_congr_right fun _ => by omega
  · -- the entries before the block number stay, and the new one stands at the block number
    rw [BitVec.lt_def, hsucc] at hn
    have hpred : s < n → (lc.record call).blockHashes (n - 1) = lc.blockHashes (n - 1) := by
      intro hs
      rw [BitVec.lt_def] at hs
      refine Function.update_of_ne (fun heq => ?_) _ _
      have hpred := U256.toNat_sub_one (w := n) (by omega)
      rw [heq] at hpred
      omega
    by_cases hlast : n = lc.blockNumber
    · subst hlast
      refine ⟨info, hchain.records_new hhashed hnumber hverified hagrees hheight hdepth,
        fun hs => ?_⟩
      rw [hpred hs, hchain.prevHeaderHash hnumber hagrees hs]
    · have hn' : n.toNat ≠ lc.blockNumber.toNat := fun h => hlast (BitVec.eq_of_toNat_eq h)
      have hlt : n < lc.blockNumber := BitVec.lt_def.mpr (by omega)
      obtain ⟨old, hold, hprev⟩ := hchain.records n hsn hlt
      refine ⟨old, hold.of_extends hext ((hchain.nonzero_iff n).mpr ⟨hsn, hlt⟩), fun hs => ?_⟩
      rw [hpred hs, hprev hs]

end

/-- What one transaction keeps. -/
theorem isChain_step (hhashed : HeadersHashed shp S) {lc₀ : LightClient}
    (p : ShortHeaderProofProvider) (lc : LightClient) (p' : ShortHeaderProofProvider)
    (lc' : LightClient) (heffect : TxEffect shp p lc p' lc')
    (h : SuppliedFrom shp S p ∧ (∃ s, IsChain shp S lc s) ∧ Extends lc₀ lc) :
    SuppliedFrom shp S p' ∧ (∃ s, IsChain shp S lc' s) ∧ Extends lc₀ lc' := by
  obtain ⟨hfrom, ⟨s, hchain⟩, hext⟩ := h
  cases heffect with
  | idle => exact ⟨hfrom, ⟨s, hchain⟩, hext⟩
  | initializeBlockNumber hzero number =>
    -- nothing is recorded as long as the block number is zero
    have hnone : ∀ n, lc.blockHashes n = 0 := fun n => by
      refine Decidable.not_not.mp fun hn => ?_
      have hlt := BitVec.lt_def.mp ((hchain.nonzero_iff n).mp hn).2
      rw [hzero] at hlt
      exact absurd hlt (Nat.not_lt_zero _)
    have hchain' : IsChain shp S (lc.initializeBlockNumber number) number := isChain_empty hnone
    exact ⟨hfrom, ⟨number, hchain'⟩, hext.trans ⟨fun _ _ => rfl, fun _ _ => rfl, fun _ _ => rfl⟩⟩
  | record hnumber hheight hdepth hverified =>
    obtain ⟨hfrom', info, hinfo, hagrees⟩ := hfrom.getAndVerify hverified
    exact ⟨hfrom', ⟨s, hchain.record hhashed hnumber hinfo hagrees hheight hdepth⟩,
      hext.trans (hchain.extends_record hhashed hnumber hinfo hagrees)⟩

end

/-! ### Blocks -/

section
variable {A H R Tx Key : Type} [Ord A] [Ord H] [TransOrd A] [LawfulEqOrd A] [TransOrd H]
  [LawfulEqOrd H] [DecidableEq A] [DecidableEq H] (env : RuntimeEnv A H R Tx Key)
  (S : Set BitcoinHeaderShortProof)

/-- An accepted L2 block takes one state to another. The provider is any that has its proofs from
the set. -/
def BlockStep (st st' : StateStore A H) : Prop :=
  ∃ (τ : Type) (O : HintBackend H Bytecode τ) (t t' : τ)
    (provider provider' : ShortHeaderProofProvider) (info : HookL2BlockInfo R Tx Key),
    SuppliedFrom env.executor.shp S provider ∧ SystemTxsAddressed env info.block.txs ∧
      run mapStore O (l2BlockProgram env provider info) st t = .ok (provider', st', t')

variable {env S} (hruns : ContractRuns env.executor) (hlayout : Layout env.executor.evm)
  (hhashed : HeadersHashed env.executor.shp S) {lc₀ : LightClient} {st st' : StateStore A H}
include hruns hlayout hhashed

/-- What one block keeps. -/
theorem isChain_blockStep (h : BlockStep env S st st')
    (hchain : ∃ s, IsChain env.executor.shp S (lightClientOf env.executor.evm st) s)
    (hext : Extends lc₀ (lightClientOf env.executor.evm st)) :
    (∃ s, IsChain env.executor.shp S (lightClientOf env.executor.evm st') s) ∧
      Extends lc₀ (lightClientOf env.executor.evm st') := by
  obtain ⟨τ, O, t, t', provider, provider', info, hfrom, haddressed, hrun⟩ := h
  have heffects := blockProgram_effects hruns hlayout haddressed hrun
  exact (heffects.invariant (isChain_step hhashed) ⟨hfrom, hchain, hext⟩).2

/-- What a sequence of blocks keeps, by induction on the sequence. -/
theorem isChain_blocks (h : ReflTransGen (BlockStep env S) st st')
    (hchain : ∃ s, IsChain env.executor.shp S (lightClientOf env.executor.evm st) s)
    (hext : Extends lc₀ (lightClientOf env.executor.evm st)) :
    (∃ s, IsChain env.executor.shp S (lightClientOf env.executor.evm st') s) ∧
      Extends lc₀ (lightClientOf env.executor.evm st') := by
  induction h with
  | refl => exact ⟨hchain, hext⟩
  | tail _ hstep ih => exact isChain_blockStep hruns hlayout hhashed hstep ih.1 ih.2

end

/-! ### Two recorded blocks -/

/-- A block after `legacyBlock`. Its coinbase transaction pushes the height 368031. -/
def nextCoinbase : Transaction where
  version := 1
  lockTime := 0
  input := [⟨⟨.zero, 0xffffffff⟩, ⟨[3, 0x9f, 0x9d, 0x05], by decide⟩, 0, [], nil_fits⟩]
  output := legacyCoinbase.output
  input_fits := by decide
  output_fits := legacyCoinbase.output_fits

def nextHeader : BitcoinHeader :=
  ⟨0, (legacyProof .zero).header.precomputedHash, calculateTxid rollingHash nextCoinbase, 0, 0, 0⟩

/-- A short proof of that block. -/
def nextProof : BitcoinHeaderShortProof where
  header := ⟨nextHeader, 0, 0, .replicate 1,
    calculateDoubleSha256 rollingHash nextHeader.consensusEncode⟩
  coinbaseTx := nextCoinbase
  coinbaseTxTxidMerkleProof := []

/-- The facts that the two short proofs tell. -/
def legacyInfo : L1UpdateSystemTransactionInfo :=
  ⟨(legacyProof .zero).header.precomputedHash, .zero, .zero, 0, 368030⟩

def nextInfo : L1UpdateSystemTransactionInfo :=
  ⟨nextProof.header.precomputedHash, legacyInfo.headerHash, .replicate 1, 0, 368031⟩

theorem verify_legacyProof : (legacyProof .zero).verify pushEnv = .ok legacyInfo := by
  decide +kernel

theorem verify_nextProof : nextProof.verify pushEnv = .ok nextInfo := by decide +kernel

/-- The executor of the sample rollup with the contract and with these short proofs. -/
def chainExecutor : ExecutorEnv (Fin 8) Bytes :=
  { wordExecutor with
    revm :=
      { validateEnv := fun _ _ => none
        interpret := fun _ tx =>
          if tx.caller = 1 ∧ tx.kind = some 4 then
            BitcoinLightClient.call wordExecutor tx ⟨fun _ => true, fun _ => 0, by simp⟩
              (.done true 0 (by omega))
          else .done true 0 (by omega) }
    shp :=
      { script := pushEnv
        tryFromSlice := fun bytes =>
          if bytes = [1] then some (legacyProof .zero)
          else if bytes = [2] then some nextProof
          else none } }

/-- A transaction is the data and the nonce of a system transaction to the contract. -/
def chainRuntimeEnv : RuntimeEnv (Fin 8) Bytes (List Nat) (Bytes × Nat) Unit :=
  { wordRuntimeEnv with
    executor := chainExecutor
    decodeTx := fun tx => pure (.evm [some
      ⟨{ (sampleTx (some 4) 0 tx.1 tx.2).env with caller := 1 }, false⟩]) }

/-- A call of `initializeBlockNumber`. -/
def initializeData (number : U256) : Bytes := [5, 6, 7, 8] ++ (U256.toBeBytes number).data

/-- A call of `setBlockInfo`. -/
def setBlockInfoData (info : L1UpdateSystemTransactionInfo) : Bytes :=
  [1, 2, 3, 4] ++ info.headerHash.data ++ info.txCommitment.data ++
    (U256.toBeBytes (BitVec.ofNat 256 info.coinbaseTxidMerkleProofHeight.toNat)).data

def chainInfo (txs : List (Bytes × Nat)) : HookL2BlockInfo (List Nat) (Bytes × Nat) Unit :=
  ⟨wordBlock 1 [] [] txs, [], .tangerine, ()⟩

/-- A state with the configuration and the data of the rule enforcer only. -/
def chainGenesis : StateStore (Fin 8) Bytes
  | .other [9] => some []
  | .other [8] => some []
  | _ => none

/-- An offchain state without code. -/
def noCode : HintBackend Bytes Bytecode Unit where
  get := fun _ _ => .ok ((none, false), ())
  set := fun _ _ _ => ()

/-- The state after a block. -/
def chainBlock (provider : ShortHeaderProofProvider) (txs : List (Bytes × Nat))
    (st : StateStore (Fin 8) Bytes) : Option (StateStore (Fin 8) Bytes) :=
  match run mapStore noCode (l2BlockProgram chainRuntimeEnv provider (chainInfo txs)) st () with
  | .ok (_, st', _) => some st'
  | .error _ => none

/-- The guest executes the first block, which sets the number and records a block. A node executes
the second one, which records the next block. -/
def recordedTwice : Option (StateStore (Fin 8) Bytes) := do
  let st ← chainBlock (.zk [[1]] none)
    [(initializeData 368030, 0), (setBlockInfoData legacyInfo, 1)]
    chainGenesis
  chainBlock (.native (fun _ => some [2]) false []) [(setBlockInfoData nextInfo, 2)] st

theorem layout_chainExecutor : Layout chainExecutor.evm where
  storage := by
    intro a a' key key' h
    have hbyte : ∀ a a' : Fin 8, UInt8.ofNat a = UInt8.ofNat a' → a = a' := by decide
    obtain ⟨ha, hkey⟩ := List.cons.inj h
    exact ⟨hbyte a a' ha, hkey⟩
  mapping := by
    intro key key' base base' h
    have hlt : ∀ w : U256, w.toNat < 256 ^ 32 := fun w => by simpa using w.isLt
    obtain ⟨hkey, hbase⟩ := List.append_inj h (by simp)
    exact ⟨BitVec.eq_of_toNat_eq (leBytes_inj (hlt _) (hlt _) hkey),
      BitVec.eq_of_toNat_eq (leBytes_inj (hlt _) (hlt _) hbase)⟩
  number := by
    intro key base h
    have hlength := congrArg List.length h
    simp [chainExecutor, wordExecutor] at hlength

theorem contractRuns_chainExecutor : ContractRuns chainExecutor where
  direct := fun _ tx hcaller hkind =>
    ⟨⟨fun _ => true, fun _ => 0, by simp⟩, .done true 0 (by omega), trivial,
      if_pos (c := tx.caller = 1 ∧ tx.kind = some 4) ⟨hcaller, hkind⟩⟩
  elsewhere := fun block tx h => by
    have hdone : chainExecutor.revm.interpret block tx = .done true 0 (by omega) :=
      if_neg (c := tx.caller = 1 ∧ tx.kind = some 4) h
    rw [hdone]
    trivial

/-- The short proofs of the sample. -/
def chainProofs : Set BitcoinHeaderShortProof := {legacyProof .zero, nextProof}

theorem verified_chainProofs {info : L1UpdateSystemTransactionInfo}
    (h : Verified chainExecutor.shp chainProofs info) : info = legacyInfo ∨ info = nextInfo := by
  obtain ⟨proof, rfl | rfl, hverify⟩ := h
  · exact .inl (ok_unique hverify verify_legacyProof)
  · exact .inr (ok_unique hverify verify_nextProof)

theorem headersHashed_chainProofs : HeadersHashed chainExecutor.shp chainProofs where
  nonzero := by
    intro info h
    rcases verified_chainProofs h with rfl | rfl
    all_goals decide +kernel
  acyclic := by
    -- the number of blocks up to a hash grows along the links
    let rank : Bytes32 → Nat := fun hash =>
      if hash = nextInfo.headerHash then 2 else if hash = legacyInfo.headerHash then 1 else 0
    have hlink : ∀ hash hash', Precedes chainExecutor.shp chainProofs hash hash' →
        rank hash < rank hash' := by
      rintro _ _ ⟨info, hverified, rfl, rfl⟩
      rcases verified_chainProofs hverified with rfl | rfl
      all_goals decide +kernel
    intro hash hcycle
    have hlt : TransGen (· < ·) (rank hash) (rank hash) := hcycle.lift rank hlink
    rw [Relation.transGen_eq_self] at hlt
    exact lt_irrefl _ hlt

/-- Every transaction of the sample calls the contract. -/
theorem systemTxsAddressed_chain (txs : List (Bytes × Nat)) :
    SystemTxsAddressed chainRuntimeEnv txs := by
  intro tx _ messages hdecode recovered hmem
  obtain rfl : [some _] = messages := RuntimeCall.evm.inj (Except.ok.inj hdecode)
  obtain rfl := Option.some.inj (List.mem_singleton.mp hmem)
  exact fun _ _ => rfl

theorem blockStep_chainBlock {provider : ShortHeaderProofProvider} {txs : List (Bytes × Nat)}
    {st st' : StateStore (Fin 8) Bytes}
    (hfrom : SuppliedFrom chainExecutor.shp chainProofs provider)
    (h : chainBlock provider txs st = some st') : BlockStep chainRuntimeEnv chainProofs st st' := by
  rw [chainBlock] at h
  split at h
  · next provider' _ _ hrun =>
    obtain rfl := Option.some.inj h
    exact ⟨Unit, noCode, (), (), provider, provider', chainInfo txs, hfrom,
      systemTxsAddressed_chain txs, hrun⟩
  · cases h

end Citrea.Proofs.Evm
