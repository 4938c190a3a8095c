import Citrea.Proofs.Evm.L1Chain

/-!
# `Citrea.Proofs.Evm.LastL1Hash`: the last L1 hash of a batch proof

The output of the batch proof circuit has the hash of the last L1 block that the light client
contract knows. The guest takes it from one of three places: the last short header proof that was
verified, the cache of the run, or a proof against the final root. `lastL1Hash` is what the contract
says in a state.

`HashTracked` is the invariant of the run: if the provider has a last hash, then it is the last hash
of the contract. One transaction keeps it (`hashTracked_step`). The cache part rests on the cache
invariant of `Citrea.Proofs.Storage.Soundness`, because the guest does not prove a cached value.
-/

set_option linter.unusedSectionVars false

namespace Citrea.Proofs.Evm

open Option List Lib
open Lib.StoreProg (run mapStore run_simulates)
open Proofs.BatchProof Proofs.Storage
open Spec.Bitcoin (Bytes32)
open Spec.BatchProof Spec.Evm Spec.Storage
open Std (TransOrd LawfulEqOrd)

/-! ### The provider -/

/-- `blockHashes[blockNumber - 1]`. -/
def LightClient.lastL1Hash (lc : LightClient) : Bytes32 :=
  U256.toBeBytes (lc.blockHashes (lc.blockNumber - 1))

/-- The provider of the guest, and the contract. A hash that the provider remembers is the last hash
of the contract. -/
def HashTracked : ShortHeaderProofProvider → LightClient → Prop
  | .zk _ last, lc => ∀ hash, last = some hash → lc.blockNumber ≠ 0 ∧ lc.lastL1Hash = hash
  | .native _ _ _, _ => False

theorem lastL1Hash_record (lc : LightClient) (call : SetBlockInfoCall) :
    (lc.record call).lastL1Hash = call.blockHash := by
  have hnumber : (lc.record call).blockNumber - 1 = lc.blockNumber :=
    BitVec.add_sub_cancel _ _
  have hhash : (lc.record call).blockHashes lc.blockNumber = U256.ofBeBytes call.blockHash :=
    Function.update_self ..
  rw [LightClient.lastL1Hash, hnumber, hhash, U256.toBeBytes_ofBeBytes]

/-- What one transaction keeps. -/
theorem hashTracked_step {shp : ShortProofEnv} (p : ShortHeaderProofProvider) (lc : LightClient)
    (p' : ShortHeaderProofProvider) (lc' : LightClient) (heffect : TxEffect shp p lc p' lc')
    (h : HashTracked p lc) : HashTracked p' lc' := by
  cases heffect with
  | idle => exact h
  | initializeBlockNumber hzero number =>
    cases p with
    | zk proofs last =>
      intro hash hlast
      exact absurd hzero (h hash hlast).1
    | native ledger saveHashes queried => exact h
  | @record _ _ call _ hnumber hheight hdepth hverified =>
    cases p with
    | zk proofs last =>
      cases proofs with
      | nil => exact absurd hverified panic_ne_ok
      | cons bytes rest =>
        rw [ShortHeaderProofProvider.getAndVerify, bind_eq_ok] at hverified
        obtain ⟨verified, -, hresult⟩ := hverified
        obtain ⟨rfl, rfl⟩ := Prod.mk.inj (pure_eq_ok.mp hresult)
        intro hash hlast
        have hhash : call.blockHash = hash := some.inj hlast
        -- the number has 64 bits, so it does not wrap to zero
        have hne : lc.blockNumber + 1 ≠ 0 := by
          intro hzero
          have hsum : (lc.blockNumber + 1).toNat = lc.blockNumber.toNat + 1 :=
            BitVec.toNat_add_of_lt (by simp; omega)
          rw [hzero] at hsum
          simp at hsum
        exact ⟨hne, (lastL1Hash_record lc call).trans hhash⟩
    | native ledger saveHashes queried => exact h.elim

/-! ### The run -/

section
variable {A H R Tx Key Proof UpdateProof : Type} [Ord A] [Ord H] [TransOrd A] [LawfulEqOrd A]
  [TransOrd H] [LawfulEqOrd H] [DecidableEq A] [DecidableEq H] [DecidableEq R]
  {base : StfEnv R Tx Witness (GuestLog ShortHeaderProofProvider) Key}
  {jmt : Jmt R Proof UpdateProof} {env : RuntimeEnv A H R Tx Key}
  {codec : Codec (StateKey.Value (A := A) (H := H))} {codeCodec : Codec fun _ : H => Bytecode}
  {contents : R → State} {root : R} {log : ReadWriteLog} {evm : EvmEnv A H}
  {witness witness' : Witness}

/-- The contract in the state with the given contents. -/
def contractIn (evm : EvmEnv A H) (codec : Codec (StateKey.Value (A := A) (H := H)))
    (m : State) : LightClient :=
  lightClientOf evm (typedState codec m)

/-- The invariant of a run: the cached values are those of the state, and the provider has no other
hash than the last one of the contract. -/
structure RunTracked (evm : EvmEnv A H) (codec : Codec (StateKey.Value (A := A) (H := H)))
    (contents : R → State) (start : ShortHeaderProofProvider) (root : R)
    (logs : Option (GuestLog ShortHeaderProofProvider × GuestLog ShortHeaderProofProvider)) :
    Prop where
  cached : GuestLogsCached contents root logs
  tracked : HashTracked ((logs.map fun l => l.1.memory).getD start)
    (contractIn evm codec (contents root))

/-- What one block keeps. -/
theorem runTracked_step {proofs : List Bytes} {key : Key}
    {exec : BlockExec R Tx Witness (GuestLog ShortHeaderProofProvider)}
    (hsound : JmtSound jmt contents) (hcodec : Codec.Lawful codec)
    (hruns : ContractRuns env.executor) (hlayout : Layout env.executor.evm)
    (haddressed : SystemTxsAddressed env exec.block.txs)
    (happlied : exec.Applied (batchEnv base jmt env codec codeCodec proofs) key)
    (h : RunTracked env.executor.evm codec contents (.zk proofs none) exec.preStateRoot exec.logs) :
    RunTracked env.executor.evm codec contents (.zk proofs none) exec.result.finalRoot
      (some (exec.nextLogs (batchEnv base jmt env codec codeCodec proofs))) := by
  refine ⟨(stateSound_of_applied hsound happlied h.cached).2, ?_⟩
  obtain ⟨memory, result, hprogram, hresult⟩ := applyProgram_of_applied happlied
  have hroot : result.update.initRoot = exec.preStateRoot := by
    rw [← happlied.initRoot, hresult]
  obtain ⟨⟨t, hrun⟩, -, -⟩ := applyProgram_sound hsound h.cached hprogram hroot
  -- the block ran on the values of the state before it
  obtain ⟨st, htyped, hst⟩ := run_simulates (simulates_mapStore hcodec) rfl hrun trivial
  have heffects := blockProgram_effects hruns hlayout haddressed htyped
  have htracked := heffects.invariant hashTracked_step h.tracked
  have hmemory : (exec.nextLogs (batchEnv base jmt env codec codeCodec proofs)).1.memory =
      memory := by
    rw [BlockExec.nextLogs, hresult]
    split
    · rfl
    · rfl
  show HashTracked (exec.nextLogs _).1.memory _
  rw [hmemory, hresult, contractIn, hst]
  exact htracked

/-! ### The three sources -/

/-- A slot that is read from the cache or proved is the slot of the contract in the state. -/
theorem readContractSlot_eq (hsound : JmtSound jmt contents)
    (hlog : Cached (contents root) log.cacheLog) {slot : H} {noneInCache noneInStorage : String}
    {value : U256} (h : readContractSlot evm codec (zkStorage jmt) log slot witness root noneInCache
      noneInStorage = .ok (value, witness')) :
    value = storedSlot evm (typedState codec (contents root)) evm.bitcoinLightClient slot := by
  have hstored : ∀ bytes, contents root (codec.keyBytes
        (.storage (getStorageAddress evm evm.bitcoinLightClient slot))) = some bytes →
      codec.decode (.storage (getStorageAddress evm evm.bitcoinLightClient slot)) bytes =
        some value →
      value = storedSlot evm (typedState codec (contents root)) evm.bitcoinLightClient slot := by
    intro bytes hbytes hdecode
    rw [storedSlot, typedState, hbytes, bind_some, hdecode, getD_some]
  rw [readContractSlot] at h
  split at h
  · next cacheValue hcache =>
    simp only [bind_eq_ok, expect_eq_ok, pure_eq_ok, Prod.mk.injEq] at h
    obtain ⟨bytes, rfl, v, hdecode, rfl, -⟩ := h
    exact hstored bytes (hlog _ _ hcache) hdecode
  · simp only [zkStorage, ZkStorage.getAndProve, bind_eq_ok, expect_eq_ok,
      assert_eq_ok, pure_eq_ok, Prod.mk.injEq] at h
    obtain ⟨⟨proved, w⟩, ⟨⟨found, w₁⟩, -, ⟨proof, w₂⟩, -, -, hverify, rfl, rfl⟩, bytes, hbytes, v,
      hdecode, rfl, -⟩ := h
    exact hstored bytes ((hsound.verify hverify).trans hbytes) hdecode

/-- `get_last_l1_hash_on_contract` returns the last hash of the contract, whatever its witness and
whatever is left of the cache. -/
theorem getLastL1HashOnContract_eq (hsound : JmtSound jmt contents)
    (hlog : Cached (contents root) log.cacheLog) {hash : Bytes32}
    (h : getLastL1HashOnContract evm codec (zkStorage jmt) log witness root = .ok (hash,
      witness')) : hash = (contractIn evm codec (contents root)).lastL1Hash := by
  simp only [getLastL1HashOnContract, bind_eq_ok, pure_eq_ok, Prod.mk.injEq] at h
  obtain ⟨⟨height, w⟩, hheight, ⟨last, w'⟩, hlast, rfl, -⟩ := h
  have hheight' : height = (contractIn evm codec (contents root)).blockNumber :=
    readContractSlot_eq hsound hlog hheight
  have hlast' : last = (contractIn evm codec (contents root)).blockHashes (height - 1) :=
    readContractSlot_eq hsound hlog hlast
  rw [hlast', hheight', LightClient.lastL1Hash]

end

/-! ### A batch of two blocks -/

theorem decodeAccount_encodeAccount (info : AccountInfo Bytes) :
    decodeAccount (encodeAccount info) = some info := by
  obtain ⟨balance, codeHash, nonce⟩ := info
  have hlt : balance.toNat < 256 ^ 32 := by simpa using balance.isLt
  have hbalance : BitVec.ofNat 256 (ofLeBytes (leBytes 32 balance.toNat)) = balance := by
    rw [ofLeBytes_leBytes hlt, BitVec.ofNat_toNat, BitVec.setWidth_eq]
  rw [decodeAccount, encodeAccount, take_left' (length_leBytes 32 _),
    drop_left' (length_leBytes 32 _), hbalance, splitPiece_piece]
  cases codeHash with
  | none => simp [unary]
  | some h => simp [unary]

theorem lawful_wordCodec : Codec.Lawful wordCodec where
  keyBytes := by
    have hbyte : ∀ a a' : Fin 8, UInt8.ofNat a = UInt8.ofNat a' → a = a' := by decide
    intro k k' h
    -- the first byte gives the container
    cases k <;> cases k' <;> simp only [wordCodec, List.cons.injEq] at h <;>
      first
        | exact absurd h.1 (by decide)
        | skip
    case accountIdx.accountIdx a a' => rw [hbyte a a' h.2.1]
    case accountAmount.accountAmount => rfl
    case account.account n n' =>
      have hlength := congrArg List.length h.2
      simp only [unary, length_replicate] at hlength
      rw [hlength]
    case storage.storage kaddr kaddr' => rw [h.2]
    case other.other key key' => rw [h.2]
  decode := by
    intro k v
    cases k with
    | accountIdx a => simp [wordCodec, unary]
    | accountAmount => simp [wordCodec, unary]
    | account idx => exact decodeAccount_encodeAccount v
    | storage kaddr =>
      have hlt : BitVec.toNat v < 256 ^ 32 := by simpa using BitVec.isLt v
      show some (BitVec.ofNat 256 (ofLeBytes (leBytes 32 (BitVec.toNat v)))) = some v
      rw [ofLeBytes_leBytes hlt, BitVec.ofNat_toNat, BitVec.setWidth_eq]
    | other key => rfl

/-- The configuration and the data of the rule enforcer. -/
def hashGenesis : List (Bytes × Option Bytes) := [([4, 9], some []), ([4, 8], some [])]

/-- The first block records an L1 block. -/
def hashBlock₁ : L2Block (List Nat) (Bytes × Nat) :=
  wordBlock 1 [] [1] [(initializeData 368030, 0), (setBlockInfoData legacyInfo, 1)]

/-- The second block has no transactions. -/
def hashBlock₂ : L2Block (List Nat) (Bytes × Nat) := wordBlock 2 hashBlock₁.hash [2] []

/-- The execution of a block by the prover. -/
def hashProverBlock (writes : List (Bytes × Option Bytes)) (root newRoot : List Nat)
    (logs : Option (ReadWriteLog × ReadWriteLog)) (block : L2Block (List Nat) (Bytes × Nat)) :
    Option (BlockResult (List Nat)) :=
  match applyProgram (proverStorage historyWriter (historyDb writes root newRoot)) wordCodec
    wordCodeCodec (l2BlockProgram chainRuntimeEnv (.zk [[1]] none) ⟨block, root, .tangerine, ()⟩)
    logs [] [] with
  | .ok (_, result) => some result
  | .error _ => none

def hashResult₁ : Option (BlockResult (List Nat)) :=
  hashProverBlock hashGenesis [0] [1] none hashBlock₁

def hashResult₂ : Option (BlockResult (List Nat)) := do
  let first ← hashResult₁
  hashProverBlock (hashGenesis ++ first.update.stateDiff) [1] [2]
    (some (first.stateLog, first.offchainLog)) hashBlock₂

/-- The writes up to a root. -/
def hashHistory (root : List Nat) : List (Bytes × Option Bytes) :=
  if root = [0] then hashGenesis
  else if root = [1] then hashGenesis ++ (writesAndWitness hashResult₁).1
  else if root = [2] then
    hashGenesis ++ (writesAndWitness hashResult₁).1 ++ (writesAndWitness hashResult₂).1
  else []

/-- The input of the circuit: one commitment for both blocks. -/
def hashInput : BatchProofInput (List Nat) (Bytes × Nat) where
  circuit :=
    { sequencerPublicKey := []
      initialPrevL2BlockHash := none
      initialStateRoot := [0]
      previousSequencerCommitment := none
      prevHashProof := none
      sequencerCommitments :=
        [⟨(wordBase.merkleRoot [hashBlock₁.hash, hashBlock₂.hash]).getD [], 1, 2⟩]
      cachePruneL2Heights := []
      forks := [⟨.tangerine, 0⟩]
      host :=
        [.u32 1, .u32 2, .u64 1, .block hashBlock₁ (writesAndWitness hashResult₁).2 [],
          .u64 2, .block hashBlock₂ (writesAndWitness hashResult₂).2 []] }
  shortHeaderProofs := [[1]]
  lastL1HashWitness := []

/-- An L1 hash in the type of state roots. -/
def hashNumbers (hash : Bytes32) : List Nat := hash.data.map UInt8.toNat

end Citrea.Proofs.Evm
