import Citrea.Proofs.Bitcoin.Transaction
import Citrea.Proofs.Contracts.Bridge

/-!
# `Citrea.Proofs.Contracts.Inclusion`: inclusion checks of the light client contract

The contract stores a witness root and a depth for each block hash. `prove` takes a proof of any
length, so that a proof that is too short would accept an inner node. The contract therefore asks
for exactly one node for each level, and
then `TreeOver.mem_of_climb` says that the path starts at a leaf.

A block that is not recorded has the root zero and the depth zero. Only the id zero has a proof for
it. `Tracks` is the invariant of the storage over any calls, and `inclusion_sound` the result.
-/

namespace Citrea.Proofs.Contracts

open List Lib Spec.Bitcoin Spec.Contracts Proofs.Bitcoin

variable {lib : SpvLibrary} {S : Set Bytes} {id root : Bytes32} {proof : Bytes} {index : Nat}

/-! ### Proofs as bytes -/

/-- The strings that are hashed for a proof. -/
def proofPreimages (lib : SpvLibrary) (id : Bytes32) (proof : Bytes) (index : Nat) : List Bytes :=
  (climbPairs (combineNodes lib.sha256) id
    (SpvLibrary.proofNodes (proof.length / 32) proof) index).map
    fun p => nodePreimage p.1 p.2

theorem merkleFold_eq_climb (current : Bytes32) (nodes : List Bytes32) (index : Nat) :
    lib.merkleFold current nodes index = climb (combineNodes lib.sha256) current nodes index := by
  induction nodes generalizing current index with
  | nil => rfl
  | cons node rest ih => exact ih ..

theorem length_proofNodes (n : Nat) (b : Bytes) : (SpvLibrary.proofNodes n b).length = n := by
  induction n generalizing b with
  | zero => rfl
  | succ n ih => rw [SpvLibrary.proofNodes, length_cons, ih]

/-- An accepted proof is a path with one node for each 32 bytes. -/
theorem climb_of_prove (h : lib.prove id root proof index = true) :
    climb (combineNodes lib.sha256) id (SpvLibrary.proofNodes (proof.length / 32) proof) index =
      root := by
  rw [SpvLibrary.prove] at h
  split_ifs at h with hempty hbad
  · obtain ⟨heq, -, rfl⟩ := hempty
    exact heq
  · rw [← merkleFold_eq_climb]
    exact eq_of_beq h

/-- The tree over ids, with the strings that are hashed for it. -/
structure CommittedIds (lib : SpvLibrary) (S : Set Bytes) (ids : List Bytes32) (depth : Nat)
    (root : Bytes32) : Prop where
  tree : TreeOver (combineNodes lib.sha256) ids depth root
  hashed : ∀ p ∈ treePairs (combineNodes lib.sha256) depth ids, p ∈ pairsIn S

variable (hS : CollisionFree lib.sha256 S)
include hS

/-- A proof of the right length is for a leaf. -/
theorem mem_of_prove {ids : List Bytes32} {depth : Nat}
    (h : CommittedIds lib S ids depth root) (hlength : proof.length = depth * 32)
    (hpath : ∀ s ∈ proofPreimages lib id proof index, s ∈ S)
    (hprove : lib.prove id root proof index = true) : id ∈ ids := by
  refine h.tree.mem_of_climb (node_injOn hS.injOn) ?_ h.hashed ?_ (climb_of_prove hprove)
  · rw [length_proofNodes]
    omega
  · intro p hp
    exact hpath _ (mem_map.mpr ⟨p, hp, rfl⟩)

/-! ### The storage -/

/-- A block of Bitcoin: the bytes of its header, and the ids of its transactions. -/
structure BitcoinBlock where
  header : Bytes
  txids : List Bytes32
  wtxids : List Bytes32

/-- What is true of a block with this hash, witness root and coinbase depth. Both trees are over the
same number of ids, so that the depth is the same. -/
structure TrueBlock (lib : SpvLibrary) (S : Set Bytes) (block : BitcoinBlock) (hash root : Bytes32)
    (depth : Nat) : Prop where
  header : block.header ∈ S
  hash : lib.hash256View block.header = hash
  witness : CommittedIds lib S block.wtxids depth root
  txs : ∃ depth, CommittedIds lib S block.txids depth (SpvLibrary.extractMerkleRootLE block.header)
  sameLength : block.txids.length = block.wtxids.length

/-- Every call of `setBlockInfo` by the system has the true data of a block. -/
def TrueCalls (lib : SpvLibrary) (S : Set Bytes) (bitcoin : Bytes32 → Option BitcoinBlock)
    (calls : List (Bool × LightClientCall)) : Prop :=
  ∀ hash root depth, (true, LightClientCall.setBlockInfo hash root depth) ∈ calls →
    ∃ block, bitcoin hash = some block ∧ TrueBlock lib S block hash root depth

/-- The contract after some calls. -/
def runLightClient (calls : List (Bool × LightClientCall)) : LightClient :=
  calls.foldl (fun client call => client.step call.1 call.2) LightClient.empty

/-- The hash of a recorded block. The zero hash means that there is none. -/
def Recorded (client : LightClient) (hash : Bytes32) : Prop :=
  hash ≠ .zero ∧ ∃ number, client.blockHashes number = hash

/-- The invariant: recorded blocks have their true data, other hashes have none, and the numbers
from `blockNumber` on are free. -/
structure Tracks (lib : SpvLibrary) (S : Set Bytes) (bitcoin : Bytes32 → Option BitcoinBlock)
    (client : LightClient) : Prop where
  recorded : ∀ hash, Recorded client hash → ∃ block, bitcoin hash = some block ∧
    TrueBlock lib S block hash (client.witnessRoots hash) (client.coinbaseDepths hash)
  unrecorded : ∀ hash, ¬ Recorded client hash →
    client.witnessRoots hash = .zero ∧ client.coinbaseDepths hash = 0
  free : ∀ number, client.blockNumber ≤ number → client.blockHashes number = .zero

variable {bitcoin : Bytes32 → Option BitcoinBlock} {client : LightClient} {hash id : Bytes32}
  {proof : Bytes} {index : Nat}

omit hS in
theorem tracks_empty : Tracks lib S bitcoin LightClient.empty where
  recorded := by
    rintro hash ⟨hne, number, rfl⟩
    exact absurd rfl hne
  unrecorded _ _ := ⟨rfl, rfl⟩
  free _ _ := rfl

/-- One more recorded block. -/
theorem Tracks.setBlockInfo (h : Tracks lib S bitcoin client)
    {root : Bytes32} {depth : Nat} {client' : LightClient}
    (htrue : ∃ block, bitcoin hash = some block ∧ TrueBlock lib S block hash root depth)
    (hok : client.setBlockInfo true hash root depth = .ok client') :
    Tracks lib S bitcoin client' := by
  simp only [LightClient.setBlockInfo, require, checkedAdd, bind_eq_ok, ensure_eq_ok,
    exists_const, true_and, pure_eq_ok] at hok
  obtain ⟨-, next, hnext, rfl⟩ := hok
  have hne : hash ≠ .zero := by
    obtain ⟨block, -, hblock⟩ := htrue
    rw [← hblock.hash]
    exact hS.ne_zero _ hblock.header
  have hnumber : next = client.blockNumber + 1 := by
    split_ifs at hnext
    · exact (pure_eq_ok.mp hnext).symm
    · simp at hnext
  -- the number was free, so no recorded block is lost
  have hkept : ∀ other, Recorded client other →
      ∃ number, Function.update client.blockHashes client.blockNumber hash number = other := by
    rintro other ⟨hother, number, rfl⟩
    refine ⟨number, Function.update_of_ne ?_ ..⟩
    rintro rfl
    exact hother (h.free _ le_rfl)
  refine ⟨?_, ?_, ?_⟩
  · rintro other ⟨hother, number, hnumber⟩
    by_cases heq : other = hash
    · subst heq
      simp only [Function.update_self]
      exact htrue
    · simp only [Function.update_of_ne heq]
      refine h.recorded other ⟨hother, number, ?_⟩
      simp only [Function.update_apply] at hnumber
      split_ifs at hnumber
      · exact absurd hnumber.symm heq
      · exact hnumber
  · intro other hother
    have heq : other ≠ hash := by
      rintro rfl
      exact hother ⟨hne, client.blockNumber, Function.update_self ..⟩
    simp only [Function.update_of_ne heq]
    exact h.unrecorded other fun hrec => hother ⟨hrec.1, hkept other hrec⟩
  · intro number hle
    have hle' : client.blockNumber + 1 ≤ number := hnumber ▸ hle
    show Function.update client.blockHashes client.blockNumber hash number = .zero
    rw [Function.update_of_ne (by omega)]
    exact h.free number (by omega)

theorem Tracks.step (h : Tracks lib S bitcoin client) {isSystem : Bool} {call : LightClientCall}
    (htrue : ∀ hash root depth, (isSystem, call) = (true, .setBlockInfo hash root depth) →
      ∃ block, bitcoin hash = some block ∧ TrueBlock lib S block hash root depth) :
    Tracks lib S bitcoin (client.step isSystem call) := by
  cases call with
  | initializeBlockNumber number =>
    cases hok : client.initializeBlockNumber isSystem number with
    | error fault =>
      simp only [LightClient.step, hok]
      exact h
    | ok client' =>
      simp only [LightClient.step, hok]
      simp only [LightClient.initializeBlockNumber, require, bind_eq_ok,
        ensure_eq_ok, exists_const, pure_eq_ok] at hok
      obtain ⟨-, hzero, rfl⟩ := hok
      exact ⟨h.recorded, h.unrecorded, fun n _ => h.free n (by rw [hzero]; exact Nat.zero_le n)⟩
  | setBlockInfo hash root depth =>
    cases hok : client.setBlockInfo isSystem hash root depth with
    | error fault =>
      simp only [LightClient.step, hok]
      exact h
    | ok client' =>
      simp only [LightClient.step, hok]
      obtain rfl : isSystem = true := by
        simp only [LightClient.setBlockInfo, require, bind_eq_ok, ensure_eq_ok] at hok
        exact hok.choose_spec.1
      exact h.setBlockInfo hS (htrue hash root depth rfl) hok

theorem tracks_run {calls : List (Bool × LightClientCall)}
    (htrue : TrueCalls lib S bitcoin calls) : Tracks lib S bitcoin (runLightClient calls) := by
  induction calls using List.reverseRecOn with
  | nil => exact tracks_empty
  | append_singleton calls call ih =>
    rw [runLightClient, foldl_append]
    refine (ih fun hash root depth hmem => ?_).step hS fun hash root depth heq => ?_
    · exact htrue hash root depth (mem_append_left _ hmem)
    · exact htrue hash root depth (mem_append_right _ (mem_singleton.mpr heq.symm))

/-! ### The checks -/

omit hS in
theorem checkedMul_eq_ok {a b c : Nat} (h : checkedMul a b = .ok c) : a * b = c := by
  rw [checkedMul] at h
  split_ifs at h
  · exact pure_eq_ok.mp h
  · simp at h

/-- `verifyInclusion` by hash. A hash without data accepts the id zero only. -/
theorem Tracks.verifyInclusionByHash
    (h : Tracks lib S bitcoin client) (hpath : ∀ s ∈ proofPreimages lib id proof index, s ∈ S)
    (hid : id ≠ .zero) (hok : client.verifyInclusionByHash lib hash id proof index = .ok true) :
    Recorded client hash ∧ ∃ block, bitcoin hash = some block ∧ id ∈ block.wtxids := by
  simp only [LightClient.verifyInclusionByHash, require, bind_eq_ok, ensure_eq_ok,
    exists_const, pure_eq_ok] at hok
  obtain ⟨length, hmul, hlength, hprove⟩ := hok
  have hdepth := hlength.trans (checkedMul_eq_ok hmul).symm
  by_cases hrec : Recorded client hash
  · obtain ⟨block, hblock, htrue⟩ := h.recorded hash hrec
    exact ⟨hrec, block, hblock, mem_of_prove hS htrue.witness hdepth hpath hprove⟩
  · -- the proof is empty and the root is zero
    obtain ⟨hroot, hzero⟩ := h.unrecorded hash hrec
    rw [hzero, Nat.zero_mul] at hdepth
    obtain rfl := length_eq_zero_iff.mp hdepth
    rw [hroot] at hprove
    exact absurd (climb_of_prove hprove) hid

/-- `verifyInclusionByTxId`. The header is that of the recorded block. -/
theorem Tracks.verifyInclusionByTxId
    (h : Tracks lib S bitcoin client) {number : Nat} {header : Bytes} (hheader : header ∈ S)
    (hpath : ∀ s ∈ proofPreimages lib id proof index, s ∈ S)
    (hok : client.verifyInclusionByTxId lib number id header proof index = .ok true) :
    Recorded client (client.blockHashes number) ∧
      ∃ block, bitcoin (client.blockHashes number) = some block ∧ id ∈ block.txids := by
  simp only [LightClient.verifyInclusionByTxId, require, bind_eq_ok, ensure_eq_ok,
    exists_const, pure_eq_ok] at hok
  obtain ⟨hhash, length, hmul, hlength, hprove⟩ := hok
  have hdepth := hlength.trans (checkedMul_eq_ok hmul).symm
  have hrec : Recorded client (client.blockHashes number) := by
    refine ⟨?_, number, rfl⟩
    rw [hhash]
    exact hS.ne_zero header hheader
  obtain ⟨block, hblock, htrue⟩ := h.recorded _ hrec
  obtain ⟨depth, htxs⟩ := htrue.txs
  obtain rfl : block.header = header := hS.injOn htrue.header hheader (htrue.hash.trans hhash)
  have hsame := htxs.tree.depth_eq htrue.witness.tree htrue.sameLength
  rw [← hhash, ← hsame] at hdepth
  exact ⟨hrec, block, hblock, mem_of_prove hS htxs hdepth hpath hprove⟩

omit hS

/-- The ids of all blocks are hashes of serializations that do not have 64 bytes. The wtxid of a
coinbase is zero. -/
def IdsOfSerializations (lib : SpvLibrary) (S : Set Bytes)
    (bitcoin : Bytes32 → Option BitcoinBlock) :
    Prop :=
  ∀ hash block, bitcoin hash = some block → ∀ id, id ∈ block.wtxids ∨ id ∈ block.txids →
    id = .zero ∨ ∃ s ∈ S, s.length ≠ 64 ∧ lib.hash256View s = id

/-- An inner node is no id of a block. -/
theorem IdsOfSerializations.not_node (hS : CollisionFree lib.sha256 S)
    (h : IdsOfSerializations lib S bitcoin) {left right : Bytes32} {block : BitcoinBlock}
    (hblock : bitcoin hash = some block) (hpair : nodePreimage left right ∈ S) :
    ¬ (combineNodes lib.sha256 left right ∈ block.wtxids ∨
      combineNodes lib.sha256 left right ∈ block.txids) := by
  intro hmem
  rcases h hash block hblock _ hmem with hzero | ⟨s, hs, hlength, heq⟩
  · exact hS.ne_zero _ hpair hzero
  · rw [hS.injOn hs hpair heq] at hlength
    exact hlength (length_nodePreimage left right)

/-- The checks of the light client contract. Take any calls in which `setBlockInfo` had the true
data, and a proof with any bytes and any index. A wtxid that is accepted, by number or by hash, is a
leaf of the witness tree of a recorded block. A txid that is accepted is a transaction of the
recorded block. If the ids of blocks are hashes of strings that do not have 64 bytes, then an inner
node is never accepted. -/
theorem inclusion_sound (hS : CollisionFree lib.sha256 S) {calls : List (Bool × LightClientCall)}
    (htrue : TrueCalls lib S bitcoin calls) (id : Bytes32) (proof : Bytes) (index : Nat)
    (hpath : ∀ s ∈ proofPreimages lib id proof index, s ∈ S) :
    let client := runLightClient calls
    (∀ number, id ≠ .zero → client.verifyInclusion lib number id proof index = .ok true →
      Recorded client (client.blockHashes number) ∧
        ∃ block, bitcoin (client.blockHashes number) = some block ∧ id ∈ block.wtxids) ∧
    (∀ hash, id ≠ .zero → client.verifyInclusionByHash lib hash id proof index = .ok true →
      Recorded client hash ∧ ∃ block, bitcoin hash = some block ∧ id ∈ block.wtxids) ∧
    (∀ number header, header ∈ S →
      client.verifyInclusionByTxId lib number id header proof index = .ok true →
      Recorded client (client.blockHashes number) ∧
        ∃ block, bitcoin (client.blockHashes number) = some block ∧ id ∈ block.txids) ∧
    (IdsOfSerializations lib S bitcoin → ∀ left right, nodePreimage left right ∈ S →
      id = combineNodes lib.sha256 left right →
      (∀ hash, client.verifyInclusionByHash lib hash id proof index ≠ .ok true) ∧
      ∀ number header, header ∈ S →
        client.verifyInclusionByTxId lib number id header proof index ≠ .ok true) := by
  have htracks := tracks_run hS htrue
  refine ⟨?_, ?_, ?_, ?_⟩
  · exact fun number hid hok => htracks.verifyInclusionByHash hS hpath hid hok
  · exact fun hash hid hok => htracks.verifyInclusionByHash hS hpath hid hok
  · exact fun number header hheader hok => htracks.verifyInclusionByTxId hS hheader hpath hok
  · rintro hids left right hpair rfl
    constructor
    · intro hash hok
      obtain ⟨-, block, hblock, hmem⟩ :=
        htracks.verifyInclusionByHash hS hpath (hS.ne_zero _ hpair) hok
      exact hids.not_node hS hblock hpair (.inl hmem)
    · intro number header hheader hok
      obtain ⟨-, block, hblock, hmem⟩ := htracks.verifyInclusionByTxId hS hheader hpath hok
      exact hids.not_node hS hblock hpair (.inr hmem)

/-! ### A block of two transactions -/

/-- A library with a hash that can be evaluated. -/
def hashingLib : SpvLibrary := { sampleLib with sha256 := rollingHash }

/-- The wtxids: zero for the coinbase, and one more. -/
def sampleWtxids : List Bytes32 := [.zero, .replicate 9]

/-- A block whose header has the root of its txids. -/
def sampleBlock : BitcoinBlock where
  header := List.replicate 36 1 ++
    (combineNodes rollingHash (.replicate 7) (.replicate 8)).data ++ List.replicate 12 2
  txids := [.replicate 7, .replicate 8]
  wtxids := sampleWtxids

/-- The strings that are hashed. -/
def sampleStrings : List Bytes :=
  [sampleBlock.header, nodePreimage (.replicate 7) (.replicate 8),
    nodePreimage .zero (.replicate 9)]

/-- The block is recorded with its true data. -/
def sampleCalls : List (Bool × LightClientCall) :=
  [(true, .initializeBlockNumber 100),
    (true, .setBlockInfo (hashingLib.hash256View sampleBlock.header)
      (combineNodes rollingHash .zero (.replicate 9)) 1)]

theorem sampleBlock_true : TrueBlock hashingLib {s | s ∈ sampleStrings} sampleBlock
    (hashingLib.hash256View sampleBlock.header)
    (combineNodes rollingHash .zero (.replicate 9)) 1 where
  header := by simp [sampleStrings]
  hash := rfl
  witness := by
    constructor
    · exact .level (by decide)
        (by simpa [levelUp, neighbours, sampleBlock, sampleWtxids] using .root _)
    · simp [treePairs, neighbours, sampleBlock, sampleWtxids, pairsIn, sampleStrings]
  txs := by
    have hroot : SpvLibrary.extractMerkleRootLE sampleBlock.header =
        combineNodes rollingHash (.replicate 7) (.replicate 8) := by decide +kernel
    refine ⟨1, ?_, ?_⟩
    · rw [hroot]
      exact .level (by decide) (by simpa [levelUp, neighbours, sampleBlock] using .root _)
    · simp [treePairs, neighbours, sampleBlock, pairsIn, sampleStrings]
  sameLength := rfl

/-- The theorem applied to this block: the wtxid at index 1 is accepted, and it is a leaf. -/
theorem sampleBlock_inclusion :
    (runLightClient sampleCalls).verifyInclusion hashingLib 100 (.replicate 9)
        Bytes32.zero.data 1 = .ok true ∧ (.replicate 9 : Bytes32) ∈ sampleBlock.wtxids := by
  have hS : CollisionFree hashingLib.sha256 {s | s ∈ sampleStrings} :=
    CollisionFree.of_list (by decide +kernel) (by decide +kernel)
  have htrue : TrueCalls hashingLib {s | s ∈ sampleStrings} (fun _ => some sampleBlock)
      sampleCalls := by
    intro hash root depth hmem
    simp only [sampleCalls, mem_cons, Prod.mk.injEq, reduceCtorEq, and_false, false_or,
      LightClientCall.setBlockInfo.injEq, true_and, not_mem_nil, or_false] at hmem
    obtain ⟨rfl, rfl, rfl⟩ := hmem
    exact ⟨sampleBlock, rfl, sampleBlock_true⟩
  have hok : (runLightClient sampleCalls).verifyInclusion hashingLib 100 (.replicate 9)
      Bytes32.zero.data 1 = .ok true := by decide +kernel
  have hpath : ∀ s ∈ proofPreimages hashingLib (.replicate 9) Bytes32.zero.data 1,
      s ∈ sampleStrings := by decide +kernel
  obtain ⟨hnumber, -⟩ := inclusion_sound hS htrue (.replicate 9) Bytes32.zero.data 1 hpath
  obtain ⟨-, block, hblock, hmem⟩ := hnumber 100 (by decide) hok
  rw [Option.some.inj hblock]
  exact ⟨hok, hmem⟩

end Citrea.Proofs.Contracts
