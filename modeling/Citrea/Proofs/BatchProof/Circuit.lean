import Citrea.Spec.BatchProof.Circuit
import Mathlib.Data.List.Chain

/-!
# `Citrea.Proofs.BatchProof.Circuit`: what a run of the batch circuit proves

`applyNextBlock_ok`, `applyBlocks_ok`, `applyCommitment_ok` and `applyCommitments_ok` take a
successful run apart, from the single block to the list of commitments. The result for a whole
run is `circuit_ok`: for each commitment of the input there is a non-empty list of blocks under
its merkle root (`ProvesCommitment`). The last of them carries the state root after the
commitment, and the end height is the end height before plus the number of blocks, in wrapping
arithmetic.
-/

namespace Citrea.Proofs.BatchProof

open List Lib Spec.BatchProof

variable {H Tx Wit Log Key : Type} {host rest : List (HostItem H Tx Wit)}

/-! ### Reads from the host -/

theorem readU64_eq_ok {n : UInt64} (h : readU64 host = .ok (n, rest)) : host = .u64 n :: rest := by
  unfold readU64 at h
  split at h
  · obtain ⟨rfl, rfl⟩ := Prod.mk.inj (pure_eq_ok.mp h)
    rfl
  · simp at h

theorem readU32_eq_ok {n : UInt32} (h : readU32 host = .ok (n, rest)) : host = .u32 n :: rest := by
  unfold readU32 at h
  split at h
  · obtain ⟨rfl, rfl⟩ := Prod.mk.inj (pure_eq_ok.mp h)
    rfl
  · simp at h

theorem readBlock_eq_ok {b : L2Block H Tx} {w w' : Wit}
    (h : readBlock host = .ok ((b, w, w'), rest)) : host = .block b w w' :: rest := by
  unfold readBlock at h
  split at h
  · have heq := pure_eq_ok.mp h
    simp only [Prod.mk.injEq] at heq
    obtain ⟨⟨rfl, rfl, rfl⟩, rfl⟩ := heq
    rfl
  · simp at h

variable [DecidableEq H] {env : StfEnv H Tx Wit Log Key} {key : Key}
  {loop loop' : BlockLoop H Tx Wit Log} {w w' : Wit} {block : L2Block H Tx}
  {result : L2BlockResult H Log} {input : CircuitInput H Tx Wit}

/-! ### One block -/

/-- A block that `apply_l2_block` accepts has the hash of its header. -/
theorem hash_eq_of_applyL2Block {spec : Citrea.Spec.SpecId} {root : H} {logs : Option (Log × Log)}
    (h : applyL2Block env spec key root logs w w' block = .ok result) :
    block.hash = block.header.inner.computeDigest env.sha256 := by
  simp only [applyL2Block, verifyL2Block, bind_eq_ok, ensure_eq_ok] at h
  obtain ⟨-, ⟨-, -, -, hhash, -⟩, -⟩ := h
  exact hhash

/-- One turn of the loop over the blocks: it reads a block, checks its height, its parent and its
state root, applies it to the current root and the logs so far, and appends its hash. -/
structure BlockStep (env : StfEnv H Tx Wit Log Key) (key : Key)
    (loop loop' : BlockLoop H Tx Wit Log) (block : L2Block H Tx) (w w' : Wit)
    (result : L2BlockResult H Log) : Prop where
  host : ∃ n, loop.state.host = .u64 n :: .block block w w' :: loop'.state.host
  height : block.height = loop.l2Height
  prevHash : ∀ prevHash ∈ loop.state.prevL2BlockHash, block.prevHash = prevHash
  applied : ∃ spec, applyL2Block env spec key loop.state.currentStateRoot
    loop.state.cumulativeLogs w w' block = .ok result
  initRoot : result.initRoot = loop.state.currentStateRoot
  finalRoot : result.finalRoot = block.stateRoot
  currentStateRoot : loop'.state.currentStateRoot = block.stateRoot
  prevL2BlockHash : loop'.state.prevL2BlockHash = some block.hash
  logs : loop'.state.cumulativeLogs =
    if (nextIfEq loop.l2Height loop.state.cachePruneL2Heights).1 then
      some (env.pruneHalf result.stateLog, env.pruneHalf result.offchainLog)
    else some (result.stateLog, result.offchainLog)
  stateDiff : loop'.state.stateDiff = loop.state.stateDiff ++ result.stateDiff
  l2Height : loop'.l2Height = loop.l2Height + 1
  l2BlockHashes : loop'.l2BlockHashes = loop.l2BlockHashes ++ [block.hash]

/-- The block of a step has the hash of its header. -/
theorem BlockStep.hash_eq (h : BlockStep env key loop loop' block w w' result) :
    block.hash = block.header.inner.computeDigest env.sha256 := by
  obtain ⟨spec, happly⟩ := h.applied
  exact hash_eq_of_applyL2Block happly

theorem applyNextBlock_ok (h : applyNextBlock env key loop = .ok loop') :
    ∃ block w w' result, BlockStep env key loop loop' block w w' result := by
  simp only [applyNextBlock, bind_eq_ok, assert_eq_ok, Outcome.expectOk_eq_ok, pure_eq_ok] at h
  obtain ⟨⟨n, host⟩, hread, ⟨⟨block, w, w'⟩, host'⟩, hblock, -, hheight, -, hprev, manager, -,
    fork, -, result, hresult, -, hinit, -, hroot, rfl⟩ := h
  have hhost : host = .block block w w' :: host' := readBlock_eq_ok hblock
  refine ⟨block, w, w', result,
    { host := ⟨n, by rw [readU64_eq_ok hread, hhost]⟩
      height := hheight
      prevHash := hprev
      applied := ⟨fork.specId, hresult⟩
      initRoot := hinit.symm
      finalRoot := hroot
      currentStateRoot := hroot
      prevL2BlockHash := rfl
      logs := ?_
      stateDiff := rfl
      l2Height := rfl
      l2BlockHashes := rfl }⟩
  exact apply_ite some _ _ _

/-! ### The blocks of a commitment -/

/-- What the loop over the blocks of a commitment leaves behind. -/
structure BlocksRun (env : StfEnv H Tx Wit Log Key) (n : Nat) (loop loop' : BlockLoop H Tx Wit Log)
    (blocks : List (L2Block H Tx)) : Prop where
  length : blocks.length = n
  host : loop'.state.host = loop.state.host.drop (2 * n)
  hashes : ∀ b ∈ blocks, b.hash = b.header.inner.computeDigest env.sha256
  stateRoot : loop'.state.currentStateRoot =
    (blocks.getLast?.map L2Block.stateRoot).getD loop.state.currentStateRoot
  l2Height : loop'.l2Height = loop.l2Height + UInt64.ofNat n
  l2BlockHashes : loop'.l2BlockHashes = loop.l2BlockHashes ++ blocks.map L2Block.hash

/-- The induction is on the number of blocks that are left. -/
theorem applyBlocks_ok {n : Nat} (h : applyBlocks env key n loop = .ok loop') :
    ∃ blocks, BlocksRun env n loop loop' blocks := by
  induction n generalizing loop with
  | zero =>
    rw [applyBlocks, pure_eq_ok] at h
    subst h
    exact ⟨[], rfl, rfl, by simp, rfl, by simp, by simp⟩
  | succ n ih =>
    rw [applyBlocks, bind_eq_ok] at h
    obtain ⟨mid, hfirst, hrest⟩ := h
    obtain ⟨block, w, w', result, hstep⟩ := applyNextBlock_ok hfirst
    obtain ⟨blocks, hrun⟩ := ih hrest
    obtain ⟨m, hhost⟩ := hstep.host
    refine ⟨block :: blocks, by rw [length_cons, hrun.length], ?_, ?_, ?_, ?_, ?_⟩
    · rw [hrun.host, hhost, show 2 * (n + 1) = 2 * n + 1 + 1 by omega, drop_succ_cons,
        drop_succ_cons]
    · exact forall_mem_cons.mpr ⟨hstep.hash_eq, hrun.hashes⟩
    · rw [hrun.stateRoot, hstep.currentStateRoot]
      cases blocks using List.reverseRecOn with
      | nil => rfl
      | append_singleton init last => simp [List.getLast?_cons]
    · rw [hrun.l2Height, hstep.l2Height, UInt64.ofNat_add, UInt64.add_assoc, UInt64.add_comm 1]
      rfl
    · rw [hrun.l2BlockHashes, hstep.l2BlockHashes, append_assoc, map_cons,
        singleton_append]

/-! ### The list of commitments -/

/-- The number of blocks that the host sends for each of the next `n` commitments. -/
def blockCounts : Nat → List (HostItem H Tx Wit) → List Nat
  | 0, _ => []
  | n + 1, .u32 count :: rest => count.toNat :: blockCounts n (rest.drop (2 * count.toNat))
  | _ + 1, _ => []

/-- A commitment is proved by a list of blocks on top of the end height `prevEnd`. `root` is the
state root after the commitment. -/
structure ProvesCommitment (env : StfEnv H Tx Wit Log Key) (prevEnd : UInt64)
    (c : SequencerCommitment H) (root : H) (blocks : List (L2Block H Tx)) : Prop where
  ne_nil : blocks ≠ []
  fits : blocks.length < 2 ^ 32
  hashes : ∀ b ∈ blocks, b.hash = b.header.inner.computeDigest env.sha256
  merkleRoot : env.merkleRoot (blocks.map L2Block.hash) = some c.merkleRoot
  stateRoot : ∀ b ∈ blocks.getLast?, root = b.stateRoot
  endHeight : c.l2EndBlockNumber = prevEnd + UInt64.ofNat blocks.length

/-- A list of commitments is proved by a list of blocks for each. -/
inductive ProvesAll (env : StfEnv H Tx Wit Log Key) :
    UInt64 → List (SequencerCommitment H) → List H → List (List (L2Block H Tx)) → Prop where
  | nil {prevEnd : UInt64} : ProvesAll env prevEnd [] [] []
  | cons {prevEnd : UInt64} {c : SequencerCommitment H} {cs : List (SequencerCommitment H)}
      {root : H} {roots : List H} {blocks : List (L2Block H Tx)}
      {rest : List (List (L2Block H Tx))} (h : ProvesCommitment env prevEnd c root blocks)
      (hs : ProvesAll env c.l2EndBlockNumber cs roots rest) :
      ProvesAll env prevEnd (c :: cs) (root :: roots) (blocks :: rest)

/-- `rs_merkle` gives no root to an empty list of leaves. -/
def EmptyHasNoRoot (env : StfEnv H Tx Wit Log Key) : Prop := env.merkleRoot [] = none

/-- One turn of the loop over the commitments. -/
theorem applyCommitment_ok (hempty : EmptyHasNoRoot env) {loop loop' : CommitmentLoop H Tx Wit Log}
    {c : SequencerCommitment H} (h : applyCommitment env key loop c = .ok loop') :
    ∃ root blocks, ProvesCommitment env loop.lastCommitmentEndHeight c root blocks ∧
      loop'.stateRoots = loop.stateRoots ++ [root] ∧
      loop'.lastCommitmentEndHeight = c.l2EndBlockNumber ∧
      ∃ count : UInt32, ∃ rest, loop.state.host = .u32 count :: rest ∧
        count.toNat = blocks.length ∧ loop'.state.host = rest.drop (2 * count.toNat) := by
  simp only [applyCommitment, bind_eq_ok, assert_eq_ok, pure_eq_ok] at h
  obtain ⟨-, hstart, ⟨count, rest⟩, hread, blockLoop, hblocks, -, hroot, -, hend, rfl⟩ := h
  obtain ⟨blocks, hrun⟩ := applyBlocks_ok hblocks
  have hhashes : blockLoop.l2BlockHashes = blocks.map L2Block.hash := hrun.l2BlockHashes
  have hne : blocks ≠ [] := by
    rintro rfl
    rw [hhashes, map_nil, hempty] at hroot
    cases hroot
  obtain ⟨last, hlast⟩ := List.getLast?_isSome.mpr hne |> Option.isSome_iff_exists.mp
  have hstate : blockLoop.state.currentStateRoot = last.stateRoot := by
    rw [hrun.stateRoot, hlast]
    rfl
  refine ⟨blockLoop.state.currentStateRoot, blocks,
    { ne_nil := hne
      fits := by rw [hrun.length]; exact count.toNat_lt
      hashes := hrun.hashes
      merkleRoot := by rw [← hhashes]; exact hroot
      stateRoot := ?_
      endHeight := ?_ }, rfl, rfl, count, rest, readU32_eq_ok hread, hrun.length.symm, hrun.host⟩
  · intro b hb
    obtain rfl := some_unique hlast hb
    exact hstate
  · -- the start height is one past the previous end height, and the end is one before the next
    rw [hend, hrun.l2Height, hrun.length]
    show loop.sequencerCommitmentL2StartHeight + UInt64.ofNat count.toNat - 1 = _
    rw [← hstart, UInt64.add_assoc, UInt64.add_comm 1, ← UInt64.add_assoc, UInt64.add_sub_cancel]

/-- The loop over the commitments, by induction on the list. -/
theorem applyCommitments_ok (hempty : EmptyHasNoRoot env)
    {cs : List (SequencerCommitment H)} {loop loop' : CommitmentLoop H Tx Wit Log}
    (h : applyCommitments env key loop cs = .ok loop') :
    ∃ roots blocks, ProvesAll env loop.lastCommitmentEndHeight cs roots blocks ∧
      loop'.stateRoots = loop.stateRoots ++ roots ∧ loop'.lastCommitmentEndHeight =
        (cs.getLast?.map SequencerCommitment.l2EndBlockNumber).getD loop.lastCommitmentEndHeight ∧
      blockCounts cs.length loop.state.host = blocks.map List.length := by
  induction cs generalizing loop with
  | nil =>
    rw [applyCommitments, pure_eq_ok] at h
    subst h
    exact ⟨[], [], .nil, by simp, rfl, rfl⟩
  | cons c cs ih =>
    rw [applyCommitments, bind_eq_ok] at h
    obtain ⟨mid, hfirst, hrest⟩ := h
    obtain ⟨root, blocks, hproves, hroots, hend, count, rest, hhost, hcount, hmid⟩ :=
      applyCommitment_ok hempty hfirst
    obtain ⟨roots, more, hall, hroots', hend', hcounts⟩ := ih hrest
    rw [hend] at hall hend'
    refine ⟨root :: roots, blocks :: more, .cons hproves hall, ?_, ?_, ?_⟩
    · rw [hroots', hroots, append_assoc, singleton_append]
    · rw [hend', List.getLast?_cons]
      cases cs.getLast? <;> rfl
    · rw [length_cons, hhost, blockCounts, ← hmid, hcounts, map_cons, hcount]

/-! ### A whole run -/

/-- The previous commitment of a run: its index is right before the first index, and its merkle
root has a proof for the last header, which carries the initial state root. -/
structure FollowsPrevious (env : StfEnv H Tx Wit Log Key) (input : CircuitInput H Tx Wit)
    (first previous : SequencerCommitment H) : Prop where
  index_ne_zero : previous.index ≠ 0
  index_eq : previous.index + 1 = first.index
  lastHeader : ∃ (header : L2Header H) (proof : List H) (index : Nat),
    header.stateRoot = input.initialStateRoot ∧
    env.merkleVerify proof previous.merkleRoot index (header.computeDigest env.sha256)
      (index + 1) = true

/-- What a successful run of the circuit establishes. -/
structure CircuitRun (env : StfEnv H Tx Wit Log Key) (input : CircuitInput H Tx Wit)
    (out : ApplySequencerCommitmentsOutput H Log) (first last : SequencerCommitment H)
    (prevEnd : UInt64) (roots : List H) (blocks : List (List (L2Block H Tx))) : Prop where
  head_eq : input.sequencerCommitments.head? = some first
  getLast_eq : input.sequencerCommitments.getLast? = some last
  proves : ProvesAll env prevEnd input.sequencerCommitments roots blocks
  counts : blockCounts input.sequencerCommitments.length input.host.tail =
    blocks.map List.length
  stateRoots : out.stateRoots = input.initialStateRoot :: roots
  lastL2Height : out.lastL2Height = last.l2EndBlockNumber
  hashes : out.sequencerCommitmentHashes =
    input.sequencerCommitments.map (·.serializeAndCalculateSha256 env.sha256)
  indexRange : out.sequencerCommitmentIndexRange = (first.index, last.index)
  previous : ∀ p, input.previousSequencerCommitment = some p →
    FollowsPrevious env input first p ∧ prevEnd = p.l2EndBlockNumber ∧
    out.previousCommitmentIndex = some p.index ∧
    out.previousCommitmentHash = some (p.serializeAndCalculateSha256 env.sha256)
  noPrevious : input.previousSequencerCommitment = none →
    first.index = 1 ∧ out.previousCommitmentIndex = none ∧ out.previousCommitmentHash = none

/-- The proof of the previous hash, for an input with a previous commitment. -/
theorem initialPrevHash_ok {previous : SequencerCommitment H} {hash : Option H}
    (hprev : input.previousSequencerCommitment = some previous)
    (h : initialPrevHash env input = .ok hash) :
    ∃ (header : L2Header H) (proof : List H) (index : Nat),
      header.stateRoot = input.initialStateRoot ∧
      env.merkleVerify proof previous.merkleRoot index (header.computeDigest env.sha256)
        (index + 1) = true := by
  simp only [initialPrevHash, hprev, bind_eq_ok, expect_eq_ok, assert_eq_ok, pure_eq_ok] at h
  obtain ⟨prevHashProof, -, proof, -, -, hroot, -, -, -, -, -, hverify, -⟩ := h
  exact ⟨prevHashProof.lastHeader, proof, _, hroot, hverify⟩

theorem circuit_ok (hempty : EmptyHasNoRoot env) {out : ApplySequencerCommitmentsOutput H Log}
    (h : applyL2BlocksFromSequencerCommitments env input = .ok out) :
    ∃ first last prevEnd roots blocks,
      CircuitRun env input out first last prevEnd roots blocks := by
  simp only [applyL2BlocksFromSequencerCommitments, bind_eq_ok, expect_eq_ok,
    assert_eq_ok, pure_eq_ok] at h
  obtain ⟨key, -, first, hfirst, last, hlast, prevHash, hprevHash, ⟨groupCount, host⟩, hread, -,
    -, activation, -, ⟨prevEnd, prevIndex, prevCommitmentHash⟩, hprev, loop, hloop, finalHash, -,
    logs, -, rfl⟩ := h
  obtain ⟨roots, blocks, hproves, hroots, hend, hcounts⟩ := applyCommitments_ok hempty hloop
  refine ⟨first, last, prevEnd, roots, blocks,
    { head_eq := hfirst
      getLast_eq := hlast
      proves := hproves
      counts := ?_
      stateRoots := hroots
      lastL2Height := ?_
      hashes := rfl
      indexRange := rfl
      previous := ?_
      noPrevious := ?_ }⟩
  · rw [readU32_eq_ok hread]
    exact hcounts
  · show loop.lastCommitmentEndHeight = last.l2EndBlockNumber
    rw [hend, hlast]
    rfl
  · intro p hp
    simp only [previousCommitment, hp, bind_eq_ok, assert_eq_ok, pure_eq_ok, Prod.mk.injEq] at hprev
    obtain ⟨-, hne, -, hindex, rfl, rfl, rfl⟩ := hprev
    exact ⟨⟨hne, hindex, initialPrevHash_ok hp hprevHash⟩, rfl, rfl, rfl⟩
  · intro hnone
    simp only [previousCommitment, hnone, bind_eq_ok, assert_eq_ok,
      pure_eq_ok, Prod.mk.injEq] at hprev
    obtain ⟨-, hindex, -, rfl, rfl⟩ := hprev
    exact ⟨hindex, rfl, rfl⟩

/-! ### A concrete environment -/

/-- An injective hash: the fields of the data one after the other, with the lengths of the hashes
among them in front. -/
def listHash : HashInput (List Nat) → List Nat
  | .header h =>
    [0, h.height.toNat, h.l1FeeRate.toNat, h.timestamp.toNat, h.prevHash.length,
      h.stateRoot.length] ++ (h.prevHash ++ (h.stateRoot ++ h.txMerkleRoot))
  | .commitment c => [1, c.index.toNat, c.l2EndBlockNumber.toNat] ++ c.merkleRoot
  | .node left right => [2, left.length] ++ (left ++ right)

theorem listHash_injective : Function.Injective listHash := by
  intro x y h
  cases x with
  | header a =>
    cases y with
    | header b =>
      simp only [listHash, cons_append, nil_append, List.cons.injEq] at h
      obtain ⟨-, hheight, hfee, htime, hprev, hroot, hrest⟩ := h
      obtain ⟨h1, hrest⟩ := append_inj hrest hprev
      obtain ⟨h2, h3⟩ := append_inj hrest hroot
      exact congrArg _ (L2Header.ext (UInt64.toNat_inj.mp hheight) h1 h2
        (BitVec.toNat_inj.mp hfee) h3 (UInt64.toNat_inj.mp htime))
    | commitment c => simp [listHash] at h
    | node l r => simp [listHash] at h
  | commitment a =>
    cases y with
    | header b => simp [listHash] at h
    | commitment b =>
      simp only [listHash, cons_append, nil_append, List.cons.injEq] at h
      exact congrArg _ (SequencerCommitment.ext h.2.2.2 (UInt32.toNat_inj.mp h.2.1)
        (UInt64.toNat_inj.mp h.2.2.1))
    | node l r => simp [listHash] at h
  | node l r =>
    cases y with
    | header b => simp [listHash] at h
    | commitment c => simp [listHash] at h
    | node l' r' =>
      simp only [listHash, cons_append, nil_append, List.cons.injEq] at h
      obtain ⟨-, hlen, hrest⟩ := h
      obtain ⟨rfl, rfl⟩ := append_inj hrest hlen
      rfl

/-- An environment that accepts every signature. The execution of a block takes its state root
from the block. -/
def sampleEnv : StfEnv (List Nat) Unit Unit Unit Unit where
  sha256 := listHash
  merkleRoot := carryRoot fun l r => listHash (.node l r)
  merkleProofFromBytes := fun _ => some []
  merkleVerify := fun proof root index leaf count =>
    carryProofRoot (fun l r => listHash (.node l r)) proof index count leaf == some root
  publicKeyFromSlice := fun _ => some ()
  verifyTxMerkleRoot := fun _ _ _ => true
  verifySignature := fun _ _ => true
  executeL2Block := fun _ _ root _ _ _ block => .ok ⟨root, block.stateRoot, (), (), []⟩
  pruneHalf := id

/-- The header of a block without transactions. -/
def sampleHeader (height : UInt64) (prevHash stateRoot : List Nat) : L2Header (List Nat) :=
  ⟨height, prevHash, stateRoot, 0, [], 0⟩

/-- A block without transactions. -/
def sampleBlock (header : L2Header (List Nat)) : L2Block (List Nat) Unit :=
  ⟨⟨header, header.computeDigest listHash, []⟩, []⟩

/-- What the host sends for a commitment to one block. -/
def oneBlock (header : L2Header (List Nat)) : List (HostItem (List Nat) Unit Unit) :=
  [.u32 1, .u64 0, .block (sampleBlock header) () ()]

end Citrea.Proofs.BatchProof
