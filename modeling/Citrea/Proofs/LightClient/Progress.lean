import Citrea.Proofs.BatchProof.Sequencing
import Citrea.Proofs.LightClient.BlockRun

/-!
# `Citrea.Proofs.LightClient.Progress`: justified progress of the light client

`progress_justified` is about every run from the empty tree over a list of L1 blocks with any
blobs. The progress in the last output is the one of the stored transition for its index, and no
transition is stored for the next index. Each stored transition goes back to one blob of the
batch prover, and `JustifiedIn` names that blob and the checks it has passed. Later blocks only
add to the commitments and to the transitions.

The proof system enters with one assumption: it accepts no output without a commitment hash
(`VerifiedHaveHashes`). The batch proof circuit returns no such output. The check of the range
length needs it, since `last - first + 1` wraps to zero for the range of all indices.
-/

namespace Citrea.Proofs.LightClient

open Option List Lib Spec.BatchProof Spec.LightClient
open VerifiedTransitionAccessor renaming get → transitionAt
open SequencerCommitmentAccessor renaming get → commitmentAt

variable {H : Type} [DecidableEq H] (env : LightClientEnv H) (cfg : LightClientConfig H)

/-- The proof system accepts no output without a commitment hash. -/
def VerifiedHaveHashes : Prop :=
  ∀ proof methodId devMode output, env.zkVerify proof methodId devMode = true →
    extractOutput env proof = .ok output → output.sequencerCommitmentHashes ≠ []

/-- A point of a run over `blocks`: `blob` is next, `ws` is the working set, and `start` is the
progress at the start of its block. -/
def AtBlob (blocks : List (L1Block H)) (start : Progress H) (ws : WorkingSet H) (blob : Blob H) :
    Prop :=
  ∃ before block after pre post s ws₀, blocks = before ++ block :: after ∧
    block.blobs = pre ++ blob :: post ∧
    runL1Blocks env cfg LightClientState.initial before = .ok s ∧
    start = initialProgress cfg s.output ∧
    startBlock cfg s.storage block.hash s.output = .ok ws₀ ∧
    processBlobs env cfg start.lastL2Height start.lastSequencerCommitmentIndex pre ws₀ = .ok ws

/-- The transition `info` of index `i` was written by a blob of `blocks` that has passed all
checks, and the hash of the commitment `c` is the one its output gives for `i`. -/
def JustifiedIn (blocks : List (L1Block H)) (i : UInt32) (info : VerifiedStateTransition H)
    (c : SequencerCommitment H) : Prop :=
  ∃ start ws ws' blob, AtBlob env cfg blocks start ws blob ∧
    processBlob env cfg start.lastL2Height start.lastSequencerCommitmentIndex ws blob = .ok ws' ∧
    transitionAt i ws = none ∧
    transitionAt i ws' = some info ∧
    ∃ data proof methodIds methodId output,
      AcceptedProof env cfg start.lastL2Height start.lastSequencerCommitmentIndex ws blob data
        proof methodIds methodId output ∧
      ∃ idx, i.toNat = output.sequencerCommitmentIndexRange.1.toNat + idx ∧
        TransitionOf output.stateRoots ws (i, idx) info ∧
        commitmentAt i ws = some c ∧
        output.sequencerCommitmentHashes[idx]? =
          some (c.serializeAndCalculateSha256 env.sha256)

/-- The progress of an output is the genesis at index 0, and the progress of the stored
transition at any other index. -/
def AtProgress (ws : WorkingSet H) (p : Progress H) : Prop :=
  (p.lastSequencerCommitmentIndex = 0 → p.l2StateRoot = cfg.l2GenesisRoot ∧ p.lastL2Height = 0) ∧
    (p.lastSequencerCommitmentIndex ≠ 0 → ReachedBy ws p)

variable {env cfg} {blocks : List (L1Block H)} {ws ws' : WorkingSet H} {s s' : LightClientState H}
  {start : Progress H} {blob : Blob H}

theorem AtBlob.append (h : AtBlob env cfg blocks start ws blob) (more : List (L1Block H)) :
    AtBlob env cfg (blocks ++ more) start ws blob := by
  obtain ⟨before, block, after, pre, post, s, ws₀, hblocks, rest⟩ := h
  refine ⟨before, block, after ++ more, pre, post, s, ws₀, ?_, rest⟩
  rw [hblocks, append_assoc, cons_append]

theorem JustifiedIn.append {i : UInt32} {info : VerifiedStateTransition H}
    {c : SequencerCommitment H} (h : JustifiedIn env cfg blocks i info c)
    (more : List (L1Block H)) : JustifiedIn env cfg (blocks ++ more) i info c := by
  obtain ⟨start, ws, ws', blob, hat, rest⟩ := h
  exact ⟨start, ws, ws', blob, hat.append more, rest⟩

/-- Every transition of the working set is justified, and none is stored for index 0. -/
structure TransitionsJustified (env : LightClientEnv H) (cfg : LightClientConfig H)
    (blocks : List (L1Block H)) (ws : WorkingSet H) : Prop where
  zero : transitionAt 0 ws = none
  justified : ∀ i info, transitionAt i ws = some info →
    ∃ c, commitmentAt i ws = some c ∧ JustifiedIn env cfg blocks i info c

/-- A step that keeps the commitments and writes no transition keeps the justifications. -/
theorem TransitionsJustified.of_frame (h : TransitionsJustified env cfg blocks ws)
    (hext : WorkingSet.Extends ws ws')
    (hframe : ∀ i, ws' (.verifiedTransition i) = ws (.verifiedTransition i)) :
    TransitionsJustified env cfg blocks ws' := by
  refine ⟨(hframe 0).trans h.zero, fun i info hinfo => ?_⟩
  obtain ⟨c, hc, hj⟩ := h.justified i info ((hframe i).symm.trans hinfo)
  exact ⟨c, hext (.sequencerCommitment i) trivial c hc, hj⟩

/-- A blob keeps the justifications: it writes no transition, or it is the justification of each
transition that it writes. -/
theorem TransitionsJustified.processBlob (hverify : VerifiedHaveHashes env)
    (h : TransitionsJustified env cfg blocks ws) (hat : AtBlob env cfg blocks start ws blob)
    (hstep : Spec.LightClient.processBlob env cfg start.lastL2Height
      start.lastSequencerCommitmentIndex ws blob = .ok ws') :
    TransitionsJustified env cfg blocks ws' := by
  have hblob := processBlob_ok hstep
  have hext := hblob.extends
  cases hblob with
  | skip => exact h
  | chunk body parsed => exact h.of_frame hext fun i => WorkingSet.set_of_ne (by simp)
  | methodId m methodIds last parsed methodIds_eq last_eq later chainId council =>
    exact h.of_frame hext fun i => WorkingSet.set_of_ne (by simp)
  | commitment c parsed sender fresh =>
    exact h.of_frame hext fun i => WorkingSet.set_of_ne (by simp)
  | proof data proof methodIds methodId output ws' accepted stores =>
    refine ⟨?_, fun i info hinfo => ?_⟩
    · rcases stores.written 0 with heq | ⟨-, hlt, -⟩
      · exact heq.trans h.zero
      · simp at hlt
    rcases stores.written i with heq | ⟨hnone, hlt, idx, written, hmem, hof, hget⟩
    · obtain ⟨c, hc, hj⟩ := h.justified i info (heq.symm.trans hinfo)
      exact ⟨c, hext (.sequencerCommitment i) trivial c hc, hj⟩
    · obtain rfl := some_unique hget hinfo
      have hrelated := related_of_verify env accepted.relation
      obtain ⟨hash, hhash⟩ := exists_hash_of_mem_items hrelated.length_eq
        (hverify proof methodId _ output accepted.verified accepted.output_eq) hmem
      obtain ⟨c, hc, rfl⟩ := hrelated.stored i idx hash hmem hhash
      exact ⟨c, hext (.sequencerCommitment i) trivial c hc, start, ws, ws', blob, hat, hstep, hnone,
        hinfo, data, proof, methodIds, methodId, output, accepted, idx,
        (mem_zipIdx_indexRange.mp hmem).1, hof, hc, hhash⟩

/-- The state between two blocks. -/
structure Consistent (env : LightClientEnv H) (cfg : LightClientConfig H)
    (blocks : List (L1Block H)) (s : LightClientState H) : Prop where
  transitions : TransitionsJustified env cfg blocks s.storage
  atProgress : AtProgress cfg s.storage (initialProgress cfg s.output)
  last : ∀ output, s.output = some output →
    transitionAt (output.lastSequencerCommitmentIndex + 1) s.storage = none

omit [DecidableEq H] in
theorem consistent_initial [DecidableEq H] :
    Consistent env cfg [] (LightClientState.initial : LightClientState H) := by
  refine ⟨⟨rfl, fun i info h => ?_⟩, ⟨fun _ => ⟨rfl, rfl⟩, fun h => absurd rfl h⟩, fun o h => ?_⟩
  · exact absurd h (by simp [transitionAt, LightClientState.initial,
      WorkingSet.empty])
  · exact absurd h (by simp [LightClientState.initial])

omit [DecidableEq H] in
theorem ReachedBy.extends {p : Progress H} (h : ReachedBy ws p) (hext : WorkingSet.Extends ws ws') :
    ReachedBy ws' p := by
  obtain ⟨info, hinfo, rest⟩ := h
  exact ⟨info, hext (.verifiedTransition _) trivial info hinfo, rest⟩

/-- One block keeps the state consistent, and its index does not decrease. -/
theorem Consistent.stepL1Block (hverify : VerifiedHaveHashes env) {block : L1Block H}
    (hrun : runL1Blocks env cfg .initial blocks = .ok s) (h : Consistent env cfg blocks s)
    (hstep : Spec.LightClient.stepL1Block env cfg s block = .ok s') :
    Consistent env cfg (blocks ++ [block]) s' ∧
      (initialProgress cfg s.output).lastSequencerCommitmentIndex ≤
        (initialProgress cfg s'.output).lastSequencerCommitmentIndex := by
  obtain ⟨ws, run⟩ := stepL1Block_ok hstep
  have hstart : TransitionsJustified env cfg (blocks ++ [block]) ws := by
    have hs : TransitionsJustified env cfg (blocks ++ [block]) s.storage := by
      refine ⟨h.transitions.zero, fun i info hinfo => ?_⟩
      obtain ⟨c, hc, hj⟩ := h.transitions.justified i info hinfo
      exact ⟨c, hc, hj.append [block]⟩
    exact hs.of_frame (startBlock_extends run.start)
      fun i => startBlock_frame run.start _ (by simp) (by simp)
  -- the blobs one by one: the blobs before a blob lead to its working set
  have hblobs : TransitionsJustified env cfg (blocks ++ [block]) s'.storage := by
    refine foldlM_induction (P := fun _ => TransitionsJustified env cfg (blocks ++ [block]))
      hstart block.blobs ?_ s'.storage run.blobs
    intro pre blob post m t hsplit hpre hm hblob
    refine hm.processBlob hverify ?_ hblob
    exact ⟨blocks, block, [], pre, post, s, ws, rfl, hsplit, hrun, rfl, run.start, hpre⟩
  obtain ⟨p, hchain, houtput⟩ := run.chain
  obtain ⟨hle, hstop, hreached⟩ := chainTransitions_ok hblobs.zero (2 ^ 32) _ p (by omega) hchain
  have hprogress : initialProgress cfg s'.output = p := by rw [houtput]; rfl
  refine ⟨⟨hblobs, ?_, ?_⟩, hprogress ▸ hle⟩
  · rw [hprogress]
    rcases hreached with rfl | hreached
    · exact ⟨h.atProgress.1, fun hne => (h.atProgress.2 hne).extends run.extends⟩
    · refine ⟨fun hzero => ?_, fun _ => hreached⟩
      -- index 0 has no transition
      obtain ⟨info, hinfo, -⟩ := hreached
      rw [hzero, hblobs.zero] at hinfo
      simp at hinfo
  · intro output hout
    rw [houtput, some_inj] at hout
    rw [← hout]
    exact hstop

/-- Every run from the empty tree ends in a consistent state. -/
theorem consistent_of_run (hverify : VerifiedHaveHashes env)
    (h : runL1Blocks env cfg .initial blocks = .ok s) : Consistent env cfg blocks s :=
  foldlM_induction (P := Consistent env cfg) consistent_initial blocks
    (fun _ _ _ _ _ _ hrun hm hstep => (hm.stepL1Block hverify hrun hstep).1) s h

/-- A longer run: its state is consistent, and its index is not below the index before. -/
theorem consistent_of_longer_run (hverify : VerifiedHaveHashes env) {more : List (L1Block H)}
    (hs : runL1Blocks env cfg .initial blocks = .ok s)
    (hs' : runL1Blocks env cfg s more = .ok s') : Consistent env cfg (blocks ++ more) s' ∧
      (initialProgress cfg s.output).lastSequencerCommitmentIndex ≤
        (initialProgress cfg s'.output).lastSequencerCommitmentIndex := by
  refine foldlM_induction (P := fun more s' => Consistent env cfg (blocks ++ more) s' ∧
    (initialProgress cfg s.output).lastSequencerCommitmentIndex ≤
      (initialProgress cfg s'.output).lastSequencerCommitmentIndex) ?_ more ?_ s' hs'
  · rw [append_nil]
    exact ⟨consistent_of_run hverify hs, UInt32.le_refl _⟩
  · intro pre block post m t _ hpre hm hstep
    have hrun : runL1Blocks env cfg .initial (blocks ++ pre) = .ok m := by
      rw [runL1Blocks, foldlM_append, bind_eq_ok]
      exact ⟨s, hs, hpre⟩
    obtain ⟨hnext, hle⟩ := hm.1.stepL1Block hverify hrun hstep
    rw [append_assoc] at hnext
    exact ⟨hnext, UInt32.le_trans hm.2 hle⟩

theorem runL1Blocks_extends (h : runL1Blocks env cfg s blocks = .ok s') :
    WorkingSet.Extends s.storage s'.storage := by
  refine foldlM_rel (R := fun a b : LightClientState H => WorkingSet.Extends a.storage b.storage)
    (fun s => .refl s.storage) .trans ?_ h
  intro block m t hstep
  obtain ⟨ws, run⟩ := stepL1Block_ok hstep
  exact run.extends

/-- `ws'` has every commitment and every transition of `ws`. -/
def Keeps (ws ws' : WorkingSet H) : Prop :=
  (∀ i c, commitmentAt i ws = some c →
      commitmentAt i ws' = some c) ∧
    ∀ i info, transitionAt i ws = some info →
      transitionAt i ws' = some info

omit [DecidableEq H] in
theorem WorkingSet.Extends.keeps (h : WorkingSet.Extends ws ws') : Keeps ws ws' :=
  ⟨fun i c hc => h (.sequencerCommitment i) trivial c hc,
    fun i info hinfo => h (.verifiedTransition i) trivial info hinfo⟩

/-- Justified progress. Take a run over `blocks` from the empty tree, and then a run over `more`.
The output after `blocks` has the progress of the transition stored for its index, or the genesis
at index 0, and no transition is stored for the next index. Every stored transition is justified
by a blob of `blocks`. The index does not decrease over `more`, and neither a block nor a blob
changes a commitment or a transition. -/
theorem progress_justified (hverify : VerifiedHaveHashes env) (blocks more : List (L1Block H))
    (s s' : LightClientState H) (hs : runL1Blocks env cfg LightClientState.initial blocks = .ok s)
    (hs' : runL1Blocks env cfg s more = .ok s') : (∀ output, s.output = some output →
      AtProgress cfg s.storage ⟨output.l2StateRoot, output.lastL2Height,
        output.lastSequencerCommitmentIndex⟩ ∧
      transitionAt (output.lastSequencerCommitmentIndex + 1) s.storage = none) ∧
    (∀ output output', s.output = some output → s'.output = some output' →
      output.lastSequencerCommitmentIndex ≤ output'.lastSequencerCommitmentIndex) ∧
    (∀ i info, transitionAt i s.storage = some info →
      ∃ c, commitmentAt i s.storage = some c ∧
        JustifiedIn env cfg blocks i info c) ∧ Keeps s.storage s'.storage ∧
    ∀ start ws ws' blob, AtBlob env cfg blocks start ws blob →
      processBlob env cfg start.lastL2Height start.lastSequencerCommitmentIndex ws blob = .ok ws' →
      Keeps ws ws' := by
  have hcons := consistent_of_run hverify hs
  refine ⟨?_, ?_, hcons.transitions.justified, (runL1Blocks_extends hs').keeps, ?_⟩
  · intro output houtput
    have hat := hcons.atProgress
    rw [houtput] at hat
    exact ⟨hat, hcons.last output houtput⟩
  · intro output output' houtput houtput'
    have hle := (consistent_of_longer_run hverify hs hs').2
    rw [houtput, houtput'] at hle
    exact hle
  · intro start ws ws' blob _ hblob
    exact (processBlob_ok hblob).extends.keeps

/-! ### A sample light client -/

/-- A light client for given commitments and batch proof outputs. The blob `[0, n]` carries the
commitment `n`, and the blob `[1, n]` a proof with the output `n`, which the proof system
accepts. -/
def sampleLightClient (commitments : List (SequencerCommitment (List Nat)))
    (outputs : List (BatchProofCircuitOutput (List Nat))) : LightClientEnv (List Nat) where
  sha256 := Proofs.BatchProof.listHash
  extractRawOutput := some
  deserializeOutput := fun journal => journal.head?.bind fun n => outputs[n.toNat]?
  zkVerify := fun _ _ _ => true
  dataOnDaTryFromSlice := fun bytes =>
    match bytes with
    | [0, n] => commitments[n.toNat]?.map .sequencerCommitment
    | [1, n] => some (.complete [n])
    | _ => none
  decompressChunks := some
  serializeBody := fun _ => []
  eip191HashMessage := id
  verifyingKeyFromSec1 := some
  signatureFromBytes := some
  verifyPrehash := fun _ _ _ => true
  jmtRoot := fun _ => []

/-- The outputs of the sample light client are the given ones. -/
theorem mem_of_extractOutput {commitments : List (SequencerCommitment (List Nat))}
    {outputs : List (BatchProofCircuitOutput (List Nat))} {proof : Bytes}
    {output : BatchProofCircuitOutput (List Nat)}
    (h : extractOutput (sampleLightClient commitments outputs) proof = .ok output) :
    output ∈ outputs := by
  cases proof with
  | nil => exact absurd h (by simp [extractOutput, sampleLightClient])
  | cons n rest =>
    simp only [extractOutput, sampleLightClient, List.head?_cons, bind_some] at h
    split at h
    · simp at h
    · next out hout =>
      rw [pure_eq_ok] at h
      exact h ▸ mem_of_getElem? hout

/-- A network with the genesis root `[6]`. -/
def sampleConfig : LightClientConfig (List Nat) where
  network := .nightly
  l2GenesisRoot := [6]
  lcpJmtGenesisRoot := []
  initialBatchProofMethodIds := [(0, Vector.replicate 8 0)]
  batchProverDaPublicKey := [2]
  sequencerDaPublicKey := [3]
  methodIdUpgradeAuthorityDaPublicKeys := Vector.replicate 5 []

/-- The blob of the sequencer with the commitment `n`. -/
def commitmentBlob (n : UInt8) : Blob (List Nat) := ⟨[0, n], [3], []⟩

/-- The blob of the batch prover with the output `n`. -/
def proofBlob (n : UInt8) : Blob (List Nat) := ⟨[1, n], [2], []⟩

/-- The light client for the sample batch proof over two commitments. -/
def twoCommitmentsClient : LightClientEnv (List Nat) :=
  sampleLightClient (Proofs.BatchProof.twoCommitments 2).sequencerCommitments
    [(Proofs.BatchProof.twoCommitmentsOutput 2).toCircuitOutput [9]]

/-- The two commitments and the proof in one block. -/
def twoCommitmentsBlock : L1Block (List Nat) :=
  ⟨[9], [commitmentBlob 0, commitmentBlob 1, proofBlob 0]⟩

/-- The theorem applied to a block with two commitments and their proof: the index is 2, and the
transitions of both commitments are stored and justified. -/
theorem progress_two_commitments : ∃ s : LightClientState (List Nat),
      runL1Blocks twoCommitmentsClient sampleConfig LightClientState.initial
        [twoCommitmentsBlock] = .ok s ∧ s.output = some ⟨[8], [], 2, 2⟩ ∧
      transitionAt 1 s.storage = some ⟨[6], [7], 1⟩ ∧
      transitionAt 3 s.storage = none ∧
      ∃ c, commitmentAt 1 s.storage = some c ∧
        JustifiedIn twoCommitmentsClient sampleConfig [twoCommitmentsBlock] 1 ⟨[6], [7], 1⟩ c := by
  have hrun : (runL1Blocks twoCommitmentsClient sampleConfig LightClientState.initial
      [twoCommitmentsBlock]).map (fun s => (s.output, transitionAt 1 s.storage)) =
      .ok (some ⟨[8], [], 2, 2⟩, some ⟨[6], [7], 1⟩) := by decide +kernel
  obtain ⟨s, hs, hget⟩ := map_eq_ok.mp hrun
  obtain ⟨houtput, hone⟩ := Prod.mk.inj hget
  have hverify : VerifiedHaveHashes twoCommitmentsClient := by
    intro proof methodId devMode output _ hout
    rw [mem_singleton.mp (mem_of_extractOutput hout)]
    decide
  obtain ⟨hprogress, -, hjustified, -⟩ := progress_justified hverify [twoCommitmentsBlock] [] s s
    hs rfl
  exact ⟨s, hs, houtput, hone, (hprogress _ houtput).2, hjustified 1 _ hone⟩

/-! ### The stored commitments

The light client stores the first commitment of each index in L1 order
(`storedCommitment_eq_first`).
-/

variable {H : Type} [DecidableEq H] {env : LightClientEnv H} {cfg : LightClientConfig H}
  {height : UInt64} {last : UInt32} {ws ws' : WorkingSet H}

/-- The first commitment of an index. -/
def firstCommitment (commitments : List (SequencerCommitment H)) (index : UInt32) :
    Option (SequencerCommitment H) := commitments.find? fun c => c.index == index

omit [DecidableEq H] in
theorem firstCommitment_append (a b : List (SequencerCommitment H)) (index : UInt32) :
    firstCommitment (a ++ b) index = (firstCommitment a index).or (firstCommitment b index) :=
  List.find?_append

variable (env cfg) in
/-- The commitment of the sequencer that a blob carries. -/
def blobCommitments (blob : Blob H) : List (SequencerCommitment H) :=
  match env.dataOnDaTryFromSlice blob.fullData with
  | some (.sequencerCommitment c) => if blob.sender = cfg.sequencerDaPublicKey then [c] else []
  | _ => []

/-- A blob that carries no commitment leaves the commitments as they are. -/
theorem commitments_of_blobStep {blob : Blob H} (h : BlobStep env cfg height last blob ws ws')
    (hparsed : ∀ c, env.dataOnDaTryFromSlice blob.fullData ≠ some (.sequencerCommitment c))
    (index : UInt32) :
    commitmentAt index ws' = commitmentAt index ws := by
  cases h with
  | skip => rfl
  | chunk body parsed =>
    show ws.set (.chunk blob.wtxid) body (.sequencerCommitment index) =
      ws (.sequencerCommitment index)
    exact WorkingSet.set_of_ne (by simp)
  | proof data proof methodIds methodId output ws' accepted stores => exact stores.frame _ (by simp)
  | methodId m methodIds last parsed methodIds_eq last_eq later chainId council =>
    rw [commitmentAt, BatchProofMethodIdAccessor.insert]
    exact WorkingSet.set_of_ne (by simp)
  | commitment c parsed sender fresh => exact absurd parsed (hparsed c)

/-- A commitment is stored for its index, if the index has none. -/
theorem processBlob_commitments {blob : Blob H}
    (h : Spec.LightClient.processBlob env cfg height last ws blob = .ok ws') (index : UInt32) :
    commitmentAt index ws' = (commitmentAt index ws).or
      (firstCommitment (blobCommitments env cfg blob) index) := by
  by_cases hparsed : ∃ c, env.dataOnDaTryFromSlice blob.fullData = some (.sequencerCommitment c)
  · obtain ⟨c, hc⟩ := hparsed
    rw [Spec.LightClient.processBlob, hc] at h
    rw [blobCommitments, hc]
    obtain rfl : Spec.LightClient.processCommitment cfg blob c ws = ws' := Except.ok.inj h
    rw [Spec.LightClient.processCommitment]
    by_cases hsender : blob.sender = cfg.sequencerDaPublicKey
    · rw [if_neg (not_not.mpr hsender)]
      simp only [if_pos hsender]
      by_cases hindex : c.index = index
      · subst hindex
        rw [firstCommitment, List.find?_singleton, beq_self_eq_true, if_pos rfl]
        cases hstored : commitmentAt c.index ws with
        | some d => rw [isSome_some, if_pos rfl, hstored, some_or]
        | none =>
          rw [isSome_none, if_neg (by decide), none_or]
          exact WorkingSet.set_self ws (.sequencerCommitment c.index) c
      · have hfirst : firstCommitment [c] index = none := by
          rw [firstCommitment, List.find?_singleton, if_neg (by simpa using hindex)]
        rw [hfirst, or_none]
        split
        · rfl
        · show ws.set (.sequencerCommitment c.index) c (.sequencerCommitment index) = _
          exact WorkingSet.set_of_ne (by simpa using Ne.symm hindex)
    · rw [if_pos hsender]
      simp only [if_neg hsender]
      exact (or_none).symm
  · rw [not_exists] at hparsed
    have hnone : blobCommitments env cfg blob = [] := by
      rw [blobCommitments]
      split
      · next c hc => exact absurd hc (hparsed c)
      · rfl
    rw [hnone]
    exact (commitments_of_blobStep (processBlob_ok h) hparsed index).trans or_none.symm

/-- The blobs of a block. -/
theorem processBlobs_commitments {blobs : List (Blob H)}
    (h : Spec.LightClient.processBlobs env cfg height last blobs ws = .ok ws') (index : UInt32) :
    commitmentAt index ws' = (commitmentAt index ws).or
      (firstCommitment (blobs.flatMap (blobCommitments env cfg)) index) := by
  refine foldlM_induction (P := fun blobs m => commitmentAt index m =
    (commitmentAt index ws).or
      (firstCommitment (blobs.flatMap (blobCommitments env cfg)) index)) ?_ blobs ?_ ws' h
  · exact or_none.symm
  · intro pre blob post m t _ _ hm hstep
    rw [processBlob_commitments hstep, hm, flatMap_append, flatMap_singleton,
      firstCommitment_append, Option.or_assoc]

/-- The light client stores the first commitment of each index. -/
theorem storedCommitment_eq_first {blocks : List (L1Block H)}
    {s : LightClientState H} (h : runL1Blocks env cfg .initial blocks = .ok s)
    (index : UInt32) : commitmentAt index s.storage =
      firstCommitment
        (blocks.flatMap fun b => b.blobs.flatMap (blobCommitments env cfg)) index := by
  refine foldlM_induction (P := fun blocks (s : LightClientState H) =>
    commitmentAt index s.storage =
      firstCommitment (blocks.flatMap fun b => b.blobs.flatMap (blobCommitments env cfg)) index)
    rfl blocks ?_ s h
  intro pre block post m t _ _ hm hstep
  obtain ⟨ws, run⟩ := stepL1Block_ok hstep
  have hstart : commitmentAt index ws =
      commitmentAt index m.storage :=
    startBlock_frame run.start _ (by simp) (by simp)
  rw [processBlobs_commitments run.blobs, hstart, hm, flatMap_append, flatMap_singleton,
    firstCommitment_append]

end Citrea.Proofs.LightClient
