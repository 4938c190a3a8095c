import Citrea.Proofs.LightClient.Progress
import Mathlib.Data.UInt
import Mathlib.Logic.Relation

/-!
# `Citrea.Proofs.LightClient.Linking`: batch proofs across the two circuits

The light client stores transitions from different proofs, the first one for each index. It
compares state roots only in the chaining loop, where a mismatch is a panic.

`genesis_binding_iff` is about the first transition. The batch circuit takes the initial state
root of a proof without a previous commitment from the prover, and the light client does not
check it when it stores the transition. So the stored root is the genesis root, and the loop gets
past index 0, if and only if the prover has used the genesis root. `genesis_binding_other_root`
is a run that panics.

`linking_of_run` is about neighbours from index 1 on. `LinkedTransitions` is the invariant: the
stored commitment of an index fixes the state root after it, and each transition starts at the
root that the stored commitment of the index before fixes. It holds in every run in which the
proof system accepts only outputs of the batch circuit. The end heights increase if, in addition,
the heights of the accepted proofs do not wrap. `linking_wraps` is a run where they do.
-/

namespace Citrea.Proofs.LightClient

open Function (Injective)
open Option List Lib Spec.BatchProof Spec.LightClient Proofs.BatchProof
open VerifiedTransitionAccessor renaming get → transitionAt

variable {H Tx Wit Log Key : Type} [DecidableEq H] {ws : WorkingSet H} {fits : Prop}
  {sha256 : HashInput H → H} {output : BatchProofCircuitOutput H} {env : LightClientEnv H}
  {ws' : WorkingSet H} {k : UInt32}

/-! ### The first transition -/

/-- A turn of the chaining loop returns when the next transition starts at the current root. -/
theorem chainTransition_returns {p : Progress H}
    (h : ∀ info, transitionAt (p.lastSequencerCommitmentIndex + 1) ws = some
      info → info.initialStateRoot = p.l2StateRoot) : ∃ next, chainTransition ws p = .ok next := by
  rw [chainTransition]
  split
  · exact ⟨none, rfl⟩
  · next info hinfo =>
    rw [if_pos (h info hinfo)]
    exact ⟨_, rfl⟩

/-- Take an output of the batch circuit without a previous commitment, and a light client that
accepts it and stores its transition for index 1. The stored initial root is the genesis root,
and the chaining loop gets past index 0, if and only if the prover's initial state root is the
genesis root. -/
theorem genesis_binding_iff (stf : StfEnv H Tx Wit Log Key) (hempty : EmptyHasNoRoot stf)
    (input : CircuitInput H Tx Wit) (out : ApplySequencerCommitmentsOutput H Log)
    (hcircuit : applyL2BlocksFromSequencerCommitments stf input = .ok out)
    (hnone : out.previousCommitmentIndex = none) (env : LightClientEnv H)
    (cfg : LightClientConfig H) (proof : Bytes) (lastL1Hash : H)
    (hproof : extractOutput env proof = .ok (out.toCircuitOutput lastL1Hash))
    (lastL2Height : UInt64) (lastIndex : UInt32) (ws ws' : WorkingSet H)
    (haccept : processCompleteProof env cfg proof lastL2Height lastIndex ws = .ok ws')
    (hfresh : transitionAt 1 ws = none) (info : VerifiedStateTransition H)
    (hinfo : transitionAt 1 ws' = some info) :
    (info.initialStateRoot = cfg.l2GenesisRoot ∧
      ∃ next, chainTransition ws' ⟨cfg.l2GenesisRoot, 0, 0⟩ = .ok next) ↔
    input.initialStateRoot = cfg.l2GenesisRoot := by
  obtain ⟨first, last, prevEnd, roots, blocks, hrun⟩ := circuit_ok hempty hcircuit
  have hfirst : first.index = 1 := by
    cases hprev : input.previousSequencerCommitment with
    | none => exact (hrun.noPrevious hprev).1
    | some p =>
      obtain ⟨-, -, hindex, -⟩ := hrun.previous p hprev
      simp [hnone] at hindex
  have hstored : info.initialStateRoot = input.initialStateRoot := by
    obtain ⟨output, -, -, houtput, -, -, -, -, -, -, -, hstores⟩ := processCompleteProof_ok haccept
    obtain rfl : out.toCircuitOutput lastL1Hash = output :=
      ok_unique hproof houtput
    rcases hstores.written 1 with heq | ⟨-, -, idx, written, hmem, hof, hget⟩
    · rw [heq, hfresh] at hinfo
      simp at hinfo
    obtain rfl := some_unique hget hinfo
    -- the range starts at index 1, so index 1 has position 0
    have hidx : idx = 0 := by
      have hposition := (mem_zipIdx_indexRange.mp hmem).1
      have hrange : (out.toCircuitOutput lastL1Hash).sequencerCommitmentIndexRange.1 = 1 := by
        show out.sequencerCommitmentIndexRange.1 = 1
        rw [hrun.indexRange]
        exact hfirst
      rw [hrange] at hposition
      omega
    have hinitial : out.stateRoots[idx]? = some written.initialStateRoot := hof.initial
    rw [hidx, hrun.stateRoots] at hinitial
    exact (some_inj.mp hinitial).symm
  rw [hstored]
  constructor
  · intro h
    exact h.1
  · intro hgenesis
    refine ⟨hgenesis, chainTransition_returns fun next hnext => ?_⟩
    obtain rfl := some_unique hinfo hnext
    rw [hstored, hgenesis]

/-- The working set of the sample light client with the two commitments. -/
def twoCommitmentsStored : WorkingSet (List Nat) :=
  (twoCommitments 2).sequencerCommitments.foldl
    (fun ws c => SequencerCommitmentAccessor.insert c.index c ws)
    (BatchProofMethodIdAccessor.insert 0 (Vector.replicate 8 0)
      (BlockHashAccessor.insert [9] WorkingSet.empty))

/-- The sample network with another genesis root than the one of the sample batch proof. -/
def otherGenesisConfig : LightClientConfig (List Nat) := { sampleConfig with l2GenesisRoot := [5] }

/-- The theorem applied to the sample batch proof, whose initial state root is the genesis root of
the sample network. -/
theorem genesis_binding_two_commitments :
    ∃ ws', processCompleteProof twoCommitmentsClient sampleConfig [0] 0 0 twoCommitmentsStored =
        .ok ws' ∧ transitionAt 1 ws' = some ⟨[6], [7], 1⟩ ∧
      ∃ next, chainTransition ws' ⟨sampleConfig.l2GenesisRoot, 0, 0⟩ = .ok next := by
  have hrun : (processCompleteProof twoCommitmentsClient sampleConfig [0] 0 0
      twoCommitmentsStored).map (transitionAt 1) = .ok (some ⟨[6], [7], 1⟩) := by
    decide +kernel
  obtain ⟨ws', hws', hget⟩ := map_eq_ok.mp hrun
  refine ⟨ws', hws', hget, ?_⟩
  exact ((genesis_binding_iff sampleEnv rfl (twoCommitments 2) (twoCommitmentsOutput 2)
    (by decide +kernel) rfl twoCommitmentsClient sampleConfig [0] [9] rfl 0 0 twoCommitmentsStored
    ws' hws' (by decide) _ hget).mpr rfl).2

/-- The batch circuit returns for the initial state root `[6]`. A light client with the genesis
root `[5]` accepts the output and stores a transition from `[6]`, and the run over the block
panics in the chaining loop. -/
theorem genesis_binding_other_root :
    applyL2BlocksFromSequencerCommitments sampleEnv (twoCommitments 2) =
      .ok (twoCommitmentsOutput 2) ∧ (twoCommitmentsOutput 2).previousCommitmentIndex = none ∧
    extractOutput twoCommitmentsClient [0] = .ok ((twoCommitmentsOutput 2).toCircuitOutput [9]) ∧
    (∃ ws' info, processCompleteProof twoCommitmentsClient otherGenesisConfig [0] 0 0
        twoCommitmentsStored = .ok ws' ∧ transitionAt 1 ws' = some info ∧
      info.initialStateRoot ≠ otherGenesisConfig.l2GenesisRoot) ∧
    runL1Blocks twoCommitmentsClient otherGenesisConfig LightClientState.initial
      [twoCommitmentsBlock] =
      Outcome.panic "Commitment with the next index having an unexpected state root" := by
  refine ⟨by decide +kernel, rfl, rfl, ?_, ?_⟩
  · have hrun : (processCompleteProof twoCommitmentsClient otherGenesisConfig [0] 0 0
        twoCommitmentsStored).map (transitionAt 1) =
        .ok (some ⟨[6], [7], 1⟩) := by decide +kernel
    obtain ⟨ws', hws', hget⟩ := map_eq_ok.mp hrun
    exact ⟨ws', _, hws', hget, by decide⟩
  · have hrun : (runL1Blocks twoCommitmentsClient otherGenesisConfig LightClientState.initial
        [twoCommitmentsBlock]).map (·.output) =
        .error (.panic "Commitment with the next index having an unexpected state root") := by
      decide +kernel
    exact Outcome.map_eq_error.mp hrun

/-! ### Neighbours -/

/-- `output` is an output of the batch circuit on an input with the property `P`. The circuit may
be any version with the same hash, over the same merkle trees. -/
def IsCircuitOutput (Tx Wit Log Key : Type) (sha256 : HashInput H → H)
    (P : CircuitInput H Tx Wit → Prop) (output : BatchProofCircuitOutput H) : Prop :=
  ∃ (stf : StfEnv H Tx Wit Log Key) (input : CircuitInput H Tx Wit)
    (out : ApplySequencerCommitmentsOutput H Log) (lastL1Hash : H),
    stf.sha256 = sha256 ∧ RsMerkle stf ∧
    applyL2BlocksFromSequencerCommitments stf input = .ok out ∧
    output = out.toCircuitOutput lastL1Hash ∧ P input

/-- The proof system accepts only outputs of the batch circuit. -/
def AcceptsOnlyCircuitOutputs (Tx Wit Log Key : Type) (env : LightClientEnv H) : Prop :=
  ∀ proof methodId devMode output, env.zkVerify proof methodId devMode = true →
    extractOutput env proof = .ok output →
    IsCircuitOutput Tx Wit Log Key env.sha256 (fun _ => True) output

/-- An output of the batch circuit has a commitment hash, and a position for each of them. -/
theorem IsCircuitOutput.position {P : CircuitInput H Tx Wit → Prop}
    (hfits : ∀ input, P input → fits → HeightsFit input)
    (h : IsCircuitOutput Tx Wit Log Key sha256 P output) : output.sequencerCommitmentHashes ≠ [] ∧
      ∀ idx hash, output.sequencerCommitmentHashes[idx]? = some hash →
        ∃ c before after, hash = c.serializeAndCalculateSha256 sha256 ∧
          PositionIn sha256 fits output idx c before after := by
  obtain ⟨stf, input, out, lastL1Hash, rfl, hmerkle, hcircuit, rfl, hP⟩ := h
  obtain ⟨first, last, prevEnd, roots, blocks, hrun⟩ :=
    circuit_ok hmerkle.emptyHasNoRoot hcircuit
  have hhashes : (out.toCircuitOutput lastL1Hash).sequencerCommitmentHashes =
      input.sequencerCommitments.map (·.serializeAndCalculateSha256 stf.sha256) := hrun.hashes
  rw [hhashes]
  constructor
  · intro hnil
    have hhead := hrun.head_eq
    rw [map_eq_nil_iff.mp hnil] at hhead
    simp at hhead
  · intro idx hash hhash
    rw [List.getElem?_map, map_eq_some_iff] at hhash
    obtain ⟨c, hc, rfl⟩ := hhash
    obtain ⟨before, after, hposition⟩ := hrun.position hmerkle lastL1Hash hc
    refine ⟨c, before, after, rfl, { hposition with predecessor := ?_ }⟩
    refine hposition.predecessor.imp_right fun ⟨p, hp, hends, hheight⟩ => ?_
    exact ⟨p, hp, hends, fun hfit => hheight (hfits input hP hfit)⟩

theorem AcceptsOnlyCircuitOutputs.haveHashes (h : AcceptsOnlyCircuitOutputs Tx Wit Log Key env) :
    VerifiedHaveHashes env := by
  intro proof methodId devMode output hverify hout
  have hfits : ∀ input : CircuitInput H Tx Wit, True → False → HeightsFit input :=
    fun _ _ hfalse => hfalse.elim
  exact ((h proof methodId devMode output hverify hout).position hfits).1

/-- Each stored transition ends in the root of its stored commitment, and starts at the root of
the stored commitment of the index before. `fits` is a condition for the end heights. -/
def LinkedTransitions (sha256 : HashInput H → H) (fits : Prop) (ws : WorkingSet H) : Prop :=
  ∀ k info, transitionAt k ws = some info →
    ∃ c, SequencerCommitmentAccessor.get k ws = some c ∧
      EndsIn sha256 c info.finalStateRoot ∧ info.lastL2Height = c.l2EndBlockNumber ∧
      (k = 1 ∨ ∃ j p, j + 1 = k ∧ SequencerCommitmentAccessor.get j ws = some p ∧
        EndsIn sha256 p info.initialStateRoot ∧ (fits → p.l2EndBlockNumber < c.l2EndBlockNumber))

omit [DecidableEq H] in
/-- A step that keeps the commitments and writes no transition keeps the links. -/
theorem LinkedTransitions.of_frame (h : LinkedTransitions sha256 fits ws)
    (hext : WorkingSet.Extends ws ws')
    (hframe : ∀ i, ws' (.verifiedTransition i) = ws (.verifiedTransition i)) :
    LinkedTransitions sha256 fits ws' := by
  intro k info hinfo
  obtain ⟨c, hc, hends, hheight, hbefore⟩ := h k info ((hframe k).symm.trans hinfo)
  refine ⟨c, hext (.sequencerCommitment k) trivial c hc, hends, hheight, hbefore.imp_right ?_⟩
  rintro ⟨j, p, hj, hp, rest⟩
  exact ⟨j, p, hj, hext (.sequencerCommitment j) trivial p hp, rest⟩

omit [DecidableEq H] in
/-- The commitment that stands before position `idx` of a related output is stored under the
index before. -/
theorem Related.predecessor (hinj : Injective env.sha256) (h : Related env output ws)
    {idx : Nat} (hmem : (k, idx) ∈ outputItems output) {p : SequencerCommitment H}
    (hp : PredecessorAt env.sha256 output idx p) :
    ∃ j, j + 1 = k ∧ SequencerCommitmentAccessor.get j ws = some p := by
  obtain ⟨hk, hle⟩ := mem_zipIdx_indexRange.mp hmem
  have hklt := k.toNat_lt
  have hone : (1 : UInt32).toNat = 1 := rfl
  rcases hp with ⟨j, rfl, hhash⟩ | ⟨rfl, hindex, hhash, hfirst⟩
  · -- inside the list: the index before is in the range, with the hash of `p`
    have hone_le : (1 : UInt32) ≤ k := by
      rw [UInt32.le_iff_toNat_le, hone]
      omega
    have hpred : (k - 1).toNat = k.toNat - 1 := UInt32.toNat_sub_of_le _ _ hone_le
    have hmem' : (k - 1, j) ∈ outputItems output :=
      mem_zipIdx_indexRange.mpr ⟨by omega, by omega⟩
    obtain ⟨c, hc, hsame⟩ := h.stored (k - 1) j _ hmem' hhash
    obtain rfl : c = p := HashInput.commitment.inj (hinj hsame)
    exact ⟨k - 1, UInt32.sub_add_cancel k 1, hc⟩
  · -- at the start: the previous commitment is the stored one
    have hkfirst : output.sequencerCommitmentIndexRange.1 = k := by
      rw [← UInt32.toNat_inj]
      omega
    rcases h.previous with ⟨index, hash, c, hindex', hhash', hc, hsame⟩ | ⟨hnone, -⟩
    · obtain rfl := some_unique hindex hindex'
      rw [hhash', some_inj] at hhash
      rw [hhash] at hsame
      obtain rfl : c = p := HashInput.commitment.inj (hinj hsame)
      exact ⟨c.index, hfirst.trans hkfirst, hc⟩
    · rcases hnone with hnone | hnone
      · simp [hnone] at hindex
      · simp [hnone] at hhash

/-- A stored proof keeps the links. -/
theorem LinkedTransitions.stores (hinj : Injective env.sha256) {lastIndex : UInt32}
    (h : LinkedTransitions env.sha256 fits ws)
    (houtput : IsCircuitOutput Tx Wit Log Key env.sha256 (fun input => fits → HeightsFit input)
      output) (hrelated : Related env output ws)
    (hstores : StoresFrom output.stateRoots lastIndex (outputItems output) ws ws') :
    LinkedTransitions env.sha256 fits ws' := by
  have hext := hstores.extends
  obtain ⟨hne, hposition⟩ := houtput.position fun _ hP => hP
  intro k info hinfo
  rcases hstores.written k with heq | ⟨hnone, -, idx, written, hmem, hof, hget⟩
  · obtain ⟨c, hc, hends, hheight, hbefore⟩ := h k info (heq.symm.trans hinfo)
    refine ⟨c, hext (.sequencerCommitment k) trivial c hc, hends, hheight, hbefore.imp_right ?_⟩
    rintro ⟨j, p, hj, hp, rest⟩
    exact ⟨j, p, hj, hext (.sequencerCommitment j) trivial p hp, rest⟩
  obtain rfl := some_unique hget hinfo
  obtain ⟨hash, hhash⟩ := exists_hash_of_mem_items hrelated.length_eq hne hmem
  obtain ⟨c, before, after, rfl, hpos⟩ := hposition idx hash hhash
  obtain ⟨stored, hstored, hsame⟩ := hrelated.stored k idx _ hmem hhash
  obtain rfl : stored = c := HashInput.commitment.inj (hinj hsame)
  obtain rfl : before = written.initialStateRoot :=
    some_unique hpos.before_eq hof.initial
  obtain rfl : after = written.finalStateRoot :=
    some_unique hpos.after_eq hof.final
  have hheight : written.lastL2Height = stored.l2EndBlockNumber := by
    obtain ⟨d, hd, hheight⟩ := hof.commitment
    rw [hheight, some_unique hd hstored]
  refine ⟨stored, hext (.sequencerCommitment k) trivial stored hstored, hpos.endsIn, hheight, ?_⟩
  rcases hpos.predecessor with ⟨rfl, hfirst⟩ | ⟨p, hp, hends, hlt⟩
  · left
    have hk := (mem_zipIdx_indexRange.mp hmem).1
    rw [hfirst, Nat.add_zero] at hk
    exact UInt32.toNat_inj.mp hk
  · right
    obtain ⟨j, hj, hget⟩ := hrelated.predecessor hinj hmem hp
    exact ⟨j, p, hj, hext (.sequencerCommitment j) trivial p hget, hends, hlt⟩

omit [DecidableEq H] in
/-- Neighbouring transitions of a linked working set fit together. -/
theorem LinkedTransitions.neighbours (hinj : Injective sha256)
    (h : LinkedTransitions sha256 fits ws) (hk : k ≠ 0) {a b : VerifiedStateTransition H}
    (ha : transitionAt k ws = some a)
    (hb : transitionAt (k + 1) ws = some b) :
    a.finalStateRoot = b.initialStateRoot ∧ (fits → a.lastL2Height < b.lastL2Height) := by
  obtain ⟨c, hc, hends, hheight, -⟩ := h k a ha
  obtain ⟨d, hd, -, hheight', hbefore⟩ := h (k + 1) b hb
  rcases hbefore with hone | ⟨j, p, hj, hp, hends', hlt⟩
  · have hone' : k + 1 = 0 + 1 := hone
    exact absurd ((UInt32.add_left_inj 1).mp hone') hk
  · obtain rfl : j = k := (UInt32.add_left_inj 1).mp hj
    obtain rfl := some_unique hc hp
    refine ⟨hends.unique hinj hends', fun hfit => ?_⟩
    rw [hheight, hheight']
    exact hlt hfit

/-! ### Runs -/

/-- Every proof that a run over `blocks` accepts is an output of the batch circuit on an input
whose heights fit. -/
def AcceptedHeightsFit (Tx Wit Log Key : Type) (env : LightClientEnv H) (cfg : LightClientConfig H)
    (blocks : List (L1Block H)) : Prop :=
  ∀ start ws blob data proof methodIds methodId output, AtBlob env cfg blocks start ws blob →
    AcceptedProof env cfg start.lastL2Height start.lastSequencerCommitmentIndex ws blob data proof
      methodIds methodId output →
    IsCircuitOutput Tx Wit Log Key env.sha256 HeightsFit output

variable {env : LightClientEnv H} {cfg : LightClientConfig H} {blocks after : List (L1Block H)}
  {s : LightClientState H}

/-- A blob of a run keeps the links. -/
theorem LinkedTransitions.processBlob (hinj : Injective env.sha256)
    (hsound : AcceptsOnlyCircuitOutputs Tx Wit Log Key env) {start : Progress H}
    {ws ws' : WorkingSet H} {blob : Blob H}
    (h : LinkedTransitions env.sha256 (AcceptedHeightsFit Tx Wit Log Key env cfg blocks) ws)
    (hat : AtBlob env cfg blocks start ws blob)
    (hstep : Spec.LightClient.processBlob env cfg start.lastL2Height
      start.lastSequencerCommitmentIndex ws blob = .ok ws') :
    LinkedTransitions env.sha256 (AcceptedHeightsFit Tx Wit Log Key env cfg blocks) ws' := by
  have hblob := processBlob_ok hstep
  have hext := hblob.extends
  cases hblob with
  | skip => exact h
  | chunk body parsed => exact h.of_frame hext fun i => WorkingSet.set_of_ne (by simp)
  | methodId m methodIds last parsed methodIds_eq last_eq later chainId council =>
    exact h.of_frame hext fun i => WorkingSet.set_of_ne (by simp)
  | commitment c parsed sender fresh =>
    exact h.of_frame hext fun i => WorkingSet.set_of_ne (by simp)
  | proof data proof methodIds methodId output ws' accepted stores =>
    have houtput : IsCircuitOutput Tx Wit Log Key env.sha256
        (fun input => AcceptedHeightsFit Tx Wit Log Key env cfg blocks → HeightsFit input)
        output := by
      by_cases hfit : AcceptedHeightsFit Tx Wit Log Key env cfg blocks
      · obtain ⟨stf, input, out, lastL1Hash, hsha, hmerkle, hcircuit, hout, hheights⟩ :=
          hfit start ws blob data proof methodIds methodId output hat accepted
        exact ⟨stf, input, out, lastL1Hash, hsha, hmerkle, hcircuit, hout, fun _ => hheights⟩
      · obtain ⟨stf, input, out, lastL1Hash, hsha, hmerkle, hcircuit, hout, -⟩ :=
          hsound proof methodId _ output accepted.verified accepted.output_eq
        exact ⟨stf, input, out, lastL1Hash, hsha, hmerkle, hcircuit, hout, fun h => absurd h hfit⟩
    exact h.stores hinj houtput (related_of_verify env accepted.relation) stores

/-- The first blobs of a block keep the links. -/
theorem LinkedTransitions.processBlobs (hinj : Injective env.sha256)
    (hsound : AcceptsOnlyCircuitOutputs Tx Wit Log Key env) {before : List (L1Block H)}
    {block : L1Block H} {ws₀ ws : WorkingSet H} {pre post : List (Blob H)}
    (hs : runL1Blocks env cfg .initial before = .ok s)
    (h : LinkedTransitions env.sha256 (AcceptedHeightsFit Tx Wit Log Key env cfg (before ++ block
      :: after)) s.storage) (hsplit : block.blobs = pre ++ post)
    (hstart : startBlock cfg s.storage block.hash s.output = .ok ws₀)
    (hblobs : Spec.LightClient.processBlobs env cfg (initialProgress cfg s.output).lastL2Height
      (initialProgress cfg s.output).lastSequencerCommitmentIndex pre ws₀ = .ok ws) :
    LinkedTransitions env.sha256
      (AcceptedHeightsFit Tx Wit Log Key env cfg (before ++ block :: after)) ws := by
  have hlinked := h.of_frame (startBlock_extends hstart)
    fun i => startBlock_frame hstart _ (by simp) (by simp)
  refine foldlM_induction (P := fun _ => LinkedTransitions env.sha256
    (AcceptedHeightsFit Tx Wit Log Key env cfg (before ++ block :: after))) hlinked pre ?_ ws hblobs
  intro done blob rest m t hpre hdone hm hstep
  refine hm.processBlob hinj hsound ?_ hstep
  refine ⟨before, block, after, done, rest ++ post, s, ws₀, rfl, ?_, hs, rfl, hstart, hdone⟩
  rw [hsplit, hpre, append_assoc, cons_append]

/-- Every run from the empty tree keeps the links, at each block of a longer list. -/
theorem linkedTransitions_of_run (hinj : Injective env.sha256)
    (hsound : AcceptsOnlyCircuitOutputs Tx Wit Log Key env)
    (hs : runL1Blocks env cfg .initial blocks = .ok s) :
    LinkedTransitions env.sha256 (AcceptedHeightsFit Tx Wit Log Key env cfg (blocks ++ after))
      s.storage := by
  refine foldlM_induction (P := fun _ (t : LightClientState H) => LinkedTransitions env.sha256
    (AcceptedHeightsFit Tx Wit Log Key env cfg (blocks ++ after)) t.storage) ?_ blocks ?_ s hs
  · intro k info hinfo
    exact absurd hinfo (by simp [transitionAt, LightClientState.initial,
      WorkingSet.empty])
  · intro pre block post m t hsplit hpre hm hstep
    obtain ⟨ws, run⟩ := stepL1Block_ok hstep
    have hall : blocks ++ after = pre ++ block :: (post ++ after) := by
      rw [hsplit, append_assoc, cons_append]
    rw [hall] at hm ⊢
    exact LinkedTransitions.processBlobs hinj hsound hpre hm (append_nil _).symm run.start
      run.blobs

/-- The progress that the chaining loop can reach from `p`. -/
def ChainReaches (ws : WorkingSet H) : Progress H → Progress H → Prop :=
  Relation.ReflTransGen fun q next => chainTransition ws q = .ok (some next)

/-- Past index 0, the chaining loop only reaches the progress of stored transitions. -/
theorem ChainReaches.reachedBy {ws : WorkingSet H} {p q : Progress H} (h : ChainReaches ws p q)
    (hp : p.lastSequencerCommitmentIndex ≠ 0 → ReachedBy ws p)
    (hq : q.lastSequencerCommitmentIndex ≠ 0) : ReachedBy ws q := by
  cases h with
  | refl => exact hp hq
  | tail _ hturn =>
    rcases chainTransition_ok hturn with ⟨hnone, -⟩ | ⟨q', hnext, -, hreached⟩
    · simp at hnone
    · rw [some_inj.mp hnext]
      exact hreached

/-- Linking across the two circuits. Take a run over `blocks` from the empty tree and any number
of blobs of the next block. From index 1 on, a transition ends at the root where the next one
starts, and the chaining loop does not panic. If the heights of the accepted proofs fit, the
heights of the transitions increase. -/
theorem linking_of_run (hinj : Injective env.sha256)
    (hsound : AcceptsOnlyCircuitOutputs Tx Wit Log Key env) (blocks : List (L1Block H))
    (block : L1Block H) (s : LightClientState H) (ws₀ ws : WorkingSet H) (pre post : List (Blob H))
    (hs : runL1Blocks env cfg LightClientState.initial blocks = .ok s)
    (hsplit : block.blobs = pre ++ post)
    (hstart : startBlock cfg s.storage block.hash s.output = .ok ws₀)
    (hblobs : processBlobs env cfg (initialProgress cfg s.output).lastL2Height
      (initialProgress cfg s.output).lastSequencerCommitmentIndex pre ws₀ = .ok ws) :
    (∀ k a b, k ≠ 0 → transitionAt k ws = some a →
      transitionAt (k + 1) ws = some b → a.finalStateRoot = b.initialStateRoot ∧
        (AcceptedHeightsFit Tx Wit Log Key env cfg (blocks ++ [block]) →
          a.lastL2Height < b.lastL2Height)) ∧
    (∀ p, ChainReaches ws (initialProgress cfg s.output) p →
      p.lastSequencerCommitmentIndex ≠ 0 → ∃ next, chainTransition ws p = .ok next) := by
  have hlinked : LinkedTransitions env.sha256
      (AcceptedHeightsFit Tx Wit Log Key env cfg (blocks ++ [block])) ws :=
    LinkedTransitions.processBlobs hinj hsound hs (linkedTransitions_of_run hinj hsound hs) hsplit
      hstart hblobs
  refine ⟨fun k a b hk ha hb => hlinked.neighbours hinj hk ha hb, ?_⟩
  intro p hp hne
  have hext : WorkingSet.Extends s.storage ws :=
    (startBlock_extends hstart).trans (processBlobs_extends hblobs)
  have hcons := consistent_of_run hsound.haveHashes hs
  obtain ⟨info, hinfo, hroot, -⟩ :=
    hp.reachedBy (fun h => (hcons.atProgress.2 h).extends hext) hne
  refine chainTransition_returns fun next hnext => ?_
  rw [hroot, (hlinked.neighbours hinj hne hinfo hnext).1]

/-! ### Two runs -/

theorem rsMerkle_sampleEnv : RsMerkle sampleEnv :=
  ⟨fun _ => rfl, fun _ _ _ _ _ h => beq_iff_eq.mp h⟩

/-- The outputs of the sample light client come from the circuit, if the given ones do. -/
theorem sampleLightClient_sound {commitments : List (SequencerCommitment (List Nat))}
    {outputs : List (BatchProofCircuitOutput (List Nat))}
    (h : ∀ output ∈ outputs, IsCircuitOutput Unit Unit Unit Unit listHash (fun _ => True) output) :
    AcceptsOnlyCircuitOutputs Unit Unit Unit Unit (sampleLightClient commitments outputs) :=
  fun _ _ _ output _ hout => h output (mem_of_extractOutput hout)

/-- The theorem applied to the block with two commitments and their proof. -/
theorem linking_two_commitments :
    ∃ ws₀ ws a b, startBlock sampleConfig WorkingSet.empty [9] none = .ok ws₀ ∧
      processBlobs twoCommitmentsClient sampleConfig 0 0 twoCommitmentsBlock.blobs ws₀ = .ok ws ∧
      transitionAt 1 ws = some a ∧ transitionAt 2 ws = some b ∧
      a.finalStateRoot = b.initialStateRoot ∧ a.lastL2Height < b.lastL2Height := by
  have hrun : ((startBlock sampleConfig WorkingSet.empty [9] none).bind
      (processBlobs twoCommitmentsClient sampleConfig 0 0 twoCommitmentsBlock.blobs)).map
        (fun ws => (transitionAt 1 ws, transitionAt 2 ws)) =
      .ok (some ⟨[6], [7], 1⟩, some ⟨[7], [8], 2⟩) := by decide +kernel
  obtain ⟨ws, hws, hget⟩ := map_eq_ok.mp hrun
  obtain ⟨ws₀, hws₀, hblobs⟩ := bind_eq_ok.mp hws
  obtain ⟨hone, htwo⟩ := Prod.mk.inj hget
  have hcircuit : ∀ output ∈ [(twoCommitmentsOutput 2).toCircuitOutput [9]],
      IsCircuitOutput Unit Unit Unit Unit listHash HeightsFit output := by
    intro output hmem
    refine ⟨sampleEnv, twoCommitments 2, twoCommitmentsOutput 2, [9], rfl, rsMerkle_sampleEnv,
      by decide +kernel, mem_singleton.mp hmem, ?_⟩
    intro first hfirst
    obtain rfl := some_inj.mp hfirst
    decide
  have hsound : AcceptsOnlyCircuitOutputs Unit Unit Unit Unit twoCommitmentsClient := by
    refine sampleLightClient_sound fun output hmem => ?_
    obtain ⟨stf, input, out, lastL1Hash, hsha, hmerkle, hcirc, hout, -⟩ := hcircuit output hmem
    exact ⟨stf, input, out, lastL1Hash, hsha, hmerkle, hcirc, hout, trivial⟩
  obtain ⟨hlinks, -⟩ := linking_of_run listHash_injective hsound [] twoCommitmentsBlock
    LightClientState.initial ws₀ ws twoCommitmentsBlock.blobs [] rfl (append_nil _).symm hws₀
    hblobs
  obtain ⟨hroot, hheight⟩ := hlinks 1 _ _ (by decide) hone htwo
  refine ⟨ws₀, ws, _, _, hws₀, hblobs, hone, htwo, hroot, hheight ?_⟩
  intro start ws blob data proof methodIds methodId output _ accepted
  exact hcircuit output (mem_of_extractOutput accepted.output_eq)

/-- The headers of three blocks around the greatest height. -/
def wrapHeader1 : L2Header (List Nat) := sampleHeader (2 ^ 64 - 2) [] [7]
def wrapHeader2 : L2Header (List Nat) :=
  sampleHeader (2 ^ 64 - 1) (wrapHeader1.computeDigest listHash) [8]
def wrapHeader3 : L2Header (List Nat) := sampleHeader 0 (wrapHeader2.computeDigest listHash) [9]

/-- The commitment to one block. -/
def oneBlockCommitment (header : L2Header (List Nat)) (index : UInt32) :
    SequencerCommitment (List Nat) := ⟨header.computeDigest listHash, index, header.height⟩

/-- A batch proof over the block `header` with the index `index + 1`, after the block
`lastHeader`. -/
def oneBlockInput (lastHeader header : L2Header (List Nat)) (index : UInt32) :
    CircuitInput (List Nat) Unit Unit where
  sequencerPublicKey := []
  initialPrevL2BlockHash := none
  initialStateRoot := lastHeader.stateRoot
  previousSequencerCommitment := some (oneBlockCommitment lastHeader index)
  prevHashProof := some ⟨[], lastHeader, lastHeader.height⟩
  sequencerCommitments := [oneBlockCommitment header (index + 1)]
  cachePruneL2Heights := []
  forks := [⟨.tangerine, 0⟩]
  host := .u32 1 :: oneBlock header

/-- Its output. -/
def oneBlockOutput (lastHeader header : L2Header (List Nat)) (index : UInt32) :
    ApplySequencerCommitmentsOutput (List Nat) Unit where
  stateRoots := [lastHeader.stateRoot, header.stateRoot]
  stateDiff := []
  lastL2Height := header.height
  finalL2BlockHash := header.computeDigest listHash
  sequencerCommitmentHashes :=
    [(oneBlockCommitment header (index + 1)).serializeAndCalculateSha256 listHash]
  sequencerCommitmentIndexRange := (index + 1, index + 1)
  cumulativeStateLog := ()
  previousCommitmentIndex := some index
  previousCommitmentHash :=
    some ((oneBlockCommitment lastHeader index).serializeAndCalculateSha256 listHash)

/-- The light client for three commitments around the greatest height, and for the proofs of the
second and of the third. -/
def wrapClient : LightClientEnv (List Nat) :=
  sampleLightClient
    [oneBlockCommitment wrapHeader1 1, oneBlockCommitment wrapHeader2 2,
      oneBlockCommitment wrapHeader3 3]
    [(oneBlockOutput wrapHeader1 wrapHeader2 1).toCircuitOutput [9],
      (oneBlockOutput wrapHeader2 wrapHeader3 2).toCircuitOutput [9]]

/-- The three commitments and the two proofs in one block. -/
def wrapBlock : L1Block (List Nat) :=
  ⟨[9], [commitmentBlob 0, commitmentBlob 1, commitmentBlob 2, proofBlob 0, proofBlob 1]⟩

/-- The height wraps from `2 ^ 64 - 1` to 0 between index 2 and index 3. Both proofs are outputs
of the circuit, and the light client stores both transitions. -/
theorem linking_wraps : Injective wrapClient.sha256 ∧
    AcceptsOnlyCircuitOutputs Unit Unit Unit Unit wrapClient ∧
    ∃ s a b, runL1Blocks wrapClient sampleConfig LightClientState.initial [wrapBlock] = .ok s ∧
      transitionAt 2 s.storage = some a ∧
      transitionAt 3 s.storage = some b ∧ ¬ a.lastL2Height < b.lastL2Height := by
  refine ⟨listHash_injective, sampleLightClient_sound ?_, ?_⟩
  · intro output hmem
    simp only [mem_cons, not_mem_nil, or_false] at hmem
    rcases hmem with rfl | rfl
    · exact ⟨sampleEnv, oneBlockInput wrapHeader1 wrapHeader2 1, _, [9], rfl, rsMerkle_sampleEnv,
        by decide +kernel, rfl, trivial⟩
    · exact ⟨sampleEnv, oneBlockInput wrapHeader2 wrapHeader3 2, _, [9], rfl, rsMerkle_sampleEnv,
        by decide +kernel, rfl, trivial⟩
  · have hrun : (runL1Blocks wrapClient sampleConfig LightClientState.initial [wrapBlock]).map
        (fun s => (transitionAt 2 s.storage,
          transitionAt 3 s.storage)) =
        .ok (some ⟨[7], [8], 2 ^ 64 - 1⟩, some ⟨[8], [9], 0⟩) := by decide +kernel
    obtain ⟨s, hs, hget⟩ := map_eq_ok.mp hrun
    obtain ⟨htwo, hthree⟩ := Prod.mk.inj hget
    exact ⟨s, _, _, hs, htwo, hthree, by decide +kernel⟩

end Citrea.Proofs.LightClient
