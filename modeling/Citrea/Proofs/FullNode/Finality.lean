import Citrea.Proofs.FullNode.Handler
import Citrea.Proofs.LightClient.Linking

/-!
# `Citrea.Proofs.FullNode.Finality`: the proven status of a full node

`FinalityInv` is the invariant of the ledger: no stored commitment is above the committed status,
and the proven status is the end of a stored commitment, with a verified proof for each index up to
it. `finality_sound` says that it holds in every state of a node, and that the panic for a proven
height above the committed height is not reached.

The handler compares the hashes of a proof with the commitments of its index range by zipping the
two. The proven height comes from the last hash, and the proven index is the end of the range. They
belong together if the range has as many indices as there are hashes (`RangeFits`), which the
handler does not check. `finality_short_range` is a run with a shorter range.
-/

set_option linter.unusedSectionVars false

namespace Citrea.Proofs.FullNode

open Function (Injective)
open List Lib Spec Spec.BatchProof Spec.FullNode
open Spec.LightClient (networkToDevMode indexRange)
open Proofs.BatchProof
open Proofs.LightClient (IsCircuitOutput mem_zipIdx_indexRange)

variable {H C Tx Wit Log Key : Type} [DecidableEq H] {env : FullNodeEnv H C}
  {output : BatchProofCircuitOutput H} {l l' : Ledger H} {height found top : UInt64}
  {result : ProcessingResult} {writes : List (LedgerWrite H)} {c : SequencerCommitment H}
  {proof : Bytes} {task : HandlerTask H} {rest : List (HandlerTask H)} {s s' : NodeState H}

/-! ### Outputs of the batch circuit -/

/-- The proof system accepts only outputs of the batch circuit. -/
def AcceptsOnlyCircuitOutputs (Tx Wit Log Key : Type) (env : FullNodeEnv H C) : Prop :=
  ∀ proof output, Verified env proof output →
    IsCircuitOutput Tx Wit Log Key env.sha256 (fun _ => True) output

/-- The last commitment of a circuit output has its last hash, its last index and its last
height. -/
theorem exists_last_of_circuitOutput {sha256 : HashInput H → H}
    (h : IsCircuitOutput Tx Wit Log Key sha256 (fun _ => True) output) :
    ∃ last : SequencerCommitment H, output.sequencerCommitmentHashes.getLast? =
        some (last.serializeAndCalculateSha256 sha256) ∧
      last.l2EndBlockNumber = output.lastL2Height := by
  obtain ⟨stf, input, out, lastL1Hash, rfl, hmerkle, hcircuit, rfl, -⟩ := h
  obtain ⟨first, last, prevEnd, roots, blocks, hrun⟩ :=
    circuit_ok hmerkle.emptyHasNoRoot hcircuit
  refine ⟨last, ?_, hrun.lastL2Height.symm⟩
  show out.sequencerCommitmentHashes.getLast? = _
  rw [hrun.hashes, List.getLast?_map, hrun.getLast_eq]
  rfl

/-- A verified proof has as many hashes as its range has indices. -/
def RangeFits (env : FullNodeEnv H C) (proof : Bytes) : Prop :=
  ∀ output, Verified env proof output →
    output.sequencerCommitmentIndexRange.1.toNat + output.sequencerCommitmentHashes.length =
      output.sequencerCommitmentIndexRange.2.toNat + 1

/-- If the range fits, its last index is zipped with the last hash. -/
theorem last_mem_zip {hash : H} (hfits : output.sequencerCommitmentIndexRange.1.toNat +
      output.sequencerCommitmentHashes.length = output.sequencerCommitmentIndexRange.2.toNat + 1)
    (hlast : output.sequencerCommitmentHashes.getLast? = some hash) :
    (output.sequencerCommitmentIndexRange.2, hash) ∈ rangeHashes output := by
  have hpos : 0 < output.sequencerCommitmentHashes.length := by
    rw [length_pos_iff]
    intro hnil
    rw [hnil] at hlast
    simp at hlast
  have hitem : (output.sequencerCommitmentIndexRange.2,
      output.sequencerCommitmentHashes.length - 1) ∈
      (indexRange output.sequencerCommitmentIndexRange.1
        output.sequencerCommitmentIndexRange.2).zipIdx :=
    mem_zipIdx_indexRange.mpr (by omega)
  rw [mem_zipIdx_iff_getElem?] at hitem
  rw [List.getLast?_eq_getElem?] at hlast
  rw [mem_iff_getElem?]
  exact ⟨_, List.getElem?_zip_eq_some.mpr ⟨hitem, hlast⟩⟩

/-! ### The invariant of the ledger -/

/-- A verified proof of the ledger has the index `i` in its range. -/
def Covered (l : Ledger H) (i : UInt32) : Prop :=
  ∃ height proofs entry, l.verifiedBatchProofsBySlotNumber.get height = some proofs ∧
    entry ∈ proofs ∧ entry.2.sequencerCommitmentIndexRange.1 ≤ i ∧
    i ≤ entry.2.sequencerCommitmentIndexRange.2

/-- The commitments and the statuses belong together. -/
structure FinalityInv (l : Ledger H) : Prop where
  committed : CommittedUpTo l
  proven : ∀ status, l.getHighestL2HeightForStatus .proven none = some status →
    (∃ c, l.getCommitmentByIndex status.commitmentIndex = some c ∧
      c.l2EndBlockNumber = status.height) ∧
    ∀ i, 1 ≤ i → i ≤ status.commitmentIndex → Covered l i

theorem finalityInv_genesis (root : H) : FinalityInv (Ledger.genesis root) := by
  constructor
  · simp [CommittedUpTo, Ledger.getCommitmentByIndex, Ledger.genesis]
  · simp [getHighest_none, Ledger.genesis, Table.last?, Table.empty]

/-- `l'` has the commitments, the statuses and the verified proofs of `l`. -/
structure SameFinality (l l' : Ledger H) : Prop where
  commitments : l'.sequencerCommitmentByIndex = l.sequencerCommitmentByIndex
  statuses : l'.l2StatusHeights = l.l2StatusHeights
  verified : l'.verifiedBatchProofsBySlotNumber = l.verifiedBatchProofsBySlotNumber

theorem FinalityInv.of_same (h : FinalityInv l) (hsame : SameFinality l l') : FinalityInv l' := by
  have hget : ∀ i, l'.getCommitmentByIndex i = l.getCommitmentByIndex i := by
    intro i
    rw [Ledger.getCommitmentByIndex, hsame.commitments]
    rfl
  have hstatus : ∀ status, l'.getHighestL2HeightForStatus status none =
      l.getHighestL2HeightForStatus status none := by
    intro status
    rw [getHighest_none, getHighest_none, hsame.statuses]
  have hcovered : ∀ i, Covered l' i ↔ Covered l i := by
    intro i
    rw [Covered, Covered, hsame.verified]
  refine ⟨fun i c hc => ?_, fun status hproven => ?_⟩
  · rw [hstatus]
    exact h.committed i c ((hget i).symm.trans hc)
  · rw [hstatus] at hproven
    simp only [hget, hcovered]
    exact h.proven status hproven

/-- The proven status is not above the committed one. -/
theorem FinalityInv.not_above (h : FinalityInv l) :
    ¬ ((l.getHighestL2HeightForStatus .proven none).getD default).Above
      ((l.getHighestL2HeightForStatus .committed none).getD default) := by
  cases hproven : l.getHighestL2HeightForStatus .proven none with
  | none =>
    intro habove
    rcases habove with hlt | ⟨-, hlt⟩
    · exact absurd hlt (UInt64.not_lt.mpr (UInt64.zero_le))
    · exact absurd hlt (UInt32.not_lt.mpr (UInt32.zero_le))
  | some proven =>
    obtain ⟨⟨c, hc, hheight⟩, -⟩ := h.proven proven hproven
    obtain ⟨committed, hcommitted, hle, hindex⟩ := h.committed _ c hc
    rw [hheight] at hle
    rw [hcommitted]
    rintro (hlt | ⟨-, hlt⟩)
    · exact absurd hle (UInt64.not_le.mpr hlt)
    · exact absurd hindex (UInt32.not_le.mpr hlt)

/-- A commitment keeps the invariant. -/
theorem FinalityInv.afterCommitment (h : FinalityInv l) (hkeys : StatusKeysAtMost height l)
    (htrace : CommitmentTrace height found c l result writes) :
    FinalityInv (applyAll LedgerWrite.applyLedger writes l) := by
  cases htrace with
  | discarded => exact h
  | waiting => exact h
  | pending => exact h.of_same ⟨rfl, rfl, rfl⟩
  | success fresh =>
    refine ⟨h.committed.accept hkeys fresh, fun status hstatus => ?_⟩
    change (acceptCommitment height c l).getHighestL2HeightForStatus .proven none = _ at hstatus
    rw [getHighest_set_of_ne (by decide)] at hstatus
    obtain ⟨⟨d, hd, hheight⟩, hcovered⟩ := h.proven status hstatus
    refine ⟨⟨d, ?_, hheight⟩, hcovered⟩
    have hne : status.commitmentIndex ≠ c.index := by
      intro heq
      rw [heq, (not_commitmentDone.mp fresh).1] at hd
      simp at hd
    exact (Table.get_put_of_ne hne).trans hd

/-- A recorded proof covers its range, and what was covered stays covered. -/
theorem covered_update {i : UInt32}
    (h : Covered l i ∨ (output.sequencerCommitmentIndexRange.1 ≤ i ∧ i ≤
      output.sequencerCommitmentIndexRange.2)) :
    Covered (l.updateVerifiedProofData height proof output) i := by
  rcases h with ⟨found, proofs, entry, hproofs, hentry, hrange⟩ | hrange
  · by_cases hheight : found = height
    · refine ⟨height, _, entry, Table.get_put_self _ _ _, ?_, hrange⟩
      rw [← hheight, hproofs]
      exact mem_append_left _ hentry
    · exact ⟨found, proofs, entry, (Table.get_put_of_ne hheight).trans hproofs, hentry, hrange⟩
  · exact ⟨height, _, (proof, output), Table.get_put_self _ _ _, by simp, hrange⟩

/-- A proof whose range fits keeps the invariant. -/
theorem FinalityInv.afterProof (hinj : Injective env.sha256)
    (hsound : AcceptsOnlyCircuitOutputs Tx Wit Log Key env) (h : FinalityInv l)
    (hkeys : StatusKeysAtMost height l) (hfits : RangeFits env proof)
    (htrace : ProofTrace env height found proof l result writes) :
    FinalityInv (applyAll LedgerWrite.applyLedger writes l) := by
  cases htrace with
  | invalid => exact h
  | discarded => exact h
  | pending => exact h.of_same ⟨rfl, rfl, rfl⟩
  | @success output valid fresh first acceptable =>
    change FinalityInv (acceptProof height found proof output l)
    constructor
    · intro i c hc
      rw [getHighest_set_of_ne (by decide)]
      exact h.committed i c hc
    · intro status hstatus
      rw [getHighest_acceptProof hkeys, Option.some_inj] at hstatus
      subst hstatus
      constructor
      · -- the stored commitment of the last index is the last commitment of the circuit
        obtain ⟨last, hlast, hend⟩ := exists_last_of_circuitOutput (hsound proof _ valid.verified)
        obtain ⟨c, hc, hhash⟩ :=
          acceptable.stored _ (last_mem_zip (hfits output valid.verified) hlast)
        obtain rfl : c = last := HashInput.commitment.inj (hinj hhash)
        exact ⟨c, hc, hend⟩
      · intro i hone hi
        refine covered_update ?_
        by_cases hold : i ≤ (provenStatus l).commitmentIndex
        · left
          rw [provenStatus, highestStatus] at hold
          cases hproven : l.getHighestL2HeightForStatus .proven none with
          | none =>
            rw [hproven] at hold
            exact absurd (UInt32.le_trans hone hold) (by decide)
          | some old =>
            rw [hproven] at hold
            exact (h.proven _ hproven).2 i hone hold
        · right
          refine ⟨?_, hi⟩
          rw [UInt32.not_le, UInt32.lt_iff_toNat_lt] at hold
          rw [StartsInTime] at first
          rw [UInt32.le_iff_toNat_le]
          omega

theorem StatusKeysAtMost.afterCommitment (h : StatusKeysAtMost top l) (hle : height ≤ top)
    (htrace : CommitmentTrace height found c l result writes) :
    StatusKeysAtMost top (applyAll LedgerWrite.applyLedger writes l) := by
  cases htrace with
  | success => exact StatusKeysAtMost.set h hle _ _
  | _ => exact h

theorem StatusKeysAtMost.afterProof (h : StatusKeysAtMost top l) (hle : height ≤ top)
    (htrace : ProofTrace env height found proof l result writes) :
    StatusKeysAtMost top (applyAll LedgerWrite.applyLedger writes l) := by
  cases htrace with
  | success => exact StatusKeysAtMost.set h hle _ _
  | _ => exact h

theorem Removed.sameFinality (h : Removed l l') : SameFinality l l' := by
  cases h with
  | _ => exact ⟨rfl, rfl, rfl⟩

/-! ### Tasks -/

/-- Every proof that waits in the ledger or in the tasks has the property `G`. -/
structure WaitingProofs (G : Bytes → Prop) (l : Ledger H) (tasks : List (HandlerTask H)) :
    Prop where
  pending : ∀ range entry, l.pendingProofs.get range = some entry → G entry.1
  tasks : ∀ task ∈ tasks, ∀ p, Tries p task → G p

section
variable {result : TaskResult H} (hstep : TaskStep env height rest l task result)
include hstep

/-- A task keeps the invariant of the ledger. -/
theorem FinalityInv.taskStep (hinj : Injective env.sha256)
    (hsound : AcceptsOnlyCircuitOutputs Tx Wit Log Key env) (h : FinalityInv l)
    (hkeys : StatusKeysAtMost height l) (hfits : ∀ p, Tries p task → RangeFits env p) :
    FinalityInv result.ledger := by
  cases hstep with
  | commitment _ trace removed => exact (h.afterCommitment hkeys trace).of_same removed.sameFinality
  | proof tries trace removed =>
    exact (h.afterProof hinj hsound hkeys (hfits _ tries) trace).of_same removed.sameFinality
  | finish => exact h.of_same ⟨rfl, rfl, rfl⟩
  | _ => exact h

/-- A task sets a status only at the height of its block. -/
theorem StatusKeysAtMost.taskStep (h : StatusKeysAtMost top l) (hle : height ≤ top) :
    StatusKeysAtMost top result.ledger := by
  cases hstep with
  | commitment _ trace removed =>
    rw [StatusKeysAtMost, removed.sameFinality.statuses]
    exact h.afterCommitment hle trace
  | proof _ trace removed =>
    rw [StatusKeysAtMost, removed.sameFinality.statuses]
    exact h.afterProof hle trace
  | _ => exact h

/-- A task adds no new proof to those that wait. -/
theorem WaitingProofs.taskStep {G : Bytes → Prop} (h : WaitingProofs G l (task :: rest)) :
    WaitingProofs G result.ledger result.tasks := by
  constructor
  · intro range entry hentry
    rcases hstep.pendingProofs_get hentry with hold | htries
    · exact h.pending range entry hold
    · exact h.tasks task mem_cons_self _ htries
  · intro t ht p hp
    rcases hstep.mem_tasks ht with hold | ⟨_, _, _, rfl, -⟩ | ⟨range, q, found, rfl, hget⟩
    · exact h.tasks t (mem_cons_of_mem _ hold) p hp
    · exact hp.elim
    · obtain rfl : q = p := hp
      exact h.pending range _ hget

end

/-! ### Runs -/

/-- The L1 blocks of a list of events. -/
def l1Blocks (events : List (NodeEvent H)) : List (L1Block H) :=
  events.filterMap fun
    | .l1Block block => some block
    | _ => none

/-- The proofs of a block. -/
def blockProofs (block : L1Block H) : List Bytes :=
  block.commitmentsAndProofs.filterMap fun
    | .proof p => some p
    | .commitment _ => none

/-- The proofs of the first tasks of a block are the proofs of the block. -/
theorem mem_blockProofs_of_tries {block : L1Block H} {p : Bytes} (htask : task ∈ block.tasks)
    (hp : Tries p task) : p ∈ blockProofs block := by
  rw [L1Block.tasks, mem_append, mem_map] at htask
  rcases htask with ⟨item, hitem, rfl⟩ | hlast
  · cases item with
    | proof q =>
      obtain rfl : q = p := hp
      exact mem_filterMap.mpr ⟨.proof q, hitem, rfl⟩
    | commitment c => exact hp.elim
  · simp only [mem_cons, not_mem_nil, or_false] at hlast
    rcases hlast with rfl | rfl | rfl
    all_goals exact hp.elim

/-- The invariant of a node, with the L1 blocks that are still to come. -/
structure NodeInv (env : FullNodeEnv H C) (future : List (L1Block H)) (s : NodeState H) :
    Prop where
  ledger : FinalityInv s.ledger
  keys : ∀ block ∈ s.queue ++ future, StatusKeysAtMost block.height s.ledger
  ordered : (s.queue ++ future).Pairwise fun a b => a.height ≤ b.height
  proofs : ∀ block ∈ s.queue ++ future, ∀ p ∈ blockProofs block, RangeFits env p
  waiting : WaitingProofs (RangeFits env) s.ledger (s.tasks.getD [])

/-- The handler keeps the invariant. -/
theorem NodeInv.handlerStep (hinj : Injective env.sha256)
    (hsound : AcceptsOnlyCircuitOutputs Tx Wit Log Key env) {future : List (L1Block H)}
    (h : NodeInv env future s) (hstep : HandlerStep env s s') : NodeInv env future s' := by
  cases hstep with
  | idle => exact h
  | start block rest queue_eq tasks_eq =>
    have hsame : SameFinality s.ledger (s.ledger.setL1HeightOfL1Hash block.hash block.height) :=
      ⟨rfl, rfl, rfl⟩
    refine ⟨h.ledger.of_same hsame, h.keys, h.ordered, h.proofs, h.waiting.pending, ?_⟩
    intro task htask p hp
    exact h.proofs block (by simp [queue_eq]) p (mem_blockProofs_of_tries htask hp)
  | done block rest queue_eq =>
    have hsub : (rest ++ future).Sublist (s.queue ++ future) := by
      rw [queue_eq, cons_append]
      exact sublist_cons_self _ _
    exact ⟨h.ledger, fun b hb => h.keys b (hsub.mem hb), h.ordered.sublist hsub,
      fun b hb => h.proofs b (hsub.mem hb), h.waiting.pending, fun t ht => absurd ht (by simp)⟩
  | task block rest queue_eq task left tasks_eq result step =>
    have hkeys : StatusKeysAtMost block.height s.ledger := h.keys block (by simp [queue_eq])
    have hwaiting : WaitingProofs (RangeFits env) s.ledger (task :: left) := by
      have hold := h.waiting
      rw [tasks_eq] at hold
      exact hold
    have hle : ∀ b ∈ s.queue ++ future, block.height ≤ b.height := by
      have hordered := h.ordered
      rw [queue_eq, cons_append] at hordered ⊢
      intro b hb
      rcases mem_cons.mp hb with rfl | hb
      · exact UInt64.le_refl _
      · exact (pairwise_cons.mp hordered).1 b hb
    exact ⟨.taskStep step hinj hsound h.ledger hkeys (hwaiting.tasks task mem_cons_self),
      fun b hb => .taskStep step (h.keys b hb) (hle b hb), h.ordered, h.proofs,
      hwaiting.taskStep step⟩

/-- Every event keeps the invariant. -/
theorem NodeInv.stepNode (hinj : Injective env.sha256)
    (hsound : AcceptsOnlyCircuitOutputs Tx Wit Log Key env) {event : NodeEvent H}
    {rest : List (NodeEvent H)} (h : NodeInv env (l1Blocks (event :: rest)) s)
    (hstep : Spec.FullNode.stepNode env s event = .ok s') : NodeInv env (l1Blocks rest) s' := by
  cases event with
  | l2Block block =>
    rw [Spec.FullNode.stepNode, pure_eq_ok] at hstep
    subst hstep
    exact ⟨h.ledger.of_same ⟨rfl, rfl, rfl⟩, h.keys, h.ordered, h.proofs, h.waiting.pending,
      h.waiting.tasks⟩
  | l1Block block =>
    rw [Spec.FullNode.stepNode, pure_eq_ok] at hstep
    subst hstep
    have hmove : s.queue ++ l1Blocks (.l1Block block :: rest) =
        (s.queue ++ [block]) ++ l1Blocks rest := by
      rw [append_assoc]
      rfl
    have hkeys := h.keys
    have hordered := h.ordered
    have hproofs := h.proofs
    rw [hmove] at hkeys hordered hproofs
    exact ⟨h.ledger, hkeys, hordered, hproofs, h.waiting.pending, h.waiting.tasks⟩
  | task =>
    rw [Spec.FullNode.stepNode] at hstep
    split at hstep
    · rw [pure_eq_ok] at hstep
      exact hstep ▸ h
    · exact h.handlerStep hinj hsound (runHandler_ok hstep)
  | restart =>
    rw [Spec.FullNode.stepNode, pure_eq_ok] at hstep
    subst hstep
    exact ⟨h.ledger, h.keys, h.ordered, h.proofs, h.waiting.pending,
      fun t ht => absurd ht (by simp)⟩

/-! ### The panic -/

section Panic
variable {l : Ledger H} {height found : UInt64}
open Outcome

/-- The call does not panic for a proven height above the committed height. -/
abbrev Safe {ε α : Type} (x : Outcome ε α) : Prop := PanicsOnly
    (fun m => m ≠ provenAboveCommitted) x

theorem safe_getTangerineActivationHeightNonZero {ε : Type} (forks : List Fork) :
    Safe (getTangerineActivationHeightNonZero forks : Outcome ε UInt64) := by
  refine (panicsOnly_expect (by decide)).bind fun firstFork _ => ?_
  split
  · exact panicsOnly_ok
  · exact (panicsOnly_expect (by decide)).bind fun _ _ => panicsOnly_ok

theorem safe_processSequencerCommitment {c : SequencerCommitment H} :
    Safe (processSequencerCommitment env height found c l) := by
  rw [processSequencerCommitment]
  split
  · exact panicsOnly_ok
  split
  · exact panicsOnly_ok
  rw [commitFresh]
  have hstart : Safe (startL2Height env l c) := by
    rw [startL2Height]
    split
    · exact (safe_getTangerineActivationHeightNonZero _).bind fun _ _ => panicsOnly_ok
    · exact panicsOnly_ok
  refine hstart.bind fun start _ => ?_
  cases start with
  | none => exact panicsOnly_ok
  | some start =>
    simp only [commitRange]
    split
    · split
      all_goals exact panicsOnly_ok
    · have hrange : Safe (l.getL2BlockRange start c.l2EndBlockNumber :
          Outcome (ProcessingError H) _) := by
        simp only [Ledger.getL2BlockRange, Ledger.getDataRange]
        split
        · exact panicsOnly_panic (by decide)
        · exact panicsOnly_ok
      refine hrange.bind fun blocks _ => ?_
      split
      · exact panicsOnly_err
      · split
        · exact panicsOnly_ok
        · exact panicsOnly_err

/-- The checks of a proof against the commitments. -/
theorem safe_checkProof {proof : Bytes} {output : BatchProofCircuitOutput H}
    {proven : L2HeightAndIndex} {initial : H} :
    Safe (checkProof env height found proof output proven initial l) := by
  intro message hpanic
  have hprevious : Safe (previousL2EndBlockNumber env l output) := by
    rw [previousL2EndBlockNumber]
    split
    · exact (panicsOnly_expect (by decide)).bind fun _ _ => panicsOnly_verifyHash
    · exact (safe_getTangerineActivationHeightNonZero _).bind fun _ _ => panicsOnly_ok
  exact hprevious message (panicsOnly_checkProof message hpanic)

theorem FinalityInv.safe_processZkProof {proof : Bytes} (h : FinalityInv l) :
    Safe (processZkProof env height found proof l) := by
  rw [processZkProof]
  split
  · exact panicsOnly_ok
  refine PanicsOnly.bind (panicsOnly_expect (by decide)) fun fork _ => ?_
  refine PanicsOnly.bind (panicsOnly_expect (by decide)) fun codeCommitment _ => ?_
  split
  · refine PanicsOnly.bind (panicsOnly_expect (by decide)) fun initial _ => ?_
    simp only [processTangerineZkProof]
    split
    · exact panicsOnly_err
    split
    · exact panicsOnly_ok
    rw [if_neg h.not_above]
    exact safe_checkProof
  · exact panicsOnly_ok

theorem safe_commitmentTrace {c : SequencerCommitment H} : Safe
    (commitmentTrace env height c l) := by
  rw [commitmentTrace]
  split
  · exact panicsOnly_ok
  split
  · exact panicsOnly_ok
  · exact panicsOnly_ok
  · exact panicsOnly_panic (by decide)
  · next message hpanic => exact panicsOnly_panic (safe_processSequencerCommitment message hpanic)

theorem safe_retryCommitmentTurn {index : UInt32} {c : SequencerCommitment H} :
    Safe (retryCommitmentTurn env height index c found l) := by
  rw [retryCommitmentTurn]
  split
  · split
    · exact panicsOnly_ok
    · exact panicsOnly_ok
    · exact panicsOnly_ok
    · exact panicsOnly_ok
    · exact panicsOnly_ok
    · next message hpanic =>
      exact panicsOnly_panic (safe_processSequencerCommitment message hpanic)
  · exact panicsOnly_ok

theorem FinalityInv.safe_proofTrace {proof : Bytes} (h : FinalityInv l) :
    Safe (proofTrace env height proof l) := by
  rw [proofTrace]
  split
  · exact panicsOnly_ok
  · exact panicsOnly_ok
  · next message hpanic => exact panicsOnly_panic (h.safe_processZkProof message hpanic)

theorem FinalityInv.safe_retryProofTurn {range : UInt32 × UInt32} {proof : Bytes}
    (h : FinalityInv l) : Safe (retryProofTurn env height range proof found l) := by
  rw [retryProofTurn]
  split
  · exact panicsOnly_ok
  · exact panicsOnly_ok
  · exact panicsOnly_ok
  · exact panicsOnly_ok
  · next message hpanic => exact panicsOnly_panic (h.safe_processZkProof message hpanic)

/-- No task panics for a proven height above the committed height. -/
theorem FinalityInv.safe_runTask {task : HandlerTask H} {rest : List (HandlerTask H)}
    (h : FinalityInv l) : Safe (runTask env height task rest l) := by
  cases task with
  | commitment c => exact safe_commitmentTrace.bind fun _ _ => panicsOnly_ok
  | proof p => exact h.safe_proofTrace.bind fun _ _ => panicsOnly_ok
  | pendingCommitments => exact panicsOnly_ok
  | retryCommitment index c found => exact safe_retryCommitmentTurn.bind fun _ _ => panicsOnly_ok
  | pendingProofs => exact panicsOnly_ok
  | retryProof range p found => exact h.safe_retryProofTurn.bind fun _ _ => panicsOnly_ok
  | finish => exact panicsOnly_ok

theorem FinalityInv.safe_stepNode {s : NodeState H} (h : FinalityInv s.ledger)
    (event : NodeEvent H) : Safe (Spec.FullNode.stepNode env s event) := by
  cases event with
  | l2Block block => exact panicsOnly_ok
  | l1Block block => exact panicsOnly_ok
  | restart => exact panicsOnly_ok
  | task =>
    rw [Spec.FullNode.stepNode]
    split
    · exact panicsOnly_ok
    · rw [runHandler]
      split
      · exact panicsOnly_ok
      · exact panicsOnly_ok
      · exact panicsOnly_ok
      · exact h.safe_runTask.bind fun _ _ => panicsOnly_ok

end Panic

variable {outputs : List (BatchProofCircuitOutput (List Nat))}

/-- The invariant holds after every run. -/
theorem nodeInv_of_run (hinj : Injective env.sha256)
    (hsound : AcceptsOnlyCircuitOutputs Tx Wit Log Key env) (genesisStateRoot : H)
    {events : List (NodeEvent H)} {s : NodeState H}
    (hordered : (l1Blocks events).Pairwise fun a b => a.height ≤ b.height)
    (hfits : ∀ block ∈ l1Blocks events, ∀ p ∈ blockProofs block, RangeFits env p)
    (h : runNode env (NodeState.initial genesisStateRoot) events = .ok s) :
    FinalityInv s.ledger := by
  have hstart : NodeInv env (l1Blocks events) (NodeState.initial genesisStateRoot) := by
    refine ⟨finalityInv_genesis _, fun _ _ => statusKeysAtMost_genesis _, hordered, hfits, ?_, ?_⟩
    all_goals simp [NodeState.initial, Ledger.genesis]
  exact (foldlM_suffix (P := fun events s => NodeInv env (l1Blocks events) s)
    (fun _ _ _ _ hm hstep => hm.stepNode hinj hsound hstep) events _ s h hstart).ledger

/-- Finality of a full node. Take any events: L1 blocks in the order of their heights, and L2 blocks
and restarts between any two steps of the handler. If the range of each verified proof has as many
indices as the proof has hashes, the panic for a proven height above the committed height is not
reached. In every state with a proven status, the commitment of the proven index ends at the proven
height, each index up to it is in the range of a verified proof, and the committed status is at
least the proven one. -/
theorem finality_sound (hinj : Injective env.sha256)
    (hsound : AcceptsOnlyCircuitOutputs Tx Wit Log Key env) (genesisStateRoot : H)
    (events : List (NodeEvent H))
    (hordered : (l1Blocks events).Pairwise fun a b => a.height ≤ b.height)
    (hfits : ∀ block ∈ l1Blocks events, ∀ p ∈ blockProofs block, RangeFits env p) :
    runNode env (NodeState.initial genesisStateRoot) events ≠ Outcome.panic provenAboveCommitted ∧
    ∀ s proven, runNode env (NodeState.initial genesisStateRoot) events = .ok s →
      s.ledger.getHighestL2HeightForStatus .proven none = some proven →
      (∃ c, s.ledger.getCommitmentByIndex proven.commitmentIndex = some c ∧
        c.l2EndBlockNumber = proven.height) ∧
      (∀ i, 1 ≤ i → i ≤ proven.commitmentIndex → Covered s.ledger i) ∧
      ∃ committed, s.ledger.getHighestL2HeightForStatus .committed none = some committed ∧
        proven.height ≤ committed.height ∧ proven.commitmentIndex ≤ committed.commitmentIndex := by
  constructor
  · intro hpanic
    obtain ⟨pre, event, post, m, rfl, hpre, hstep⟩ := foldlM_eq_error hpanic
    have hsub : (l1Blocks pre).Sublist (l1Blocks (pre ++ event :: post)) := by
      rw [l1Blocks, l1Blocks, filterMap_append]
      exact sublist_append_left _ _
    have hinv := nodeInv_of_run hinj hsound genesisStateRoot (hordered.sublist hsub)
      (fun block hblock => hfits block (hsub.mem hblock)) hpre
    exact hinv.safe_stepNode event _ hstep rfl
  · intro s proven hrun hproven
    have hinv := nodeInv_of_run hinj hsound genesisStateRoot hordered hfits hrun
    obtain ⟨⟨c, hc, hheight⟩, hcovered⟩ := hinv.proven proven hproven
    obtain ⟨committed, hcommitted, hle, hindex⟩ := hinv.committed _ c hc
    rw [hheight] at hle
    exact ⟨⟨c, hc, hheight⟩, hcovered, committed, hcommitted, hle, hindex⟩

/-! ### Two runs -/

/-- A full node for given outputs of the batch circuit. The proof `[n]` has the output `n`, and the
proof system accepts it. -/
def sampleNode (outputs : List (BatchProofCircuitOutput (List Nat))) :
    FullNodeEnv (List Nat) Unit where
  sha256 := listHash
  merkleRoot := sampleEnv.merkleRoot
  extractOutput := fun proof => proof.head?.bind fun n => outputs[n.toNat]?
  verify := fun _ _ _ => true
  codeCommitmentsBySpec := fun _ => some ()
  forks := [⟨.tangerine, 0⟩]
  network := .nightly

theorem mem_of_verified {proof : Bytes} {output : BatchProofCircuitOutput (List Nat)}
    (h : Verified (sampleNode outputs) proof output) : output ∈ outputs := by
  have hextract := h.1
  cases proof with
  | nil => exact absurd hextract (by simp [sampleNode])
  | cons n rest => exact mem_of_getElem? hextract

theorem sampleNode_sound
    (h : ∀ output ∈ outputs, IsCircuitOutput Unit Unit Unit Unit listHash (fun _ => True) output) :
    AcceptsOnlyCircuitOutputs Unit Unit Unit Unit (sampleNode outputs) :=
  fun _ output hverified => h output (mem_of_verified hverified)

/-- The stored block of a header. -/
def storedBlockOf (header : L2Header (List Nat)) : StoredL2Block (List Nat) :=
  ⟨header.height, header.computeDigest listHash, header.stateRoot⟩

/-- The node runs its handler `n` times. -/
def handlerSteps (n : Nat) : List (NodeEvent (List Nat)) := List.replicate n .task

/-- The outputs for two commitments whose second one has the index `index`. -/
def indexedOutputs (index : UInt32) : List (BatchProofCircuitOutput (List Nat)) :=
  [(twoCommitmentsOutput index).toCircuitOutput [9]]

/-- Two L2 blocks, and an L1 block with the two commitments and their proof. -/
def provenEvents : List (NodeEvent (List Nat)) :=
  [.l2Block (storedBlockOf firstHeader), .l2Block (storedBlockOf secondHeader),
    .l1Block ⟨5, [9], (twoCommitments 2).sequencerCommitments.map .commitment ++ [.proof [0]]⟩] ++
  handlerSteps 8

theorem isCircuitOutput_indexed {index : UInt32}
    (h : applyL2BlocksFromSequencerCommitments sampleEnv (twoCommitments index) =
      .ok (twoCommitmentsOutput index)) : ∀ output ∈ indexedOutputs index,
      IsCircuitOutput Unit Unit Unit Unit listHash (fun _ => True) output := by
  intro output houtput
  exact ⟨sampleEnv, twoCommitments index, _, [9], rfl, LightClient.rsMerkle_sampleEnv, h,
    mem_singleton.mp houtput, trivial⟩

/-- The theorem applied to two commitments and the proof of both: the proven status is the end of
the second commitment. -/
theorem finality_two_commitments :
    ∃ s : NodeState (List Nat), runNode (sampleNode (indexedOutputs 2)) (NodeState.initial [6])
        provenEvents = .ok s ∧ s.ledger.getHighestL2HeightForStatus .proven none = some ⟨2, 2⟩ ∧
      (∃ c, s.ledger.getCommitmentByIndex 2 = some c ∧ c.l2EndBlockNumber = 2) ∧
      Covered s.ledger 1 := by
  obtain ⟨s, hs, hproven⟩ : ∃ s, runNode (sampleNode (indexedOutputs 2)) (NodeState.initial [6])
      provenEvents = .ok s ∧ s.ledger.getHighestL2HeightForStatus .proven none = some ⟨2, 2⟩ := by
    decide +kernel
  obtain ⟨hcommitment, hcovered, -⟩ := (finality_sound listHash_injective
    (sampleNode_sound (isCircuitOutput_indexed (by decide +kernel))) [6] provenEvents
    (pairwise_singleton _ _) (by
      intro block _ p _ output hverified
      rw [mem_singleton.mp (mem_of_verified hverified)]
      rfl)).2 s _ hs hproven
  exact ⟨s, hs, hproven, hcommitment, hcovered 1 (by decide) (by decide)⟩

/-- The header of a third block. -/
def thirdHeader : L2Header (List Nat) :=
  sampleHeader 3 (secondHeader.computeDigest listHash) [5]

/-- The outputs of two circuit runs. The first one is over two commitments with index 1, so it has
the range `(1, 1)` and two hashes. The second one is over block 3, after a commitment to block 2
with index 1. -/
def shortRangeOutputs : List (BatchProofCircuitOutput (List Nat)) :=
  [(twoCommitmentsOutput 1).toCircuitOutput [9],
    (LightClient.oneBlockOutput secondHeader thirdHeader 1).toCircuitOutput [9]]

/-- Three L2 blocks, and an L1 block with the commitment to the first one and the first proof. -/
def shortRangeEvents : List (NodeEvent (List Nat)) :=
  [.l2Block (storedBlockOf firstHeader), .l2Block (storedBlockOf secondHeader),
    .l2Block (storedBlockOf thirdHeader),
    .l1Block ⟨5, [9], [.commitment (LightClient.oneBlockCommitment firstHeader 1), .proof [0]]⟩] ++
  handlerSteps 7

/-- Both proofs are outputs of the circuit. The handler compares only the first hash of the first
proof, with the commitment to block 1, and takes the height 2 from the second one. So the proven
status is height 2 at index 1, where the commitment ends at height 1 and the committed status is
height 1. The next proof makes the node panic. -/
theorem finality_short_range :
    AcceptsOnlyCircuitOutputs Unit Unit Unit Unit (sampleNode shortRangeOutputs) ∧
    (∃ s c, runNode (sampleNode shortRangeOutputs) (NodeState.initial [6]) shortRangeEvents =
        .ok s ∧ s.ledger.getHighestL2HeightForStatus .proven none = some ⟨2, 1⟩ ∧
      s.ledger.getCommitmentByIndex 1 = some c ∧ c.l2EndBlockNumber = 1 ∧
      s.ledger.getHighestL2HeightForStatus .committed none = some ⟨1, 1⟩) ∧
    runNode (sampleNode shortRangeOutputs) (NodeState.initial [6])
      (shortRangeEvents ++ [.l1Block ⟨6, [10], [.proof [1]]⟩] ++ handlerSteps 2) =
      Outcome.panic provenAboveCommitted := by
  refine ⟨sampleNode_sound fun output houtput => ?_, ?_, ?_⟩
  · simp only [shortRangeOutputs, mem_cons, not_mem_nil, or_false] at houtput
    rcases houtput with rfl | rfl
    · exact ⟨sampleEnv, twoCommitments 1, _, [9], rfl, LightClient.rsMerkle_sampleEnv,
        by decide +kernel, rfl, trivial⟩
    · exact ⟨sampleEnv, LightClient.oneBlockInput secondHeader thirdHeader 1, _, [9], rfl,
        LightClient.rsMerkle_sampleEnv, by decide +kernel, rfl, trivial⟩
  · obtain ⟨s, hs, hproven, hcommitment, hcommitted⟩ : ∃ s, runNode (sampleNode shortRangeOutputs)
        (NodeState.initial [6]) shortRangeEvents = .ok s ∧
        s.ledger.getHighestL2HeightForStatus .proven none = some ⟨2, 1⟩ ∧
        s.ledger.getCommitmentByIndex 1 = some (LightClient.oneBlockCommitment firstHeader 1) ∧
        s.ledger.getHighestL2HeightForStatus .committed none = some ⟨1, 1⟩ := by
      decide +kernel
    exact ⟨s, _, hs, hproven, hcommitment, rfl, hcommitted⟩
  · have hrun : (runNode (sampleNode shortRangeOutputs) (NodeState.initial [6])
        (shortRangeEvents ++ [.l1Block ⟨6, [10], [.proof [1]]⟩] ++ handlerSteps 2)).map
        (fun s => s.halted) = .error (.panic provenAboveCommitted) := by decide +kernel
    exact Outcome.map_eq_error.mp hrun

end Citrea.Proofs.FullNode
