import Citrea.Proofs.FullNode.Finality

/-!
# `Citrea.Proofs.FullNode.Canonical`: the commitment of an index

The light client stores the first commitment of an index in L1 order
(`storedCommitment_eq_first`). A full node stores a commitment at once or keeps it as pending, and
a later commitment of the same index can get ahead of a pending one in three ways: it replaces the
pending one while the predecessor is missing, it is stored at once while the pending one waits for
L2 blocks, or the first one was discarded because its end height was not above the committed height.

`canonical_commitment` is the agreement of the two. It holds if, whenever the node comes to a
commitment that is not the first of its index, the index has a stored commitment already
(`conflictsSettled`). `canonical_overwritten` is a run with a replaced pending commitment.
-/

namespace Citrea.Proofs.FullNode

open List Lib Spec Spec.BatchProof Spec.FullNode Proofs.BatchProof
open Proofs.LightClient (firstCommitment blobCommitments storedCommitment_eq_first)

variable {H C : Type} [DecidableEq H]

/-! ### The full node -/

variable {env : FullNodeEnv H C}

/-- The commitments of a block. -/
def blockCommitments (block : L1Block H) : List (SequencerCommitment H) :=
  block.commitmentsAndProofs.filterMap fun
    | .commitment c => some c
    | .proof _ => none

/-- If the next task is a commitment, it is the first one of its index, or the index has a stored
commitment. -/
def commitmentSettled (first : UInt32 → Option (SequencerCommitment H)) (s : NodeState H) : Bool :=
  match s.tasks with
  | some (.commitment c :: _) =>
    c.index == 0 || (s.ledger.getCommitmentByIndex c.index).isSome || first c.index == some c
  | _ => true

variable (env) in
/-- Every commitment that the node comes to is settled. -/
def conflictsSettled (first : UInt32 → Option (SequencerCommitment H)) :
    NodeState H → List (NodeEvent H) → Bool
  | _, [] => true
  | s, event :: rest =>
    commitmentSettled first s &&
      match stepNode env s event with
      | .ok s' => conflictsSettled first s' rest
      | .error _ => true

/-- The stored, the pending and the retried commitments are the first ones of their indices. -/
structure FirstOnly (first : UInt32 → Option (SequencerCommitment H)) (l : Ledger H)
    (tasks : List (HandlerTask H)) : Prop where
  stored : ∀ index c, l.getCommitmentByIndex index = some c → first index = some c
  pending : ∀ index c found, l.getPendingCommitmentByIndex index = some (c, found) →
    first c.index = some c
  retried : ∀ index c found, .retryCommitment index c found ∈ tasks → first c.index = some c

section Node
variable {first : UInt32 → Option (SequencerCommitment H)} {l l' : Ledger H}
  {rest : List (HandlerTask H)} {tasks : List (HandlerTask H)} {height : UInt64} {s : NodeState H}
  {found : UInt64} {c : SequencerCommitment H} {result : ProcessingResult} {s' : NodeState H}
  {writes : List (LedgerWrite H)}

/-- A commitment that is the first one of its index, or whose index is stored. -/
theorem FirstOnly.afterCommitment (h : FirstOnly first l tasks)
    (hc : l.getCommitmentByIndex c.index ≠ none ∨ first c.index = some c)
    (htrace : CommitmentTrace height found c l result writes) :
    FirstOnly first (applyAll LedgerWrite.applyLedger writes l) tasks := by
  have hfirst : ¬ CommitmentDone l c → first c.index = some c :=
    fun hfresh => hc.resolve_left fun hne => hne (not_commitmentDone.mp hfresh).1
  cases htrace with
  | discarded => exact h
  | waiting => exact h
  | pending fresh =>
    refine ⟨h.stored, fun index d foundAt hd => ?_, h.retried⟩
    rcases Table.get_put hd with ⟨-, heq⟩ | hold
    · rw [(Prod.mk.inj heq).1]
      exact hfirst fresh
    · exact h.pending index d foundAt hold
  | success fresh =>
    refine ⟨fun index d hd => ?_, h.pending, h.retried⟩
    rcases Table.get_put hd with ⟨rfl, rfl⟩ | hold
    · exact hfirst fresh
    · exact h.stored index d hold

/-- A proof does not touch the commitments. -/
theorem FirstOnly.afterProof (h : FirstOnly first l tasks) {proof : Bytes}
    (htrace : ProofTrace env height found proof l result writes) :
    FirstOnly first (applyAll LedgerWrite.applyLedger writes l) tasks := by
  cases htrace with
  | _ => exact ⟨h.stored, h.pending, h.retried⟩

omit [DecidableEq H] in
theorem FirstOnly.removed (h : FirstOnly first l tasks) (hremoved : Removed l l') :
    FirstOnly first l' tasks := by
  cases hremoved with
  | commitment =>
    exact ⟨h.stored, fun i d f hd => h.pending i d f (Table.get_delete hd), h.retried⟩
  | _ => exact ⟨h.stored, h.pending, h.retried⟩

omit [DecidableEq H] in
theorem FirstOnly.mono {left : List (HandlerTask H)} (h : FirstOnly first l tasks)
    (hsub : ∀ task ∈ left, task ∈ tasks) : FirstOnly first l left :=
  ⟨h.stored, h.pending, fun index c found hmem => h.retried index c found (hsub _ hmem)⟩

/-- A task keeps the invariant, if its commitment is settled. -/
theorem FirstOnly.taskStep {task : HandlerTask H} {result : TaskResult H}
    (h : FirstOnly first l (task :: rest))
    (hsettled : ∀ c, task = .commitment c → c.index ≠ 0 → l.getCommitmentByIndex c.index ≠ none ∨
      first c.index = some c) (hstep : TaskStep env height rest l task result) :
    FirstOnly first result.ledger result.tasks := by
  have hrest : FirstOnly first l rest := h.mono fun t ht => mem_cons_of_mem _ ht
  have hledger : FirstOnly first result.ledger rest := by
    cases hstep with
    | @commitment _ c _ _ _ _ tries trace removed =>
      have hc : l.getCommitmentByIndex c.index ≠ none ∨ first c.index = some c := by
        cases task with
        | commitment d =>
          obtain ⟨rfl, hzero⟩ := tries
          exact hsettled d rfl hzero
        | retryCommitment index d found =>
          obtain rfl := tries
          exact .inr (h.retried index d found mem_cons_self)
        | _ => exact tries.elim
      exact (hrest.afterCommitment hc trace).removed removed
    | proof _ trace removed => exact (hrest.afterProof trace).removed removed
    | _ => exact ⟨h.stored, h.pending, hrest.retried⟩
  refine ⟨hledger.stored, hledger.pending, fun index c found hmem => ?_⟩
  rcases hstep.mem_tasks hmem with hold | ⟨_, _, _, heq, hpending⟩ | ⟨_, _, _, heq, -⟩
  · exact hrest.retried index c found hold
  · obtain ⟨rfl, rfl, rfl⟩ := HandlerTask.retryCommitment.inj heq
    exact h.pending _ _ _ hpending
  · simp at heq

/-- The next task of a settled state. -/
theorem settled_of_tasks (h : commitmentSettled first s = true)
    (htasks : s.tasks = some (.commitment c :: rest)) (hindex : c.index ≠ 0) :
    s.ledger.getCommitmentByIndex c.index ≠ none ∨ first c.index = some c := by
  rw [commitmentSettled, htasks] at h
  simp only [Bool.or_eq_true, beq_iff_eq, hindex, false_or] at h
  exact h.imp_left fun hsome => Option.isSome_iff_ne_none.mp hsome

/-- The handler keeps the invariant in a settled state. -/
theorem FirstOnly.handlerStep (h : FirstOnly first s.ledger (s.tasks.getD []))
    (hsettled : commitmentSettled first s = true) (hstep : HandlerStep env s s') :
    FirstOnly first s'.ledger (s'.tasks.getD []) := by
  cases hstep with
  | idle => exact h
  | start block blocks queue_eq tasks_eq =>
    refine ⟨h.stored, h.pending, fun index c found hmem => ?_⟩
    -- the tasks of a block begin without a retry
    rcases mem_append.mp (show _ ∈ block.tasks from hmem) with hitem | hlast
    · obtain ⟨item, -, heq⟩ := mem_map.mp hitem
      cases item <;> simp at heq
    · simp at hlast
  | done block blocks queue_eq => exact h.mono fun task htask => absurd htask (by simp)
  | task block blocks queue_eq task left tasks_eq result step =>
    rw [tasks_eq] at h
    refine FirstOnly.taskStep (show FirstOnly first s.ledger (task :: left) from h) ?_ step
    rintro c rfl hindex
    exact settled_of_tasks hsettled tasks_eq hindex

/-- An event keeps the invariant in a settled state. -/
theorem FirstOnly.stepNode {event : NodeEvent H} (h : FirstOnly first s.ledger (s.tasks.getD []))
    (hsettled : commitmentSettled first s = true)
    (hstep : Spec.FullNode.stepNode env s event = .ok s') :
    FirstOnly first s'.ledger (s'.tasks.getD []) := by
  cases event with
  | l2Block block =>
    obtain rfl := Except.ok.inj hstep
    exact ⟨h.stored, h.pending, h.retried⟩
  | l1Block block =>
    obtain rfl := Except.ok.inj hstep
    exact h
  | task =>
    rw [Spec.FullNode.stepNode] at hstep
    split at hstep
    · obtain rfl := Except.ok.inj hstep
      exact h
    · exact h.handlerStep hsettled (runHandler_ok hstep)
  | restart =>
    obtain rfl := Except.ok.inj hstep
    exact h.mono fun task htask => absurd htask (by simp)

/-- The invariant holds after every run in which the commitments are settled. -/
theorem firstOnly_of_run {genesisStateRoot : H} {events : List (NodeEvent H)}
    (hsettled : conflictsSettled env first (NodeState.initial genesisStateRoot) events = true)
    (h : runNode env (NodeState.initial genesisStateRoot) events = .ok s) :
    FirstOnly first s.ledger (s.tasks.getD []) := by
  refine (foldlM_suffix (P := fun events s => conflictsSettled env first s events = true ∧
    FirstOnly first s.ledger (s.tasks.getD [])) ?_ events _ s h ⟨hsettled, ?_⟩).2
  · rintro event rest m t ⟨hm, hinv⟩ hstep
    rw [conflictsSettled, Bool.and_eq_true, hstep] at hm
    exact ⟨hm.2, hinv.stepNode hm.1 hstep⟩
  · constructor
    all_goals simp [NodeState.initial, Ledger.genesis, Ledger.getCommitmentByIndex,
      Ledger.getPendingCommitmentByIndex]

end Node

/-! ### Agreement -/

/-- Full node and light client agree on the commitment of an index. Take any events of a full node
and any run of a light client over L1 blocks with the same commitments of the sequencer. If every
commitment that the node comes to is the first one of its index or has a stored commitment at its
index, each commitment that the node stores is the first one of its index in L1 order, and the light
client stores it too. -/
theorem canonical_commitment (genesisStateRoot : H) (events : List (NodeEvent H))
    (hsettled : conflictsSettled env (firstCommitment ((l1Blocks events).flatMap blockCommitments))
      (NodeState.initial genesisStateRoot) events = true)
    {s : NodeState H} (h : runNode env (NodeState.initial genesisStateRoot) events = .ok s)
    {lcEnv : LightClient.LightClientEnv H} {cfg : LightClient.LightClientConfig H}
    {blocks : List (LightClient.L1Block H)}
    (hsame : blocks.map (fun b => b.blobs.flatMap (blobCommitments lcEnv cfg)) =
      (l1Blocks events).map blockCommitments) {t : LightClient.LightClientState H}
    (hclient : LightClient.runL1Blocks lcEnv cfg LightClient.LightClientState.initial blocks =
      .ok t) (k : UInt32) (c : SequencerCommitment H)
    (hc : s.ledger.getCommitmentByIndex k = some c) :
    firstCommitment ((l1Blocks events).flatMap blockCommitments) k = some c ∧
    LightClient.SequencerCommitmentAccessor.get k t.storage = some c := by
  have hfirst := (firstOnly_of_run hsettled h).stored k c hc
  refine ⟨hfirst, ?_⟩
  rw [storedCommitment_eq_first hclient, flatMap_def, hsame, ← flatMap_def]
  exact hfirst

/-! ### Two runs -/

/-- A commitment to the blocks 2 and 3 with the index 2. -/
def twoBlockCommitment : SequencerCommitment (List Nat) :=
  ⟨listHash (.node (secondHeader.computeDigest listHash) (thirdHeader.computeDigest listHash)),
    2, 3⟩

/-- Three L2 blocks, and an L1 block with the given commitments. -/
def committedEvents (commitments : List (SequencerCommitment (List Nat))) :
    List (NodeEvent (List Nat)) :=
  [.l2Block (storedBlockOf firstHeader), .l2Block (storedBlockOf secondHeader),
    .l2Block (storedBlockOf thirdHeader), .l1Block ⟨5, [9], commitments.map .commitment⟩] ++
  handlerSteps 9

/-- The L1 block for a light client with `n` commitments. -/
def committedBlock (n : Nat) : LightClient.L1Block (List Nat) :=
  ⟨[9], (List.range n).map fun i => LightClient.commitmentBlob i.toUInt8⟩

/-- The first commitment of index 1, and then two of index 2. -/
def settledCommitments : List (SequencerCommitment (List Nat)) :=
  [LightClient.oneBlockCommitment firstHeader 1, twoBlockCommitment,
    LightClient.oneBlockCommitment secondHeader 2]

/-- The theorem applied to a conflict at index 2 that comes after the predecessor: both store the
first commitment. -/
theorem canonical_of_settled :
    ∃ s t, runNode (sampleNode []) (NodeState.initial [6]) (committedEvents settledCommitments) =
        .ok s ∧ LightClient.runL1Blocks (LightClient.sampleLightClient settledCommitments [])
        LightClient.sampleConfig LightClient.LightClientState.initial [committedBlock 3] = .ok t ∧
      s.ledger.getCommitmentByIndex 2 = some twoBlockCommitment ∧
      LightClient.SequencerCommitmentAccessor.get 2 t.storage = some twoBlockCommitment := by
  obtain ⟨s, hs, hstored⟩ : ∃ s, runNode (sampleNode []) (NodeState.initial [6])
      (committedEvents settledCommitments) = .ok s ∧
      s.ledger.getCommitmentByIndex 2 = some twoBlockCommitment := by decide +kernel
  obtain ⟨t, ht, -⟩ : ∃ t, LightClient.runL1Blocks
      (LightClient.sampleLightClient settledCommitments []) LightClient.sampleConfig
      LightClient.LightClientState.initial [committedBlock 3] = .ok t ∧ True := by decide +kernel
  exact ⟨s, t, hs, ht, hstored, (canonical_commitment [6] (committedEvents settledCommitments)
    (by decide +kernel) hs (by decide +kernel) ht 2 _ hstored).2⟩

/-- Two commitments of index 2, and then the one of index 1. -/
def outOfOrderCommitments : List (SequencerCommitment (List Nat)) :=
  [twoBlockCommitment, LightClient.oneBlockCommitment secondHeader 2,
    LightClient.oneBlockCommitment firstHeader 1]

/-- Both commitments of index 2 come before the one of index 1. The node keeps them as pending for
the missing predecessor, under the same key, so that the second one replaces the first one and is
stored after the commitment of index 1. The light client stores the first one. -/
theorem canonical_overwritten : ∃ s t, runNode (sampleNode []) (NodeState.initial [6])
        (committedEvents outOfOrderCommitments) = .ok s ∧
      LightClient.runL1Blocks (LightClient.sampleLightClient outOfOrderCommitments [])
        LightClient.sampleConfig LightClient.LightClientState.initial [committedBlock 3] = .ok t ∧
      [committedBlock 3].map (fun b => b.blobs.flatMap (blobCommitments
        (LightClient.sampleLightClient outOfOrderCommitments []) LightClient.sampleConfig)) =
        (l1Blocks (committedEvents outOfOrderCommitments)).map blockCommitments ∧
      s.ledger.getCommitmentByIndex 2 = some (LightClient.oneBlockCommitment secondHeader 2) ∧
      firstCommitment ((l1Blocks (committedEvents outOfOrderCommitments)).flatMap
        blockCommitments) 2 = some twoBlockCommitment ∧
      LightClient.SequencerCommitmentAccessor.get 2 t.storage = some twoBlockCommitment ∧
      LightClient.oneBlockCommitment secondHeader 2 ≠ twoBlockCommitment := by
  obtain ⟨s, hs, hstored⟩ : ∃ s, runNode (sampleNode []) (NodeState.initial [6])
      (committedEvents outOfOrderCommitments) = .ok s ∧ s.ledger.getCommitmentByIndex 2 =
        some (LightClient.oneBlockCommitment secondHeader 2) := by decide +kernel
  obtain ⟨t, ht, hfirst⟩ : ∃ t, LightClient.runL1Blocks
      (LightClient.sampleLightClient outOfOrderCommitments []) LightClient.sampleConfig
      LightClient.LightClientState.initial [committedBlock 3] = .ok t ∧
      LightClient.SequencerCommitmentAccessor.get 2 t.storage = some twoBlockCommitment := by
    decide +kernel
  exact ⟨s, t, hs, ht, by decide +kernel, hstored, by decide +kernel, hfirst, by decide +kernel⟩

end Citrea.Proofs.FullNode
