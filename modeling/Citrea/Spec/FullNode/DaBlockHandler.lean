import Citrea.Spec.FullNode.Writes
import Citrea.Spec.LightClient.Circuit

/-!
# `Citrea.Spec.FullNode.DaBlockHandler`: the L1 block handler of a full node

`crates/fullnode/src/da_block_handler.rs`. The node is compiled without overflow checks, so
arithmetic on heights wraps.

A function of the handler first reads, and then it makes its writes in a fixed order. So it is a
function from the ledger to the list of its writes.

`process_l1_block` is cut into tasks: one for each commitment or proof of the block, the two loops
over what is pending, and the end. Each turn of a loop is a task too. `NodeState` holds the ledger,
the L1 blocks that wait, and the tasks of the first of them. Between any two tasks the node can
sync L2 blocks, or it can restart and begin the block again. So every state in which another part
of the node can see the ledger is a state of `runNode`.
-/

namespace Citrea.Spec.FullNode

open Lib Spec.BatchProof
open Spec.LightClient (Network networkToDevMode indexRange)

/-- `ProcessingResult`. -/
inductive ProcessingResult where
  | success
  | discarded
  | pending
deriving DecidableEq

/-- `ProcessingError`, with the constructors that the handler uses. The first one is a
`HaltingError`, the last one is `Other`, and the rest are `SkippableError`s. -/
inductive ProcessingError (H : Type) where
  | merkleRootMismatch (calculated expected : H)
  | unknownL1Hash
  | sequencerCommitmentMissingForProof (index : UInt32)
  | sequencerCommitmentHashMismatch (calculated expected : H)
  | preStateRootMismatch (initial start : H)
  | other (message : String)
deriving DecidableEq

/-- What the handler calls, and its configuration. A code commitment is a value of a type `C`. -/
structure FullNodeEnv (H C : Type) where
  sha256 : HashInput H → H
  merkleRoot : List H → Option H
  extractOutput : (proof : Bytes) → Option (BatchProofCircuitOutput H)
  verify : (proof : Bytes) → (codeCommitment : C) → (devMode : Bool) → Bool
  codeCommitmentsBySpec : SpecId → Option C
  forks : List Fork
  network : Network

/-- `ProofOrCommitment`. -/
inductive ProofOrCommitment (H : Type) where
  | proof (proof : Bytes)
  | commitment (c : SequencerCommitment H)

/-- An L1 block: its header, and what `extract_zk_proofs_and_sequencer_commitments` returns for
it. -/
structure L1Block (H : Type) where
  height : UInt64
  hash : H
  commitmentsAndProofs : List (ProofOrCommitment H)

/-- `get_tangerine_activation_height_non_zero`. -/
def getTangerineActivationHeightNonZero {ε : Type} (forks : List Fork) : Outcome ε UInt64 := do
  let firstFork ← expect forks[0]? "index out of bounds"
  if SpecId.tangerine.toNat < firstFork.specId.toNat then pure 1
  else do
    let fork ← expect (forks.find? fun f => f.specId = .tangerine)
      "Tangerine should exist"
    pure (if fork.activationHeight = 0 then 1 else fork.activationHeight)

/-- `fork_from_block_number`. -/
def forkFromBlockNumber {ε : Type} (forks : List Fork) (blockNumber : UInt64) : Outcome ε Fork :=
  expect forks[forkPosFromBlockNumber forks blockNumber]? "index out of bounds"

section
variable {H C : Type} [DecidableEq H] (env : FullNodeEnv H C)

/-! ### Commitments -/

/-- The check that a commitment has a greater height and a greater index than the committed
one. -/
def advancesCommitted (l : Ledger H) (c : SequencerCommitment H) : Bool :=
  match l.getHighestL2HeightForStatus .committed none with
  | none => true
  | some committed =>
    committed.height < c.l2EndBlockNumber && committed.commitmentIndex < c.index

/-- The first L2 height of a commitment, or none when its predecessor is missing. -/
def startL2Height (l : Ledger H) (c : SequencerCommitment H) :
    Outcome (ProcessingError H) (Option UInt64) :=
  if c.index = 1 then do
    let height ← getTangerineActivationHeightNonZero env.forks
    pure (some height)
  else pure ((l.getCommitmentByIndex (c.index - 1)).map fun p => p.l2EndBlockNumber + 1)

/-- The writes of `process_sequencer_commitment` for a commitment that it accepts. -/
def acceptWrites (currentL1BlockHeight foundInL1BlockHeight : UInt64) (c : SequencerCommitment H)
    (startHeight : UInt64) : List (LedgerWrite H) :=
  [.updateCommitmentsOnDaSlot foundInL1BlockHeight c,
    .setL2RangeByCommitmentMerkleRoot c.merkleRoot (startHeight, c.l2EndBlockNumber),
    .putCommitmentByIndex c,
    .setL2HeightStatus .committed currentL1BlockHeight ⟨c.l2EndBlockNumber, c.index⟩]

/-- The part of `process_sequencer_commitment` after the start height is known. -/
def commitRange (currentL1BlockHeight foundInL1BlockHeight : UInt64)
    (c : SequencerCommitment H) (startHeight : UInt64) (l : Ledger H) :
    Outcome (ProcessingError H) (ProcessingResult × List (LedgerWrite H)) :=
  if l.getHeadL2BlockHeight.getD 0 < c.l2EndBlockNumber then
    if (l.getPendingCommitmentByIndex c.index).isNone then
      pure (.pending, [.storePendingCommitment c foundInL1BlockHeight])
    else pure (.pending, [])
  else do
    let blocks ← l.getL2BlockRange startHeight c.l2EndBlockNumber
    match env.merkleRoot (blocks.map (·.hash)) with
    | none => err (.other "Could not calculate l2 block tree root")
    | some root =>
      if root = c.merkleRoot then
        pure (.success, acceptWrites currentL1BlockHeight foundInL1BlockHeight c startHeight)
      else err (.merkleRootMismatch root c.merkleRoot)

/-- The part of `process_sequencer_commitment` after the checks against the stored commitments. -/
def commitFresh (currentL1BlockHeight foundInL1BlockHeight : UInt64) (c : SequencerCommitment H)
    (l : Ledger H) : Outcome (ProcessingError H) (ProcessingResult × List (LedgerWrite H)) := do
  match ← startL2Height env l c with
  | none => pure (.pending, [.storePendingCommitment c foundInL1BlockHeight])
  | some startHeight =>
    commitRange env currentL1BlockHeight foundInL1BlockHeight c startHeight l

/-- `process_sequencer_commitment`. -/
def processSequencerCommitment (currentL1BlockHeight foundInL1BlockHeight : UInt64)
    (c : SequencerCommitment H) (l : Ledger H) :
    Outcome (ProcessingError H) (ProcessingResult × List (LedgerWrite H)) :=
  if (l.getCommitmentByIndex c.index).isSome then pure (.discarded, [])
  else if !advancesCommitted l c then pure (.discarded, [])
  else commitFresh env currentL1BlockHeight foundInL1BlockHeight c l

/-! ### Proofs -/

/-- The commitment of an index, and whether it is pending. -/
def knownCommitment (l : Ledger H) (index : UInt32) :
    Outcome (ProcessingError H) (SequencerCommitment H × Bool) :=
  match l.getCommitmentByIndex index, l.getPendingCommitmentByIndex index with
  | some c, _ => pure (c, false)
  | none, some (c, _) => pure (c, true)
  | none, none => err (.sequencerCommitmentMissingForProof index)

/-- `verify_sequencer_commitment_hash_by_index`: the end height of the commitment, and whether the
commitment is pending. -/
def verifySequencerCommitmentHashByIndex (l : Ledger H) (index : UInt32) (expectedHash : H) :
    Outcome (ProcessingError H) (UInt64 × Bool) := do
  let (c, proofIsPending) ← knownCommitment l index
  ensure (c.serializeAndCalculateSha256 env.sha256 = expectedHash)
    (.sequencerCommitmentHashMismatch (c.serializeAndCalculateSha256 env.sha256) expectedHash)
  pure (c.l2EndBlockNumber, proofIsPending)

/-- The end height of the commitment before a proof, and whether that commitment is pending. -/
def previousL2EndBlockNumber (l : Ledger H) (output : BatchProofCircuitOutput H) :
    Outcome (ProcessingError H) (UInt64 × Bool) :=
  match output.previousCommitmentIndex with
  | some index => do
    let hash ← expect output.previousCommitmentHash
      "If previous commitment index is present, then the previous commitment hash must be present too"
    verifySequencerCommitmentHashByIndex env l index hash
  | none => do
    let height ← getTangerineActivationHeightNonZero env.forks
    pure (height - 1, false)

/-- The check of the hashes of a proof against the commitments of its range. The range and the
hashes are zipped. The result says whether a commitment is pending. -/
def verifyCommitmentHashes (l : Ledger H) (output : BatchProofCircuitOutput H)
    (proofIsPending : Bool) : Outcome (ProcessingError H) Bool :=
  ((indexRange output.sequencerCommitmentIndexRange.1
    output.sequencerCommitmentIndexRange.2).zip output.sequencerCommitmentHashes).foldlM
    (fun pending item => do
      let (_, isPending) ← verifySequencerCommitmentHashByIndex env l item.1 item.2
      pure (pending || isPending)) proofIsPending

/-- The part of `process_tangerine_zk_proof` after the commitments of the proof are known. -/
def recordProof (currentL1BlockHeight foundInL1BlockHeight : UInt64) (rawProof : Bytes)
    (output : BatchProofCircuitOutput H) (proven : L2HeightAndIndex) (initialStateRoot : H)
    (previousEnd : UInt64) (l : Ledger H) :
    Outcome (ProcessingError H) (ProcessingResult × List (LedgerWrite H)) :=
  match l.getL2StateRoot previousEnd with
  | none => err (.other "Proof verification: Could not find state root for L2 height")
  | some startStateRoot =>
    if startStateRoot ≠ initialStateRoot then
      err (.preStateRootMismatch initialStateRoot startStateRoot)
    else if proven.commitmentIndex + 1 < output.sequencerCommitmentIndexRange.1 then
      pure (.pending, [.storePendingProof output.sequencerCommitmentIndexRange rawProof
        foundInL1BlockHeight])
    else
      pure (.success, [.updateVerifiedProofData foundInL1BlockHeight rawProof output,
        .setL2HeightStatus .proven currentL1BlockHeight
          ⟨output.lastL2Height, output.sequencerCommitmentIndexRange.2⟩])

/-- The part of `process_tangerine_zk_proof` after the checks against the statuses. -/
def checkProof (currentL1BlockHeight foundInL1BlockHeight : UInt64) (rawProof : Bytes)
    (output : BatchProofCircuitOutput H) (proven : L2HeightAndIndex) (initialStateRoot : H)
    (l : Ledger H) : Outcome (ProcessingError H) (ProcessingResult × List (LedgerWrite H)) := do
  let (previousEnd, previousIsPending) ← previousL2EndBlockNumber env l output
  let proofIsPending ← verifyCommitmentHashes env l output previousIsPending
  if proofIsPending then
    pure (.pending, [.storePendingProof output.sequencerCommitmentIndexRange rawProof
      foundInL1BlockHeight])
  else
    recordProof currentL1BlockHeight foundInL1BlockHeight rawProof output proven
      initialStateRoot previousEnd l

/-- The panic of `process_tangerine_zk_proof`. -/
def provenAboveCommitted : String := "Proven height above committed height"

/-- `process_tangerine_zk_proof`. -/
def processTangerineZkProof (currentL1BlockHeight foundInL1BlockHeight : UInt64)
    (initialStateRoot : H) (rawProof : Bytes) (output : BatchProofCircuitOutput H) (l : Ledger H) :
    Outcome (ProcessingError H) (ProcessingResult × List (LedgerWrite H)) :=
  if (l.getL1HeightOfL1Hash output.lastL1HashOnBitcoinLightClientContract).isNone then
    err .unknownL1Hash
  else
    let proven := (l.getHighestL2HeightForStatus .proven none).getD default
    if output.lastL2Height ≤ proven.height ∨
        output.sequencerCommitmentIndexRange.2 ≤ proven.commitmentIndex then
      pure (.discarded, [])
    else
      let committed := (l.getHighestL2HeightForStatus .committed none).getD default
      if proven.Above committed then Outcome.panic provenAboveCommitted
      else checkProof env currentL1BlockHeight foundInL1BlockHeight rawProof output proven
        initialStateRoot l

/-- `process_zk_proof`. -/
def processZkProof (currentL1BlockHeight foundInL1BlockHeight : UInt64) (proof : Bytes)
    (l : Ledger H) : Outcome (ProcessingError H) (ProcessingResult × List (LedgerWrite H)) :=
  match env.extractOutput proof with
  | none => pure (.discarded, [])
  | some output => do
    let fork ← forkFromBlockNumber env.forks output.lastL2Height
    let codeCommitment ← expect (env.codeCommitmentsBySpec fork.specId)
      "Proof public input must contain valid spec id"
    if env.verify proof codeCommitment (networkToDevMode env.network) then do
      let initialStateRoot ← expect output.stateRoots.head?
        "called `Option::unwrap()` on a `None` value"
      processTangerineZkProof env currentL1BlockHeight foundInL1BlockHeight initialStateRoot proof
        output l
    else pure (.discarded, [])

/-! ### The turns of the handler -/

/-- A commitment of the block. Commitments with index 0 are skipped. -/
def commitmentTrace (height : UInt64) (c : SequencerCommitment H) (l : Ledger H) :
    Outcome Empty (Trace (LedgerWrite H)) :=
  if c.index = 0 then pure ⟨[], false⟩
  else
    match processSequencerCommitment env height height c l with
    | .ok (_, writes) => pure ⟨writes, false⟩
    | .error (.error (.merkleRootMismatch _ _)) => pure ⟨[], true⟩
    | .error (.error _) => Outcome.panic "Failed to process sequencer commitment"
    | .error (.panic message) => Outcome.panic message

/-- A proof of the block. Errors are logged and skipped. -/
def proofTrace (height : UInt64) (proof : Bytes) (l : Ledger H) :
    Outcome Empty (Trace (LedgerWrite H)) :=
  match processZkProof env height height proof l with
  | .ok (_, writes) => pure ⟨writes, false⟩
  | .error (.error _) => pure ⟨[], false⟩
  | .error (.panic message) => Outcome.panic message

/-- Whether a pending commitment is tried again. -/
def processable (l : Ledger H) (index : UInt32) (c : SequencerCommitment H) : Bool :=
  if index = 1 then c.l2EndBlockNumber ≤ l.getHeadL2BlockHeight.getD 0
  else (l.getCommitmentByIndex (index - 1)).isSome

/-- What a loop does after a turn: go on, leave the loop, or stop the handler. -/
inductive LoopControl where
  | next
  | exit
  | halt

/-- One turn of the loop of `process_pending_commitments`: its writes, and how the loop goes on. -/
def retryCommitmentTurn (height : UInt64) (index : UInt32) (c : SequencerCommitment H)
    (foundInL1Height : UInt64) (l : Ledger H) :
    Outcome Empty (List (LedgerWrite H) × LoopControl) :=
  if processable l index c then
    match processSequencerCommitment env height foundInL1Height c l with
    | .ok (.success, writes) => pure (writes ++ [.removePendingCommitment index], .next)
    | .ok (.discarded, writes) => pure (writes ++ [.removePendingCommitment index], .next)
    | .ok (.pending, writes) => pure (writes, .next)
    | .error (.error (.merkleRootMismatch _ _)) => pure ([], .halt)
    | .error (.error _) => pure ([], .exit)
    | .error (.panic message) => Outcome.panic message
  else pure ([], .exit)

/-- One turn of the loop of `process_pending_proofs`. -/
def retryProofTurn (height : UInt64) (range : UInt32 × UInt32) (proof : Bytes)
    (foundInL1Height : UInt64) (l : Ledger H) :
    Outcome Empty (List (LedgerWrite H) × LoopControl) :=
  match processZkProof env height foundInL1Height proof l with
  | .ok (.success, writes) => pure (writes ++ [.removePendingProof range], .next)
  | .ok (.discarded, writes) => pure (writes ++ [.removePendingProof range], .next)
  | .ok (.pending, writes) => pure (writes, .exit)
  | .error (.error _) => pure ([], .exit)
  | .error (.panic message) => Outcome.panic message

/-! ### L1 blocks -/

/-- The tasks of `process_l1_block`. -/
inductive HandlerTask (H : Type) where
  | commitment (c : SequencerCommitment H)
  | proof (proof : Bytes)
  | pendingCommitments
  | retryCommitment (index : UInt32) (c : SequencerCommitment H) (foundInL1Height : UInt64)
  | pendingProofs
  | retryProof (range : UInt32 × UInt32) (proof : Bytes) (foundInL1Height : UInt64)
  | finish

def HandlerTask.isRetryCommitment : HandlerTask H → Bool
  | .retryCommitment _ _ _ => true
  | _ => false

def HandlerTask.isRetryProof : HandlerTask H → Bool
  | .retryProof _ _ _ => true
  | _ => false

/-- The tasks of a block at its start. -/
def L1Block.tasks (block : L1Block H) : List (HandlerTask H) :=
  block.commitmentsAndProofs.map (fun
    | .commitment c => .commitment c
    | .proof p => .proof p) ++ [.pendingCommitments, .pendingProofs, .finish]

/-- What is left after a task: the ledger and the tasks, and whether the handler has stopped. -/
structure TaskResult (H : Type) where
  ledger : Ledger H
  tasks : List (HandlerTask H)
  halted : Bool

/-- The result of a task with the trace `t`. -/
def TaskResult.ofTrace (rest : List (HandlerTask H)) (l : Ledger H) (t : Trace (LedgerWrite H)) :
    TaskResult H :=
  ⟨applyAll LedgerWrite.applyLedger t.writes l, if t.halted then [] else rest, t.halted⟩

/-- The result of one turn of a loop, where `isTurn` says which tasks are turns of the same loop. -/
def TaskResult.ofTurn (isTurn : HandlerTask H → Bool) (rest : List (HandlerTask H)) (l : Ledger H)
    (turn : List (LedgerWrite H) × LoopControl) : TaskResult H :=
  let l' := applyAll LedgerWrite.applyLedger turn.1 l
  match turn.2 with
  | .next => ⟨l', rest, false⟩
  | .exit => ⟨l', rest.dropWhile isTurn, false⟩
  | .halt => ⟨l', [], true⟩

/-- One task of the block at the L1 height `height`. -/
def runTask (height : UInt64) (task : HandlerTask H) (rest : List (HandlerTask H)) (l : Ledger H) :
    Outcome Empty (TaskResult H) :=
  match task with
  | .commitment c => do
    let trace ← commitmentTrace env height c l
    pure (.ofTrace rest l trace)
  | .proof proof => do
    let trace ← proofTrace env height proof l
    pure (.ofTrace rest l trace)
  | .pendingCommitments =>
    pure ⟨l, l.getPendingCommitments.map (fun e => .retryCommitment e.1 e.2.1 e.2.2) ++ rest,
      false⟩
  | .retryCommitment index c found => do
    let turn ← retryCommitmentTurn env height index c found l
    pure (.ofTurn HandlerTask.isRetryCommitment rest l turn)
  | .pendingProofs =>
    pure ⟨l, l.getPendingProofs.map (fun e => .retryProof e.1 e.2.1 e.2.2) ++ rest, false⟩
  | .retryProof range proof found => do
    let turn ← retryProofTurn env height range proof found l
    pure (.ofTurn HandlerTask.isRetryProof rest l turn)
  | .finish => pure ⟨l.setLastScannedL1Height height, rest, false⟩

/-! ### The node -/

/-- The node. `tasks` are the tasks of the first block of the queue, or none when the handler has
not begun with it. -/
structure NodeState (H : Type) where
  ledger : Ledger H
  queue : List (L1Block H)
  tasks : Option (List (HandlerTask H))
  halted : Bool

/-- What happens to the node. -/
inductive NodeEvent (H : Type) where
  | l2Block (block : StoredL2Block H)
  | l1Block (block : L1Block H)
  | task
  | restart

def NodeState.initial (genesisStateRoot : H) : NodeState H :=
  ⟨Ledger.genesis genesisStateRoot, [], none, false⟩

/-- The next step of the handler: it begins with the first block, runs the next task of it, or
takes it from the queue. -/
def runHandler (s : NodeState H) : Outcome Empty (NodeState H) :=
  match s.queue, s.tasks with
  | [], _ => pure s
  | block :: _, none =>
    pure { s with
      ledger := s.ledger.setL1HeightOfL1Hash block.hash block.height
      tasks := some block.tasks }
  | _ :: rest, some [] => pure { s with queue := rest, tasks := none }
  | block :: _, some (task :: rest) => do
    let result ← runTask env block.height task rest s.ledger
    pure { s with ledger := result.ledger, tasks := some result.tasks, halted := result.halted }

/-- One event. After a restart the L1 sync starts behind the last scanned height, so the block at
the front of the queue is begun again. -/
def stepNode (s : NodeState H) : NodeEvent H → Outcome Empty (NodeState H)
  | .l2Block block => pure { s with ledger := s.ledger.commitL2Block block }
  | .l1Block block => pure { s with queue := s.queue ++ [block] }
  | .task => if s.halted then pure s else runHandler env s
  | .restart => pure { s with tasks := none, halted := false }

/-- The node over a list of events. -/
def runNode (s : NodeState H) (events : List (NodeEvent H)) : Outcome Empty (NodeState H) :=
  events.foldlM (stepNode env) s

end

end Citrea.Spec.FullNode
