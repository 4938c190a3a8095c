import Mathlib.Data.List.Sort
import Citrea.Lib.Table
import Citrea.Spec.BatchProof.Circuit

/-!
# `Citrea.Spec.Sequencer.Commitment`: the commitment service of the sequencer

`crates/sequencer/src/commitment/{controller.rs,service.rs,helpers.rs}`, with
`merge_state_diffs` of `crates/common/src/utils.rs`.

Heights (`u64`) and commitment indices (`u32`) are natural numbers. The sums stay in range as long
as the chain has fewer than `2 ^ 32` blocks, since no index is above the end of its range
(`Tiling.index_le`). The one subtraction that can go below zero is the length of a range in
`get_commitment`, and `CommitmentRange.length` says what it is there. A `HashMap` gives its entries
back in an arbitrary order; here it is the order in which the keys came in, so that a merged state
diff has one serialization.

The service runs beside the production of blocks and waits for the DA layer. So its state is
explicit, and a `ServiceEvent` is one step: the production of a block, one turn of the loop in
`run` up to the moment when the DA layer has the commitment, the two writes that `commit` makes
after that, and a restart at any point between them.
-/

namespace Citrea.Spec.Sequencer

open Lib Spec.BatchProof

instance : TableKey Nat where
  code := id
  code_injective := Function.injective_id

/-! ### State diffs -/

/-- `StateDiff`. -/
abbrev StateDiff := CumulativeStateDiff

/-- `HashMap::insert`. -/
def insertEntry (diff : StateDiff) (entry : Bytes × Option Bytes) : StateDiff :=
  if diff.any (fun e => e.1 == entry.1) then
    diff.map fun e => if e.1 == entry.1 then entry else e
  else diff ++ [entry]

/-- `merge_state_diffs`. -/
def mergeStateDiffs (oldDiff newDiff : StateDiff) : StateDiff :=
  newDiff.foldl insertEntry (oldDiff.foldl insertEntry [])

/-- A byte vector in borsh. -/
def borshBytes (bytes : Bytes) : Bytes := leBytes 4 bytes.length ++ bytes

/-- A state diff in borsh. -/
def borshStateDiff (diff : StateDiff) : Bytes :=
  leBytes 4 diff.length ++ diff.flatMap fun entry =>
    borshBytes entry.1 ++
      match entry.2 with
      | none => [0]
      | some value => 1 :: borshBytes value

/-! ### The ledger -/

/-- `SequencerCommitment`. -/
structure Commitment (H : Type) where
  merkleRoot : H
  index : Nat
  l2EndBlockNumber : Nat
deriving DecidableEq

/-- `CommitmentRange`, an inclusive range of L2 heights. -/
structure CommitmentRange where
  start : Nat
  stop : Nat
deriving DecidableEq

/-- `end - start + 1` in `u64`. -/
def CommitmentRange.length (range : CommitmentRange) : Nat :=
  if range.start ≤ range.stop + 1 then range.stop + 1 - range.start
  else range.stop + 1 + 2 ^ 64 - range.start

/-- An L2 block, with the state diff that its execution had. -/
structure LedgerBlock (H : Type) where
  hash : H
  stateDiff : StateDiff

/-- The tables of the ledger that the service uses. The block at height `n + 1` is the `n`-th of
`l2Blocks`. -/
structure SequencerLedger (H : Type) where
  l2Blocks : List (LedgerBlock H)
  stateDiffs : Table Nat StateDiff
  commitments : Table Nat (Commitment H)

namespace SequencerLedger

variable {H : Type}

def empty : SequencerLedger H := ⟨[], Table.empty, Table.empty⟩

/-- `get_head_l2_block_height`, with 0 for no block. -/
def headL2BlockHeight (ledger : SequencerLedger H) : Nat := ledger.l2Blocks.length

/-- `get_state_diff`. -/
def getStateDiff (ledger : SequencerLedger H) (l2Height : Nat) : StateDiff :=
  (ledger.stateDiffs.get l2Height).getD []

/-- `set_state_diff`. -/
def setStateDiff (ledger : SequencerLedger H) (l2Height : Nat) (diff : StateDiff) :
    SequencerLedger H :=
  { ledger with stateDiffs := ledger.stateDiffs.put l2Height diff }

/-- `delete_state_diff_by_range`. -/
def deleteStateDiffByRange (ledger : SequencerLedger H) (range : CommitmentRange) :
    SequencerLedger H :=
  { ledger with
    stateDiffs :=
      (List.range' range.start (range.stop + 1 - range.start)).foldl Table.delete
        ledger.stateDiffs }

/-- The hashes of `get_l2_block_range`. -/
def getL2BlockHashes (ledger : SequencerLedger H) (range : CommitmentRange) : List H :=
  ((ledger.l2Blocks.drop (range.start - 1)).take (range.stop + 1 - range.start)).map
    LedgerBlock.hash

/-- `get_last_commitment`. -/
def getLastCommitment (ledger : SequencerLedger H) : Option (Commitment H) :=
  ledger.commitments.last?.map Prod.snd

/-- `put_commitment_by_index`. -/
def putCommitmentByIndex (ledger : SequencerLedger H) (c : Commitment H) : SequencerLedger H :=
  { ledger with commitments := ledger.commitments.put c.index c }

end SequencerLedger

/-! ### The controller -/

/-- `MAX_TX_BODY_SIZE`. -/
def maxTxBodySize : Nat := 397000

/-- `SAFE_MAX_UNCOMPRESSED_TXBODY_SIZE`. -/
def safeMaxUncompressedTxbodySize : Nat := maxTxBodySize * 2

/-- The configuration of the service, and the functions that it calls. `merkleRoot` is the root of
`rs_merkle`, which only an empty tree does not have. `tangerineHeight` is
`get_tangerine_activation_height_non_zero`. -/
structure CommitmentEnv (H : Type) where
  merkleRoot : List H → Option H
  merkleRoot_eq_none : ∀ leaves, merkleRoot leaves = none ↔ leaves = []
  compressBlob : Bytes → Bytes
  maxL2Blocks : Nat
  tangerineHeight : Nat
  tangerineHeight_pos : 0 < tangerineHeight

/-- `CommitmentController`. -/
structure CommitmentController where
  nextCommitmentIndex : Nat
  nextCommitmentStartHeight : Nat
  lastL2Height : Nat
  stateDiff : StateDiff
deriving DecidableEq

section
variable {H : Type} (env : CommitmentEnv H)

/-- `load_next_commitment_index_and_start_height`. -/
def loadNextCommitmentIndexAndStartHeight (ledger : SequencerLedger H) : Nat × Nat :=
  match ledger.getLastCommitment with
  | some commitment => (commitment.index + 1, commitment.l2EndBlockNumber + 1)
  | none => (1, env.tangerineHeight)

/-- `CommitmentController::new`. -/
def CommitmentController.new (ledger : SequencerLedger H) : CommitmentController :=
  let (nextIndex, nextStartHeight) := loadNextCommitmentIndexAndStartHeight env ledger
  ⟨nextIndex, nextStartHeight, nextStartHeight - 1, []⟩

/-- The two size checks on an accumulated diff: neither returns early. -/
def exceedsThreshold (accumulatedDiff : StateDiff) : Bool :=
  let uncompressedStateDiff := borshStateDiff accumulatedDiff
  safeMaxUncompressedTxbodySize < uncompressedStateDiff.length &&
    maxTxBodySize < (env.compressBlob uncompressedStateDiff).length

/-- `check_state_diff_threshold`: the accumulated diff after the call, and the range. -/
def checkStateDiffThreshold (ledger : SequencerLedger H) (c : CommitmentController)
    (l2Height : Nat) : StateDiff × Option CommitmentRange :=
  let stateDiff := ledger.getStateDiff l2Height
  let accumulatedDiff := mergeStateDiffs c.stateDiff stateDiff
  if exceedsThreshold env accumulatedDiff then
    (stateDiff, some ⟨c.nextCommitmentStartHeight, l2Height - 1⟩)
  else (accumulatedDiff, none)

/-- `check_max_l2_blocks`. -/
def checkMaxL2Blocks (c : CommitmentController) (l2Height : Nat) :
    Outcome Empty (Option CommitmentRange) := do
  let l2Start := c.nextCommitmentStartHeight
  assert (l2Start ≤ l2Height) "Got L2 height lower than the last committed L2 height."
  if 1 + l2Height - l2Start < env.maxL2Blocks then pure none
  else pure (some ⟨l2Start, l2Height⟩)

/-- `should_commit`. -/
def shouldCommit (ledger : SequencerLedger H) (c : CommitmentController) (l2Height : Nat) :
    Outcome Empty (CommitmentController × Option (Nat × CommitmentRange)) := do
  let lastL2Height := c.lastL2Height + 1
  assert (l2Height = lastL2Height)
    "CommitmentController is called with non-consecutive l2 heights"
  let (accumulatedDiff, threshold) := checkStateDiffThreshold env ledger c l2Height
  match threshold with
  | some range =>
    pure (⟨c.nextCommitmentIndex + 1, range.stop + 1, lastL2Height, accumulatedDiff⟩,
      some (c.nextCommitmentIndex, range))
  | none => do
    match ← checkMaxL2Blocks env c l2Height with
    | some range =>
      pure (⟨c.nextCommitmentIndex + 1, range.stop + 1, lastL2Height, []⟩,
        some (c.nextCommitmentIndex, range))
    | none =>
      pure (⟨c.nextCommitmentIndex, c.nextCommitmentStartHeight, lastL2Height,
        accumulatedDiff⟩, none)

/-! ### The service -/

/-- `get_commitment`. -/
def getCommitment (commitmentIndex : Nat) (commitmentRange : CommitmentRange)
    (l2BlockHashes : List H) : Outcome String (Commitment H) := do
  assert (commitmentRange.length = l2BlockHashes.length)
    "Sequencer: Soft confirmation hashes length does not match the commitment info"
  match env.merkleRoot l2BlockHashes with
  | none => err "Couldn't compute merkle root"
  | some merkleRoot => pure ⟨merkleRoot, commitmentIndex, commitmentRange.stop⟩

/-- Where `commit` is: not called, waiting for the write of the commitment that the DA layer has,
or before the removal of the state diffs. -/
inductive CommitPhase (H : Type) where
  | idle
  | sent (commitment : Commitment H) (range : CommitmentRange)
  | stored (range : CommitmentRange)

/-- A commitment that the DA layer has, with the range that it was made for. -/
structure Submission (H : Type) where
  commitment : Commitment H
  range : CommitmentRange

/-- The service, the ledger and what the DA layer has in its mempool or chain. -/
structure CommitmentService (H : Type) where
  ledger : SequencerLedger H
  controller : CommitmentController
  phase : CommitPhase H
  da : List (Submission H)

/-- The service on an empty ledger. -/
def CommitmentService.initial : CommitmentService H :=
  ⟨.empty, .new env .empty, .idle, []⟩

/-- The body of the loop in `run` for the next height, and `commit` up to the submission. -/
def checkNextHeight (s : CommitmentService H) : Outcome Empty (CommitmentService H) := do
  let (controller, decision) ←
    shouldCommit env s.ledger s.controller (s.controller.lastL2Height + 1)
  match decision with
  | none => pure { s with controller }
  | some (index, range) => do
    let commitment ←
      (getCommitment env index range (s.ledger.getL2BlockHashes range)).expectOk
        "Failed to submit commitment"
    pure { s with
      controller
      phase := .sent commitment range
      da := s.da ++ [⟨commitment, range⟩] }

/-- `dedup` on a sorted vector. -/
def dedupAdjacent {α : Type} [DecidableEq α] : List α → List α
  | [] => []
  | [a] => [a]
  | a :: b :: rest => if a = b then dedupAdjacent (b :: rest) else a :: dedupAdjacent (b :: rest)

/-- The write of one commitment that the DA layer has. -/
def storeFromDa (ledger : SequencerLedger H) (c : Commitment H) :
    Outcome Empty (SequencerLedger H) := do
  let l2StartBlockNumber ←
    if c.index = 1 then pure env.tangerineHeight
    else do
      let previous ← expect (ledger.commitments.get (c.index - 1))
        "called `Option::unwrap()` on a `None` value"
      pure (previous.l2EndBlockNumber + 1)
  pure ((ledger.putCommitmentByIndex c).deleteStateDiffByRange
    ⟨l2StartBlockNumber, c.l2EndBlockNumber⟩)

/-- `store_commitments_from_da`, from what the DA layer has returned. -/
def storeCommitmentsFromDa [DecidableEq H] (ledger : SequencerLedger H)
    (found : List (Commitment H)) : Outcome Empty (SequencerLedger H) := do
  let lastIndex := (ledger.getLastCommitment.map Commitment.index).getD 0
  let sorted := found.insertionSort fun a b => a.index ≤ b.index
  let commitmentsToStore := (dedupAdjacent sorted).filter fun c => lastIndex < c.index
  assert (∀ c ∈ commitmentsToStore.head?, c.index = lastIndex + 1)
    "First commitment to store must be the next after last stored commitment"
  assert (∀ w ∈ commitmentsToStore.zip commitmentsToStore.tail, w.1.index + 1 = w.2.index)
    "Commitments to store must be consecutive"
  commitmentsToStore.foldlM (storeFromDa env) ledger

/-- The start of `run`. On the first start there is nothing to recover. An error of the DA layer
(`none`) is only logged. -/
def restartService [DecidableEq H] (s : CommitmentService H)
    (found : Option (List (Commitment H))) :
    Outcome Empty (CommitmentService H) := do
  let ledger ←
    if s.ledger.l2Blocks.isEmpty then pure s.ledger
    else
      match found with
      | none => pure s.ledger
      | some commitments => storeCommitmentsFromDa env s.ledger commitments
  pure { s with ledger, controller := .new env ledger, phase := .idle }

/-- What can happen. -/
inductive ServiceEvent (H : Type) where
  /-- The sequencer writes the state diff of a block and then the block. -/
  | produce (block : LedgerBlock H)
  /-- The sequencer stops between the two writes. -/
  | interrupted (stateDiff : StateDiff)
  /-- The loop of `run` takes the next height. -/
  | check
  /-- `commit` writes the commitment. -/
  | store
  /-- `commit` removes the state diffs of the range. -/
  | clear
  /-- The node restarts, and the DA layer returns the commitments that it has. -/
  | restart (found : Option (List (Commitment H)))

/-- One step. An event that is not due changes nothing. -/
def stepService [DecidableEq H] (s : CommitmentService H) :
    ServiceEvent H → Outcome Empty (CommitmentService H)
  | .produce block =>
    let ledger := s.ledger.setStateDiff (s.ledger.headL2BlockHeight + 1) block.stateDiff
    pure { s with ledger := { ledger with l2Blocks := ledger.l2Blocks ++ [block] } }
  | .interrupted stateDiff =>
    pure { s with ledger := s.ledger.setStateDiff (s.ledger.headL2BlockHeight + 1) stateDiff }
  | .check =>
    match s.phase with
    | .idle =>
      if s.controller.lastL2Height < s.ledger.headL2BlockHeight then checkNextHeight env s
      else pure s
    | _ => pure s
  | .store =>
    match s.phase with
    | .sent commitment range =>
      pure { s with
        ledger := s.ledger.putCommitmentByIndex commitment
        phase := .stored range }
    | _ => pure s
  | .clear =>
    match s.phase with
    | .stored range =>
      pure { s with ledger := s.ledger.deleteStateDiffByRange range, phase := .idle }
    | _ => pure s
  | .restart found => restartService env s found

/-- The service over a list of events. -/
def runService [DecidableEq H] (s : CommitmentService H) (events : List (ServiceEvent H)) :
    Outcome Empty (CommitmentService H) :=
  events.foldlM (stepService env) s

/-- The service over a list of blocks without restarts: each block is produced and checked, and a
commitment is written as soon as the DA layer has it. -/
def withoutRestarts [DecidableEq H] (blocks : List (LedgerBlock H)) :
    Outcome Empty (CommitmentService H) :=
  runService env (.initial env) (blocks.flatMap fun block =>
    [.produce block, .check, .store, .clear])

end

end Citrea.Spec.Sequencer
