import Citrea.Lib.Table
import Citrea.Spec.BatchProof.Circuit

/-!
# `Citrea.Spec.FullNode.Ledger`: the ledger of a full node

`crates/sovereign-sdk/full-node/db/sov-db/src/ledger_db/mod.rs`, the tables that the L1 block
handler of a full node reads. Each method of the source writes to one table, and a write takes
effect at once. Errors of the database are left out.

The source keeps the heights of both statuses in one table with the status as the first part of
the key. A seek for a status stays among the keys of that status, so here each status has its own
table.
-/

namespace Citrea.Spec.FullNode

open Lib Spec.BatchProof

/-- `StoredL2Block`, the fields that the handler reads. -/
structure StoredL2Block (H : Type) where
  height : UInt64
  hash : H
  stateRoot : H
deriving DecidableEq

/-- `size_of::<StoredL2Block>()` in the source. -/
def storedL2BlockSize : Nat := 208

/-- `L2HeightAndIndex`. -/
structure L2HeightAndIndex where
  height : UInt64
  commitmentIndex : UInt32
deriving DecidableEq

instance : Inhabited L2HeightAndIndex := ⟨⟨0, 0⟩⟩

/-- The derived comparison `a > b`: the height decides, and then the index. -/
def L2HeightAndIndex.Above (a b : L2HeightAndIndex) : Prop :=
  b.height < a.height ∨ (a.height = b.height ∧ b.commitmentIndex < a.commitmentIndex)

instance (a b : L2HeightAndIndex) : Decidable (a.Above b) :=
  inferInstanceAs (Decidable (_ ∨ _))

/-- `L2HeightStatus`. -/
inductive L2HeightStatus where
  | committed
  | proven
deriving DecidableEq

/-- The tables of the ledger. -/
structure Ledger (H : Type) where
  l2BlockByNumber : Table UInt64 (StoredL2Block H)
  l2GenesisStateRoot : Option H
  slotByHash : H → Option UInt64
  sequencerCommitmentByIndex : Table UInt32 (SequencerCommitment H)
  l2StatusHeights : L2HeightStatus → Table UInt64 L2HeightAndIndex
  pendingSequencerCommitments : Table UInt32 (SequencerCommitment H × UInt64)
  pendingProofs : Table (UInt32 × UInt32) (Bytes × UInt64)
  verifiedBatchProofsBySlotNumber : Table UInt64 (List (Bytes × BatchProofCircuitOutput H))
  proverLastScannedSlot : Option UInt64

namespace Ledger

variable {H ε : Type}

/-- The ledger after genesis. -/
def genesis (stateRoot : H) : Ledger H where
  l2BlockByNumber := .empty
  l2GenesisStateRoot := some stateRoot
  slotByHash := fun _ => none
  sequencerCommitmentByIndex := .empty
  l2StatusHeights := fun _ => .empty
  pendingSequencerCommitments := .empty
  pendingProofs := .empty
  verifiedBatchProofsBySlotNumber := .empty
  proverLastScannedSlot := none

/-! ### L2 blocks -/

/-- `commit_l2_block`. -/
def commitL2Block (l : Ledger H) (block : StoredL2Block H) : Ledger H :=
  { l with l2BlockByNumber := l.l2BlockByNumber.put block.height block }

/-- `get_head_l2_block_height`. -/
def getHeadL2BlockHeight (l : Ledger H) : Option UInt64 := l.l2BlockByNumber.last?.map Prod.fst

/-- `get_data_range` on a table with values of `size` bytes. The vector for the result is allocated
before the values are read. -/
def getDataRange {K V : Type} [TableKey K] (t : Table K V) (size maxItems : Nat) (start : K) :
    Outcome ε (List V) :=
  if 2 ^ 63 ≤ maxItems * size then Outcome.panic "capacity overflow"
  else pure (t.takeFrom start maxItems)

/-- `get_l2_block_range`. The difference of the bounds wraps. -/
def getL2BlockRange (l : Ledger H) (first last : UInt64) : Outcome ε (List (StoredL2Block H)) :=
  getDataRange l.l2BlockByNumber storedL2BlockSize (last + 1 - first).toNat first

/-- `get_l2_state_root`. -/
def getL2StateRoot (l : Ledger H) (l2Height : UInt64) : Option H :=
  if l2Height = 0 then l.l2GenesisStateRoot
  else (l.l2BlockByNumber.get l2Height).map (·.stateRoot)

/-! ### L1 blocks -/

/-- `set_l1_height_of_l1_hash`. -/
def setL1HeightOfL1Hash [DecidableEq H] (l : Ledger H) (hash : H) (height : UInt64) : Ledger H :=
  { l with slotByHash := fun h => if h = hash then some height else l.slotByHash h }

/-- `get_l1_height_of_l1_hash`. -/
def getL1HeightOfL1Hash (l : Ledger H) (hash : H) : Option UInt64 := l.slotByHash hash

/-- `set_last_scanned_l1_height`. -/
def setLastScannedL1Height (l : Ledger H) (height : UInt64) : Ledger H :=
  { l with proverLastScannedSlot := some height }

/-! ### Commitments -/

/-- `get_commitment_by_index`. -/
def getCommitmentByIndex (l : Ledger H) (index : UInt32) : Option (SequencerCommitment H) :=
  l.sequencerCommitmentByIndex.get index

/-- `put_commitment_by_index`. -/
def putCommitmentByIndex (l : Ledger H) (c : SequencerCommitment H) : Ledger H :=
  { l with sequencerCommitmentByIndex := l.sequencerCommitmentByIndex.put c.index c }

/-- `get_commitment_by_range`. A commitment has 48 bytes. The end of the range wraps as a `u32`, and
the difference of the bounds as a `u64`. -/
def getCommitmentByRange (l : Ledger H) (first last : UInt32) :
    Outcome ε (List (SequencerCommitment H)) :=
  getDataRange l.sequencerCommitmentByIndex 48
    ((last + 1).toUInt64 - first.toUInt64).toNat first

/-- `store_pending_commitment`. -/
def storePendingCommitment (l : Ledger H) (c : SequencerCommitment H) (foundInL1Height : UInt64) :
    Ledger H :=
  { l with
    pendingSequencerCommitments := l.pendingSequencerCommitments.put c.index (c, foundInL1Height) }

/-- `get_pending_commitment_by_index`. -/
def getPendingCommitmentByIndex (l : Ledger H) (index : UInt32) :
    Option (SequencerCommitment H × UInt64) := l.pendingSequencerCommitments.get index

/-- `get_pending_commitments`. The iterator reads the table as it is at this moment. -/
def getPendingCommitments (l : Ledger H) : List (UInt32 × SequencerCommitment H × UInt64) :=
  l.pendingSequencerCommitments.entries

/-- `remove_pending_commitment`. -/
def removePendingCommitment (l : Ledger H) (index : UInt32) : Ledger H :=
  { l with pendingSequencerCommitments := l.pendingSequencerCommitments.delete index }

/-! ### Proofs -/

/-- `store_pending_proof`. -/
def storePendingProof (l : Ledger H) (range : UInt32 × UInt32) (proof : Bytes)
    (foundInL1Height : UInt64) : Ledger H :=
  { l with pendingProofs := l.pendingProofs.put range (proof, foundInL1Height) }

/-- `get_pending_proofs`. -/
def getPendingProofs (l : Ledger H) : List ((UInt32 × UInt32) × Bytes × UInt64) :=
  l.pendingProofs.entries

/-- `remove_pending_proof`. -/
def removePendingProof (l : Ledger H) (range : UInt32 × UInt32) : Ledger H :=
  { l with pendingProofs := l.pendingProofs.delete range }

/-- `update_verified_proof_data`. -/
def updateVerifiedProofData (l : Ledger H) (l1Height : UInt64) (proof : Bytes)
    (output : BatchProofCircuitOutput H) : Ledger H :=
  let verified := (l.verifiedBatchProofsBySlotNumber.get l1Height).getD []
  { l with
    verifiedBatchProofsBySlotNumber :=
      l.verifiedBatchProofsBySlotNumber.put l1Height (verified ++ [(proof, output)]) }

/-! ### Statuses -/

/-- `get_highest_l2_height_for_status`. -/
def getHighestL2HeightForStatus (l : Ledger H) (status : L2HeightStatus)
    (l1Height : Option UInt64) : Option L2HeightAndIndex :=
  ((l.l2StatusHeights status).seekForPrev (l1Height.getD (2 ^ 64 - 1))).map Prod.snd

/-- `set_l2_height_status`. -/
def setL2HeightStatus (l : Ledger H) (status : L2HeightStatus) (l1Height : UInt64)
    (val : L2HeightAndIndex) : Ledger H :=
  { l with
    l2StatusHeights := fun s =>
      if s = status then (l.l2StatusHeights s).put l1Height val else l.l2StatusHeights s }

end Ledger

end Citrea.Spec.FullNode
