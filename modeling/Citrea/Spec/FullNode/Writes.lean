import Citrea.Lib.Crash
import Citrea.Spec.FullNode.Ledger

/-!
# `Citrea.Spec.FullNode.Writes`: the single writes of the L1 block handler

A crash can come between any two writes to the database. So the handler is modelled by the list of
its writes, and a `LedgerWrite` is one of them. `FullLedger` has the two tables that only the writes
touch: the commitments that were found in an L1 block, and the L2 range of a Merkle root.
-/

namespace Citrea.Spec.FullNode

open Lib Spec.BatchProof

/-- The ledger with `CommitmentsByNumber` and the ranges of
`set_l2_range_by_commitment_merkle_root`. -/
structure FullLedger (H : Type) where
  ledger : Ledger H
  commitmentsByNumber : Table UInt64 (List (SequencerCommitment H))
  l2RangeByCommitmentMerkleRoot : H → Option (UInt64 × UInt64)

/-- One write. -/
inductive LedgerWrite (H : Type) where
  | setL1HeightOfL1Hash (hash : H) (height : UInt64)
  | updateCommitmentsOnDaSlot (height : UInt64) (c : SequencerCommitment H)
  | setL2RangeByCommitmentMerkleRoot (root : H) (range : UInt64 × UInt64)
  | putCommitmentByIndex (c : SequencerCommitment H)
  | setL2HeightStatus (status : L2HeightStatus) (l1Height : UInt64) (val : L2HeightAndIndex)
  | storePendingCommitment (c : SequencerCommitment H) (foundInL1Height : UInt64)
  | removePendingCommitment (index : UInt32)
  | updateVerifiedProofData (l1Height : UInt64) (proof : Bytes) (output : BatchProofCircuitOutput H)
  | storePendingProof (range : UInt32 × UInt32) (proof : Bytes) (foundInL1Height : UInt64)
  | removePendingProof (range : UInt32 × UInt32)
  | setLastScannedL1Height (height : UInt64)

section
variable {H : Type} [DecidableEq H]

/-- The ledger after a write. -/
def LedgerWrite.applyLedger (w : LedgerWrite H) (l : Ledger H) : Ledger H :=
  match w with
  | .setL1HeightOfL1Hash hash height => l.setL1HeightOfL1Hash hash height
  | .updateCommitmentsOnDaSlot _ _ => l
  | .setL2RangeByCommitmentMerkleRoot _ _ => l
  | .putCommitmentByIndex c => l.putCommitmentByIndex c
  | .setL2HeightStatus status l1Height val => l.setL2HeightStatus status l1Height val
  | .storePendingCommitment c found => l.storePendingCommitment c found
  | .removePendingCommitment index => l.removePendingCommitment index
  | .updateVerifiedProofData l1Height proof output =>
    l.updateVerifiedProofData l1Height proof output
  | .storePendingProof range proof found => l.storePendingProof range proof found
  | .removePendingProof range => l.removePendingProof range
  | .setLastScannedL1Height height => l.setLastScannedL1Height height

namespace FullLedger

/-- The tables after genesis. -/
def genesis (stateRoot : H) : FullLedger H := ⟨Ledger.genesis stateRoot, .empty, fun _ => none⟩

/-- `update_commitments_on_da_slot`. A commitment that is there already is not added again. -/
def updateCommitmentsOnDaSlot (f : FullLedger H) (height : UInt64) (c : SequencerCommitment H) :
    FullLedger H :=
  match f.commitmentsByNumber.get height with
  | some commitments =>
    if c ∈ commitments then f
    else { f with commitmentsByNumber := f.commitmentsByNumber.put height (commitments ++ [c]) }
  | none => { f with commitmentsByNumber := f.commitmentsByNumber.put height [c] }

/-- `set_l2_range_by_commitment_merkle_root`. -/
def setL2RangeByCommitmentMerkleRoot (f : FullLedger H) (root : H) (range : UInt64 × UInt64) :
    FullLedger H :=
  { f with
    l2RangeByCommitmentMerkleRoot := fun r =>
      if r = root then some range else f.l2RangeByCommitmentMerkleRoot r }

end FullLedger

/-- All tables after a write. -/
def LedgerWrite.apply (w : LedgerWrite H) (f : FullLedger H) : FullLedger H :=
  match w with
  | .updateCommitmentsOnDaSlot height c => f.updateCommitmentsOnDaSlot height c
  | .setL2RangeByCommitmentMerkleRoot root range => f.setL2RangeByCommitmentMerkleRoot root range
  | w => { f with ledger := w.applyLedger f.ledger }

/-- The write of a status. -/
def LedgerWrite.isStatus : LedgerWrite H → Bool
  | .setL2HeightStatus _ _ _ => true
  | _ => false

end

end Citrea.Spec.FullNode
