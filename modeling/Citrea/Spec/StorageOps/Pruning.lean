import Citrea.Spec.FullNode.Ledger

/-!
# `Citrea.Spec.StorageOps.Pruning`: the pruning of the ledger

`prune_l2_blocks` of `storage-ops/src/pruning/ledger/l2_blocks.rs`. The iterator reads the table as
it was at the start, so the loop is a fold over the records up to the first one above the bound.
Errors of the database and the values that are not read are left out.
-/

namespace Citrea.Spec.StorageOps

open Lib
open Spec.FullNode (Ledger StoredL2Block)

/-- `NodeType`. -/
inductive NodeType where
  | sequencer
  | fullNode
  | batchProver
  | lightClientProver
deriving DecidableEq

/-- The ledger with the two other tables that hold data of L2 blocks. -/
structure LedgerDb (H V : Type) [TableKey H] extends Ledger H where
  l2BlockByHash : Table H UInt64
  proverStateDiffs : Table UInt64 V

namespace LedgerDb

variable {H V : Type} [TableKey H]

/-- The body of the loop, for a node that is not a light client prover. -/
def pruneL2Block (nodeType : NodeType) (db : LedgerDb H V)
    (record : UInt64 × StoredL2Block H) : LedgerDb H V :=
  { db with
    l2BlockByNumber := db.l2BlockByNumber.delete record.1
    l2BlockByHash := db.l2BlockByHash.delete record.2.hash
    proverStateDiffs :=
      if nodeType = .batchProver then db.proverStateDiffs.delete record.1 else db.proverStateDiffs
    -- The key of a status is an L1 height, and the number of the L2 block is taken for it.
    l2StatusHeights :=
      if nodeType = .fullNode then
        Function.update db.l2StatusHeights .committed
          ((db.l2StatusHeights .committed).delete record.1)
      else db.l2StatusHeights }

/-- The records of the L2 blocks up to the bound. -/
def recordsUpTo (db : LedgerDb H V) (upToBlock : UInt64) : List (UInt64 × StoredL2Block H) :=
  db.l2BlockByNumber.entries.takeWhile fun record => record.1 ≤ upToBlock

/-- `prune_l2_blocks`. A light client prover returns after the first record. -/
def pruneL2Blocks (nodeType : NodeType) (upToBlock : UInt64) (db : LedgerDb H V) :
    LedgerDb H V × Nat :=
  match nodeType, db.recordsUpTo upToBlock with
  | .lightClientProver, record :: _ =>
    ({ db with l2BlockByNumber := db.l2BlockByNumber.delete record.1 }, 0)
  | _, records => (records.foldl (pruneL2Block nodeType) db, records.length)

end LedgerDb

end Citrea.Spec.StorageOps
