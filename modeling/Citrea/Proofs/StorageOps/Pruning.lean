import Citrea.Spec.StorageOps.Pruning

/-!
# `Citrea.Proofs.StorageOps.Pruning`: finality and range reads of a pruned ledger

`pruneL2Blocks_keeps_finality`: a full node that prunes its L2 blocks deletes nothing else, and
answers every query for a status as before, exactly if no committed height is stored under an L1
height that is the number of a pruned block.

`range_reads_exact_iff`: a range read counts keys. It reads beyond its range if keys of the range
are missing and later ones are stored.
-/

namespace Citrea.Proofs.StorageOps

open List Lib Lib.Table Spec.FullNode Spec.StorageOps Spec.StorageOps.LedgerDb

variable {H V : Type} [TableKey H] {db : LedgerDb H V} {upTo : UInt64}

theorem mem_recordsUpTo {record : UInt64 × StoredL2Block H} :
    record ∈ db.recordsUpTo upTo ↔ record ∈ db.l2BlockByNumber.entries ∧ record.1 ≤ upTo := by
  rw [recordsUpTo, takeWhile_entries, mem_filter, decide_eq_true_eq]
  intro a b hlt hb
  have hb : b.1.toNat ≤ upTo.toNat := of_decide_eq_true hb
  exact decide_eq_true (Nat.le_trans (Nat.le_of_lt hlt) hb)

/-- What the loop of a full node leaves of its tables. -/
def withoutRecords (db : LedgerDb H V) (records : List (UInt64 × StoredL2Block H)) : LedgerDb H V :=
  { db with
    l2BlockByNumber := db.l2BlockByNumber.deleteAll (records.map Prod.fst)
    l2BlockByHash := db.l2BlockByHash.deleteAll (records.map (·.2.hash))
    l2StatusHeights := Function.update db.l2StatusHeights .committed
      ((db.l2StatusHeights .committed).deleteAll (records.map Prod.fst)) }

theorem foldl_pruneL2Block (records : List (UInt64 × StoredL2Block H)) (db : LedgerDb H V) :
    records.foldl (pruneL2Block .fullNode) db = withoutRecords db records := by
  induction records generalizing db with
  | nil => simp [withoutRecords, deleteAll]
  | cons record rest ih =>
    rw [foldl_cons, ih]
    simp [pruneL2Block, withoutRecords, deleteAll]

theorem pruneL2Blocks_fullNode :
    (pruneL2Blocks .fullNode upTo db).1 = withoutRecords db (db.recordsUpTo upTo) :=
  foldl_pruneL2Block _ db

/-- Only L2 blocks up to the bound, and the entries of their hashes, are missing. -/
structure OnlyBlocksPruned (upTo : UInt64) (db db' : LedgerDb H V) : Prop where
  blocks : ∀ e ∈ db.l2BlockByNumber.entries, e ∉ db'.l2BlockByNumber.entries → e.1 ≤ upTo
  hashes : ∀ e ∈ db.l2BlockByHash.entries, e ∉ db'.l2BlockByHash.entries →
    ∃ record ∈ db.l2BlockByNumber.entries, record.1 ≤ upTo ∧ record.2.hash = e.1
  rest : db' = { db with
    l2BlockByNumber := db'.l2BlockByNumber, l2BlockByHash := db'.l2BlockByHash }

/-- The status heights are as before if none has the number of a pruned block as its key. -/
theorem withoutRecords_l2StatusHeights_iff :
    (withoutRecords db (db.recordsUpTo upTo)).l2StatusHeights = db.l2StatusHeights ↔
      ∀ record ∈ db.l2BlockByNumber.entries, record.1 ≤ upTo →
        (db.l2StatusHeights .committed).get record.1 = none := by
  show Function.update _ _ _ = _ ↔ _
  rw [Function.update_eq_self_iff]
  constructor
  · intro heq record hrecord hle
    by_contra hsome
    obtain ⟨value, hvalue⟩ := Option.ne_none_iff_exists'.mp hsome
    rw [← mem_entries, ← heq, mem_deleteAll] at hvalue
    exact hvalue.2 (mem_map_of_mem (mem_recordsUpTo.mpr ⟨hrecord, hle⟩))
  · intro hnone
    refine ext_mem fun e => mem_deleteAll.trans ⟨And.left, fun he => ⟨he, fun hmem => ?_⟩⟩
    obtain ⟨record, hrecord, hnumber⟩ := mem_map.mp hmem
    have hget := hnone record (mem_recordsUpTo.mp hrecord).1 (mem_recordsUpTo.mp hrecord).2
    rw [hnumber, mem_entries.mp he] at hget
    exact Option.some_ne_none _ hget

theorem pruneL2Blocks_keeps_finality (db : LedgerDb H V) (upTo : UInt64) : ((∀ status l1Height,
        (pruneL2Blocks .fullNode upTo db).1.getHighestL2HeightForStatus status l1Height =
          db.getHighestL2HeightForStatus status l1Height) ∧
      OnlyBlocksPruned upTo db (pruneL2Blocks .fullNode upTo db).1) ↔
    ∀ record ∈ db.l2BlockByNumber.entries, record.1 ≤ upTo →
      (db.l2StatusHeights .committed).get record.1 = none := by
  rw [← withoutRecords_l2StatusHeights_iff, pruneL2Blocks_fullNode]
  -- The lookups can answer the same after a deletion, but the table is then another one.
  refine ⟨fun h => by rw [h.2.rest], fun hstatus => ⟨fun status l1Height => by
    rw [Ledger.getHighestL2HeightForStatus, hstatus, Ledger.getHighestL2HeightForStatus], ?_⟩⟩
  constructor
  case blocks =>
    intro e he hgone
    obtain ⟨record, hrecord, hnumber⟩ := mem_map.mp (mem_of_deleteAll he hgone)
    exact hnumber ▸ (mem_recordsUpTo.mp hrecord).2
  case hashes =>
    intro e he hgone
    obtain ⟨record, hrecord, hhash⟩ := mem_map.mp (mem_of_deleteAll he hgone)
    have hpruned := mem_recordsUpTo.mp hrecord
    exact ⟨record, hpruned.1, hpruned.2, hhash⟩
  case rest =>
    show ({ db with
      l2BlockByNumber := _
      l2BlockByHash := _
      l2StatusHeights := (withoutRecords db _).l2StatusHeights } : LedgerDb H V) = _
    rw [hstatus]
    rfl

/-- A full node with two L2 blocks that is proven up to block 2, with commitments found at
`l1Height`. -/
def provenToTwo (l1Height : UInt64) : LedgerDb UInt64 Unit where
  toLedger := { Ledger.genesis 0 with
    l2BlockByNumber := (Table.empty.put 1 ⟨1, 11, 21⟩).put 2 ⟨2, 12, 22⟩
    l2StatusHeights := fun
      | .committed => Table.empty.put l1Height ⟨2, 1⟩
      | .proven => Table.empty.put (l1Height + 1) ⟨2, 1⟩ }
  l2BlockByHash := (Table.empty.put 11 1).put 12 2
  proverStateDiffs := .empty

/-- With the commitment in L1 block 2, the pruning of block 2 deletes the committed height. -/
theorem pruneL2Blocks_deletes_committed :
    (provenToTwo 2).getHighestL2HeightForStatus .proven none = some ⟨2, 1⟩ ∧
    (provenToTwo 2).getHighestL2HeightForStatus .committed none = some ⟨2, 1⟩ ∧
    (pruneL2Blocks .fullNode 2 (provenToTwo 2)).1.getHighestL2HeightForStatus .committed none =
      none := by
  decide +kernel

/-- With the commitment in L1 block 3 the answers are kept. -/
theorem provenToTwo_keeps_finality : (∀ status l1Height,
      (pruneL2Blocks .fullNode 2 (provenToTwo 3)).1.getHighestL2HeightForStatus status l1Height =
        (provenToTwo 3).getHighestL2HeightForStatus status l1Height) ∧
    OnlyBlocksPruned 2 (provenToTwo 3) (pruneL2Blocks .fullNode 2 (provenToTwo 3)).1 :=
  (pruneL2Blocks_keeps_finality (provenToTwo 3) 2).mpr (by decide +kernel)

/-! ### Range reads -/

/-- The vector can be allocated, and as many keys as are counted are in the range, or there are
fewer and no key above it. -/
def CountsRange {K V : Type} [TableKey K] (t : Table K V) (size maxItems : Nat)
    (first last : K) : Prop :=
  maxItems * size < 2 ^ 63 ∧ ((t.between first last).length = maxItems ∨
    (t.between first last).length < maxItems ∧ ∀ e ∈ t.entries,
      TableKey.code first ≤ TableKey.code e.1 → TableKey.code e.1 ≤ TableKey.code last)

theorem getDataRange_eq_iff {K V ε : Type} [TableKey K] {t : Table K V} {size n : Nat}
    {first last : K} :
    Ledger.getDataRange t size n first = (.ok (t.between first last) : Outcome ε (List V)) ↔
      CountsRange t size n first last := by
  rw [Ledger.getDataRange, CountsRange, ← takeFrom_eq_between_iff]
  split
  · next hlarge =>
    exact ⟨fun h => absurd h panic_ne_ok, fun h => absurd h.1 (by omega)⟩
  · next hsmall => rw [pure_eq_ok, and_iff_right (Nat.not_le.mp hsmall)]

theorem range_reads_exact_iff {H ε : Type} (l : Ledger H) :
    (∀ first last, l.getL2BlockRange first last =
        (.ok (l.l2BlockByNumber.between first last) : Outcome ε (List (StoredL2Block H))) ↔
      CountsRange l.l2BlockByNumber storedL2BlockSize (last + 1 - first).toNat first last) ∧
    ∀ first last, l.getCommitmentByRange first last =
        (.ok (l.sequencerCommitmentByIndex.between first last) : Outcome ε (List _)) ↔
      CountsRange l.sequencerCommitmentByIndex 48
        ((last + 1).toUInt64 - first.toUInt64).toNat first last :=
  ⟨fun _ _ => getDataRange_eq_iff, fun _ _ => getDataRange_eq_iff⟩

/-- L2 block 2 is missing, so the read of blocks 1 and 2 returns block 5. -/
theorem range_read_beyond_range :
    let l : Ledger Nat := { Ledger.genesis 0 with
      l2BlockByNumber := (Table.empty.put 1 ⟨1, 11, 21⟩).put 5 ⟨5, 15, 25⟩ }
    l.getL2BlockRange 1 2 = (.ok [⟨1, 11, 21⟩, ⟨5, 15, 25⟩] : Outcome Empty _) ∧
      l.l2BlockByNumber.between 1 2 = [⟨1, 11, 21⟩] := by
  decide +kernel

end Citrea.Proofs.StorageOps
