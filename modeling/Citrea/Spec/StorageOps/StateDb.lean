import Citrea.Lib.Table
import Citrea.Spec.Bitcoin.Transaction
import Mathlib.Data.List.Sort

/-!
# `Citrea.Spec.StorageOps.StateDb`: the tables of the state and the rollback of them

`StateDB` of `sov-db/src/state_db.rs`, `compute_state_update` and `commit` of
`sov-state/src/prover_storage.rs`, and `rollback_state_db` of `storage-ops/src/rollback/state.rs`.

The state DB has the nodes of the tree in `JmtNodes`, the values in `JmtValues` and the keys of the
key hashes in `KeyHashToKey`. The nodes are in the order of their versions, because the encoded key
of a node starts with the version in big-endian order. The key of a value is encoded with its length
in front, so the versions of one key are next to each other, and `get_prev` finds the newest one.

The tree is the `jmt` crate. `Jmt` is what the storage calls of it, and `JmtSpec` is what it
does. The tree reads the nodes of the database and nothing else when it puts a set of values.
Versions are natural numbers.
-/

namespace Citrea.Spec.StorageOps

open List Lib

/-- `jmt::storage::Node`, without the contents that the databases do not look at. -/
inductive Node (H : Type) where
  | null
  | internal
  | leaf (keyHash : H)
deriving DecidableEq

/-- `jmt::storage::NodeKey`. -/
structure NodeKey (P : Type) where
  version : Nat
  nibblePath : P
deriving DecidableEq

/-- `JmtNodes`, the newest versions first. -/
structure NodeTable (P H : Type) where
  entries : List (NodeKey P × Node H)
  sorted : entries.Pairwise fun a b => b.1.version ≤ a.1.version ∧ a.1 ≠ b.1

namespace NodeTable

variable {P H : Type}

def empty : NodeTable P H := ⟨[], .nil⟩

/-- The node under a key. -/
def get [DecidableEq P] (t : NodeTable P H) (key : NodeKey P) : Option (Node H) :=
  (t.entries.find? fun e => e.1 = key).map Prod.snd

/-- The largest version that has a node: the version of the last key. -/
def largestVersion (t : NodeTable P H) : Option Nat := t.entries.head?.map fun e => e.1.version

/-- A write. It replaces the node under the key. -/
def put [DecidableEq P] (t : NodeTable P H) (key : NodeKey P) (node : Node H) : NodeTable P H where
  entries := t.entries.filter (fun e => key.version < e.1.version) ++
    (key, node) :: t.entries.filter (fun e => e.1.version ≤ key.version ∧ e.1 ≠ key)
  sorted := by
    rw [pairwise_append, pairwise_cons]
    refine ⟨t.sorted.filter _, ⟨?_, t.sorted.filter _⟩, ?_⟩
    · intro e he
      have hbelow : e.1.version ≤ key.version ∧ e.1 ≠ key := by
        simpa using (mem_filter.mp he).2
      exact ⟨hbelow.1, hbelow.2.symm⟩
    · intro e he e' he'
      have habove : key.version < e.1.version := by simpa using (mem_filter.mp he).2
      have hbelow : e'.1.version ≤ key.version := by
        rcases mem_cons.mp he' with rfl | he'
        · exact Nat.le_refl _
        · have hfilter : e'.1.version ≤ key.version ∧ e'.1 ≠ key := by
            simpa using (mem_filter.mp he').2
          exact hfilter.1
      refine ⟨by omega, fun hsame => ?_⟩
      rw [hsame] at habove
      omega

/-- The writes of a batch. -/
def putAll [DecidableEq P] (t : NodeTable P H) (nodes : List (NodeKey P × Node H)) :
    NodeTable P H :=
  nodes.foldl (fun t e => t.put e.1 e.2) t

/-- `delete_range_raw`: the versions from `start` up to but not including `stop`. -/
def deleteRange (t : NodeTable P H) (start stop : Nat) : NodeTable P H :=
  ⟨t.entries.filter fun e => ¬(start ≤ e.1.version ∧ e.1.version < stop), t.sorted.filter _⟩

end NodeTable

/-- `NodeBatch`. The values are under their version and key hash, and `none` is a deletion. -/
structure NodeBatch (P H : Type) where
  nodes : List (NodeKey P × Node H)
  values : List ((Nat × H) × Option Bytes)

/-- The part of the `jmt` crate that the storage calls. -/
structure Jmt (P H : Type) where
  /-- `KeyHash::with::<DefaultHasher>`. -/
  keyHash : Bytes → H
  /-- The empty nibble path. -/
  rootPath : P
  /-- `put_value_set` over the nodes of a database. -/
  putValueSet : (NodeKey P → Option (Node H)) → List (H × Option Bytes) → Nat → NodeBatch P H

section
variable {P H : Type} [DecidableEq P]

/-- The nodes after the writes of a batch. -/
def withNodes (get : NodeKey P → Option (Node H)) (nodes : List (NodeKey P × Node H)) :
    NodeKey P → Option (Node H) :=
  nodes.foldl (fun get e key => if key = e.1 then some e.2 else get key) get

/-- The nodes that the tree itself wrote, from the empty database on, one set of values for each
version below `next`. -/
inductive Built (jmt : Jmt P H) : (NodeKey P → Option (Node H)) → Nat → Prop where
  | empty : Built jmt (fun _ => none) 0
  | put {get : NodeKey P → Option (Node H)} {next : Nat} (h : Built jmt get next)
      (set : List (H × Option Bytes)) (hset : (set.map Prod.fst).Nodup) :
      Built jmt (withNodes get (jmt.putValueSet get set next).nodes) (next + 1)

/-- The documented behaviour of the tree, for the nodes that it wrote itself.

- `keyHash_injective`: no two keys have the same hash;
- `version`: the nodes of a batch are new nodes of the version;
- `nodup`: a batch has one node under a key;
- `root`: each version has a root;
- `values`: the values of a batch are the given ones, also the deletions;
- `leaf_of_put`: a key that is put has a new leaf;
- `no_leaf_of_delete`: a key that is deleted has no new leaf. A leaf of another key can be new, if
  it takes the place of the subtree that the key was in. -/
structure JmtSpec (jmt : Jmt P H) : Prop where
  keyHash_injective : Function.Injective jmt.keyHash
  version : ∀ {get : NodeKey P → Option (Node H)} {next : Nat} {set : List (H × Option Bytes)},
    Built jmt get next → (set.map Prod.fst).Nodup →
      ∀ e ∈ (jmt.putValueSet get set next).nodes, e.1.version = next
  nodup : ∀ {get : NodeKey P → Option (Node H)} {next : Nat} {set : List (H × Option Bytes)},
    Built jmt get next → (set.map Prod.fst).Nodup →
      ((jmt.putValueSet get set next).nodes.map Prod.fst).Nodup
  root : ∀ {get : NodeKey P → Option (Node H)} {next : Nat} {set : List (H × Option Bytes)},
    Built jmt get next → (set.map Prod.fst).Nodup →
      ∃ node, (⟨next, jmt.rootPath⟩, node) ∈ (jmt.putValueSet get set next).nodes
  values : ∀ {get : NodeKey P → Option (Node H)} {next : Nat} {set : List (H × Option Bytes)},
    Built jmt get next → (set.map Prod.fst).Nodup →
      (jmt.putValueSet get set next).values.Perm (set.map fun e => ((next, e.1), e.2))
  leaf_of_put : ∀ {get : NodeKey P → Option (Node H)} {next : Nat} {set : List (H × Option Bytes)},
    Built jmt get next → (set.map Prod.fst).Nodup → ∀ {hash : H} {value : Bytes},
      (hash, some value) ∈ set → ∃ key, (key, Node.leaf hash) ∈ (jmt.putValueSet get set next).nodes
  no_leaf_of_delete : ∀ {get : NodeKey P → Option (Node H)} {next : Nat}
      {set : List (H × Option Bytes)},
    Built jmt get next → (set.map Prod.fst).Nodup → ∀ {hash : H},
      (hash, none) ∈ set → ∀ key, (key, Node.leaf hash) ∉ (jmt.putValueSet get set next).nodes

end

/-- The tables of the state DB. -/
structure StateDb (P H : Type) where
  /-- `JmtNodes`. -/
  nodes : NodeTable P H
  /-- `JmtValues`. -/
  values : Versioned Bytes (Option Bytes)
  /-- `KeyHashToKey`. -/
  preimages : H → Option Bytes

/-- The writes of a block to the provable state, `iter_ordered_writes`. A key has one write. -/
structure StateWrites where
  writes : List (Bytes × Option Bytes)
  nodup : (writes.map Prod.fst).Nodup

/-- `ProverStateUpdate`. -/
structure ProverStateUpdate (P H : Type) where
  nodeBatch : NodeBatch P H
  keyPreimages : List (H × Bytes)

namespace StateDb

section
variable {P H : Type}

def empty : StateDb P H := ⟨NodeTable.empty, Versioned.empty, fun _ => none⟩

/-- `next_version`. -/
def nextVersion (db : StateDb P H) : Nat := db.nodes.largestVersion.getD 0 + 1

/-- `get_value_option_by_key`. -/
def getValueOptionByKey (db : StateDb P H) (version : Nat) (key : Bytes) : Option Bytes :=
  match db.values.latest key version with
  | some value => value
  | none => none

/-- `put_preimages`. -/
def putPreimages [DecidableEq H] (db : StateDb P H) (items : List (H × Bytes)) : StateDb P H :=
  { db with
      preimages := items.foldl (fun preimages e hash => if hash = e.1 then some e.2 else
        preimages hash) db.preimages }

/-- `write_node_batch`. It fails if a value has no preimage. -/
def writeNodeBatch [DecidableEq P] (db : StateDb P H) (batch : NodeBatch P H) :
    Option (StateDb P H) := do
  let values ← batch.values.mapM fun e => do
    let key ← db.preimages e.1.2
    pure ((key, e.1.1), e.2)
  pure { db with
    nodes := db.nodes.putAll batch.nodes
    values := values.foldl (fun t e => t.put e.1.1 e.1.2 e.2) db.values }

end

section
variable {P H : Type} [DecidableEq P] [DecidableEq H] (jmt : Jmt P H)

/-- The root of version 0, which `compute_state_update` writes to an empty tree. -/
def handleEmptyJmt (db : StateDb P H) (version : Nat) : Outcome Unit (StateDb P H) :=
  match db.nodes.get ⟨version, jmt.rootPath⟩ with
  | some _ => pure db
  | none => do
    assert (version = 0) "assertion `left == right` failed"
    expect (db.writeNodeBatch (jmt.putValueSet db.nodes.get [] version))
      "db write must succeed"

/-- `compute_state_update`, for the writes of the log. -/
def computeStateUpdate (db : StateDb P H) (version : Nat) (log : StateWrites) :
    Outcome Unit (StateDb P H × ProverStateUpdate P H) := do
  let db ← handleEmptyJmt jmt db version
  let _ ← expect (db.nodes.get ⟨version, jmt.rootPath⟩)
    "Previous root hash was just populated"
  let batch := log.writes.map fun e => (jmt.keyHash e.1, e.2)
  let keyPreimages := log.writes.map fun e => (jmt.keyHash e.1, e.1)
  pure (db, ⟨jmt.putValueSet db.nodes.get batch (version + 1), keyPreimages⟩)

/-- `commit`, for the state DB. -/
def commit (db : StateDb P H) (version : Nat) (update : ProverStateUpdate P H) :
    Outcome Unit (StateDb P H) := do
  assert (∀ e ∈ update.nodeBatch.values, e.1.1 = version + 1)
    "State update must be for next version"
  expect ((db.putPreimages update.keyPreimages).writeNodeBatch update.nodeBatch)
    "db write must succeed"

/-- One block on the latest version: `create_storage_for_next_l2_height`, the state update of the
block, and `finalize_storage`. -/
def executeBlock (db : StateDb P H) (log : StateWrites) : Outcome Unit (StateDb P H) := do
  let version := db.nextVersion - 1
  let (db, update) ← computeStateUpdate jmt db version log
  commit db version update

/-- Blocks one after the other. -/
def executeBlocks (db : StateDb P H) (logs : List StateWrites) : Outcome Unit (StateDb P H) :=
  logs.foldlM (executeBlock jmt) db

end

section
variable {P H : Type}

/-- The records that the loop of `rollback_state_db` collects: from the last node down to the target
version, the values of the leaves. -/
def leafValues (db : StateDb P H) (targetVersion : Nat) : List (Bytes × Nat) :=
  (db.nodes.entries.takeWhile fun e => ¬e.1.version ≤ targetVersion).filterMap fun e =>
    match e.2 with
    | .null | .internal => none
    | .leaf keyHash => (db.preimages keyHash).map fun key => (key, e.1.version)

/-- `rollback_state_db`. -/
def rollbackStateDb (db : StateDb P H) (targetVersion : Nat) : Outcome Unit (StateDb P H) := do
  let last ← expect db.nodes.largestVersion "called `Option::unwrap()` on a `None` value"
  let lastVersion := last + 1
  let values := (db.leafValues targetVersion).foldl (fun t e => t.delete e.1 e.2) db.values
  let nodes := if lastVersion > targetVersion
    then db.nodes.deleteRange (targetVersion + 1) lastVersion
    else db.nodes
  pure { db with nodes := nodes, values := values }

end

end StateDb

/-! ### The rollback of a light client

`Rollback::execute` of `storage-ops/src/rollback/mod.rs` for a light client prover, with
`LightClientLedgerRollback` of `rollback/node/light_client.rs` and `rollback_native_db` of
`rollback/native.rs`.

`execute` spawns the rollback of the ledger as a task of its own. It goes on to read the version of
the state DB and the last scanned height, spawns the rollbacks of the state DB and of the native DB,
and waits for the three tasks. A schedule says which task takes its next step. The tasks of the
state DB and of the native DB take one step, because no other task uses these databases.

The proofs are under a `SlotNumber` that the default codec encodes: borsh writes the least
significant byte first, and the store compares the bytes from the front.
-/

/-- `SlotNumber`, as the key of a table with the default codec. -/
structure SlotNumber where
  height : UInt64
deriving DecidableEq

instance : TableKey SlotNumber where
  code := fun slot => beNat (leBytes 8 slot.height.toNat)
  code_injective := by
    intro a b h
    have hreverse := congrArg (leBytes 8) h
    have hlength : ∀ n : Nat, (leBytes 8 n).reverse.length = 8 := by simp
    have ha := leBytes_ofLeBytes (leBytes 8 a.height.toNat).reverse
    have hb := leBytes_ofLeBytes (leBytes 8 b.height.toNat).reverse
    rw [hlength] at ha hb
    have hbytes : leBytes 8 a.height.toNat = leBytes 8 b.height.toNat :=
      reverse_injective (ha.symm.trans (hreverse.trans hb))
    have hheight := leBytes_inj (by simpa using a.height.toNat_lt)
      (by simpa using b.height.toNat_lt) hbytes
    have hsame := UInt64.toNat_inj.mp hheight
    cases a
    cases b
    exact congrArg SlotNumber.mk hsame

/-- The databases of a light client. -/
structure Databases (P H Proof : Type) where
  /-- `LightClientProofBySlotNumber`. -/
  proofs : Table SlotNumber Proof
  /-- `ProverLastScannedSlot`. -/
  lastScanned : Option UInt64
  state : StateDb P H
  /-- `ModuleAccessoryState` of the native DB. -/
  native : Versioned Bytes (Option Bytes)

/-- `rollback_slots_by_number`: the loop from the last key down to the first height that is not
above the target. -/
def rollbackSlotsByNumber {Proof : Type} (l1Target : UInt64) (proofs : Table SlotNumber Proof) :
    Table SlotNumber Proof :=
  (proofs.entries.reverse.takeWhile fun e => ¬e.1.height ≤ l1Target).foldl
    (fun proofs e => proofs.delete e.1) proofs

/-- `rollback_native_db`: the loop over all entries deletes those above the target version. -/
def rollbackNativeDb (native : Versioned Bytes (Option Bytes)) (targetVersion : Nat) :
    Versioned Bytes (Option Bytes) :=
  fun key version => if version > targetVersion then none else native key version

/-- The error of `execute`: the target and the last scanned height. -/
inductive RollbackError where
  | notScanned (l1Target lastScanned : UInt64)
deriving DecidableEq

/-- Where `execute` is, with the local variables that it still needs. -/
inductive MainPoint where
  | start
  | versionRead (l1Target : UInt64) (stateDbLastVersion : Nat)
  | joining
  | returned (result : Except RollbackError Unit)
  | panicked

/-- Where the task of the ledger is. -/
inductive LedgerPoint where
  | start
  | slotsRolledBack
  | finished
deriving DecidableEq

/-- A task of the state DB or of the native DB. -/
inductive DbTask where
  | notSpawned
  | spawned (targetVersion : Nat)
  | finished
deriving DecidableEq

/-- The task was spawned, and has not finished. -/
def DbTask.Running (task : DbTask) : Prop := task ≠ .notSpawned ∧ task ≠ .finished

instance (task : DbTask) : Decidable task.Running :=
  inferInstanceAs (Decidable (task ≠ .notSpawned ∧ task ≠ .finished))

structure System (P H Proof : Type) where
  db : Databases P H Proof
  main : MainPoint
  ledger : LedgerPoint
  stateTask : DbTask
  nativeTask : DbTask

inductive RollbackTask where
  | main
  | ledger
  | state
  | native
deriving DecidableEq

namespace System

variable {P H Proof : Type}

/-- `execute` has spawned the task of the ledger. -/
def init (db : Databases P H Proof) : System P H Proof :=
  ⟨db, .start, .start, .notSpawned, .notSpawned⟩

/-- The checks of `execute` after the read of the last scanned height, and what it spawns. -/
def spawnRollbacks (s : System P H Proof) (l1Target : UInt64) (stateDbLastVersion : Nat)
    (lastScanned : UInt64) : System P H Proof :=
  if lastScanned < l1Target then
    { s with main := .returned (.error (.notScanned l1Target lastScanned)) }
  else if lastScanned = 0 then
    -- The return does not wait for the task of the ledger.
    { s with main := .returned (.ok ()) }
  else if lastScanned.toNat ≤ stateDbLastVersion then
    { s with main := .panicked }
  else
    let difference := lastScanned.toNat - l1Target.toNat
    let targetVersion := stateDbLastVersion - difference
    { s with
        main := .joining
        stateTask := .spawned targetVersion
        nativeTask := .spawned targetVersion }

/-- A step of `execute`. -/
def mainStep (l1Target : Option UInt64) (s : System P H Proof) : System P H Proof :=
  match s.main with
  | .start =>
    match l1Target with
    | some target => { s with main := .versionRead target (s.db.state.nextVersion - 1) }
    | none => { s with main := .joining }
  | .versionRead target version => s.spawnRollbacks target version (s.db.lastScanned.getD 0)
  | .joining =>
    if s.ledger = .finished ∧ ¬s.stateTask.Running ∧ ¬s.nativeTask.Running
    then { s with main := .returned (.ok ()) }
    else s
  | .returned _ => s
  | .panicked => s

/-- A step of `rollback_ledger`. -/
def ledgerStep (l1Target : Option UInt64) (s : System P H Proof) : System P H Proof :=
  match s.ledger, l1Target with
  | .start, some target =>
    { s with
        db := { s.db with proofs := rollbackSlotsByNumber target s.db.proofs }
        ledger := .slotsRolledBack }
  | .slotsRolledBack, some target =>
    { s with db := { s.db with lastScanned := some target }, ledger := .finished }
  | .start, none => { s with ledger := .finished }
  | _, _ => s

/-- The step of `rollback_state_db`. A panic ends the task, and `execute` ignores it. -/
def stateStep (s : System P H Proof) : System P H Proof :=
  match s.stateTask with
  | .spawned targetVersion =>
    { s with
        db := { s.db with
          state := match s.db.state.rollbackStateDb targetVersion with
            | .ok state => state
            | .error _ => s.db.state }
        stateTask := .finished }
  | _ => s

/-- The step of `rollback_native_db`. -/
def nativeStep (s : System P H Proof) : System P H Proof :=
  match s.nativeTask with
  | .spawned targetVersion =>
    { s with
        db := { s.db with native := rollbackNativeDb s.db.native targetVersion }
        nativeTask := .finished }
  | _ => s

/-- A step of one task. A task that is finished or waits does nothing. -/
def step (l1Target : Option UInt64) (s : System P H Proof) : RollbackTask → System P H Proof
  | .main => s.mainStep l1Target
  | .ledger => s.ledgerStep l1Target
  | .state => s.stateStep
  | .native => s.nativeStep

/-- The steps of a schedule. -/
def run (l1Target : Option UInt64) (schedule : List RollbackTask) (db : Databases P H Proof) :
    System P H Proof :=
  schedule.foldl (step l1Target) (init db)

end System

end Citrea.Spec.StorageOps
