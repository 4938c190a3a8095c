import Citrea.Lib.StoreProg
import Citrea.Spec.BatchProof.Circuit
import Mathlib.Tactic.Linarith

/-!
# `Citrea.Spec.Storage.Cache`: the cache of a working set

`crates/sovereign-sdk/module-system/sov-modules-core/src/storage/cache.rs`.

A `CacheLog` has one `Access` for each key that was read or written: the value that was read, the
value that was written, or both. `ReadWriteLog` is what a working set leaves behind after a block.
The next block starts with its cache. Keys and values are bytes, and `none` is a deleted value.
-/

namespace Citrea.Spec.Storage

open Lib
open Std (TreeMap)

/-- `Access`. -/
inductive Access where
  | read (value : Option Bytes)
  | readThenWrite (original modified : Option Bytes)
  | write (value : Option Bytes)
deriving DecidableEq

namespace Access

/-- `last_value`. -/
def lastValue : Access → Option Bytes
  | read value => value
  | readThenWrite _ modified => modified
  | write value => value

/-- `write_value`. A key that is set back to the value that was read counts as read. -/
def writeValue (newValue : Option Bytes) : Access → Access
  | read original => if original = newValue then read original else readThenWrite original newValue
  | readThenWrite original _ =>
    if original = newValue then read newValue else readThenWrite original newValue
  | write _ => write newValue

/-- One entry of `iter_writes`. -/
def written : Access → Option (Option Bytes)
  | read _ => none
  | readThenWrite _ modified => some modified
  | write value => some value

/-- One entry of `mark_all_as_read`. -/
def markAsRead (access : Access) : Access := read access.lastValue

end Access

/-- `CacheLog`. -/
structure CacheLog where
  log : TreeMap Bytes Access

namespace CacheLog

/-- `CacheLog::default()`. -/
def empty : CacheLog := ⟨∅⟩

/-- `iter_writes`. -/
def iterWrites (c : CacheLog) : List (Bytes × Option Bytes) :=
  c.log.toList.filterMap fun entry => entry.2.written.map fun value => (entry.1, value)

/-- `get_value`. `ValueExists::No` is `none`. -/
def getValue (c : CacheLog) (key : Bytes) : Option (Option Bytes) :=
  c.log[key]?.map Access.lastValue

/-- `add_read`, with the `expect` of its callers. -/
def addRead (c : CacheLog) (key : Bytes) (value : Option Bytes) : Outcome Empty CacheLog :=
  match c.log[key]? with
  | some existing =>
    if existing.lastValue ≠ value then Outcome.panic "Read from CacheLog failed" else pure c
  | none => pure ⟨c.log.insert key (.read value)⟩

/-- `add_write`. -/
def addWrite (c : CacheLog) (key : Bytes) (value : Option Bytes) : CacheLog :=
  match c.log[key]? with
  | some existing => ⟨c.log.insert key (existing.writeValue value)⟩
  | none => ⟨c.log.insert key (.write value)⟩

/-- `mark_all_as_read`. -/
def markAllAsRead (c : CacheLog) : CacheLog := ⟨c.log.map fun _ access => access.markAsRead⟩

/-- `prune_half`: only the keys before the middle one stay. -/
def pruneHalf (c : CacheLog) : CacheLog :=
  match c.log.keyAtIdx? (c.log.size / 2) with
  | none => c
  | some mid => ⟨c.log.filter fun key _ => compare key mid = .lt⟩

end CacheLog

/-- `ReadWriteLog`. -/
structure ReadWriteLog where
  orderedReads : List (Bytes × Option Bytes)
  cacheLog : CacheLog

namespace ReadWriteLog

/-- `iter_ordered_writes`. -/
def iterOrderedWrites (l : ReadWriteLog) : List (Bytes × Option Bytes) := l.cacheLog.iterWrites

/-- `into_cache_log`. -/
def intoCacheLog (l : ReadWriteLog) : CacheLog := l.cacheLog.markAllAsRead

/-- `prune_half`. -/
def pruneHalf (l : ReadWriteLog) : ReadWriteLog := { l with cacheLog := l.cacheLog.pruneHalf }

/-- `get_value`. -/
def getValue (l : ReadWriteLog) (key : Bytes) : Option (Option Bytes) := l.cacheLog.getValue key

end ReadWriteLog

/-! ### Reads and writes of a block

`crates/sovereign-sdk/module-system/sov-modules-core/src/storage/scratchpad.rs`.

A working set has a `StateDelta` for the state tree and an `OffchainDelta` for values that are not
in the tree. A read looks at the uncommitted writes, then at the cache, then at the storage. The
storage of the guest takes its values from a `Witness`. The storage of the prover fills the witness.

`StorageOps` is the trait `Storage`. `stateBackend` and `offchainBackend` let a program run on
the two deltas, with the codecs that turn its keys and values into bytes.
-/

open Lib.StoreProg (Backend HintBackend)

/-- `Witness`: serialized hints, in order. -/
abbrev Witness := List Bytes

/-- `get_hint`, with the reader of the type that is expected. -/
def getHint {T : Type} (decode : Bytes → Option T) : Witness → Outcome Empty (T × Witness)
  | [] => Outcome.panic "No more hints left"
  | hint :: rest => do
    let value ← expect (decode hint) "Hint deserialization should never fail"
    pure (value, rest)

/-- `StateRootTransition`, with the state diff. -/
structure StateUpdate (H : Type) where
  initRoot : H
  finalRoot : H
  stateDiff : List (Bytes × Option Bytes)

/-- The error of `compute_state_update`. -/
inductive StorageError where
  | invalidProof
  | incorrectValueRead
deriving DecidableEq

/-- The trait `Storage`. Each function gets a witness and returns what is left of it, or what it
has become. `H` is the type of state roots. -/
structure StorageOps (H : Type) where
  get : Bytes → Witness → Outcome Empty (Option Bytes × Witness)
  getAndProve : Bytes → Witness → H → Outcome Empty (Option Bytes × Witness)
  getOffchain : Bytes → Witness → Outcome Empty (Option Bytes × Witness)
  computeStateUpdate : ReadWriteLog → Witness → Outcome StorageError (StateUpdate H × Witness)

/-! ### The state delta -/

/-- `StateDelta`. The version is only used by archival queries. -/
structure StateDelta where
  cacheLog : CacheLog
  uncommittedWrites : TreeMap Bytes (Option Bytes)
  orderedStorageReads : List (Bytes × Option Bytes)
  witness : Witness

/-- The loop of `commit`. -/
def commitWrites (cacheLog : CacheLog) (writes : TreeMap Bytes (Option Bytes)) : CacheLog :=
  writes.toList.foldl (fun c write => c.addWrite write.1 write.2) cacheLog

namespace StateDelta

/-- `with_witness`. -/
def withWitness (witness : Witness) : StateDelta := ⟨.empty, ∅, [], witness⟩

/-- `with_witness_and_log`. -/
def withWitnessAndLog (witness : Witness) (stateLog : ReadWriteLog) : StateDelta :=
  ⟨stateLog.intoCacheLog, ∅, [], witness⟩

/-- `commit`. -/
def commit (d : StateDelta) : StateDelta :=
  { d with cacheLog := commitWrites d.cacheLog d.uncommittedWrites, uncommittedWrites := ∅ }

/-- `revert`. -/
def revert (d : StateDelta) : StateDelta := { d with uncommittedWrites := ∅ }

/-- `freeze`: what is moved out. -/
def freeze (d : StateDelta) : ReadWriteLog × Witness :=
  (⟨d.orderedStorageReads, d.cacheLog⟩, d.witness)

/-- `get`. -/
def get {H : Type} (storage : StorageOps H) (key : Bytes) (d : StateDelta) :
    Outcome Empty (Option Bytes × StateDelta) :=
  match d.uncommittedWrites[key]? with
  | some value => pure (value, d)
  | none =>
    match d.cacheLog.getValue key with
    | some value => pure (value, d)
    | none => do
      let (value, witness) ← storage.get key d.witness
      let cacheLog ← d.cacheLog.addRead key value
      pure (value, { d with
          cacheLog := cacheLog
          orderedStorageReads := d.orderedStorageReads ++ [(key, value)]
          witness := witness })

/-- `set` for a value, and `delete` for none. -/
def set (key : Bytes) (value : Option Bytes) (d : StateDelta) : StateDelta :=
  { d with uncommittedWrites := d.uncommittedWrites.insert key value }

end StateDelta

/-! ### The offchain delta -/

/-- `OffchainDelta`. -/
structure OffchainDelta where
  cacheLog : CacheLog
  uncommittedWrites : TreeMap Bytes (Option Bytes)
  witness : Witness

namespace OffchainDelta

/-- `with_witness`. -/
def withWitness (witness : Witness) : OffchainDelta := ⟨.empty, ∅, witness⟩

/-- `with_witness_and_log`. -/
def withWitnessAndLog (witness : Witness) (offchainLog : ReadWriteLog) : OffchainDelta :=
  ⟨offchainLog.intoCacheLog, ∅, witness⟩

/-- `commit`. -/
def commit (d : OffchainDelta) : OffchainDelta :=
  { d with cacheLog := commitWrites d.cacheLog d.uncommittedWrites, uncommittedWrites := ∅ }

/-- `freeze`. The reads are not recorded. -/
def freeze (d : OffchainDelta) : ReadWriteLog × Witness := (⟨[], d.cacheLog⟩, d.witness)

/-- `get_with_cache_info`. `get` is the same without the flag. -/
def getWithCacheInfo {H : Type} (storage : StorageOps H) (key : Bytes) (d : OffchainDelta) :
    Outcome Empty ((Option Bytes × Bool) × OffchainDelta) :=
  match d.uncommittedWrites[key]? with
  | some value => pure ((value, true), d)
  | none =>
    match d.cacheLog.getValue key with
    | some value => pure ((value, true), d)
    | none => do
      let (value, witness) ← storage.getOffchain key d.witness
      let cacheLog ← d.cacheLog.addRead key value
      pure ((value, false), { d with cacheLog := cacheLog, witness := witness })

/-- `set`. -/
def set (key : Bytes) (value : Bytes) (d : OffchainDelta) : OffchainDelta :=
  { d with uncommittedWrites := d.uncommittedWrites.insert key (some value) }

end OffchainDelta

/-! ### Programs on the deltas -/

/-- The codecs of the state values: the prefix of a container and its encoded key make the bytes of
a key, and a value is encoded by the codec of its container. -/
structure Codec {K : Type} (Val : K → Type) where
  keyBytes : K → Bytes
  encode : (k : K) → Val k → Bytes
  decode : (k : K) → Bytes → Option (Val k)

section
variable {K : Type} {Val : K → Type} {C W H : Type}

/-- `decode_value_unwrap` on an optional value. -/
def Codec.decodeUnwrap (codec : Codec Val) (k : K) : Option Bytes → Outcome Empty (Option (Val k))
  | none => pure none
  | some bytes => do
    let value ← expect (codec.decode k bytes) "Failed to decode value"
    pure (some value)

/-- The state delta as the store of a program. -/
def stateBackend (storage : StorageOps H) (codec : Codec Val) : Backend Val StateDelta where
  get := fun k d => do
    let (bytes, d) ← d.get storage (codec.keyBytes k)
    let value ← codec.decodeUnwrap k bytes
    pure (value, d)
  set := fun k v d => d.set (codec.keyBytes k) (v.map (codec.encode k))

/-- The offchain delta as the store of the hints of a program. -/
def offchainBackend (storage : StorageOps H) (codec : Codec fun _ : C => W) :
    HintBackend C W OffchainDelta where
  get := fun c d => do
    let ((bytes, cached), d) ← d.getWithCacheInfo storage (codec.keyBytes c)
    let value ← codec.decodeUnwrap c bytes
    pure ((value, cached), d)
  set := fun c w d => d.set (codec.keyBytes c) (codec.encode c w)

end

/-! ### The execution of a block on a storage

`ZkStorage` of `sov-state/src/zk_storage.rs`, and `apply_l2_block` and `finalize_l2_block` of
`sov-modules-stf-blueprint/src/lib.rs` after the check of the block.

`Jmt` holds what is used of the `jmt` crate (Jellyfish Merkle trees): the checks of its proofs and
the readers of its hints. `Runtime` is the runtime of the rollup: the hooks and the calls of a
block, as one program. `withRuntime` puts it into the environment of the batch proof circuit.
-/

open Lib.StoreProg (run)
open Spec.BatchProof (L2Block L2BlockResult StateTransitionError StfEnv)

/-- The checks of the `jmt` crate, on a key before it is hashed, and the readers of hints. -/
structure Jmt (H Proof UpdateProof : Type) where
  verify : Proof → (root : H) → (key : Bytes) → Option Bytes → Bool
  verifyUpdate : UpdateProof → (oldRoot newRoot : H) → List (Bytes × Option Bytes) → Bool
  readValue : Bytes → Option (Option Bytes)
  readProof : Bytes → Option Proof
  readUpdateProof : Bytes → Option UpdateProof
  readRoot : Bytes → Option H

/-! ### `ZkStorage` -/

namespace ZkStorage

section
variable {H Proof UpdateProof : Type} (jmt : Jmt H Proof UpdateProof)

/-- `get_and_prove`. -/
def getAndProve (key : Bytes) (witness : Witness) (stateRoot : H) :
    Outcome Empty (Option Bytes × Witness) := do
  let (value, witness) ← getHint jmt.readValue witness
  let (proof, witness) ← getHint jmt.readProof witness
  assert (jmt.verify proof stateRoot key value = true) "JMT proof verification failed"
  pure (value, witness)

/-- The loop over the ordered reads. -/
def verifyReads (prevStateRoot : H) :
    List (Bytes × Option Bytes) → Witness → Outcome StorageError Witness
  | [], witness => pure witness
  | (key, value) :: rest, witness => do
    let (proof, witness) ← StoreProg.liftEmpty (getHint jmt.readProof witness)
    ensure (jmt.verify proof prevStateRoot key value = true) .invalidProof
    verifyReads prevStateRoot rest witness

/-- `compute_state_update`. -/
def computeStateUpdate (stateLog : ReadWriteLog) (witness : Witness) :
    Outcome StorageError (StateUpdate H × Witness) := do
  let (prevStateRoot, witness) ← StoreProg.liftEmpty (getHint jmt.readRoot witness)
  let witness ← verifyReads jmt prevStateRoot stateLog.orderedReads witness
  let batch := stateLog.iterOrderedWrites
  let (updateProof, witness) ← StoreProg.liftEmpty (getHint jmt.readUpdateProof witness)
  let (newRoot, witness) ← StoreProg.liftEmpty (getHint jmt.readRoot witness)
  assert (jmt.verifyUpdate updateProof prevStateRoot newRoot batch = true)
    "Updates must be valid"
  pure (⟨prevStateRoot, newRoot, batch⟩, witness)

end

end ZkStorage

/-- `impl Storage for ZkStorage`. -/
def zkStorage {H Proof UpdateProof : Type} (jmt : Jmt H Proof UpdateProof) : StorageOps H where
  get := fun _ witness => getHint jmt.readValue witness
  getAndProve := ZkStorage.getAndProve jmt
  getOffchain := fun _ witness => getHint jmt.readValue witness
  computeStateUpdate := ZkStorage.computeStateUpdate jmt

/-! ### One block -/

/-- `WorkingSet`, without the accessory state and the archival sets. -/
structure WorkingSet where
  delta : StateDelta
  offchainDelta : OffchainDelta

namespace WorkingSet

/-- The working set of a block: with the caches of the block before, if there is one. -/
def start (logs : Option (ReadWriteLog × ReadWriteLog)) (stateWitness offchainWitness : Witness) :
    WorkingSet :=
  match logs with
  | some (stateLog, offchainLog) =>
    ⟨.withWitnessAndLog stateWitness stateLog, .withWitnessAndLog offchainWitness offchainLog⟩
  | none => ⟨.withWitness stateWitness, .withWitness offchainWitness⟩

/-- `checkpoint`. -/
def checkpoint (ws : WorkingSet) : WorkingSet := ⟨ws.delta.commit, ws.offchainDelta.commit⟩

end WorkingSet

/-- `L2BlockResult`, with the witnesses. -/
structure BlockResult (H : Type) where
  update : StateUpdate H
  stateLog : ReadWriteLog
  offchainLog : ReadWriteLog
  witness : Witness
  offchainWitness : Witness

section
variable {H : Type} (storage : StorageOps H)

/-- `finalize_l2_block`. The second checkpoint finds no uncommitted writes. -/
def finalizeL2Block {ε : Type} (ws : WorkingSet) : Outcome ε (BlockResult H) := do
  let ws := ws.checkpoint
  let (stateLog, witness) := ws.delta.freeze
  let (update, witness) ← (storage.computeStateUpdate stateLog witness).expectOk
    "jellyfish merkle tree update must succeed"
  let (offchainLog, offchainWitness) := ws.offchainDelta.freeze
  pure ⟨update, stateLog, offchainLog, witness, offchainWitness⟩

variable {K : Type} {Val : K → Type} {C W ε α : Type} (codec : Codec Val)
  (offchainCodec : Codec fun _ : C => W)

/-- Runs the program of a block on a working set and finalizes the block. -/
def applyProgram (program : StoreProg Val C W ε α) (logs : Option (ReadWriteLog × ReadWriteLog))
    (stateWitness offchainWitness : Witness) : Outcome ε (α × BlockResult H) := do
  let ws := WorkingSet.start logs stateWitness offchainWitness
  let (a, delta, offchainDelta) ← run (stateBackend storage codec)
    (offchainBackend storage offchainCodec) program ws.delta ws.offchainDelta
  let result ← finalizeL2Block storage ⟨delta, offchainDelta⟩
  pure (a, result)

end

/-! ### The circuit -/

/-- The runtime of a rollup. `block` is the program of a block: the begin hook, the transactions and
the end hook. `G` is what the process keeps in memory from block to block, such as the provider of
short header proofs. -/
structure Runtime {K : Type} (Val : K → Type) (C W H Tx Key G : Type) where
  codec : Codec Val
  offchainCodec : Codec fun _ : C => W
  start : G
  block : G → SpecId → Key → (preStateRoot : H) → L2Block H Tx →
    StoreProg Val C W StateTransitionError G

/-- A log, and what the process keeps in memory beside the logs. -/
structure GuestLog (G : Type) where
  log : ReadWriteLog
  memory : G

section
variable {K : Type} {Val : K → Type} {C W H Tx Key G Proof UpdateProof : Type}

/-- `apply_l2_block` on `ZkStorage`, after the check of the block. -/
def executeL2Block (jmt : Jmt H Proof UpdateProof) (runtime : Runtime Val C W H Tx Key G)
    (currentSpec : SpecId) (sequencerPublicKey : Key) (preStateRoot : H)
    (logs : Option (GuestLog G × GuestLog G)) (stateWitness offchainWitness : Witness)
    (block : L2Block H Tx) : Outcome StateTransitionError (L2BlockResult H (GuestLog G)) := do
  let memory := (logs.map fun l => l.1.memory).getD runtime.start
  let (memory, result) ← applyProgram (zkStorage jmt) runtime.codec runtime.offchainCodec
    (runtime.block memory currentSpec sequencerPublicKey preStateRoot block)
    (logs.map fun l => (l.1.log, l.2.log)) stateWitness offchainWitness
  pure
    { initRoot := result.update.initRoot
      finalRoot := result.update.finalRoot
      stateLog := ⟨result.stateLog, memory⟩
      offchainLog := ⟨result.offchainLog, memory⟩
      stateDiff := result.update.stateDiff }

/-- The environment of the batch proof circuit with `ZkStorage` and a runtime. -/
def withRuntime (base : StfEnv H Tx Witness (GuestLog G) Key) (jmt : Jmt H Proof UpdateProof)
    (runtime : Runtime Val C W H Tx Key G) : StfEnv H Tx Witness (GuestLog G) Key :=
  { base with
    executeL2Block := executeL2Block jmt runtime
    pruneHalf := fun l => { l with log := l.log.pruneHalf } }

end

/-! ### The storage of the prover

`ProverStorage` of `sov-state/src/prover_storage.rs`.

The prover reads its databases and adds what it reads to the witness, in the order in which the
guest takes it out: the values of a block, then the root, the proofs of the reads, the proof of the
update and the new root.
-/

/-- `add_hint` for the types of hints that a storage uses. -/
structure HintWriter (H Proof UpdateProof : Type) where
  writeValue : Option Bytes → Bytes
  writeProof : Proof → Bytes
  writeUpdateProof : UpdateProof → Bytes
  writeRoot : H → Bytes

/-- The databases at one version: the values and the tree of the state DB, and the native DB. The
functions of the tree are those of the `jmt` crate. -/
structure ProverDb (H Proof UpdateProof : Type) where
  readValue : Bytes → Option Bytes
  readOffchainValue : Bytes → Option Bytes
  rootHash : H
  getWithProof : Bytes → Option Bytes × Proof
  putValueSetWithProof : List (Bytes × Option Bytes) → H × UpdateProof

namespace ProverStorage

section
variable {H Proof UpdateProof : Type} (writer : HintWriter H Proof UpdateProof)
  (db : ProverDb H Proof UpdateProof)

/-- The loop over the ordered reads. -/
def proveReads : List (Bytes × Option Bytes) → Witness → Outcome StorageError Witness
  | [], witness => pure witness
  | (key, value) :: rest, witness => do
    let (result, proof) := db.getWithProof key
    ensure (result = value) .incorrectValueRead
    proveReads rest (witness ++ [writer.writeProof proof])

/-- `compute_state_update`. -/
def computeStateUpdate (stateLog : ReadWriteLog) (witness : Witness) :
    Outcome StorageError (StateUpdate H × Witness) := do
  let witness := witness ++ [writer.writeRoot db.rootHash]
  let witness ← proveReads writer db stateLog.orderedReads witness
  let batch := stateLog.iterOrderedWrites
  let (newRoot, updateProof) := db.putValueSetWithProof batch
  let witness := witness ++ [writer.writeUpdateProof updateProof, writer.writeRoot newRoot]
  pure (⟨db.rootHash, newRoot, batch⟩, witness)

end

end ProverStorage

/-- `impl Storage for ProverStorage`. -/
def proverStorage {H Proof UpdateProof : Type} (writer : HintWriter H Proof UpdateProof)
    (db : ProverDb H Proof UpdateProof) : StorageOps H where
  get := fun key witness =>
    let value := db.readValue key
    pure (value, witness ++ [writer.writeValue value])
  getAndProve := fun key witness _ =>
    let (value, proof) := db.getWithProof key
    pure (value, witness ++ [writer.writeValue value, writer.writeProof proof])
  getOffchain := fun key witness =>
    let value := db.readOffchainValue key
    pure (value, witness ++ [writer.writeValue value])
  computeStateUpdate := ProverStorage.computeStateUpdate writer db

end Citrea.Spec.Storage
