import Citrea.Proofs.BatchProof.Executions
import Citrea.Proofs.Storage.Cache

/-!
# `Citrea.Proofs.Storage.Soundness`: the state that the guest sees

The guest takes the values of the state from its witness and checks them at the end of the block,
against the root before the block. A value that is in the cache of an earlier block is not checked
again. `JmtSound` says what the checks of the `jmt` crate are worth: `contents` is the state under a
root, and an accepted proof is about that state.

`applyProgram_sound` is the fact about one block. If the cached values are the values of the state
before the block, and the block is executed and finalized, then its program ran on that state. The
state under the new root is the old one with the writes of the program, and the cached values are
the values of the new state. `state_soundness` and `stateDiff_complete` are about whole runs of the
batch circuit, with any witnesses and any pruning heights.
-/

namespace Citrea.Proofs.Storage

open Function (update update_of_ne update_self)
open Option List Lib
open Lib.StoreProg (run trace run_simulates trace_simulates)
open Spec.BatchProof Spec.Storage Proofs.BatchProof

variable {H Proof UpdateProof : Type}

/-- The proofs of the `jmt` crate are sound for the states under the roots. -/
structure JmtSound (jmt : Jmt H Proof UpdateProof) (contents : H → State) : Prop where
  verify : ∀ {proof root key value}, jmt.verify proof root key value = true →
    contents root key = value
  verifyUpdate : ∀ {proof oldRoot newRoot writes},
    jmt.verifyUpdate proof oldRoot newRoot writes = true →
    contents newRoot = applyWrites (contents oldRoot) writes

/-! ### One block -/

section
variable {jmt : Jmt H Proof UpdateProof} {contents : H → State}

/-- The loop over the ordered reads checks each of them. -/
theorem verifyReads_ok (hsound : JmtSound jmt contents) {root : H}
    {reads : List (Bytes × Option Bytes)} {w w' : Witness}
    (h : ZkStorage.verifyReads jmt root reads w = .ok w') :
    ∀ read ∈ reads, contents root read.1 = read.2 := by
  induction reads generalizing w with
  | nil => simp
  | cons read rest ih =>
    simp only [ZkStorage.verifyReads, bind_eq_ok, ensure_eq_ok] at h
    obtain ⟨⟨proof, w₁⟩, -, -, hverify, hrest⟩ := h
    exact forall_mem_cons.mpr ⟨hsound.verify hverify, ih hrest⟩

/-- What `compute_state_update` of the guest establishes. -/
theorem computeStateUpdate_ok (hsound : JmtSound jmt contents) {log : ReadWriteLog}
    {w w' : Witness} {update : StateUpdate H}
    (h : ZkStorage.computeStateUpdate jmt log w = .ok (update, w')) :
    (∀ read ∈ log.orderedReads, contents update.initRoot read.1 = read.2) ∧
    update.stateDiff = log.iterOrderedWrites ∧
    contents update.finalRoot = applyWrites (contents update.initRoot) log.iterOrderedWrites := by
  simp only [ZkStorage.computeStateUpdate, bind_eq_ok, assert_eq_ok, pure_eq_ok, Prod.mk.injEq] at h
  obtain ⟨⟨root, w₁⟩, -, w₂, hreads, ⟨proof, w₃⟩, -, ⟨newRoot, w₄⟩, -, -, hupdate, rfl, -⟩ := h
  exact ⟨verifyReads_ok hsound hreads, rfl, hsound.verifyUpdate hupdate⟩

/-- The cached values of the logs are the values of the state. -/
def LogsCached (base : State) (logs : Option (ReadWriteLog × ReadWriteLog)) : Prop :=
  ∀ l, logs = some l → Cached base l.1.cacheLog

/-- A working set starts as the state before the block. -/
theorem represents_start {base : State} {logs : Option (ReadWriteLog × ReadWriteLog)}
    (h : LogsCached base logs) (w w' : Witness) :
    Represents base (WorkingSet.start logs w w').delta base := by
  rcases logs with _ | ⟨stateLog, offchainLog⟩
  · exact ⟨cacheView_empty base, consistent_empty base⟩
  · have hcached := h _ rfl
    exact ⟨cacheView_markAllAsRead hcached, consistent_markAllAsRead hcached⟩

/-- The writes that `freeze` returns after a checkpoint lead to the state that the delta stands
for, and the frozen cache has the values of that state. -/
theorem commit_of_represents {base m : State} {d : StateDelta} (h : Represents base d m) :
    applyWrites base d.commit.cacheLog.iterWrites = m ∧ Cached m d.commit.cacheLog := by
  have hview : cacheView d.commit.cacheLog base = m := by
    rw [← h.view]
    funext k
    show cacheView (commitWrites d.cacheLog d.uncommittedWrites) base k = _
    rw [cacheView_commitWrites, applyWrites_toList]
    rfl
  constructor
  · have hconsistent : Consistent base d.commit.cacheLog := consistent_commitWrites h.consistent _
    rw [applyWrites_iterWrites hconsistent]
    exact hview
  · rw [← hview]
    exact cached_cacheView _ _

end

section
variable {K : Type} {Val : K → Type} {C W ε α : Type} {jmt : Jmt H Proof UpdateProof}
  {contents : H → State} {codec : Codec Val} {offchainCodec : Codec fun _ : C => W}
  {program : StoreProg Val C W ε α} {logs : Option (ReadWriteLog × ReadWriteLog)} {w w' : Witness}
  {a : α} {result : BlockResult H}

/-- The parts of a block that was executed and finalized on the storage of the guest. -/
theorem applyProgram_ok
    (h : applyProgram (zkStorage jmt) codec offchainCodec program logs w w' = .ok (a, result)) :
    ∃ d t, run (stateBackend (zkStorage jmt) codec) (offchainBackend (zkStorage jmt) offchainCodec)
        program (WorkingSet.start logs w w').delta (WorkingSet.start logs w w').offchainDelta =
          .ok (a, d, t) ∧ result.stateLog = ⟨d.orderedStorageReads, d.commit.cacheLog⟩ ∧
      result.offchainLog = ⟨[], t.commit.cacheLog⟩ ∧
      ZkStorage.computeStateUpdate jmt result.stateLog d.witness =
        .ok (result.update, result.witness) := by
  simp only [applyProgram, bind_eq_ok, pure_eq_ok, Prod.mk.injEq] at h
  obtain ⟨⟨b, d, t⟩, hrun, blockResult, hfinal, rfl, rfl⟩ := h
  simp only [finalizeL2Block, bind_eq_ok, Outcome.expectOk_eq_ok, pure_eq_ok]
    at hfinal
  obtain ⟨⟨update, witness⟩, hupdate, rfl⟩ := hfinal
  exact ⟨d, t, hrun, rfl, rfl, hupdate⟩

/-- One block: its program ran on the state under the root before it, the root after it stands for
the state with the writes of the program, and the cache has the values of that state. -/
theorem applyProgram_sound (hsound : JmtSound jmt contents) {root : H}
    (hlogs : LogsCached (contents root) logs)
    (h : applyProgram (zkStorage jmt) codec offchainCodec program logs w w' = .ok (a, result))
    (hroot : result.update.initRoot = root) :
    (∃ t, run (stateMap codec) (offchainBackend (zkStorage jmt) offchainCodec) program
      (contents root) (WorkingSet.start logs w w').offchainDelta =
        .ok (a, contents result.update.finalRoot, t)) ∧
    trace (stateBackend (zkStorage jmt) codec) (offchainBackend (zkStorage jmt) offchainCodec)
        program (WorkingSet.start logs w w').delta (WorkingSet.start logs w w').offchainDelta =
      trace (stateMap codec) (offchainBackend (zkStorage jmt) offchainCodec) program
        (contents root) (WorkingSet.start logs w w').offchainDelta ∧
    Cached (contents result.update.finalRoot) result.stateLog.cacheLog := by
  obtain ⟨d, t, hrun, hstateLog, -, hupdate⟩ := applyProgram_ok h
  obtain ⟨hreads, -, hfinal⟩ := computeStateUpdate_ok hsound hupdate
  rw [hstateLog, hroot] at hreads hfinal
  -- the reads of the block were checked, so its run is a run on the state
  have hstart := represents_start hlogs w w'
  have hsimulates := simulates_stateMap codec (zkStorage jmt) (contents root)
  obtain ⟨m, hrunMap, hrepresents⟩ := run_simulates hsimulates hstart hrun hreads
  obtain ⟨hwrites, hcached⟩ := commit_of_represents hrepresents
  have hm : contents result.update.finalRoot = m := hfinal.trans hwrites
  refine ⟨⟨t, by rw [hm]; exact hrunMap⟩, trace_simulates hsimulates hstart hrun hreads, ?_⟩
  rw [hm, hstateLog]
  exact hcached

end

/-! ### Whole runs -/

section
variable {K : Type} {Val : K → Type} {C W Tx Key G : Type} [DecidableEq H]
  (base : StfEnv H Tx Witness (GuestLog G) Key) (jmt : Jmt H Proof UpdateProof)
  (runtime : Runtime Val C W H Tx Key G)

/-- What the process has in memory before a block. -/
def callMemory (call : BlockCall H Tx Witness (GuestLog G)) : G :=
  (call.logs.map fun l => l.1.memory).getD runtime.start

/-- The working set of a block before its program runs. -/
def callWorkingSet (call : BlockCall H Tx Witness (GuestLog G)) : WorkingSet :=
  WorkingSet.start (call.logs.map fun l => (l.1.log, l.2.log)) call.stateWitness
    call.offchainWitness

/-- The program of a block. -/
def callProgram (key : Key) (call : BlockCall H Tx Witness (GuestLog G)) :
    StoreProg Val C W StateTransitionError G :=
  runtime.block (callMemory runtime call) call.spec key call.preStateRoot call.block

/-- The accesses of a block. -/
def callEvents (key : Key) (call : BlockCall H Tx Witness (GuestLog G)) : List (Event Val C W) :=
  trace (stateBackend (zkStorage jmt) runtime.codec)
    (offchainBackend (zkStorage jmt) runtime.offchainCodec) (callProgram runtime key call)
    (callWorkingSet call).delta (callWorkingSet call).offchainDelta

/-- A list of accesses is sound for a block from `root` to `root'`: each value that it gets is the
value of the state under `root` with the writes so far, and the state under `root'` is the state
under `root` with all its writes. -/
structure StateSound (contents : H → State) (events : List (Event Val C W)) (root root' : H) :
    Prop where
  got : ∀ l₁ k v l₂, events = l₁ ++ .got k v :: l₂ →
    runtime.codec.decodeUnwrap k (applyWrites (contents root) (writesOf runtime.codec l₁)
      (runtime.codec.keyBytes k)) = .ok v
  final : contents root' = applyWrites (contents root) (writesOf runtime.codec events)

variable {base jmt runtime} {key : Key} {exec : BlockExec H Tx Witness (GuestLog G)}
  {contents : H → State}

/-- A call of `apply_l2_block` with this environment applies the program of the block. -/
theorem applyProgram_of_applied (h : exec.Applied (withRuntime base jmt runtime) key) :
    ∃ memory result, applyProgram (zkStorage jmt) runtime.codec runtime.offchainCodec
        (callProgram runtime key exec.toBlockCall) (exec.logs.map fun l => (l.1.log, l.2.log))
        exec.stateWitness exec.offchainWitness = .ok (memory, result) ∧
      exec.result =
        { initRoot := result.update.initRoot
          finalRoot := result.update.finalRoot
          stateLog := ⟨result.stateLog, memory⟩
          offchainLog := ⟨result.offchainLog, memory⟩
          stateDiff := result.update.stateDiff } := by
  have happlied := h.applied
  simp only [applyL2Block, bind_eq_ok] at happlied
  obtain ⟨-, -, hexecute⟩ := happlied
  have hexecute : executeL2Block jmt runtime exec.spec key exec.preStateRoot exec.logs
      exec.stateWitness exec.offchainWitness exec.block = .ok exec.result := hexecute
  simp only [executeL2Block, bind_eq_ok, pure_eq_ok] at hexecute
  obtain ⟨⟨memory, result⟩, hprogram, hresult⟩ := hexecute
  exact ⟨memory, result, hprogram, hresult.symm⟩

/-- The invariant of a run: the cached values are the values of the state under the current
root. -/
def GuestLogsCached (contents : H → State) (root : H) (logs : Option (GuestLog G × GuestLog G)) :
    Prop :=
  LogsCached (contents root) (logs.map fun l => (l.1.log, l.2.log))

omit [DecidableEq H] in
/-- The logs that a block leaves for the next one, pruned or not. -/
theorem logsCached_nextLogs {root : H}
    (h : Cached (contents root) exec.result.stateLog.log.cacheLog) :
    GuestLogsCached contents root (some (exec.nextLogs (withRuntime base jmt runtime))) := by
  intro l hl
  obtain rfl := some.inj hl
  show Cached (contents root) (exec.nextLogs (withRuntime base jmt runtime)).1.log.cacheLog
  rw [BlockExec.nextLogs]
  split
  · exact cached_pruneHalf h
  · exact h

/-- One block of a run keeps the invariant, and its accesses are sound. -/
theorem stateSound_of_applied (hsound : JmtSound jmt contents)
    (h : exec.Applied (withRuntime base jmt runtime) key)
    (hcached : GuestLogsCached contents exec.preStateRoot exec.logs) :
    StateSound runtime contents (callEvents jmt runtime key exec.toBlockCall) exec.preStateRoot
      exec.result.finalRoot ∧ GuestLogsCached contents exec.result.finalRoot
      (some (exec.nextLogs (withRuntime base jmt runtime))) := by
  obtain ⟨memory, result, hprogram, hresult⟩ := applyProgram_of_applied h
  have hroot : result.update.initRoot = exec.preStateRoot := by
    rw [← h.initRoot, hresult]
  have hfinal : exec.result.finalRoot = result.update.finalRoot := by rw [hresult]
  obtain ⟨⟨t, hrun⟩, htrace, hnext⟩ := applyProgram_sound hsound hcached hprogram hroot
  have hevents : callEvents jmt runtime key exec.toBlockCall = _ := htrace
  refine ⟨⟨?_, ?_⟩, ?_⟩
  · intro l₁ k v l₂ hsplit
    rw [hevents] at hsplit
    exact got_eq_stored runtime.codec _ hsplit
  · rw [hfinal, hevents]
    exact run_stateMap runtime.codec hrun
  · refine logsCached_nextLogs ?_
    rw [hfinal, hresult]
    exact hnext

/-- State soundness. In every run of the circuit that returns, with any witnesses and any pruning
heights, every value that a block gets is the value of its key in the state under its pre-state root
with the writes of the block so far. The state under its post-state root is that state with all the
writes of the block. -/
theorem state_soundness {contents : H → State} (hsound : JmtSound jmt contents)
    {input : CircuitInput H Tx Witness} {out : ApplySequencerCommitmentsOutput H (GuestLog G)}
    (h : applyL2BlocksFromSequencerCommitments (withRuntime base jmt runtime) input = .ok out) :
    ∃ key execs finalRoot finalLogs,
      RunExecutes (withRuntime base jmt runtime) input out key execs finalRoot finalLogs ∧
      ∀ exec ∈ execs, StateSound runtime contents (callEvents jmt runtime key exec.toBlockCall)
        exec.preStateRoot exec.result.finalRoot := by
  obtain ⟨key, execs, finalRoot, finalLogs, hexecutes⟩ := circuit_executes h
  have hstart : GuestLogsCached contents input.initialStateRoot
      (none : Option (GuestLog G × GuestLog G)) := nofun
  obtain ⟨hall, -⟩ := hexecutes.executes.invariant
    (fun exec _ happlied hcached => (stateSound_of_applied hsound happlied hcached).2) hstart
  refine ⟨key, execs, finalRoot, finalLogs, hexecutes, fun exec hexec => ?_⟩
  obtain ⟨happlied, hcached⟩ := hall exec hexec
  exact (stateSound_of_applied hsound happlied hcached).1

/-! ### The state diff -/

/-- The value of a key in a state diff. A later entry replaces an earlier one. -/
def diffValue (diff : CumulativeStateDiff) (k : Bytes) : Option (Option Bytes) :=
  diff.reverse.lookup k

/-- Writes from the point of view of one key. -/
theorem applyWrites_eq_diffValue (m : State) (diff : CumulativeStateDiff) (k : Bytes) :
    applyWrites m diff k = (diffValue diff k).getD (m k) := by
  induction diff using List.reverseRecOn with
  | nil => rfl
  | append_singleton diff entry ih =>
    rw [applyWrites_append, diffValue, reverse_append, reverse_singleton,
      singleton_append, lookup_cons]
    show update (applyWrites m diff) entry.1 entry.2 k = _
    by_cases hk : k = entry.1
    · subst hk
      rw [update_self, beq_self_eq_true]
      rfl
    · rw [update_of_ne hk, ih, diffValue, beq_false_of_ne hk]

/-- The diff of a run leads from the state under the first root to the state under the last one.
This uses the update proofs only. -/
theorem contents_of_executes (hsound : JmtSound jmt contents)
    {execs : List (BlockExec H Tx Witness (GuestLog G))} {root root' : H}
    {logs logs' : Option (GuestLog G × GuestLog G)}
    (h : Executes (withRuntime base jmt runtime) key root logs execs root' logs') : contents root' =
      applyWrites (contents root) (execs.flatMap fun exec => exec.result.stateDiff) := by
  induction h with
  | nil => rfl
  | cons happlied _ ih =>
    obtain ⟨memory, result, hprogram, hresult⟩ := applyProgram_of_applied happlied
    obtain ⟨d, t, -, -, -, hupdate⟩ := applyProgram_ok hprogram
    obtain ⟨-, hdiff, hfinal⟩ := computeStateUpdate_ok hsound hupdate
    rw [ih, flatMap_cons, applyWrites_append, ← happlied.initRoot, hresult]
    rw [hfinal, hdiff]

/-- Completeness of the state diff. In every run of the circuit that returns, each key has the value
that the diff gives for it in the state under the last root, and a key that is not in the diff has
the value that it has under the initial root. -/
theorem stateDiff_complete {contents : H → State} (hsound : JmtSound jmt contents)
    {input : CircuitInput H Tx Witness} {out : ApplySequencerCommitmentsOutput H (GuestLog G)}
    (h : applyL2BlocksFromSequencerCommitments (withRuntime base jmt runtime) input = .ok out) :
    ∃ finalRoot, out.stateRoots.getLast? = some finalRoot ∧ ∀ k, contents finalRoot k =
        (diffValue out.stateDiff k).getD (contents input.initialStateRoot k) := by
  obtain ⟨key, execs, finalRoot, finalLogs, hexecutes⟩ := circuit_executes h
  refine ⟨finalRoot, hexecutes.lastRoot, fun k => ?_⟩
  rw [contents_of_executes hsound hexecutes.executes, ← hexecutes.stateDiff]
  exact applyWrites_eq_diffValue _ _ k

end

/-! ### A concrete runtime -/

/-- A tree with one key. A root is a list whose first entry is the value of the key. -/
def counterContents (root : List Nat) : State :=
  fun k => if k = [7] then root.head?.map fun n => [UInt8.ofNat n] else none

/-- A tree whose proofs are empty. A value is proved if it is the stored one, and an update if it
writes the value of the new root. -/
def counterJmt : Jmt (List Nat) Unit Unit where
  verify := fun _ root key value => decide (counterContents root key = value)
  verifyUpdate := fun _ _ newRoot writes =>
    match newRoot with
    | [n] => decide (writes = [([7], some [UInt8.ofNat n])])
    | _ => false
  readValue := fun hint => match hint with
    | [] => some none
    | _ :: value => some (some value)
  readProof := fun _ => some ()
  readUpdateProof := fun _ => some ()
  readRoot := fun hint => some (hint.map UInt8.toNat)

theorem counterJmt_sound : JmtSound counterJmt counterContents where
  verify := fun h => of_decide_eq_true h
  verifyUpdate := by
    intro proof oldRoot newRoot writes h
    simp only [counterJmt] at h
    split at h
    · next n =>
      obtain rfl := of_decide_eq_true h
      funext k
      show counterContents [n] k = update (counterContents oldRoot) [7] _ k
      by_cases hk : k = [7]
      · subst hk
        rw [update_self]
        rfl
      · rw [update_of_ne hk, counterContents, counterContents, if_neg hk, if_neg hk]
    · cases h

/-- A runtime that adds one to a counter in each block. -/
def counterRuntime : Runtime (fun _ : Unit => UInt8) Unit Unit (List Nat) Unit Unit Unit where
  codec :=
    { keyBytes := fun _ => [7]
      encode := fun _ n => [n]
      decode := fun _ b => b.head? }
  offchainCodec :=
    { keyBytes := fun _ => []
      encode := fun _ _ => []
      decode := fun _ _ => some () }
  start := ()
  block := fun _ _ _ _ _ => do
    let n ← StoreProg.read ()
    StoreProg.write () (n.getD 0 + 1)

/-- The environment of the sample runs, before the runtime is put in. -/
def counterBase : StfEnv (List Nat) Unit Witness (GuestLog Unit) Unit :=
  { sampleEnv with
    executeL2Block := fun _ _ _ _ _ _ _ => Outcome.panic "no runtime"
    pruneHalf := id }

/-- Two blocks. The first one reads the counter from the witness, and the second one from the
cache. -/
def counterInput : CircuitInput (List Nat) Unit Witness where
  sequencerPublicKey := []
  initialPrevL2BlockHash := none
  initialStateRoot := [3]
  previousSequencerCommitment := none
  prevHashProof := none
  sequencerCommitments :=
    [⟨(counterBase.merkleRoot [(sampleBlock (sampleHeader 1 [] [4])).hash,
      (sampleBlock (sampleHeader 2 (sampleBlock (sampleHeader 1 [] [4])).hash [5])).hash]).getD [],
      1, 2⟩]
  cachePruneL2Heights := []
  forks := [⟨.tangerine, 0⟩]
  host :=
    [.u32 1, .u32 2,
      .u64 1, .block (sampleBlock (sampleHeader 1 [] [4])) [[1, 3], [3], [], [], [4]] [],
      .u64 2, .block (sampleBlock (sampleHeader 2 (sampleBlock (sampleHeader 1 [] [4])).hash [5]))
        [[4], [], [5]] []]

theorem counter_run : (applyL2BlocksFromSequencerCommitments
    (withRuntime counterBase counterJmt counterRuntime) counterInput).map
      (fun out => (out.stateRoots, out.stateDiff)) =
        .ok ([[3], [5]], [([7], some [4]), ([7], some [5])]) := by
  decide +kernel

/-- State soundness for the run of the two blocks. -/
theorem state_soundness_counter : ∃ out key execs finalRoot finalLogs, out.stateRoots = [[3], [5]] ∧
    RunExecutes (withRuntime counterBase counterJmt counterRuntime) counterInput out key execs
      finalRoot finalLogs ∧ ∀ exec ∈ execs, StateSound counterRuntime counterContents
      (callEvents counterJmt counterRuntime key exec.toBlockCall) exec.preStateRoot
      exec.result.finalRoot := by
  obtain ⟨out, hout, hvalues⟩ := map_eq_ok.mp counter_run
  obtain ⟨key, execs, finalRoot, finalLogs, hrun, hall⟩ := state_soundness counterJmt_sound hout
  exact ⟨out, key, execs, finalRoot, finalLogs, congrArg Prod.fst hvalues, hrun, hall⟩

/-- Completeness of the state diff for the run of the two blocks. -/
theorem stateDiff_complete_counter : ∃ out finalRoot,
    out.stateDiff = [([7], some [4]), ([7], some [5])] ∧ out.stateRoots.getLast? = some finalRoot ∧
    applyL2BlocksFromSequencerCommitments (withRuntime counterBase counterJmt counterRuntime)
      counterInput = .ok out ∧ ∀ k, counterContents finalRoot k =
      (diffValue out.stateDiff k).getD (counterContents counterInput.initialStateRoot k) := by
  obtain ⟨out, hout, hvalues⟩ := map_eq_ok.mp counter_run
  obtain ⟨finalRoot, hlast, hall⟩ := stateDiff_complete counterJmt_sound hout
  exact ⟨out, finalRoot, congrArg Prod.snd hvalues, hlast, hout, hall⟩

/-! ### Hints in the cache of a run

An offchain value that is not in the cache comes from the witness, and nothing proves it. It then
stays in the cache for the rest of the run. `offchainView` is what the cache of an `OffchainDelta`
says, and `HintsGood` says that all of it has a given property.

If the programs of the blocks guarantee the property for what they set (`Guarded`), then one hint
decides the matter: the run gets a bad value from the cache only after it took a bad value from a
witness. `cached_hints_good` says this for every run, with any pruning.
-/

open Lib.StoreProg (Guarded HintRule)
open Lib.StoreProg.Guarded (Keeps OutsideGood)
open Spec.BatchProof (StfEnv)
open Spec.Storage Proofs.BatchProof

/-- The value of a key in the uncommitted writes and the cache. -/
def offchainView (d : OffchainDelta) : State :=
  fun k => d.uncommittedWrites[k]?.getD (cacheView d.cacheLog (fun _ => none) k)

section
variable {C W H : Type}

/-- Each value of a state that is a hint has the property. -/
def HintsGood (codec : Codec fun _ : C => W) (good : C → W → Prop) (m : State) : Prop :=
  ∀ c bytes w, m (codec.keyBytes c) = some bytes → codec.decode c bytes = some w → good c w

variable {codec : Codec fun _ : C => W} {good : C → W → Prop} {value : Option Bytes}

/-- A new value at one key. -/
theorem HintsGood.update (hcodec : Codec.Lawful codec) {m : State} (h : HintsGood codec good m)
    {c : C} (hvalue : ∀ bytes w, value = some bytes → codec.decode c bytes = some w → good c w) :
    HintsGood codec good (update m (codec.keyBytes c) value) := by
  intro c' bytes w hbytes hdecode
  by_cases hc : c' = c
  · subst hc
    rw [update_self] at hbytes
    exact hvalue bytes w hbytes hdecode
  · have hne : codec.keyBytes c' ≠ codec.keyBytes c := fun heq => hc (hcodec.keyBytes heq)
    rw [update_of_ne hne] at hbytes
    exact h c' bytes w hbytes hdecode

theorem offchainView_set (d : OffchainDelta) (key value : Bytes) :
    offchainView (d.set key value) = update (offchainView d) key (some value) := by
  funext k
  rw [offchainView]
  show ((d.uncommittedWrites.insert key (some value))[k]?).getD _ = _
  rw [getElem?_insert]
  by_cases hk : key = k
  · subst hk
    rw [if_pos rfl, update_self]
    rfl
  · rw [if_neg hk, update_of_ne (Ne.symm hk)]
    rfl

theorem offchainView_commit (d : OffchainDelta) :
    cacheView d.commit.cacheLog (fun _ => none) = offchainView d := by
  funext k
  show cacheView (commitWrites d.cacheLog d.uncommittedWrites) (fun _ => none) k = _
  rw [cacheView_commitWrites, applyWrites_toList]
  rfl

/-- A read is answered from the writes or the cache. Otherwise the value comes from the storage, and
the delta keeps it. -/
theorem getWithCacheInfo_cases {storage : StorageOps H} {key : Bytes} {d d' : OffchainDelta}
    {cached : Bool} (h : d.getWithCacheInfo storage key = .ok ((value, cached), d')) :
    (cached = true ∧ d' = d ∧ value = offchainView d key) ∨
    (cached = false ∧ offchainView d' = update (offchainView d) key value) := by
  unfold OffchainDelta.getWithCacheInfo at h
  split at h
  · next written hwritten =>
    obtain ⟨hvalue, rfl⟩ := Prod.mk.inj (pure_eq_ok.mp h)
    obtain ⟨rfl, rfl⟩ := Prod.mk.inj hvalue
    refine .inl ⟨rfl, rfl, ?_⟩
    rw [offchainView, hwritten]
    rfl
  · next hnone =>
    split at h
    · next found hcached =>
      obtain ⟨hvalue, rfl⟩ := Prod.mk.inj (pure_eq_ok.mp h)
      obtain ⟨rfl, rfl⟩ := Prod.mk.inj hvalue
      refine .inl ⟨rfl, rfl, ?_⟩
      rw [offchainView, hnone, cacheView, hcached]
      rfl
    · next hmiss =>
      have hmiss : d.cacheLog.log[key]? = none := map_eq_none_iff.mp hmiss
      simp only [bind_eq_ok, CacheLog.addRead, hmiss, pure_eq_ok, Prod.mk.injEq] at h
      obtain ⟨⟨v, witness⟩, -, -, rfl, ⟨rfl, rfl⟩, rfl⟩ := h
      refine .inr ⟨rfl, ?_⟩
      funext k
      show d.uncommittedWrites[k]?.getD _ = _
      rw [cacheView, CacheLog.getValue, getElem?_insert]
      by_cases hk : key = k
      · subst hk
        rw [if_pos rfl, hnone, update_self]
        rfl
      · rw [if_neg hk, update_of_ne (Ne.symm hk)]
        rfl

/-- The offchain delta keeps good hints. -/
theorem keeps_offchainBackend (hcodec : Codec.Lawful codec) (storage : StorageOps H) :
    Keeps (offchainBackend storage codec) good fun d => HintsGood codec good (offchainView d) where
  cached := by
    intro c w d d' hinv hget
    simp only [offchainBackend, bind_eq_ok, pure_eq_ok, Prod.mk.injEq] at hget
    obtain ⟨⟨⟨bytes, cached⟩, d''⟩, hget, value, hdecode, ⟨rfl, rfl⟩, rfl⟩ := hget
    rcases getWithCacheInfo_cases hget with ⟨-, -, hbytes⟩ | ⟨hfalse, -⟩
    · cases bytes with
      | none => cases hdecode
      | some bytes =>
        simp only [Codec.decodeUnwrap, bind_eq_ok, expect_eq_ok,
          pure_eq_ok, some.injEq] at hdecode
        obtain ⟨value, hvalue, rfl⟩ := hdecode
        exact hinv c bytes value hbytes.symm hvalue
    · cases hfalse
  get := by
    intro c r d d' hinv hget hgood
    simp only [offchainBackend, bind_eq_ok, pure_eq_ok, Prod.mk.injEq] at hget
    obtain ⟨⟨⟨bytes, cached⟩, d''⟩, hget, value, hdecode, rfl, rfl⟩ := hget
    rcases getWithCacheInfo_cases hget with ⟨-, rfl, -⟩ | ⟨-, hview⟩
    · exact hinv
    · rw [hview]
      refine hinv.update hcodec ?_
      rintro bytes w rfl hw
      refine hgood w ?_
      simp only [Codec.decodeUnwrap, hw, bind_eq_ok, expect_eq_ok, pure_eq_ok] at hdecode
      obtain ⟨w', hw', rfl⟩ := hdecode
      exact hw'.symm
  set := by
    intro c w d hinv hgood
    show HintsGood codec good (offchainView (d.set _ _))
    rw [offchainView_set]
    refine hinv.update hcodec ?_
    intro bytes w' hbytes hw'
    rw [← some.inj hbytes, hcodec.decode] at hw'
    exact some.inj hw' ▸ hgood

end

/-! ### From block to block -/

section
variable {K : Type} {Val : K → Type} {C W H Tx Key G Proof UpdateProof : Type} [DecidableEq H]
  {base : StfEnv H Tx Witness (GuestLog G) Key} {jmt : Jmt H Proof UpdateProof}
  {runtime : Runtime Val C W H Tx Key G} {good : C → W → Prop}

/-- The hints in the offchain cache that a block starts with are good. -/
def LogsGood (codec : Codec fun _ : C => W) (good : C → W → Prop)
    (logs : Option (GuestLog G × GuestLog G)) : Prop :=
  ∀ l, logs = some l → HintsGood codec good (cacheView l.2.log.cacheLog fun _ => none)

omit [DecidableEq H] in
/-- The offchain delta of a block starts with the cache of the block before. -/
theorem hintsGood_start {call : BlockCall H Tx Witness (GuestLog G)}
    (h : LogsGood runtime.offchainCodec good call.logs) :
    HintsGood runtime.offchainCodec good (offchainView (callWorkingSet call).offchainDelta) := by
  rw [callWorkingSet]
  cases hlogs : call.logs with
  | none =>
    have hview : offchainView (OffchainDelta.withWitness call.offchainWitness) = fun _ => none :=
      cacheView_empty _
    show HintsGood _ _ (offchainView (OffchainDelta.withWitness call.offchainWitness))
    rw [hview]
    intro c bytes w hbytes
    cases hbytes
  | some l =>
    show HintsGood _ _ (cacheView l.2.log.cacheLog.markAllAsRead fun _ => none)
    have hview : (cacheView l.2.log.cacheLog.markAllAsRead fun _ => none) =
        cacheView l.2.log.cacheLog fun _ => none := by
      funext k
      rw [cacheView, cacheView, getValue_markAllAsRead]
    rw [hview]
    exact h l hlogs

/-- What pruning leaves is good if everything was. -/
theorem hintsGood_pruneHalf {codec : Codec fun _ : C => W} {c : CacheLog}
    (h : HintsGood codec good (cacheView c fun _ => none)) :
    HintsGood codec good (cacheView c.pruneHalf fun _ => none) := by
  intro k bytes w hbytes
  refine h k bytes w ?_
  rw [cacheView] at hbytes ⊢
  cases hvalue : c.pruneHalf.getValue (codec.keyBytes k) with
  | none => rw [hvalue] at hbytes; cases hbytes
  | some value => rw [getValue_pruneHalf hvalue, ← hbytes, hvalue]

variable {rule : HintRule C W} (hcodec : Codec.Lawful runtime.offchainCodec)
  (hguarded : ∀ memory spec key root block,
    Guarded rule (fun _ => True) (runtime.block memory spec key root block))
  {key : Key} {execs : List (BlockExec H Tx Witness (GuestLog G))} {root root' : H}
include hcodec hguarded

/-- A block whose hints from the witness are good leaves a cache of good hints. -/
theorem logsGood_nextLogs {exec : BlockExec H Tx Witness (GuestLog G)}
    (h : exec.Applied (withRuntime base jmt runtime) key)
    (houtside : OutsideGood rule (callEvents jmt runtime key exec.toBlockCall))
    (hlogs : LogsGood runtime.offchainCodec rule.good exec.logs) :
    LogsGood runtime.offchainCodec rule.good
      (some (exec.nextLogs (withRuntime base jmt runtime))) := by
  obtain ⟨memory, result, hprogram, hresult⟩ := applyProgram_of_applied h
  obtain ⟨d, t, hrun, -, hoffchain, -⟩ := applyProgram_ok hprogram
  obtain ⟨-, hinv⟩ := Guarded.sound (keeps_offchainBackend hcodec (zkStorage jmt))
    (hguarded _ _ _ _ _) (hintsGood_start hlogs) hrun houtside
  have hleft : HintsGood runtime.offchainCodec rule.good
      (cacheView exec.result.offchainLog.log.cacheLog fun _ => none) := by
    rw [hresult]
    show HintsGood _ _ (cacheView result.offchainLog.cacheLog _)
    rw [hoffchain, offchainView_commit]
    exact hinv
  intro l hl
  obtain rfl := some.inj hl
  rw [BlockExec.nextLogs]
  split
  · exact hintsGood_pruneHalf hleft
  · exact hleft

/-- A chain of blocks, by induction. -/
theorem logsGood_of_executes {logs logs' : Option (GuestLog G × GuestLog G)}
    (h : Executes (withRuntime base jmt runtime) key root logs execs root' logs')
    (houtside : ∀ exec ∈ execs, OutsideGood rule (callEvents jmt runtime key exec.toBlockCall))
    (hlogs : LogsGood runtime.offchainCodec rule.good logs) :
    LogsGood runtime.offchainCodec rule.good logs' :=
  (h.invariant (P := fun _ logs => LogsGood runtime.offchainCodec rule.good logs)
    (fun exec hexec happlied =>
      logsGood_nextLogs hcodec hguarded happlied (houtside exec hexec)) hlogs).2

/-- In a run from empty caches whose hints from the witnesses were good so far, the next hint from
the cache is good. The last block may fail later. -/
theorem cached_hints_good {call : BlockCall H Tx Witness (GuestLog G)}
    (h : Executes (withRuntime base jmt runtime) key root none execs root' call.logs)
    (houtside : ∀ exec ∈ execs, OutsideGood rule (callEvents jmt runtime key exec.toBlockCall))
    {l₁ l₂ : List (Event Val C W)} {checked : Bool} {c : C} {w : W}
    (hevents : callEvents jmt runtime key call = l₁ ++ .gotHint checked c (some w) true :: l₂)
    (hbefore : OutsideGood rule l₁) : rule.good c w := by
  have hlogs : LogsGood runtime.offchainCodec rule.good call.logs :=
    logsGood_of_executes hcodec hguarded h houtside nofun
  exact Guarded.cached_good (keeps_offchainBackend hcodec (zkStorage jmt)) (hguarded _ _ _ _ _)
    (hintsGood_start hlogs) hevents hbefore

end

end Citrea.Proofs.Storage
