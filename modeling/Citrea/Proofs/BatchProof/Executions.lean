import Citrea.Proofs.BatchProof.Circuit

/-!
# `Citrea.Proofs.BatchProof.Executions`: the blocks of a run, one after the other

`BlockExec` is one call of `apply_l2_block` in a run of the batch circuit: its arguments
(`BlockCall`), its result, and whether the logs are pruned after it. `Executes` is a chain of such
calls. Each call starts from the root and the logs that the one before left. `circuit_executes`
finds the chain of a whole run, for the blocks that the host sends.
-/

namespace Citrea.Proofs.BatchProof

open List Lib
open Spec (SpecId)
open Spec.BatchProof

variable {H Tx Wit Log Key : Type}

/-- The arguments of a call of `apply_l2_block`. -/
structure BlockCall (H Tx Wit Log : Type) where
  spec : SpecId
  preStateRoot : H
  logs : Option (Log × Log)
  stateWitness : Wit
  offchainWitness : Wit
  block : L2Block H Tx

/-- A call of `apply_l2_block` in a run that returned. -/
structure BlockExec (H Tx Wit Log : Type) extends BlockCall H Tx Wit Log where
  result : L2BlockResult H Log
  pruned : Bool

/-- The logs for the next block. -/
def BlockExec.nextLogs (env : StfEnv H Tx Wit Log Key) (exec : BlockExec H Tx Wit Log) :
    Log × Log :=
  if exec.pruned then (env.pruneHalf exec.result.stateLog, env.pruneHalf exec.result.offchainLog)
  else (exec.result.stateLog, exec.result.offchainLog)

/-- The block of a call with its witnesses, as the host sends them. -/
def BlockExec.sent (exec : BlockExec H Tx Wit Log) : L2Block H Tx × Wit × Wit :=
  (exec.block, exec.stateWitness, exec.offchainWitness)

/-- The blocks that the host sends. -/
def sentBlocks (host : List (HostItem H Tx Wit)) : List (L2Block H Tx × Wit × Wit) :=
  host.filterMap fun item => match item with
    | .block b w w' => some (b, w, w')
    | _ => none

variable [DecidableEq H]

/-- The call returned, and its roots are the ones that the circuit compares. -/
structure BlockExec.Applied (env : StfEnv H Tx Wit Log Key) (key : Key)
    (exec : BlockExec H Tx Wit Log) : Prop where
  applied : applyL2Block env exec.spec key exec.preStateRoot exec.logs exec.stateWitness
    exec.offchainWitness exec.block = .ok exec.result
  initRoot : exec.result.initRoot = exec.preStateRoot
  finalRoot : exec.result.finalRoot = exec.block.stateRoot

/-- A chain of calls, from a root and logs to a root and logs. -/
inductive Executes (env : StfEnv H Tx Wit Log Key) (key : Key) :
    H → Option (Log × Log) → List (BlockExec H Tx Wit Log) → H → Option (Log × Log) → Prop where
  | nil {root : H} {logs : Option (Log × Log)} : Executes env key root logs [] root logs
  | cons {exec : BlockExec H Tx Wit Log} {rest : List (BlockExec H Tx Wit Log)} {root : H}
      {logs : Option (Log × Log)} (h : exec.Applied env key)
      (hs : Executes env key exec.result.finalRoot (some (exec.nextLogs env)) rest root logs) :
      Executes env key exec.preStateRoot exec.logs (exec :: rest) root logs

variable {env : StfEnv H Tx Wit Log Key} {key : Key} {l₁ l₂ : List (BlockExec H Tx Wit Log)}
  {loop loop' : BlockLoop H Tx Wit Log}

theorem Executes.append {root₁ root₂ root₃ : H} {logs₁ logs₂ logs₃ : Option (Log × Log)}
    (h₁ : Executes env key root₁ logs₁ l₁ root₂ logs₂)
    (h₂ : Executes env key root₂ logs₂ l₂ root₃ logs₃) :
    Executes env key root₁ logs₁ (l₁ ++ l₂) root₃ logs₃ := by
  induction h₁ with
  | nil => exact h₂
  | cons happlied _ ih => exact .cons happlied (ih h₂)

/-- A property of the root and the logs holds at each call and at the end, if it holds at the start
and each call keeps it. -/
theorem Executes.invariant {P : H → Option (Log × Log) → Prop}
    {execs : List (BlockExec H Tx Wit Log)} (next : ∀ exec ∈ execs, exec.Applied env key →
      P exec.preStateRoot exec.logs → P exec.result.finalRoot (some (exec.nextLogs env)))
    {root root' : H} {logs logs' : Option (Log × Log)}
    (h : Executes env key root logs execs root' logs') (start : P root logs) :
    (∀ exec ∈ execs, exec.Applied env key ∧ P exec.preStateRoot exec.logs) ∧ P root' logs' := by
  induction h with
  | nil => exact ⟨by simp, start⟩
  | cons happlied _ ih =>
    rw [forall_mem_cons] at next
    obtain ⟨hrest, hend⟩ := ih next.2 (next.1 happlied start)
    exact ⟨forall_mem_cons.mpr ⟨⟨happlied, start⟩, hrest⟩, hend⟩

/-- What a part of the circuit does to its variables, as a chain of calls. -/
structure StateExecutes (env : StfEnv H Tx Wit Log Key) (key : Key)
    (s s' : CircuitState H Tx Wit Log) (execs : List (BlockExec H Tx Wit Log)) : Prop where
  executes : Executes env key s.currentStateRoot s.cumulativeLogs execs s'.currentStateRoot
    s'.cumulativeLogs
  stateDiff : s'.stateDiff = s.stateDiff ++ execs.flatMap fun exec => exec.result.stateDiff
  sent : sentBlocks s.host = execs.map BlockExec.sent ++ sentBlocks s'.host

theorem StateExecutes.append {s₁ s₂ s₃ : CircuitState H Tx Wit Log}
    (h₁ : StateExecutes env key s₁ s₂ l₁) (h₂ : StateExecutes env key s₂ s₃ l₂) :
    StateExecutes env key s₁ s₃ (l₁ ++ l₂) where
  executes := h₁.executes.append h₂.executes
  stateDiff := by rw [h₂.stateDiff, h₁.stateDiff, append_assoc, flatMap_append]
  sent := by rw [h₁.sent, h₂.sent, map_append, append_assoc]

/-- One turn of the loop over the blocks is one call. -/
theorem applyNextBlock_executes (h : applyNextBlock env key loop = .ok loop') :
    ∃ exec, StateExecutes env key loop.state loop'.state [exec] := by
  obtain ⟨block, w, w', result, hstep⟩ := applyNextBlock_ok h
  obtain ⟨spec, happlied⟩ := hstep.applied
  obtain ⟨n, hhost⟩ := hstep.host
  let exec : BlockExec H Tx Wit Log :=
    { spec := spec
      preStateRoot := loop.state.currentStateRoot
      logs := loop.state.cumulativeLogs
      stateWitness := w
      offchainWitness := w'
      block := block
      result := result
      pruned := (nextIfEq loop.l2Height loop.state.cachePruneL2Heights).1 }
  have hlogs : loop'.state.cumulativeLogs = some (exec.nextLogs env) := by
    rw [hstep.logs]
    exact (apply_ite some _ _ _).symm
  have hroot : loop'.state.currentStateRoot = exec.result.finalRoot := by
    rw [hstep.currentStateRoot]
    exact hstep.finalRoot.symm
  have hexec : exec.Applied env key := ⟨happlied, hstep.initRoot, hstep.finalRoot⟩
  refine ⟨exec, ?_, ?_, ?_⟩
  · rw [hlogs, hroot]
    exact .cons hexec .nil
  · rw [hstep.stateDiff, flatMap_singleton]
  · rw [hhost]
    rfl

/-- The loop over the blocks of a commitment, by induction on the number of blocks. -/
theorem applyBlocks_executes {n : Nat} (h : applyBlocks env key n loop = .ok loop') :
    ∃ execs, StateExecutes env key loop.state loop'.state execs := by
  induction n generalizing loop with
  | zero =>
    rw [applyBlocks, pure_eq_ok] at h
    subst h
    exact ⟨[], .nil, by simp, by simp⟩
  | succ n ih =>
    rw [applyBlocks, bind_eq_ok] at h
    obtain ⟨mid, hfirst, hrest⟩ := h
    obtain ⟨exec, hexec⟩ := applyNextBlock_executes hfirst
    obtain ⟨execs, hexecs⟩ := ih hrest
    exact ⟨[exec] ++ execs, hexec.append hexecs⟩

/-- The roots of the commitments end with the current root. -/
def RootsEnd (loop : CommitmentLoop H Tx Wit Log) : Prop :=
  loop.stateRoots.getLast? = some loop.state.currentStateRoot

omit [DecidableEq H] in
theorem sentBlocks_u32 (n : UInt32) (host : List (HostItem H Tx Wit)) :
    sentBlocks (.u32 n :: host) = sentBlocks host := rfl

theorem applyCommitment_executes {loop loop' : CommitmentLoop H Tx Wit Log}
    {c : SequencerCommitment H} (h : applyCommitment env key loop c = .ok loop') :
    RootsEnd loop' ∧ ∃ execs, StateExecutes env key loop.state loop'.state execs := by
  simp only [applyCommitment, bind_eq_ok, assert_eq_ok, pure_eq_ok] at h
  obtain ⟨-, -, ⟨count, rest⟩, hread, blockLoop, hblocks, -, -, -, -, rfl⟩ := h
  obtain ⟨execs, hexecs⟩ := applyBlocks_executes hblocks
  refine ⟨List.getLast?_concat, execs, hexecs.executes, hexecs.stateDiff, ?_⟩
  rw [readU32_eq_ok hread, sentBlocks_u32]
  exact hexecs.sent

/-- The loop over the commitments, by induction on the list. -/
theorem applyCommitments_executes {cs : List (SequencerCommitment H)}
    {loop loop' : CommitmentLoop H Tx Wit Log} (h : applyCommitments env key loop cs = .ok loop')
    (hroots : RootsEnd loop) :
    RootsEnd loop' ∧ ∃ execs, StateExecutes env key loop.state loop'.state execs := by
  induction cs generalizing loop with
  | nil =>
    rw [applyCommitments, pure_eq_ok] at h
    subst h
    exact ⟨hroots, [], .nil, by simp, by simp⟩
  | cons c cs ih =>
    rw [applyCommitments, bind_eq_ok] at h
    obtain ⟨mid, hfirst, hrest⟩ := h
    obtain ⟨hmid, execs, hexecs⟩ := applyCommitment_executes hfirst
    obtain ⟨hend, execs', hexecs'⟩ := ih hrest hmid
    exact ⟨hend, execs ++ execs', hexecs.append hexecs'⟩

/-- The calls of a whole run. -/
structure RunExecutes (env : StfEnv H Tx Wit Log Key) (input : CircuitInput H Tx Wit)
    (out : ApplySequencerCommitmentsOutput H Log) (key : Key)
    (execs : List (BlockExec H Tx Wit Log)) (finalRoot : H) (finalLogs : Log × Log) : Prop where
  key_eq : env.publicKeyFromSlice input.sequencerPublicKey = some key
  executes : Executes env key input.initialStateRoot none execs finalRoot (some finalLogs)
  lastRoot : out.stateRoots.getLast? = some finalRoot
  stateLog : out.cumulativeStateLog = finalLogs.1
  stateDiff : out.stateDiff = execs.flatMap fun exec => exec.result.stateDiff
  sent : execs.map BlockExec.sent <+: sentBlocks input.host

theorem circuit_executes {input : CircuitInput H Tx Wit}
    {out : ApplySequencerCommitmentsOutput H Log}
    (h : applyL2BlocksFromSequencerCommitments env input = .ok out) :
    ∃ key execs finalRoot finalLogs, RunExecutes env input out key execs finalRoot finalLogs := by
  simp only [applyL2BlocksFromSequencerCommitments, bind_eq_ok, expect_eq_ok,
    assert_eq_ok, pure_eq_ok] at h
  obtain ⟨key, hkey, first, -, last, -, prevHash, -, ⟨groupCount, host⟩, hread, -, -, activation,
    -, ⟨prevEnd, prevIndex, prevCommitmentHash⟩, -, loop, hloop, finalHash, -, logs, hlogs,
    rfl⟩ := h
  obtain ⟨hroots, execs, hexecs⟩ := applyCommitments_executes hloop rfl
  have hexecutes := hexecs.executes
  rw [hlogs] at hexecutes
  refine ⟨key, execs, loop.state.currentStateRoot, logs,
    { key_eq := hkey
      executes := hexecutes
      lastRoot := hroots
      stateLog := rfl
      stateDiff := hexecs.stateDiff
      sent := ?_ }⟩
  rw [readU32_eq_ok hread, sentBlocks_u32]
  exact ⟨_, hexecs.sent.symm⟩

end Citrea.Proofs.BatchProof
