import Citrea.Proofs.FullNode.Traces

/-!
# `Citrea.Proofs.FullNode.Handler`: what the handler can do to the ledger

`TaskStep` lists what a task can do to the ledger, with what it has checked. The invariants over
runs use this list and never unfold the handler again.
-/

namespace Citrea.Proofs.FullNode

open Option List Lib Spec Spec.BatchProof Spec.FullNode
open Spec.LightClient (networkToDevMode indexRange)

variable {H C : Type} {l : Ledger H} {height : UInt64}

/-! ### The ledger -/

/-- The highest status of a table without a bound on the L1 height is its last entry. -/
theorem getHighest_none (l : Ledger H) (status : L2HeightStatus) :
    l.getHighestL2HeightForStatus status none = (l.l2StatusHeights status).last?.map Prod.snd := by
  rw [Ledger.getHighestL2HeightForStatus, getD_none, Table.seekForPrev_eq_last?]
  intro e _
  have hlt := e.1.toNat_lt
  have hmax : (2 ^ 64 - 1 : UInt64).toNat = 2 ^ 64 - 1 := by decide +kernel
  show e.1.toNat ≤ (2 ^ 64 - 1 : UInt64).toNat
  rw [hmax]
  omega

/-- The keys of both statuses are at most the L1 height `height`. -/
def StatusKeysAtMost (height : UInt64) (l : Ledger H) : Prop :=
  ∀ status, ∀ e ∈ (l.l2StatusHeights status).entries, e.1 ≤ height

/-- A status that is set at the greatest L1 height is the highest one. -/
theorem getHighest_set (h : StatusKeysAtMost height l) (status : L2HeightStatus)
    (val : L2HeightAndIndex) :
    (l.setL2HeightStatus status height val).getHighestL2HeightForStatus status none = some val := by
  have hkeys : ∀ e ∈ (l.l2StatusHeights status).entries, TableKey.code e.1 ≤ TableKey.code height :=
    fun e he => UInt64.le_iff_toNat_le.mp (h status e he)
  rw [getHighest_none]
  show Option.map Prod.snd (if status = status then _ else _ : Table UInt64 _).last? = some val
  rw [if_pos rfl, Table.last?_put hkeys]
  rfl

theorem getHighest_set_of_ne {status other : L2HeightStatus} (h : other ≠ status)
    (val : L2HeightAndIndex) :
    (l.setL2HeightStatus status height val).getHighestL2HeightForStatus other none =
      l.getHighestL2HeightForStatus other none := by
  rw [getHighest_none, getHighest_none]
  show Option.map Prod.snd (if other = status then _ else _ : Table UInt64 _).last? = _
  rw [if_neg h]

theorem StatusKeysAtMost.set {top : UInt64} (h : StatusKeysAtMost top l) (hle : height ≤ top)
    (status : L2HeightStatus) (val : L2HeightAndIndex) :
    StatusKeysAtMost top (l.setL2HeightStatus status height val) := by
  intro other e he
  change e ∈ (if other = status then _ else _ : Table UInt64 _).entries at he
  split at he
  · rcases Table.mem_put.mp he with rfl | ⟨hmem, -⟩
    · exact hle
    · exact h other e hmem
  · exact h other e he

/-- A new ledger has no status. -/
theorem statusKeysAtMost_genesis (root : H) : StatusKeysAtMost height (Ledger.genesis root) :=
  fun _ _ he => absurd he not_mem_nil

variable {env : FullNodeEnv H C} {proof : Bytes} {c : SequencerCommitment H} {found : UInt64}
  {output : BatchProofCircuitOutput H}

/-- The ledger after an accepted commitment. -/
abbrev acceptCommitment (height : UInt64) (c : SequencerCommitment H) (l : Ledger H) : Ledger H :=
  (l.putCommitmentByIndex c).setL2HeightStatus .committed height ⟨c.l2EndBlockNumber, c.index⟩

/-- The ledger after an accepted proof. -/
abbrev acceptProof (height found : UInt64) (proof : Bytes) (output : BatchProofCircuitOutput H)
    (l : Ledger H) : Ledger H :=
  (l.updateVerifiedProofData found proof output).setL2HeightStatus .proven height
    ⟨output.lastL2Height, output.sequencerCommitmentIndexRange.2⟩

theorem provenStatus_acceptCommitment :
    provenStatus (acceptCommitment height c l) = provenStatus l := by
  rw [provenStatus, highestStatus, getHighest_set_of_ne (by decide)]
  rfl

theorem getHighest_acceptProof (h : StatusKeysAtMost height l) :
    (acceptProof height found proof output l).getHighestL2HeightForStatus .proven none =
      some ⟨output.lastL2Height, output.sequencerCommitmentIndexRange.2⟩ :=
  getHighest_set (l := l.updateVerifiedProofData found proof output) h _ _

theorem provenStatus_acceptProof (h : StatusKeysAtMost height l) :
    provenStatus (acceptProof height found proof output l) =
      ⟨output.lastL2Height, output.sequencerCommitmentIndexRange.2⟩ := by
  rw [provenStatus, highestStatus, getHighest_acceptProof h]
  rfl

/-- No stored commitment is above the committed status. -/
def CommittedUpTo (l : Ledger H) : Prop :=
  ∀ i c, l.getCommitmentByIndex i = some c →
    ∃ status, l.getHighestL2HeightForStatus .committed none = some status ∧
      c.l2EndBlockNumber ≤ status.height ∧ i ≤ status.commitmentIndex

/-- A commitment that is accepted is above all stored ones. -/
theorem CommittedUpTo.above (h : CommittedUpTo l) (hfresh : ¬ CommitmentDone l c) {i : UInt32}
    {d : SequencerCommitment H} (hd : l.getCommitmentByIndex i = some d) :
    d.l2EndBlockNumber < c.l2EndBlockNumber ∧ i < c.index := by
  obtain ⟨status, hstatus, hheight, hindex⟩ := h i d hd
  have hadvances := (not_commitmentDone.mp hfresh).2
  rw [advancesCommitted, hstatus, Bool.and_eq_true, decide_eq_true_eq,
    decide_eq_true_eq] at hadvances
  exact ⟨UInt64.lt_of_le_of_lt hheight hadvances.1, UInt32.lt_of_le_of_lt hindex hadvances.2⟩

theorem CommittedUpTo.accept (h : CommittedUpTo l) (hkeys : StatusKeysAtMost height l)
    (hfresh : ¬ CommitmentDone l c) : CommittedUpTo (acceptCommitment height c l) := by
  intro i d hd
  refine ⟨_, getHighest_set (l := l.putCommitmentByIndex c) hkeys _ _, ?_⟩
  rcases Table.get_put hd with ⟨rfl, rfl⟩ | hold
  · exact ⟨UInt64.le_refl _, UInt32.le_refl _⟩
  · obtain ⟨hheight, hindex⟩ := h.above hfresh hold
    exact ⟨UInt64.le_of_lt hheight, UInt32.le_of_lt hindex⟩

/-- The proof system accepts a proof for a code commitment of the node. -/
def Verified (env : FullNodeEnv H C) (proof : Bytes) (output : BatchProofCircuitOutput H) : Prop :=
  env.extractOutput proof = some output ∧
    ∃ codeCommitment, env.verify proof codeCommitment (networkToDevMode env.network) = true

theorem ValidProof.verified (h : ValidProof env proof output) : Verified env proof output := by
  obtain ⟨fork, code, -, -, hverify⟩ := h.verify
  exact ⟨h.extract, code, hverify⟩

variable [DecidableEq H] {result : ProcessingResult} {writes : List (LedgerWrite H)}

/-! ### The turns of the handler -/

theorem commitmentTrace_ok {t : Trace (LedgerWrite H)}
    (h : commitmentTrace env height c l = .ok t) :
    (t.writes = [] ∧ (c.index = 0 ∨ t.halted = true)) ∨ (t.halted = false ∧ c.index ≠ 0 ∧
      ∃ result, processSequencerCommitment env height height c l = .ok (result, t.writes)) := by
  rw [commitmentTrace] at h
  split at h
  · next hzero =>
    rw [pure_eq_ok] at h
    exact .inl (h ▸ ⟨rfl, .inl hzero⟩)
  next hzero =>
  split at h
  · next result writes hwrites =>
    rw [pure_eq_ok] at h
    exact .inr (h ▸ ⟨rfl, hzero, result, hwrites⟩)
  · rw [pure_eq_ok] at h
    exact .inl (h ▸ ⟨rfl, .inr rfl⟩)
  · simp at h
  · simp at h

theorem proofTrace_ok {t : Trace (LedgerWrite H)}
    (h : proofTrace env height proof l = .ok t) : t.writes = [] ∨ (t.halted = false ∧
      ∃ result, processZkProof env height height proof l = .ok (result, t.writes)) := by
  rw [proofTrace] at h
  split at h
  · next result writes hwrites =>
    rw [pure_eq_ok] at h
    exact .inr (h ▸ ⟨rfl, result, hwrites⟩)
  · rw [pure_eq_ok] at h
    exact .inl (h ▸ rfl)
  · simp at h

section
variable {index : UInt32} {range : UInt32 × UInt32} {control : LoopControl}

/-- What a turn of the loop over pending commitments can do: it accepts the commitment and removes
it, it discards and removes it, it keeps it, or it makes no write and ends the loop. -/
inductive CommitmentTurn (height : UInt64) (index : UInt32) (c : SequencerCommitment H)
    (found : UInt64)
    (l : Ledger H) : List (LedgerWrite H) → LoopControl → Prop
  | accept (fresh : ¬ CommitmentDone l c) (linked : Linked l c) (start : UInt64)
      (again : processable l index c = true) : CommitmentTurn height index c found l
        (acceptWrites height found c start ++ [.removePendingCommitment index]) .next
  | discard (done : CommitmentDone l c) :
      CommitmentTurn height index c found l [.removePendingCommitment index] .next
  | keep (fresh : ¬ CommitmentDone l c) (writes : List (LedgerWrite H))
      (trace : CommitmentTrace height found c l .pending writes)
      (again : processable l index c = true) : CommitmentTurn height index c found l writes .next
  | exit : CommitmentTurn height index c found l [] .exit
  | halt : CommitmentTurn height index c found l [] .halt

theorem retryCommitmentTurn_ok
    (h : retryCommitmentTurn env height index c found l = .ok (writes, control)) :
    CommitmentTurn height index c found l writes control := by
  rw [retryCommitmentTurn] at h
  split at h
  · next hagain =>
    split at h
    · next ws hwrites =>
      obtain ⟨rfl, rfl⟩ := pure_pair_eq_ok.mp h
      cases processSequencerCommitment_ok hwrites with
      | success fresh linked start => exact .accept fresh linked start hagain
    · next ws hwrites =>
      obtain ⟨rfl, rfl⟩ := pure_pair_eq_ok.mp h
      cases processSequencerCommitment_ok hwrites with
      | discarded done => exact .discard done
    · next ws hwrites =>
      obtain ⟨rfl, rfl⟩ := pure_pair_eq_ok.mp h
      have htrace := processSequencerCommitment_ok hwrites
      have hfresh : ¬ CommitmentDone l c := by
        cases htrace with
        | waiting fresh _ _ => exact fresh
        | pending fresh _ => exact fresh
      exact .keep hfresh ws htrace hagain
    · obtain ⟨rfl, rfl⟩ := pure_pair_eq_ok.mp h
      exact .halt
    · obtain ⟨rfl, rfl⟩ := pure_pair_eq_ok.mp h
      exact .exit
    · simp at h
  · obtain ⟨rfl, rfl⟩ := pure_pair_eq_ok.mp h
    exact .exit

/-- What a turn of the loop over pending proofs can do. -/
inductive ProofTurn (env : FullNodeEnv H C) (height : UInt64) (range : UInt32 × UInt32)
    (proof : Bytes)
    (found : UInt64) (l : Ledger H) : List (LedgerWrite H) → LoopControl → Prop
  | accept {output : BatchProofCircuitOutput H} (valid : ValidProof env proof output)
      (fresh : ¬ ProofDone l output) (first : StartsInTime l output)
      (acceptable : Acceptable env l proof output)
      (writes_eq : processZkProof env height found proof l =
        .ok (.success, proofAcceptWrites height found proof output)) :
      ProofTurn env height range proof found l
        (proofAcceptWrites height found proof output ++ [.removePendingProof range]) .next
  | discard (trace : ProofTrace env height found proof l .discarded []) :
      ProofTurn env height range proof found l [.removePendingProof range] .next
  | keep {output : BatchProofCircuitOutput H} (valid : ValidProof env proof output)
      (fresh : ¬ ProofDone l output) (supported : Supported env l output)
      (waits : Waits env l proof output) : ProofTurn env height range proof found l
        [.storePendingProof output.sequencerCommitmentIndexRange proof found] .exit
  | exit (e : ProcessingError H)
      (error : processZkProof env height found proof l = .error (.error e)) :
      ProofTurn env height range proof found l [] .exit

theorem retryProofTurn_ok
    (h : retryProofTurn env height range proof found l = .ok (writes, control)) :
    ProofTurn env height range proof found l writes control := by
  rw [retryProofTurn] at h
  split at h
  · next ws hwrites =>
    obtain ⟨rfl, rfl⟩ := pure_pair_eq_ok.mp h
    cases processZkProof_ok hwrites with
    | success valid fresh first acceptable => exact .accept valid fresh first acceptable hwrites
  · next ws hwrites =>
    obtain ⟨rfl, rfl⟩ := pure_pair_eq_ok.mp h
    cases processZkProof_ok hwrites with
    | invalid never => exact .discard (.invalid never)
    | discarded valid done => exact .discard (.discarded valid done)
  · next ws hwrites =>
    obtain ⟨rfl, rfl⟩ := pure_pair_eq_ok.mp h
    cases processZkProof_ok hwrites with
    | pending valid fresh supported waits => exact .keep valid fresh supported waits
  · next e herror =>
    obtain ⟨rfl, rfl⟩ := pure_pair_eq_ok.mp h
    exact .exit e herror
  · simp at h

end

/-! ### Tasks -/

/-- The task tries the commitment `c`. -/
def TriesCommitment (c : SequencerCommitment H) : HandlerTask H → Prop
  | .commitment d => d = c ∧ d.index ≠ 0
  | .retryCommitment _ d _ => d = c
  | _ => False

/-- The task tries the proof `p`. -/
def Tries (p : Bytes) : HandlerTask H → Prop
  | .proof q => q = p
  | .retryProof _ q _ => q = p
  | _ => False

/-- At most one entry of what is pending was removed. -/
inductive Removed (l : Ledger H) : Ledger H → Prop
  | none : Removed l l
  | commitment (index : UInt32) : Removed l (l.removePendingCommitment index)
  | proof (range : UInt32 × UInt32) : Removed l (l.removePendingProof range)

/-- What a task can do to the ledger, and which tasks are left. `height` is the L1 height of the
block. -/
inductive TaskStep (env : FullNodeEnv H C) (height : UInt64) (rest : List (HandlerTask H))
    (l : Ledger H) :
    HandlerTask H → TaskResult H → Prop
  | skip (task : HandlerTask H) (left : List (HandlerTask H)) (sublist : left.Sublist rest)
      (halted : Bool) :
      TaskStep env height rest l task ⟨l, left, halted⟩
  | commitment {task : HandlerTask H} {c : SequencerCommitment H} {found : UInt64}
      {result : ProcessingResult} {writes : List (LedgerWrite H)} {l' : Ledger H}
      (tries : TriesCommitment c task) (trace : CommitmentTrace height found c l result writes)
      (removed : Removed (applyAll LedgerWrite.applyLedger writes l) l') :
      TaskStep env height rest l task ⟨l', rest, false⟩
  | proof {task : HandlerTask H} {p : Bytes} {found : UInt64} {result : ProcessingResult}
      {writes : List (LedgerWrite H)} {l' : Ledger H} {left : List (HandlerTask H)}
      (tries : Tries p task) (trace : ProofTrace env height found p l result writes)
      (removed : Removed (applyAll LedgerWrite.applyLedger writes l) l')
      (sublist : left.Sublist rest) :
      TaskStep env height rest l task ⟨l', left, false⟩
  | pendingCommitments : TaskStep env height rest l .pendingCommitments
      ⟨l, l.getPendingCommitments.map (fun e => .retryCommitment e.1 e.2.1 e.2.2) ++ rest, false⟩
  | pendingProofs : TaskStep env height rest l .pendingProofs
      ⟨l, l.getPendingProofs.map (fun e => .retryProof e.1 e.2.1 e.2.2) ++ rest, false⟩
  | finish : TaskStep env height rest l .finish ⟨l.setLastScannedL1Height height, rest, false⟩

section
variable {task t : HandlerTask H} {rest : List (HandlerTask H)} {result : TaskResult H}

/-- A task that returns. -/
theorem runTask_ok (h : runTask env height task rest l = .ok result) :
    TaskStep env height rest l task result := by
  -- a task without writes, which may stop the handler
  have hskip : ∀ (task : HandlerTask H) (t : Trace (LedgerWrite H)), t.writes = [] →
      TaskStep env height rest l task (.ofTrace rest l t) := by
    intro task t hnil
    have hleft : (if t.halted then [] else rest).Sublist rest := by
      split
      · exact nil_sublist _
      · exact .refl _
    rw [TaskResult.ofTrace, hnil]
    exact .skip task _ hleft t.halted
  cases task with
  | commitment c =>
    simp only [runTask, bind_eq_ok, pure_eq_ok] at h
    obtain ⟨t, ht, rfl⟩ := h
    rcases commitmentTrace_ok ht with ⟨hnil, -⟩ | ⟨hhalted, hzero, result, hwrites⟩
    · exact hskip _ t hnil
    · rw [TaskResult.ofTrace, hhalted]
      exact .commitment ⟨rfl, hzero⟩ (processSequencerCommitment_ok hwrites) .none
  | proof p =>
    simp only [runTask, bind_eq_ok, pure_eq_ok] at h
    obtain ⟨t, ht, rfl⟩ := h
    rcases proofTrace_ok ht with hnil | ⟨hhalted, result, hwrites⟩
    · exact hskip _ t hnil
    · rw [TaskResult.ofTrace, hhalted]
      exact .proof rfl (processZkProof_ok hwrites) .none (.refl _)
  | pendingCommitments =>
    rw [runTask, pure_eq_ok] at h
    exact h ▸ .pendingCommitments
  | retryCommitment index c found =>
    simp only [runTask, bind_eq_ok, pure_eq_ok] at h
    obtain ⟨⟨writes, control⟩, hturn, rfl⟩ := h
    cases retryCommitmentTurn_ok hturn with
    | accept fresh linked start again =>
      have htrace : CommitmentTrace height found c l .success _ := .success fresh linked start
      exact .commitment rfl htrace (.commitment index)
    | discard done =>
      have htrace : CommitmentTrace height found c l .discarded _ := .discarded done
      exact .commitment rfl htrace (.commitment index)
    | keep fresh _ trace again => exact .commitment rfl trace .none
    | exit => exact .skip _ _ (dropWhile_sublist _) false
    | halt => exact .skip _ [] (nil_sublist _) true
  | pendingProofs =>
    rw [runTask, pure_eq_ok] at h
    exact h ▸ .pendingProofs
  | retryProof range p found =>
    simp only [runTask, bind_eq_ok, pure_eq_ok] at h
    obtain ⟨⟨writes, control⟩, hturn, rfl⟩ := h
    cases retryProofTurn_ok hturn with
    | accept valid fresh first acceptable =>
      exact .proof rfl (.success valid fresh first acceptable) (.proof range) (.refl _)
    | discard trace => exact .proof rfl trace (.proof range) (.refl _)
    | keep valid fresh supported waits =>
      exact .proof rfl (.pending valid fresh supported waits) .none (dropWhile_sublist _)
    | exit => exact .skip _ _ (dropWhile_sublist _) false
  | finish =>
    rw [runTask, pure_eq_ok] at h
    exact h ▸ .finish

/-- The tasks after a step are old ones, or they try again what is pending. -/
theorem TaskStep.mem_tasks (h : TaskStep env height rest l task result) (ht : t ∈ result.tasks) :
    t ∈ rest ∨ (∃ index c found, t = .retryCommitment index c found ∧
      l.getPendingCommitmentByIndex index = some (c, found)) ∨
    ∃ range p found, t = .retryProof range p found ∧
      l.pendingProofs.get range = some (p, found) := by
  cases h with
  | skip _ _ sublist => exact .inl (sublist.mem ht)
  | commitment => exact .inl ht
  | proof _ _ _ sublist => exact .inl (sublist.mem ht)
  | pendingCommitments =>
    rcases mem_append.mp ht with hretry | hold
    · obtain ⟨e, he, rfl⟩ := mem_map.mp hretry
      exact .inr (.inl ⟨e.1, e.2.1, e.2.2, rfl, Table.mem_entries.mp he⟩)
    · exact .inl hold
  | pendingProofs =>
    rcases mem_append.mp ht with hretry | hold
    · obtain ⟨e, he, rfl⟩ := mem_map.mp hretry
      exact .inr (.inr ⟨e.1, e.2.1, e.2.2, rfl, Table.mem_entries.mp he⟩)
    · exact .inl hold
  | finish => exact .inl ht

/-- A proof that is pending after a step was pending before it, or the task tries it. -/
theorem TaskStep.pendingProofs_get (h : TaskStep env height rest l task result)
    {range : UInt32 × UInt32} {e : Bytes × UInt64}
    (he : result.ledger.pendingProofs.get range = some e) :
    l.pendingProofs.get range = some e ∨ Tries e.1 task := by
  have hremoved : ∀ {l₁ l₂ : Ledger H}, Removed l₁ l₂ → l₂.pendingProofs.get range = some e →
      l₁.pendingProofs.get range = some e := by
    intro l₁ l₂ hr hget
    cases hr with
    | none => exact hget
    | commitment => exact hget
    | proof => exact Table.get_delete hget
  cases h with
  | commitment _ trace removed =>
    have hget := hremoved removed he
    cases trace with
    | _ => exact .inl hget
  | proof tries trace removed =>
    have hget := hremoved removed he
    cases trace with
    | pending =>
      rcases Table.get_put hget with ⟨-, rfl⟩ | hold
      · exact .inr tries
      · exact .inl hold
    | _ => exact .inl hget
  | _ => exact .inl he

end

/-! ### The node -/

/-- What the handler can do in one step. -/
inductive HandlerStep (env : FullNodeEnv H C) (s : NodeState H) : NodeState H → Prop
  | idle : HandlerStep env s s
  | start (block : L1Block H) (rest : List (L1Block H)) (queue_eq : s.queue = block :: rest)
      (tasks_eq : s.tasks = none) :
      HandlerStep env s { s with
        ledger := s.ledger.setL1HeightOfL1Hash block.hash block.height
        tasks := some block.tasks }
  | done (block : L1Block H) (rest : List (L1Block H)) (queue_eq : s.queue = block :: rest) :
      HandlerStep env s { s with queue := rest, tasks := none }
  | task (block : L1Block H) (rest : List (L1Block H)) (queue_eq : s.queue = block :: rest)
      (task : HandlerTask H) (left : List (HandlerTask H))
      (tasks_eq : s.tasks = some (task :: left))
      (result : TaskResult H) (step : TaskStep env block.height left s.ledger task result) :
      HandlerStep env s { s with
        ledger := result.ledger
        tasks := some result.tasks
        halted := result.halted }

theorem runHandler_ok {s s' : NodeState H} (h : runHandler env s = .ok s') :
    HandlerStep env s s' := by
  rw [runHandler] at h
  split at h
  · rw [pure_eq_ok] at h
    exact h ▸ .idle
  · next block rest hqueue htasks =>
    rw [pure_eq_ok] at h
    exact h ▸ .start block rest hqueue htasks
  · next block rest hqueue htasks =>
    rw [pure_eq_ok] at h
    exact h ▸ .done block rest hqueue
  · next block rest task left hqueue htasks =>
    rw [bind_eq_ok] at h
    obtain ⟨result, hresult, h⟩ := h
    rw [pure_eq_ok] at h
    exact h ▸ .task block rest hqueue task left htasks result (runTask_ok hresult)

/-! ### What the handler writes

`BlockInv` holds at every moment of a block, between any two writes: stored commitments have no gap,
the keys of the pending tables belong to their values, and what is done stays done (`Later`).
`Allowed` says which writes keep it.
-/

variable {H C : Type} [DecidableEq H] {env : FullNodeEnv H C} {l l₀ : Ledger H} {proof : Bytes}

/-- The invariant of the ledger between two writes. -/
structure LedgerInv (env : FullNodeEnv H C) (l : Ledger H) : Prop where
  gapless : ∀ i c, l.getCommitmentByIndex i = some c →
    i ≠ 0 ∧ (i = 1 ∨ l.getCommitmentByIndex (i - 1) ≠ none)
  pending : ∀ i e, l.getPendingCommitmentByIndex i = some e → e.1.index = i ∧ i ≠ 0
  proofs : ∀ range e, l.pendingProofs.get range = some e →
    ∃ output, env.extractOutput e.1 = some output ∧ output.sequencerCommitmentIndexRange = range

/-- What is stored or done on a ledger of a block is so on a later one, and the L1 hashes are the
same. -/
structure Later (l l' : Ledger H) : Prop where
  stored : ∀ i c, l.getCommitmentByIndex i = some c → l'.getCommitmentByIndex i = some c
  committed : ∀ c, advancesCommitted l c = false → advancesCommitted l' c = false
  proven : ∀ output, ProofDone l output → ProofDone l' output
  hashes : l'.slotByHash = l.slotByHash

/-- The invariant while a block is processed, after its first write. `l₀` is an earlier ledger. -/
structure BlockInv (env : FullNodeEnv H C) (block : L1Block H) (l₀ l : Ledger H) : Prop
    extends LedgerInv env l where
  slot : l.slotByHash block.hash = some block.height
  keys : StatusKeysAtMost block.height l
  later : Later l₀ l

/-- The writes that the handler can make at the ledger `l`. -/
def Allowed (env : FullNodeEnv H C) (block : L1Block H) (l : Ledger H) : LedgerWrite H → Prop
  | .setL1HeightOfL1Hash hash height => hash = block.hash ∧ height = block.height
  | .putCommitmentByIndex c => c.index ≠ 0 ∧ Linked l c ∧ l.getCommitmentByIndex c.index = none
  | .setL2HeightStatus status l1Height val => l1Height = block.height ∧
      (highestStatus l status).height ≤ val.height ∧
      (highestStatus l status).commitmentIndex ≤ val.commitmentIndex
  | .storePendingCommitment c _ => c.index ≠ 0
  | .storePendingProof range proof _ =>
    ∃ output, env.extractOutput proof = some output ∧ output.sequencerCommitmentIndexRange = range
  | _ => True

/-- Each of the writes is allowed when it is made. -/
def AllAllowed (env : FullNodeEnv H C) (block : L1Block H) :
    List (LedgerWrite H) → Ledger H → Prop
  | [], _ => True
  | w :: rest, l => Allowed env block l w ∧ AllAllowed env block rest (w.applyLedger l)

variable {block : L1Block H} {f : FullLedger H} {w : LedgerWrite H}
  {writes : List (LedgerWrite H)} {i : UInt32} {found : UInt64} {result : ProcessingResult}

omit [DecidableEq H] in
theorem Later.refl (l : Ledger H) : Later l l := ⟨fun _ _ h => h, fun _ h => h, fun _ h => h, rfl⟩

omit [DecidableEq H] in
theorem Later.trans {l' l'' : Ledger H} (h : Later l l') (h' : Later l' l'') : Later l l'' :=
  ⟨fun i c hc => h'.stored i c (h.stored i c hc), fun c hc => h'.committed c (h.committed c hc),
    fun output hd => h'.proven output (h.proven output hd), h'.hashes.trans h.hashes⟩

omit [DecidableEq H] in
/-- A commitment that is done stays done. -/
theorem CommitmentDone.later {l' : Ledger H} {c : SequencerCommitment H} (h : CommitmentDone l c)
    (hlater : Later l l') : CommitmentDone l' c := by
  refine h.imp (fun hstored => ?_) (hlater.committed c)
  obtain ⟨c', hc'⟩ := ne_none_iff_exists'.mp hstored
  rw [hlater.stored _ _ hc']
  exact some_ne_none _

omit [DecidableEq H] in
/-- A commitment that does not advance an older status does not advance a greater one. -/
theorem advancesCommitted_set {c : SequencerCommitment H} {val : L2HeightAndIndex}
    (hkeys : StatusKeysAtMost height l) (hheight : (highestStatus l .committed).height ≤ val.height)
    (hindex : (highestStatus l .committed).commitmentIndex ≤ val.commitmentIndex)
    (h : advancesCommitted l c = false) :
    advancesCommitted (l.setL2HeightStatus .committed height val) c = false := by
  rw [advancesCommitted] at h
  cases hold : l.getHighestL2HeightForStatus .committed none with
  | none => simp [hold] at h
  | some old =>
    rw [highestStatus, hold, getD_some] at hheight hindex
    rw [advancesCommitted, getHighest_set hkeys]
    simp only [hold, Bool.and_eq_false_iff, decide_eq_false_iff_not, UInt64.not_lt,
      UInt32.not_lt] at h ⊢
    exact h.imp (fun hle => UInt64.le_trans hle hheight) (fun hle => UInt32.le_trans hle hindex)

/-- An allowed write leads to a later ledger. -/
theorem later_applyLedger (hslot : l.slotByHash block.hash = some block.height)
    (hkeys : StatusKeysAtMost block.height l) (hw : Allowed env block l w) :
    Later l (w.applyLedger l) := by
  cases w with
  | setL1HeightOfL1Hash hash height =>
    obtain ⟨rfl, rfl⟩ := hw
    refine ⟨fun _ _ h => h, fun _ h => h, fun _ h => h, funext fun h => ?_⟩
    show (if h = block.hash then some block.height else l.slotByHash h) = l.slotByHash h
    split
    · next heq => rw [heq, hslot]
    · rfl
  | putCommitmentByIndex c =>
    refine ⟨fun i d hd => ?_, fun _ h => h, fun _ h => h, rfl⟩
    have hne : i ≠ c.index := by
      rintro rfl
      simp [hw.2.2] at hd
    exact (Table.get_put_of_ne hne).trans hd
  | setL2HeightStatus status l1Height val =>
    obtain ⟨rfl, hheight, hindex⟩ := hw
    cases status with
    | committed =>
      refine ⟨fun _ _ h => h, fun _ => advancesCommitted_set hkeys hheight hindex, ?_, rfl⟩
      intro output hdone
      rwa [ProofDone, provenStatus, highestStatus, LedgerWrite.applyLedger,
        getHighest_set_of_ne (by decide)]
    | proven =>
      refine ⟨fun _ _ h => h, fun c hc => ?_, fun output hdone => ?_, rfl⟩
      · rwa [advancesCommitted, LedgerWrite.applyLedger, getHighest_set_of_ne (by decide)]
      · rw [ProofDone, provenStatus, highestStatus, LedgerWrite.applyLedger, getHighest_set hkeys]
        exact hdone.imp (fun hle => UInt64.le_trans hle hheight)
          (fun hle => UInt32.le_trans hle hindex)
  | _ => exact ⟨fun _ _ h => h, fun _ h => h, fun _ h => h, rfl⟩

theorem LedgerInv.applyLedger (h : LedgerInv env l) (hw : Allowed env block l w) :
    LedgerInv env (w.applyLedger l) := by
  cases w with
  | putCommitmentByIndex c =>
    refine ⟨fun i c' hc' => ?_, h.pending, h.proofs⟩
    have hold : ∀ j, l.getCommitmentByIndex j ≠ none →
        (l.putCommitmentByIndex c).getCommitmentByIndex j ≠ none := by
      intro j hj
      show (l.sequencerCommitmentByIndex.put c.index c).get j ≠ none
      by_cases heq : j = c.index
      · rw [heq, Table.get_put_self]
        exact some_ne_none c
      · rwa [Table.get_put_of_ne heq]
    rcases Table.get_put hc' with ⟨rfl, -⟩ | hget
    · exact ⟨hw.1, hw.2.1.imp_right (hold _)⟩
    · exact ⟨(h.gapless i c' hget).1, (h.gapless i c' hget).2.imp_right (hold _)⟩
  | storePendingCommitment c found =>
    refine ⟨h.gapless, fun i e he => ?_, h.proofs⟩
    rcases Table.get_put he with ⟨rfl, rfl⟩ | hget
    · exact ⟨rfl, hw⟩
    · exact h.pending i e hget
  | removePendingCommitment index =>
    exact ⟨h.gapless, fun i e he => h.pending i e (Table.get_delete he), h.proofs⟩
  | storePendingProof range proof found =>
    refine ⟨h.gapless, h.pending, fun range' e he => ?_⟩
    rcases Table.get_put he with ⟨rfl, rfl⟩ | hget
    · exact hw
    · exact h.proofs range' e hget
  | removePendingProof range =>
    exact ⟨h.gapless, h.pending, fun range' e he => h.proofs range' e (Table.get_delete he)⟩
  | _ => exact ⟨h.gapless, h.pending, h.proofs⟩

omit [DecidableEq H] in
/-- Any ledger of the block can be the earlier one. -/
theorem BlockInv.rebase (h : BlockInv env block l₀ l) : BlockInv env block l l :=
  ⟨h.toLedgerInv, h.slot, h.keys, .refl l⟩

/-- One write keeps the invariant. -/
theorem BlockInv.applyLedger (h : BlockInv env block l₀ l) (hw : Allowed env block l w) :
    BlockInv env block l₀ (w.applyLedger l) := by
  have hlater := later_applyLedger h.slot h.keys hw
  refine ⟨h.toLedgerInv.applyLedger hw, ?_, ?_, h.later.trans hlater⟩
  · rw [hlater.hashes]
    exact h.slot
  · cases w with
    | setL2HeightStatus status l1Height val =>
      obtain ⟨rfl, -⟩ := hw
      exact h.keys.set (UInt64.le_refl _) status val
    | _ => exact h.keys

/-- The invariant holds between any two allowed writes. -/
theorem BlockInv.applyAll (h : BlockInv env block l₀ f.ledger)
    (hwrites : AllAllowed env block writes f.ledger) (k : Nat) :
    BlockInv env block l₀ (applyAll LedgerWrite.apply (writes.take k) f).ledger := by
  induction writes generalizing f k with
  | nil => rwa [take_nil]
  | cons w rest ih =>
    cases k with
    | zero => exact h
    | succ k =>
      obtain ⟨hw, hrest⟩ := hwrites
      rw [← apply_ledger] at hrest
      refine ih ?_ hrest k
      rw [apply_ledger]
      exact h.applyLedger hw

/-- The writes of an accepted commitment, and the removal that a loop makes after them. -/
theorem acceptWrites_allowed {c : SequencerCommitment H} {start : UInt64} (hc : c.index ≠ 0)
    (hfresh : ¬ CommitmentDone l c) (hlinked : Linked l c)
    (hwrites : ∀ l', AllAllowed env block writes l') :
    AllAllowed env block (acceptWrites block.height found c start ++ writes) l := by
  obtain ⟨hnone, hadvances⟩ := not_commitmentDone.mp hfresh
  refine ⟨trivial, trivial, ⟨hc, hlinked, hnone⟩, ⟨rfl, ?_⟩, hwrites _⟩
  show (highestStatus l .committed).height ≤ c.l2EndBlockNumber ∧
    (highestStatus l .committed).commitmentIndex ≤ c.index
  rw [advancesCommitted] at hadvances
  rw [highestStatus]
  cases hold : l.getHighestL2HeightForStatus .committed none with
  | none => exact ⟨UInt64.zero_le, UInt32.zero_le⟩
  | some old =>
    simp only [hold, Bool.and_eq_true, decide_eq_true_eq] at hadvances
    exact ⟨UInt64.le_of_lt hadvances.1, UInt32.le_of_lt hadvances.2⟩

/-- The writes of an accepted proof, and the removal that a loop makes after them. -/
theorem proofAcceptWrites_allowed {output : BatchProofCircuitOutput H}
    (hfresh : ¬ ProofDone l output) (hwrites : ∀ l', AllAllowed env block writes l') :
    AllAllowed env block (proofAcceptWrites block.height found proof output ++ writes) l := by
  obtain ⟨hheight, hindex⟩ := not_proofDone.mp hfresh
  exact ⟨trivial, ⟨rfl, UInt64.le_of_lt hheight, UInt32.le_of_lt hindex⟩, hwrites _⟩

theorem CommitmentTrace.allowed {c : SequencerCommitment H}
    (h : CommitmentTrace block.height found c l result writes) (hc : c.index ≠ 0) :
    AllAllowed env block writes l := by
  cases h with
  | discarded => trivial
  | waiting => trivial
  | pending => exact ⟨hc, trivial⟩
  | success fresh linked start =>
    rw [← append_nil (acceptWrites _ _ _ _)]
    exact acceptWrites_allowed hc fresh linked fun _ => trivial

theorem ProofTrace.allowed (h : ProofTrace env block.height found proof l result writes) :
    AllAllowed env block writes l := by
  cases h with
  | invalid => trivial
  | discarded => trivial
  | pending valid => exact ⟨⟨_, valid.extract, rfl⟩, trivial⟩
  | success valid fresh =>
    rw [← append_nil (proofAcceptWrites _ _ _ _)]
    exact proofAcceptWrites_allowed fresh fun _ => trivial

omit [DecidableEq H] in
/-- Above an index without a commitment there is none. -/
theorem LedgerInv.none_above (h : LedgerInv env l) (hi : l.getCommitmentByIndex i = none)
    (hpos : i ≠ 0) (n : Nat) :
    ∀ j : UInt32, j.toNat = i.toNat + n → l.getCommitmentByIndex j = none := by
  -- by induction on the distance: a commitment at `j` needs one at `j - 1`
  have hone : 0 < i.toNat := Nat.pos_of_ne_zero fun hzero => hpos (UInt32.toNat_inj.mp hzero)
  induction n with
  | zero =>
    intro j hj
    rwa [UInt32.toNat_inj.mp hj]
  | succ n ih =>
    intro j hj
    have hlt := j.toNat_lt
    have hpred : (j - 1).toNat = i.toNat + n := by
      rw [UInt32.toNat_sub_of_le _ _ (by rw [UInt32.le_iff_toNat_le]; simp; omega), hj]
      simp
    by_contra hsome
    obtain ⟨c, hc⟩ := ne_none_iff_exists'.mp hsome
    rcases (h.gapless j c hc).2 with rfl | hprev
    · simp at hj
      omega
    · exact hprev (ih _ hpred)

end Citrea.Proofs.FullNode
