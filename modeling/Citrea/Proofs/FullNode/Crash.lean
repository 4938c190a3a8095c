import Citrea.Proofs.FullNode.Canonical
import Citrea.Proofs.FullNode.Resume

/-!
# `Citrea.Proofs.FullNode.Crash`: crashes of a full node

A commitment makes four writes and a proof makes two. After a crash the block is processed again,
and the checks that skip what was done already look at one of these writes only. `crash_diverges`
has a crash between the commitment and its status, and a crash between a proof and its status: the
status of the commitment is never written, and the proof is recorded twice.

`SafeCrash` excludes these two moments, and the moments at which a commitment or proof that was put
aside before the crash is not settled (`Settled`), so that it would be handled differently now.
`crash_idempotent` says that a node with safe crashes only ends as without them.
-/

namespace Citrea.Proofs.FullNode

open List Lib
open Lib.Script (CrashPoint Keeps Preserves Idle)
open Spec Spec.BatchProof Spec.FullNode Proofs.BatchProof
open Spec.FullNode.LedgerWrite renaming apply → write

variable {H C : Type} [DecidableEq H] {env : FullNodeEnv H C} {block : L1Block H}
  {f g : FullLedger H} {k : Nat} {w : LedgerWrite H} {height found : UInt64}
  {c : SequencerCommitment H} {writes : List (LedgerWrite H)} {s : FullLedger H × Bool}
  {items : List (ProofOrCommitment H)} {t : Trace (LedgerWrite H)} {proof : Bytes}
  {result : ProcessingResult} {input : NodeInput H} {rest : List (NodeInput H)} {l₀ : Ledger H}

/-! ### Safe crashes -/

/-- The commitments and proofs of a block that were put aside before a crash, in a run from `f` with
`k` writes up to the crash, are settled on the ledger `l` of the crash. -/
def SettledBefore (env : FullNodeEnv H C) (height : UInt64) (l : Ledger H) :
    List (ProofOrCommitment H) → (k : Nat) → (f : FullLedger H) → Prop
  | [], _, _ => True
  | item :: rest, k, f => ∀ t, itemScript env height item f = .ok t → t.writes.length ≤ k →
      (PutAside env f.ledger item → Settled env height l item) ∧
      SettledBefore env height l rest (k - t.writes.length) (applyAll write t.writes f)

/-- A crash after `k` writes of a block that starts from `f`. Nothing was written, or the next write
is not the write of a status and what was put aside before is settled. -/
def SafeCrash (env : FullNodeEnv H C) (block : L1Block H) (f : FullLedger H) (k : Nat) : Prop :=
  ∀ w g, CrashPoint write (blockScript env block) f k w g → k = 0 ∨
    (w.isStatus = false ∧ SettledBefore env block.height g.ledger block.commitmentsAndProofs (k - 1)
      ((LedgerWrite.setL1HeightOfL1Hash block.hash block.height).apply f))

/-- All crashes of a block are safe. -/
def SafeCrashes (env : FullNodeEnv H C) (block : L1Block H) : List Nat → FullLedger H → Prop
  | [], _ => True
  | k :: rest, f => SafeCrash env block f k ∧ ∀ w g,
      CrashPoint write (blockScript env block) f k w g → SafeCrashes env block rest g

/-- All crashes of a run are safe. -/
def SafeRun (env : FullNodeEnv H C) : List (NodeInput H) → FullLedger H × Bool → Prop
  | [], _ => True
  | input :: rest, s =>
    (match input with
      | .l2Block _ => True
      | .l1Block block crashes => s.2 = false → SafeCrashes env block crashes s.1) ∧
    ∀ s', stepInput env s input = .ok s' → SafeRun env rest s'

/-! ### One block -/

/-- A crash in the writes of the commitments and proofs of the block. -/
theorem items_resume (hinv : BlockInv env block f.ledger f.ledger)
    (h : CrashPoint write (Script.each write (itemScript env block.height) items) f k w g)
    (hw : w.isStatus = false) (hsettled : SettledBefore env block.height g.ledger items k f) :
    Script.run write (Script.each write (itemScript env block.height) items) g =
      Script.run write (Script.each write (itemScript env block.height) items) f := by
  induction items generalizing f k with
  | nil =>
    obtain ⟨t, ht, hwrite, -⟩ := h
    obtain rfl : (⟨[], false⟩ : Trace (LedgerWrite H)) = t := Except.ok.inj ht
    simp at hwrite
  | cons item rest ih =>
    rcases h.seq with hhere | ⟨t, ht, hhalted, hle, hlater⟩
    · exact Script.run_seq_left (item_resumes hhere hw)
    · obtain ⟨haside, hrest⟩ := hsettled t ht hle
      have hinv' := ((item_keeps item).preserves f t hinv ht).rebase
      have hg := (Keeps.each fun item _ => item_keeps item).crash hinv' hlater
      refine Script.run_seq_right (item_idle hinv ht hhalted hg.later haside)
        (m := applyAll write t.writes f) ?_ (ih hinv' hlater hrest)
      rw [Script.run_of_eq ht, hhalted]

/-- After the commitments and proofs of the block, none of them has an effect any more. -/
theorem SettledBefore.idle (h : SettledBefore env block.height g.ledger items k f)
    (hinv : BlockInv env block f.ledger f.ledger)
    (ht : Script.each write (itemScript env block.height) items f = .ok t)
    (hhalted : t.halted = false) (hle : t.writes.length ≤ k)
    (hlater : Later (applyAll write t.writes f).ledger g.ledger) :
    Idle write (Script.each write (itemScript env block.height) items) g := by
  induction items generalizing f k t with
  | nil => rfl
  | cons item rest ih =>
    obtain ⟨ta, hta, ⟨hstopped, rfl⟩ | ⟨hrunning, tb, htb, rfl⟩⟩ := Script.seq_eq_ok ht
    · simp [hstopped] at hhalted
    rw [length_append] at hle
    rw [applyAll_append] at hlater
    obtain ⟨haside, hrest⟩ := h ta hta (by omega)
    have hinv' := ((item_keeps item).preserves f ta hinv hta).rebase
    have hstep := ((Keeps.each fun item _ => item_keeps item).preserves _ tb hinv' htb).later
    exact (item_idle hinv hta hrunning (hstep.trans hlater) haside).seq
      (ih hrest hinv' htb hhalted (by omega) hlater)

theorem commitments_keep (env : FullNodeEnv H C) (block : L1Block H) :
    Keeps write (fun f : FullLedger H => BlockInv env block l₀ f.ledger)
      (pendingCommitmentsScript env block.height) := (commitments_spec env block l₀).keepsAll

theorem proofs_keep (env : FullNodeEnv H C) (block : L1Block H) :
    Keeps write (fun f : FullLedger H => BlockInv env block l₀ f.ledger)
      (pendingProofsScript env block.height) := (proofs_spec env block l₀).keepsAll

/-- The invariant holds at every moment after the commitments and proofs of the block. -/
theorem afterItems_keep (env : FullNodeEnv H C) (block : L1Block H) :
    Keeps write (fun f : FullLedger H => BlockInv env block l₀ f.ledger)
      (afterItemsScript env block.height) := by
  refine (commitments_keep env block).seq ((proofs_keep env block).seq (Script.keeps_emit ?_))
  intro w hw s hs
  obtain rfl := mem_singleton.mp hw
  exact hs.applyLedger (w := .setLastScannedL1Height block.height) trivial

/-- The invariant holds at every moment after the first write of the block. -/
theorem afterStart_keep (env : FullNodeEnv H C) (block : L1Block H) :
    Keeps write (fun f : FullLedger H => BlockInv env block l₀ f.ledger)
      (Script.seq write (Script.each write (itemScript env block.height)
        block.commitmentsAndProofs) (afterItemsScript env block.height)) :=
  (Keeps.each fun item _ => item_keeps item).seq (afterItems_keep env block)

/-- The loop over pending proofs leaves the tables of the commitments as they are. -/
theorem proofs_sameCommitments (env : FullNodeEnv H C) (height : UInt64) (f₀ : FullLedger H) :
    Keeps write (fun f => SameCommitments f₀.ledger f.ledger)
      (pendingProofsScript env height) := by
  intro f t hf ht k
  replace ht : loopScript _ f.ledger.getPendingProofs f = .ok t := ht
  -- no write of a turn is to one of these tables
  have hturn : ∀ {e : (UInt32 × UInt32) × Bytes × UInt64} {l : Ledger H}
      {writes : List (LedgerWrite H)} {control : LoopControl},
      retryProofTurn env height e.1 e.2.1 e.2.2 l = .ok (writes, control) →
      ∀ w ∈ writes, ∀ f : FullLedger H, SameCommitments f₀.ledger f.ledger →
        SameCommitments f₀.ledger (w.apply f).ledger := by
    intro e l writes control h w hw f hf
    cases retryProofTurn_ok h with
    | accept =>
      simp only [proofAcceptWrites, cons_append, nil_append, mem_cons,
        not_mem_nil, or_false] at hw
      rcases hw with rfl | rfl | rfl
      all_goals exact { hf with }
    | discard =>
      obtain rfl := mem_singleton.mp hw
      exact { hf with }
    | keep =>
      obtain rfl := mem_singleton.mp hw
      exact { hf with }
    | exit => exact absurd hw not_mem_nil
  refine applyAll_induction (P := fun s : FullLedger H => SameCommitments f₀.ledger s.ledger)
    (fun w hw => ?_) hf
  exact loopScript_writes (Q := fun w => ∀ f : FullLedger H, SameCommitments f₀.ledger f.ledger →
    SameCommitments f₀.ledger (w.apply f).ledger) (fun _ _ _ _ h w hw => hturn h w hw) ht w
    (mem_of_mem_take hw)

/-- The invariant after the first write of a block. -/
theorem LedgerInv.start (h : LedgerInv env f.ledger)
    (hkeys : StatusKeysAtMost block.height f.ledger) :
    BlockInv env block ((LedgerWrite.setL1HeightOfL1Hash block.hash block.height).apply f).ledger
      ((LedgerWrite.setL1HeightOfL1Hash block.hash block.height).apply f).ledger :=
  ⟨h.applyLedger (w := .setL1HeightOfL1Hash block.hash block.height) ⟨rfl, rfl⟩, if_pos rfl, hkeys,
    .refl _⟩

/-- A safe crash while a block is processed. -/
theorem block_resumes (hinv : LedgerInv env f.ledger)
    (hkeys : StatusKeysAtMost block.height f.ledger)
    (hcrash : CrashPoint write (blockScript env block) f k w g)
    (hsafe : SafeCrash env block f k) : Script.run write (blockScript env block) g =
      Script.run write (blockScript env block) f := by
  rcases hsafe w g hcrash with rfl | ⟨hw, hsettled⟩
  · obtain ⟨t, -, -, rfl⟩ := hcrash
    rfl
  have hcrash' := hcrash
  rcases hcrash.seq with hstart | ⟨t₁, ht₁, -, -, hrest⟩
  · rw [hstart.of_emit_singleton.2]
  obtain rfl := Except.ok.inj ht₁
  -- the first write was made, so it does nothing the second time
  have hinv₁ := hinv.start hkeys
  have hinvg := (afterStart_keep env block).crash hinv₁ hrest
  have hidle₁ : Idle write
      (Script.emit [.setL1HeightOfL1Hash block.hash block.height] : HandlerScript H) g := by
    refine (Script.run_emit _ _).trans ?_
    have hsame : (LedgerWrite.setL1HeightOfL1Hash block.hash block.height).apply g = g := by
      show { g with ledger := g.ledger.setL1HeightOfL1Hash block.hash block.height } = g
      rw [Ledger.setL1HeightOfL1Hash]
      have hslot : (fun h => if h = block.hash then some block.height else g.ledger.slotByHash h) =
          g.ledger.slotByHash := by
        funext h
        split
        · next heq => rw [heq, hinvg.slot]
        · rfl
      rw [hslot]
    rw [applyAll_cons, hsame]
    rfl
  refine Script.run_seq_right hidle₁ (Script.run_emit _ _) ?_
  rcases hrest.seq with hitems | ⟨t₂, ht₂, hhalted₂, hle₂, hafter⟩
  · exact Script.run_seq_left (items_resume hinv₁ hitems hw hsettled)
  have hinv₂ := ((Keeps.each fun item _ => item_keeps item).preserves _ t₂ hinv₁ ht₂).rebase
  have hlater := ((afterItems_keep env block).crash hinv₂ hafter).later
  refine Script.run_seq_right (hsettled.idle hinv₁ ht₂ hhalted₂ hle₂ hlater)
    (m := applyAll write t₂.writes _) (by rw [Script.run_of_eq ht₂, hhalted₂]) ?_
  rcases hafter.seq with hpending | ⟨t₃, ht₃, hhalted₃, -, hproofs⟩
  · exact Script.run_seq_left ((commitments_spec env block _).resumes hinv₂ hpending hw)
  -- the loop over pending commitments has come to its end
  have hinv₃ := (commitments_keep env block).preserves _ t₃ hinv₂ ht₃
  obtain ⟨_, hquiet, rfl, -⟩ := (commitments_spec env block _).quiet_end hinv₂ ht₃ hhalted₃ rfl
  have hsame := ((proofs_sameCommitments env block.height (applyAll write t₃.writes
    (applyAll write t₂.writes _))).seq (Script.keeps_emit (by
      intro w hw s hs
      obtain rfl := mem_singleton.mp hw
      exact { hs with }))).crash ⟨rfl, rfl, rfl, rfl⟩ hproofs
  have hidle₃ : Idle write (pendingCommitmentsScript env block.height) g := by
    have hloop : pendingCommitmentsScript env block.height g = .ok ⟨[], false⟩ := by
      show loopScript _ g.ledger.getPendingCommitments g = _
      rw [Ledger.getPendingCommitments, hsame.pending]
      exact loopScript_congr (fun e => retryCommitmentTurn_congr hsame block.height) hquiet
    rw [Idle, Script.run_of_eq hloop]
    rfl
  refine Script.run_seq_right hidle₃ (m := applyAll write t₃.writes _)
    (by rw [Script.run_of_eq ht₃, hhalted₃]) ?_
  rcases hproofs.seq with hretry | ⟨t₄, ht₄, hhalted₄, -, hlast⟩
  · exact Script.run_seq_left ((proofs_spec env block _).resumes hinv₃ hretry hw)
  -- only the last scanned height is left
  obtain ⟨-, rfl⟩ := hlast.of_emit_singleton
  obtain ⟨writes, hloop, -, hnone⟩ := (proofs_spec env block _).quiet_end hinv₃ ht₄ hhalted₄ rfl
  refine Script.run_seq_right ?_ (m := applyAll write t₄.writes _)
    (by rw [Script.run_of_eq ht₄, hhalted₄]) rfl
  refine (Script.run_of_eq (a := pendingProofsScript env block.height) hloop).trans ?_
  rw [hnone]
  rfl

/-! ### What is recorded -/

/-- A stored commitment is reflected in the committed status, and nothing is recorded twice for a
slot. -/
structure Recorded (env : FullNodeEnv H C) (f : FullLedger H) : Prop where
  committed : CommittedUpTo f.ledger
  commitments : ∀ height cs, f.commitmentsByNumber.get height = some cs → cs.Nodup
  proven : ∀ height ps, f.ledger.verifiedBatchProofsBySlotNumber.get height = some ps → ∀ p ∈ ps,
    env.extractOutput p.1 = some p.2 ∧ p.2.sequencerCommitmentIndexRange.2 ≤
      (provenStatus f.ledger).commitmentIndex
  proofs : ∀ height ps, f.ledger.verifiedBatchProofsBySlotNumber.get height = some ps →
    (ps.map Prod.fst).Nodup

theorem nodup_updateCommitmentsOnDaSlot
    (h : ∀ height cs, f.commitmentsByNumber.get height = some cs → cs.Nodup) :
    ∀ height' cs, (f.updateCommitmentsOnDaSlot height c).commitmentsByNumber.get height' = some cs →
      cs.Nodup := by
  intro height' cs hcs
  rw [FullLedger.updateCommitmentsOnDaSlot] at hcs
  split at hcs
  · next old hold =>
    split at hcs
    · exact h height' cs hcs
    · next hnew =>
      rcases Table.get_put hcs with ⟨-, rfl⟩ | hget
      · rw [nodup_append]
        refine ⟨h height old hold, by simp, ?_⟩
        rintro a ha b hb rfl
        exact hnew (mem_singleton.mp hb ▸ ha)
      · exact h height' cs hget
  · rcases Table.get_put hcs with ⟨-, rfl⟩ | hget
    · simp
    · exact h height' cs hget

/-- An accepted commitment. -/
theorem Recorded.accept (h : Recorded env f) (hkeys : StatusKeysAtMost block.height f.ledger)
    {start : UInt64} (hfresh : ¬ CommitmentDone f.ledger c) :
    Recorded env (applyAll write (acceptWrites block.height found c start) f) := by
  have hledger : (applyAll write (acceptWrites block.height found c start) f).ledger =
      acceptCommitment block.height c f.ledger := by
    rw [applyAll_ledger]
    rfl
  refine ⟨?_, nodup_updateCommitmentsOnDaSlot h.commitments, ?_, ?_⟩
  · rw [hledger]
    exact h.committed.accept hkeys hfresh
  · rw [hledger, provenStatus_acceptCommitment]
    exact h.proven
  · rw [hledger]
    exact h.proofs

/-- An accepted proof. -/
theorem Recorded.acceptProof (h : Recorded env f) (hkeys : StatusKeysAtMost block.height f.ledger)
    {output : BatchProofCircuitOutput H} (houtput : env.extractOutput proof = some output)
    (hfresh : ¬ ProofDone f.ledger output) :
    Recorded env (applyAll write (proofAcceptWrites block.height found proof output) f) := by
  have hindex := (not_proofDone.mp hfresh).2
  -- what is in the list of a slot after the write
  have hlist : ∀ height ps, ((f.ledger.updateVerifiedProofData found proof
      output).verifiedBatchProofsBySlotNumber.get height = some ps) →
      (∃ old, (f.ledger.verifiedBatchProofsBySlotNumber.get height).getD [] = old ∧
        ps = old ++ [(proof, output)]) ∨
      f.ledger.verifiedBatchProofsBySlotNumber.get height = some ps := by
    intro height ps hps
    rcases Table.get_put hps with ⟨rfl, rfl⟩ | hget
    · exact .inl ⟨_, rfl, rfl⟩
    · exact .inr hget
  have hold : ∀ height, ∀ p ∈ (f.ledger.verifiedBatchProofsBySlotNumber.get height).getD [],
      env.extractOutput p.1 = some p.2 ∧ p.2.sequencerCommitmentIndexRange.2 ≤
        (provenStatus f.ledger).commitmentIndex := by
    intro height p hp
    cases hget : f.ledger.verifiedBatchProofsBySlotNumber.get height with
    | none => simp [hget] at hp
    | some ps => exact h.proven height ps hget p (by simpa [hget] using hp)
  refine ⟨?_, h.commitments, ?_, ?_⟩
  · intro i c hc
    obtain ⟨committed, hcommitted, hle⟩ := h.committed i c hc
    exact ⟨committed, (getHighest_set_of_ne (by decide) _).trans hcommitted, hle⟩
  · intro height ps hps p hp
    have hproven : provenStatus (applyAll write (proofAcceptWrites block.height found proof output)
        f).ledger = ⟨output.lastL2Height, output.sequencerCommitmentIndexRange.2⟩ :=
      provenStatus_acceptProof hkeys
    rw [hproven]
    have hbelow : ∀ q ∈ (f.ledger.verifiedBatchProofsBySlotNumber.get height).getD [],
        env.extractOutput q.1 = some q.2 ∧
          q.2.sequencerCommitmentIndexRange.2 ≤ output.sequencerCommitmentIndexRange.2 :=
        fun q hq =>
      ⟨(hold height q hq).1, UInt32.le_of_lt (UInt32.lt_of_le_of_lt (hold height q hq).2 hindex)⟩
    rcases hlist height ps hps with ⟨old, rfl, rfl⟩ | hget
    · rcases mem_append.mp hp with hmem | hlast
      · exact hbelow p hmem
      · rw [mem_singleton.mp hlast]
        exact ⟨houtput, UInt32.le_refl _⟩
    · exact hbelow p (by simpa [hget] using hp)
  · intro height ps hps
    rcases hlist height ps hps with ⟨old, rfl, rfl⟩ | hget
    · rw [map_append, nodup_append]
      refine ⟨?_, by simp, ?_⟩
      · cases hget : f.ledger.verifiedBatchProofsBySlotNumber.get height with
        | none => exact nodup_nil
        | some ps => exact h.proofs height ps hget
      · -- a proof of the list is proven already, and the new one is not
        intro p hp q hq heq
        obtain ⟨e, he, rfl⟩ := mem_map.mp hp
        obtain ⟨houtput', hle⟩ := hold height e he
        replace hq : q = proof := mem_singleton.mp hq
        rw [heq, hq, houtput, Option.some.injEq] at houtput'
        rw [← houtput'] at hle
        exact absurd (UInt32.lt_of_le_of_lt hle hindex) (UInt32.lt_irrefl _)
    · exact h.proofs height ps hget

/-- The writes to what is pending, and those of the L1 hash and the last scanned height. -/
def KeepsRecords : LedgerWrite H → Prop
  | .storePendingCommitment _ _ => True
  | .removePendingCommitment _ => True
  | .storePendingProof _ _ _ => True
  | .removePendingProof _ => True
  | .setL1HeightOfL1Hash _ _ => True
  | .setLastScannedL1Height _ => True
  | _ => False

theorem Recorded.frame (h : Recorded env f) (hwrites : ∀ w ∈ writes, KeepsRecords w) :
    Recorded env (applyAll write writes f) := by
  refine applyAll_induction (fun w hw f hf => ?_) h
  have hkeeps := hwrites w hw
  cases w with
  | updateCommitmentsOnDaSlot | setL2RangeByCommitmentMerkleRoot | putCommitmentByIndex
  | setL2HeightStatus | updateVerifiedProofData => exact hkeeps.elim
  | _ => exact { hf with }

theorem CommitmentTrace.recorded (h : CommitmentTrace block.height found c f.ledger result writes)
    (hf : Recorded env f) (hkeys : StatusKeysAtMost block.height f.ledger) :
    Recorded env (applyAll write writes f) := by
  cases h with
  | discarded => exact hf
  | waiting => exact hf
  | pending => exact hf.frame (by simp [KeepsRecords])
  | success fresh linked start => exact hf.accept hkeys fresh

theorem ProofTrace.recorded (h : ProofTrace env block.height found proof f.ledger result writes)
    (hf : Recorded env f) (hkeys : StatusKeysAtMost block.height f.ledger) :
    Recorded env (applyAll write writes f) := by
  cases h with
  | invalid => exact hf
  | discarded => exact hf
  | pending => exact hf.frame (by simp [KeepsRecords])
  | success valid fresh => exact hf.acceptProof hkeys valid.extract fresh

theorem item_recorded (item : ProofOrCommitment H) :
    Preserves write (fun f : FullLedger H => BlockInv env block l₀ f.ledger ∧ Recorded env f)
      (itemScript env block.height item) := by
  rintro f t ⟨hf, hrecorded⟩ ht
  refine ⟨(item_keeps item).preserves f t hf ht, ?_⟩
  cases item with
  | commitment c =>
    rcases commitmentTrace_ok ht with ⟨hnil, -⟩ | ⟨-, -, result, hwrites⟩
    · rwa [hnil]
    · exact (processSequencerCommitment_ok hwrites).recorded hrecorded hf.keys
  | proof p =>
    rcases proofTrace_ok ht with hnil | ⟨-, result, hwrites⟩
    · rwa [hnil]
    · exact (processZkProof_ok hwrites).recorded hrecorded hf.keys

theorem commitments_recorded :
    Preserves write (fun f : FullLedger H => BlockInv env block l₀ f.ledger ∧ Recorded env f)
      (pendingCommitmentsScript env block.height) := by
  refine (commitments_spec env block _).preservesAll ?_
  rintro f ⟨index, c, found⟩ rest writes control hf hrecorded - hturn
  cases retryCommitmentTurn_ok hturn with
  | accept fresh linked start again =>
    rw [applyAll_append]
    exact (hrecorded.accept hf.keys fresh).frame (by simp [KeepsRecords])
  | discard => exact hrecorded.frame (by simp [KeepsRecords])
  | keep fresh _ trace again => exact trace.recorded hrecorded hf.keys
  | exit => exact hrecorded
  | halt => exact hrecorded

theorem proofs_recorded :
    Preserves write (fun f : FullLedger H => BlockInv env block l₀ f.ledger ∧ Recorded env f)
      (pendingProofsScript env block.height) := by
  refine (proofs_spec env block _).preservesAll ?_
  rintro f ⟨range, proof, found⟩ rest writes control hf hrecorded - hturn
  cases retryProofTurn_ok hturn with
  | accept valid fresh =>
    rw [applyAll_append]
    exact (hrecorded.acceptProof hf.keys valid.extract fresh).frame (by simp [KeepsRecords])
  | discard => exact hrecorded.frame (by simp [KeepsRecords])
  | keep => exact hrecorded.frame (by simp [KeepsRecords])
  | exit => exact hrecorded

/-- The ledger after a block. -/
theorem block_recorded (hinv : LedgerInv env f.ledger)
    (hkeys : StatusKeysAtMost block.height f.ledger) (hrecorded : Recorded env f)
    (ht : blockScript env block f = .ok t) :
    (∃ l₀, BlockInv env block l₀ (applyAll write t.writes f).ledger) ∧
      Recorded env (applyAll write t.writes f) := by
  obtain ⟨ta, hta, ⟨hhalted, rfl⟩ | ⟨-, tb, htb, rfl⟩⟩ := Script.seq_eq_ok ht
  · obtain rfl := Except.ok.inj hta
    simp at hhalted
  obtain rfl := Except.ok.inj hta
  rw [applyAll_append]
  have hlast : ∀ l₀, Preserves write
      (fun f : FullLedger H => BlockInv env block l₀ f.ledger ∧ Recorded env f)
      (Script.emit [.setLastScannedL1Height block.height] : HandlerScript H) := fun l₀ =>
    Script.preserves_emit fun s hs => ⟨hs.1.applyLedger (w := .setLastScannedL1Height block.height)
      trivial, hs.2.frame (by simp [KeepsRecords])⟩
  have hstart : Recorded env
      (applyAll write [.setL1HeightOfL1Hash block.hash block.height] f) :=
    hrecorded.frame (by simp [KeepsRecords])
  have hend := ((Preserves.each fun item _ => item_recorded item).seq
    (commitments_recorded.seq (proofs_recorded.seq (hlast _)))) _ tb
    ⟨hinv.start hkeys, hstart⟩ htb
  exact ⟨⟨_, hend.1⟩, hend.2⟩

/-! ### Runs -/

/-- The L1 blocks of a list of inputs. -/
def inputBlocks (inputs : List (NodeInput H)) : List (L1Block H) :=
  inputs.filterMap fun
    | .l1Block block _ => some block
    | .l2Block _ => none

/-- The invariant of a node between two inputs, where `blocks` are the L1 blocks to come. -/
structure InputInv (env : FullNodeEnv H C) (blocks : List (L1Block H)) (f : FullLedger H) : Prop
    extends LedgerInv env f.ledger where
  keys : ∀ block ∈ blocks, StatusKeysAtMost block.height f.ledger
  recorded : Recorded env f

omit [DecidableEq H] in
theorem inputInv_genesis (root : H) (blocks : List (L1Block H)) :
    InputInv env blocks (FullLedger.genesis root) := by
  refine ⟨⟨?_, ?_, ?_⟩, fun _ _ => statusKeysAtMost_genesis root, ⟨?_, ?_, ?_, ?_⟩⟩
  all_goals simp [FullLedger.genesis, Ledger.genesis, Ledger.getCommitmentByIndex,
    Ledger.getPendingCommitmentByIndex, CommittedUpTo]

/-- The invariants of the ledger hold at a crash. -/
theorem crash_inv (hinv : LedgerInv env f.ledger) (hkeys : StatusKeysAtMost block.height f.ledger)
    (hcrash : CrashPoint write (blockScript env block) f k w g) :
    LedgerInv env g.ledger ∧ StatusKeysAtMost block.height g.ledger := by
  rcases hcrash.seq with hstart | ⟨t₁, ht₁, -, -, hrest⟩
  · rw [hstart.of_emit_singleton.2]
    exact ⟨hinv, hkeys⟩
  obtain rfl := Except.ok.inj ht₁
  have hg := (afterStart_keep env block).crash (hinv.start hkeys) hrest
  exact ⟨hg.toLedgerInv, hg.keys⟩

/-- A block with safe crashes ends as without them. -/
theorem processL1Block_eq {crashes : List Nat} (hinv : LedgerInv env f.ledger)
    (hkeys : StatusKeysAtMost block.height f.ledger) (hsafe : SafeCrashes env block crashes f) :
    processL1Block env block crashes f = processL1Block env block [] f := by
  induction crashes generalizing f with
  | nil => rfl
  | cons k rest ih =>
    show (blockScript env block f >>= _) = Script.run write (blockScript env block) f
    cases ht : blockScript env block f with
    | error fault =>
      rw [Script.run, ht]
      rfl
    | ok t =>
      show (if k < t.writes.length then _ else _) = _
      split
      · next hk =>
        have hcrash : CrashPoint write (blockScript env block) f k (t.writes.get ⟨k, hk⟩)
            (applyAll write (t.writes.take k) f) :=
          ⟨t, ht, List.getElem?_eq_getElem hk, rfl⟩
        obtain ⟨hinvg, hkeysg⟩ := crash_inv hinv hkeys hcrash
        rw [ih hinvg hkeysg (hsafe.2 _ _ hcrash)]
        exact block_resumes hinv hkeys hcrash hsafe.1
      · exact (Script.run_of_eq ht).symm

theorem InputInv.stepInput {s' : FullLedger H × Bool}
    (h : InputInv env (inputBlocks (input :: rest)) s.1)
    (hordered : (inputBlocks (input :: rest)).Pairwise fun a b => a.height ≤ b.height)
    (hstep : stepInput env s input.uninterrupted = .ok s') :
    InputInv env (inputBlocks rest) s'.1 := by
  cases input with
  | l2Block b =>
    obtain rfl := Except.ok.inj hstep
    exact ⟨⟨h.gapless, h.pending, h.proofs⟩, h.keys,
      ⟨h.recorded.committed, h.recorded.commitments, h.recorded.proven, h.recorded.proofs⟩⟩
  | l1Block block crashes =>
    have hlater := pairwise_cons.mp hordered
    change (if s.2 then pure s else Script.run write (blockScript env block) s.1) = _
      at hstep
    split at hstep
    · obtain rfl := Except.ok.inj hstep
      exact ⟨h.toLedgerInv, fun b hb => h.keys b (mem_cons_of_mem _ hb), h.recorded⟩
    · obtain ⟨t, ht, rfl⟩ := Script.run_eq_ok.mp hstep
      obtain ⟨⟨_, hinv⟩, hrecorded⟩ := block_recorded h.toLedgerInv (h.keys block mem_cons_self)
        h.recorded ht
      refine ⟨hinv.toLedgerInv, fun b hb status e he => ?_, hrecorded⟩
      exact UInt64.le_trans (hinv.keys status e he) (hlater.1 b hb)

/-- One input with safe crashes. -/
theorem stepInput_eq (h : InputInv env (inputBlocks (input :: rest)) s.1)
    (hsafe : SafeRun env (input :: rest) s) :
    stepInput env s input = stepInput env s input.uninterrupted := by
  cases input with
  | l2Block b => rfl
  | l1Block block crashes =>
    show (if s.2 then _ else _) = if s.2 then _ else _
    split
    · rfl
    · next hrunning =>
      exact processL1Block_eq h.toLedgerInv (h.keys block mem_cons_self)
        (hsafe.1 (by simpa using hrunning))

theorem runInputs_eq {inputs : List (NodeInput H)} (h : InputInv env (inputBlocks inputs) s.1)
    (hordered : (inputBlocks inputs).Pairwise fun a b => a.height ≤ b.height)
    (hsafe : SafeRun env inputs s) :
    runInputs env s inputs = runInputs env s (inputs.map NodeInput.uninterrupted) ∧
    ∀ s', runInputs env s inputs = .ok s' → Recorded env s'.1 := by
  induction inputs generalizing s with
  | nil =>
    refine ⟨rfl, fun s' hs' => ?_⟩
    obtain rfl := Except.ok.inj hs'
    exact h.recorded
  | cons input rest ih =>
    have hstep := stepInput_eq h hsafe
    have hrest : (inputBlocks rest).Pairwise fun a b => a.height ≤ b.height := by
      cases input with
      | l2Block b => exact hordered
      | l1Block block crashes => exact (pairwise_cons.mp hordered).2
    simp only [runInputs, map_cons, foldlM_cons]
    rw [hstep]
    cases hs : stepInput env s input.uninterrupted with
    | error fault => exact ⟨rfl, fun s' hs' => absurd hs' (by simp [bind, Except.bind])⟩
    | ok m => exact ih (h.stepInput hordered hs) hrest (hsafe.2 m (hstep.trans hs))

/-- Crashes of a full node. Take any L2 blocks and L1 blocks in the order of their heights, and any
crashes between two writes while an L1 block is processed, such that each crash is safe. Then the
node ends with the same tables as without the crashes. Each stored commitment is reflected in the
committed status, and no commitment or proof is recorded twice for a slot. -/
theorem crash_idempotent (genesisStateRoot : H) (inputs : List (NodeInput H))
    (hordered : (inputBlocks inputs).Pairwise fun a b => a.height ≤ b.height)
    (hsafe : SafeRun env inputs (FullLedger.genesis genesisStateRoot, false)) :
    runInputs env (FullLedger.genesis genesisStateRoot, false) inputs =
      runInputs env (FullLedger.genesis genesisStateRoot, false)
        (inputs.map NodeInput.uninterrupted) ∧
    ∀ s, runInputs env (FullLedger.genesis genesisStateRoot, false) inputs = .ok s →
      (∀ i c, s.1.ledger.getCommitmentByIndex i = some c →
        ∃ committed, s.1.ledger.getHighestL2HeightForStatus .committed none = some committed ∧
          c.l2EndBlockNumber ≤ committed.height ∧ i ≤ committed.commitmentIndex) ∧
      (∀ height cs, s.1.commitmentsByNumber.get height = some cs → cs.Nodup) ∧
      ∀ height ps, s.1.ledger.verifiedBatchProofsBySlotNumber.get height = some ps →
        (ps.map Prod.fst).Nodup := by
  obtain ⟨heq, hrecorded⟩ := runInputs_eq (inputInv_genesis genesisStateRoot _) hordered hsafe
  refine ⟨heq, fun s hs => ?_⟩
  have h := hrecorded s hs
  exact ⟨h.committed, h.commitments, h.proofs⟩

/-! ### Three runs -/

/-- An L1 block with two commitments and the proof of both. -/
def crashBlock : L1Block (List Nat) :=
  ⟨5, [9], (twoCommitments 2).sequencerCommitments.map .commitment ++ [.proof [0]]⟩

/-- Two L2 blocks, and the L1 block with two commitments and their proof. The handler makes 12
writes: one for the L1 hash, four for each commitment, two for the proof and one for the last
scanned height. -/
def crashInputs (crashes : List Nat) : List (NodeInput (List Nat)) :=
  [.l2Block (storedBlockOf firstHeader), .l2Block (storedBlockOf secondHeader),
    .l1Block crashBlock crashes]

/-- The ledger after the L2 blocks of `crashInputs`. -/
def syncedLedger : FullLedger (List Nat) :=
  { FullLedger.genesis [6] with
    ledger := ((Ledger.genesis [6]).commitL2Block (storedBlockOf firstHeader)).commitL2Block
      (storedBlockOf secondHeader) }

/-- The block of `crashInputs` behind a commitment of index 3, whose predecessor and L2 block are
missing. -/
def asideBlock : L1Block (List Nat) :=
  ⟨5, [9], .commitment ⟨[7], 3, 3⟩ :: crashBlock.commitmentsAndProofs⟩

/-- After 8 writes the commitment of index 3 was put aside, the one of index 1 is stored with its
status, and the one of index 2 is not stored. -/
theorem safeCrash_second_commitment :
    SafeCrash (sampleNode (indexedOutputs 2)) asideBlock syncedLedger 8 := by
  rintro w g ⟨t, ht, hw, rfl⟩
  refine .inr ⟨?_, fun t₁ ht₁ _ => ⟨fun _ => .inr (.inl ?_), fun t₂ ht₂ _ =>
    ⟨fun haside => ?_, fun t₃ ht₃ hle => ?_⟩⟩⟩
  · have hkinds : (blockScript (sampleNode (indexedOutputs 2)) asideBlock syncedLedger).map
        (fun t => t.writes[8]?.map LedgerWrite.isStatus) = .ok (some false) := by decide +kernel
    rw [ht] at hkinds
    have hstatus : t.writes[8]?.map LedgerWrite.isStatus = some false := Except.ok.inj hkinds
    rw [hw] at hstatus
    exact Option.some.inj hstatus
  · -- the commitment of index 3 still waits for the one of index 2
    have hledger : (blockScript (sampleNode (indexedOutputs 2)) asideBlock syncedLedger).map
        (fun t => ((applyAll write (t.writes.take 8) syncedLedger).ledger.getCommitmentByIndex 2,
          (applyAll write (t.writes.take 8) syncedLedger).ledger.getPendingCommitmentByIndex 3)) =
        .ok (none, some (⟨[7], 3, 3⟩, 5)) := by decide +kernel
    rw [ht] at hledger
    obtain ⟨hnone, hpending⟩ := Prod.mk.inj (Except.ok.inj hledger)
    refine ⟨fun hlinked => ?_, hpending⟩
    rcases hlinked with hone | hstored
    · exact absurd hone (by decide)
    · exact hstored hnone
  · -- the commitment of index 1 was not put aside
    rcases haside.2.2 with hunlinked | hunsynced
    · exact absurd (.inl rfl) hunlinked
    · rw [Ledger.getHeadL2BlockHeight, applyAll_l2Blocks] at hunsynced
      exact absurd hunsynced (by decide +kernel)
  · -- the crash came before the last write of the commitment of index 2
    have hlengths : (do
        let t₁ ← itemScript (sampleNode (indexedOutputs 2)) 5 (.commitment ⟨[7], 3, 3⟩)
          ((LedgerWrite.setL1HeightOfL1Hash [9] 5).apply syncedLedger)
        let t₂ ← itemScript (sampleNode (indexedOutputs 2)) 5
          (.commitment ⟨firstHeader.computeDigest listHash, 1, 1⟩) (applyAll write t₁.writes
            ((LedgerWrite.setL1HeightOfL1Hash [9] 5).apply syncedLedger))
        let t₃ ← itemScript (sampleNode (indexedOutputs 2)) 5
          (.commitment ⟨secondHeader.computeDigest listHash, 2, 2⟩) (applyAll write t₂.writes
            (applyAll write t₁.writes
              ((LedgerWrite.setL1HeightOfL1Hash [9] 5).apply syncedLedger)))
        pure (t₁.writes.length, t₂.writes.length, t₃.writes.length)) =
        (.ok (1, 4, 4) : Outcome Empty (Nat × Nat × Nat)) := by decide +kernel
    simp only [bind_eq_ok, pure_eq_ok] at hlengths
    obtain ⟨u₁, hu₁, u₂, hu₂, u₃, hu₃, hlengths⟩ := hlengths
    obtain rfl := ok_unique hu₁ ht₁
    obtain rfl := ok_unique hu₂ ht₂
    obtain rfl := ok_unique hu₃ ht₃
    simp only [Prod.mk.injEq] at hlengths
    omega

/-- The theorem applied to a crash in the writes of the commitment of index 2, after the one of
index 3 was put aside: the node ends as without the crash. -/
theorem crash_second_commitment :
    runInputs (sampleNode (indexedOutputs 2)) (FullLedger.genesis [6], false)
        [.l2Block (storedBlockOf firstHeader), .l2Block (storedBlockOf secondHeader),
          .l1Block asideBlock [8]] =
      runInputs (sampleNode (indexedOutputs 2)) (FullLedger.genesis [6], false)
        [.l2Block (storedBlockOf firstHeader), .l2Block (storedBlockOf secondHeader),
          .l1Block asideBlock []] := by
  refine (crash_idempotent [6] [.l2Block (storedBlockOf firstHeader),
    .l2Block (storedBlockOf secondHeader), .l1Block asideBlock [8]] (pairwise_singleton _ _) ?_).1
  refine ⟨trivial, fun s₁ h₁ => ?_⟩
  obtain rfl := Except.ok.inj h₁
  refine ⟨trivial, fun s₂ h₂ => ?_⟩
  obtain rfl := Except.ok.inj h₂
  exact ⟨fun _ => ⟨safeCrash_second_commitment, fun _ _ _ => trivial⟩, fun _ _ => trivial⟩

/-- A crash after the commitment of index 2 is stored, before the write of its status: when the
block is processed again the commitment is discarded, and the committed status stays at index 1. A
crash after the proof is recorded, before the write of its status: the proof is recorded a second
time. -/
theorem crash_diverges :
    (runInputs (sampleNode []) (FullLedger.genesis [6], false) (crashInputs [8])).map
        (fun s => (s.1.ledger.getCommitmentByIndex 2 |>.isSome,
          s.1.ledger.getHighestL2HeightForStatus .committed none)) = .ok (true, some ⟨1, 1⟩) ∧
    (runInputs (sampleNode []) (FullLedger.genesis [6], false) (crashInputs [])).map
        (fun s => (s.1.ledger.getCommitmentByIndex 2 |>.isSome,
          s.1.ledger.getHighestL2HeightForStatus .committed none)) = .ok (true, some ⟨2, 2⟩) ∧
    (runInputs (sampleNode (indexedOutputs 2)) (FullLedger.genesis [6], false)
      (crashInputs [10])).map
        (fun s => (s.1.ledger.verifiedBatchProofsBySlotNumber.get 5).map fun ps =>
            ps.map Prod.fst) =
      .ok (some [[0], [0]]) ∧
    (runInputs (sampleNode (indexedOutputs 2)) (FullLedger.genesis [6], false) (crashInputs [])).map
        (fun s => (s.1.ledger.verifiedBatchProofsBySlotNumber.get 5).map fun ps =>
            ps.map Prod.fst) =
      .ok (some [[0]]) := by
  refine ⟨?_, ?_, ?_, ?_⟩
  all_goals decide +kernel

end Citrea.Proofs.FullNode
