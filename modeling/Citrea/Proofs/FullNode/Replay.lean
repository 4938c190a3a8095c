import Citrea.Proofs.FullNode.Handler

/-!
# `Citrea.Proofs.FullNode.Replay`: commitments and proofs that are handled again

After a crash the commitments and proofs of a block are handled again, on the ledger of the crash.
`item_resumes` is about the one in whose writes the crash came: it ends as without the crash, if the
next write is not the write of a status.

`item_idle` is about one that was handled before. The guards of the handler skip what was accepted
or discarded, as it is still done on the ledger of the crash. What was put aside or skipped may
become acceptable through what came after it. `Settled` says on the tables of the ledger that this
is not so.
-/

namespace Citrea.Proofs.FullNode

open Option List Lib
open Lib.Script (CrashPoint Keeps Idle)
open Spec Spec.BatchProof Spec.FullNode
open Spec.FullNode.LedgerWrite renaming apply → write

variable {H C : Type} [DecidableEq H] {env : FullNodeEnv H C} {block : L1Block H}
  {f g : FullLedger H} {k : Nat} {w : LedgerWrite H} {c : SequencerCommitment H} {height : UInt64}
  {l l₀ l' : Ledger H} {proof : Bytes} {t : Trace (LedgerWrite H)} {item : ProofOrCommitment H}

/-! ### The first writes of an accepted commitment -/

theorem updateCommitmentsOnDaSlot_idem (f : FullLedger H) (height : UInt64)
    (c : SequencerCommitment H) :
    (f.updateCommitmentsOnDaSlot height c).updateCommitmentsOnDaSlot height c =
      f.updateCommitmentsOnDaSlot height c := by
  cases hget : f.commitmentsByNumber.get height with
  | none => simp [FullLedger.updateCommitmentsOnDaSlot, hget]
  | some commitments =>
    by_cases hmem : c ∈ commitments
    all_goals simp [FullLedger.updateCommitmentsOnDaSlot, hget, hmem]

theorem setL2Range_idem (f : FullLedger H) (root : H) (range : UInt64 × UInt64) :
    (f.setL2RangeByCommitmentMerkleRoot root range).setL2RangeByCommitmentMerkleRoot root range =
      f.setL2RangeByCommitmentMerkleRoot root range := by
  simp only [FullLedger.setL2RangeByCommitmentMerkleRoot, FullLedger.mk.injEq, true_and]
  funext r
  split
  · rfl
  · rfl

theorem updateCommitmentsOnDaSlot_setL2Range (f : FullLedger H) (height : UInt64)
    (c : SequencerCommitment H) (root : H) (range : UInt64 × UInt64) :
    (f.setL2RangeByCommitmentMerkleRoot root range).updateCommitmentsOnDaSlot height c =
      (f.updateCommitmentsOnDaSlot height c).setL2RangeByCommitmentMerkleRoot root range := by
  simp only [FullLedger.updateCommitmentsOnDaSlot, FullLedger.setL2RangeByCommitmentMerkleRoot]
  split
  · split
    · rfl
    · rfl
  · rfl

/-- The first two writes of an accepted commitment leave the ledger as it is, and making them again
changes nothing. -/
theorem acceptWrites_take {current found start : UInt64} (hk : k ≤ 2) :
    (applyAll write ((acceptWrites current found c start).take k) f).ledger = f.ledger ∧
    applyAll write (acceptWrites current found c start)
      (applyAll write ((acceptWrites current found c start).take k) f) =
      applyAll write (acceptWrites current found c start) f := by
  have hcases : k = 0 ∨ k = 1 ∨ k = 2 := by omega
  rcases hcases with rfl | rfl | rfl
  · exact ⟨rfl, rfl⟩
  · refine ⟨updateCommitmentsOnDaSlot_ledger f found c, ?_⟩
    simp [acceptWrites, applyAll, write, updateCommitmentsOnDaSlot_idem]
  · refine ⟨updateCommitmentsOnDaSlot_ledger f found c, ?_⟩
    simp [acceptWrites, applyAll, write, updateCommitmentsOnDaSlot_setL2Range,
      updateCommitmentsOnDaSlot_idem, setL2Range_idem]

omit [DecidableEq H] in
/-- A crash in the writes of an accepted commitment that is not right before its status. -/
theorem le_two_of_accept {current found start : UInt64}
    (h : (acceptWrites current found c start)[k]? = some w) (hw : w.isStatus = false) : k ≤ 2 := by
  by_contra hgt
  have hk : k < 4 := (List.getElem?_eq_some_iff.mp h).1
  obtain rfl : k = 3 := by omega
  obtain rfl := some.inj h
  exact absurd hw (by simp [LedgerWrite.isStatus])

/-! ### A crash in the writes of a commitment or proof -/

/-- A commitment in whose writes the crash came. -/
theorem commitment_resumes
    (h : CrashPoint write (itemScript env height (.commitment c)) f k w g)
    (hw : w.isStatus = false) : Script.run write (itemScript env height (.commitment c)) g =
      Script.run write (itemScript env height (.commitment c)) f := by
  obtain ⟨t, ht, hwrite, rfl⟩ := h
  rcases commitmentTrace_ok ht with ⟨hnil, -⟩ | ⟨-, -, result, hwrites⟩
  · rw [hnil] at hwrite
    simp at hwrite
  cases k with
  | zero => rfl
  | succ k =>
    -- only an accepted commitment makes more than one write
    have htrace := processSequencerCommitment_ok hwrites
    generalize hws : t.writes = writes at htrace hwrite
    cases htrace with
    | discarded => simp at hwrite
    | waiting => simp at hwrite
    | pending => simp at hwrite
    | success fresh linked start =>
      obtain ⟨hledger, hagain⟩ := acceptWrites_take (f := f) (le_two_of_accept hwrite hw)
      have hsame : itemScript env height (.commitment c) (applyAll write
          ((acceptWrites height height c start).take (k + 1)) f) = .ok t := by
        rw [← ht, itemScript, hledger, itemScript]
      rw [Script.run_of_eq hsame, Script.run_of_eq ht, hws, hagain]

/-- A proof in whose writes the crash came: nothing was written yet. -/
theorem proof_resumes (h : CrashPoint write (itemScript env height (.proof proof)) f k w g)
    (hw : w.isStatus = false) : g = f := by
  obtain ⟨t, ht, hwrite, rfl⟩ := h
  rcases proofTrace_ok ht with hnil | ⟨-, result, hwrites⟩
  · rw [hnil] at hwrite
    simp at hwrite
  have htrace := processZkProof_ok hwrites
  generalize t.writes = writes at htrace hwrite
  cases k with
  | zero => rfl
  | succ k =>
    cases htrace with
    | invalid => simp at hwrite
    | discarded => simp at hwrite
    | pending => simp at hwrite
    | success =>
      -- the second write is the status
      have hk : k + 1 < 2 := (List.getElem?_eq_some_iff.mp hwrite).1
      obtain rfl : k = 0 := by omega
      obtain rfl := some.inj hwrite
      exact absurd hw (by simp [LedgerWrite.isStatus])

/-- A crash in the writes of a commitment or proof of the block, not right before a status. -/
theorem item_resumes (h : CrashPoint write (itemScript env height item) f k w g)
    (hw : w.isStatus = false) : Script.run write (itemScript env height item) g =
      Script.run write (itemScript env height item) f := by
  cases item with
  | commitment c => exact commitment_resumes h hw
  | proof p => rw [proof_resumes h hw]

/-- The invariant holds between the writes of a commitment or proof. -/
theorem item_keeps (item : ProofOrCommitment H) :
    Keeps write (fun f : FullLedger H => BlockInv env block l₀ f.ledger)
      (itemScript env block.height item) := by
  intro f t hf ht k
  refine hf.applyAll ?_ k
  cases item with
  | commitment c =>
    rcases commitmentTrace_ok ht with ⟨hnil, -⟩ | ⟨-, hzero, result, hwrites⟩
    · rw [hnil]
      trivial
    · exact (processSequencerCommitment_ok hwrites).allowed hzero
  | proof p =>
    rcases proofTrace_ok ht with hnil | ⟨-, result, hwrites⟩
    · rw [hnil]
      trivial
    · exact (processZkProof_ok hwrites).allowed

/-! ### What was handled before -/

/-- The handler neither accepts nor discards the commitment or proof on the ledger `l`: the
predecessor of the commitment or its L2 blocks are missing, or the valid proof with its known L1
hash is not acceptable. -/
def PutAside (env : FullNodeEnv H C) (l : Ledger H) : ProofOrCommitment H → Prop
  | .commitment c => c.index ≠ 0 ∧ ¬ CommitmentDone l c ∧
      (¬ Linked l c ∨ l.getHeadL2BlockHeight.getD 0 < c.l2EndBlockNumber)
  | .proof p => ∃ output, ValidProof env p output ∧
      l.getL1HeightOfL1Hash output.lastL1HashOnBitcoinLightClientContract ≠ none ∧
      ¬ ProofDone l output ∧ ¬ (Acceptable env l p output ∧ StartsInTime l output)

/-- What was put aside is done on the ledger `l`, or it has to wait there and is pending as it was
put aside, or the checks of the proof fail there. -/
def Settled (env : FullNodeEnv H C) (height : UInt64) (l : Ledger H) : ProofOrCommitment H → Prop
  | .commitment c => CommitmentDone l c ∨
      (¬ Linked l c ∧ l.getPendingCommitmentByIndex c.index = some (c, height)) ∨
      (Linked l c ∧ l.getHeadL2BlockHeight.getD 0 < c.l2EndBlockNumber ∧
        l.getPendingCommitmentByIndex c.index ≠ none)
  | .proof p => ∀ output, ValidProof env p output → ProofDone l output ∨
      (¬ (provenStatus l).Above (highestStatus l .committed) ∧ (¬ Supported env l output ∨
        (l.pendingProofs.get output.sequencerCommitmentIndexRange = some (p, height) ∧
          ¬ (Acceptable env l p output ∧ StartsInTime l output))))

/-- A script without writes is idle. -/
theorem idle_of_nil {a : HandlerScript H} (h : a g = .ok ⟨[], false⟩) : Idle write a g := by
  rw [Idle, Script.run_of_eq h]
  rfl

/-- A commitment that is skipped or discarded. -/
theorem commitment_idle (h : c.index = 0 ∨ CommitmentDone g.ledger c) :
    Idle write (itemScript env height (.commitment c)) g := by
  refine idle_of_nil ?_
  rw [itemScript, commitmentTrace]
  split
  · rfl
  · next hzero =>
    rw [processSequencerCommitment_done (h.resolve_left hzero)]
    rfl

omit [DecidableEq H] in
/-- Whether the start height of a commitment makes the node panic does not depend on the ledger. -/
theorem startL2Height_returns {start : Option UInt64} (h : startL2Height env l c = .ok start)
    (l' : Ledger H) : ∃ start', startL2Height env l' c = .ok start' := by
  rw [startL2Height] at h ⊢
  split
  · next hone => exact ⟨start, by rwa [if_pos hone] at h⟩
  · exact ⟨_, rfl⟩

/-- A commitment that was put aside, on a ledger on which it is settled. -/
theorem commitment_idle_of_settled {start : Option UInt64}
    (hstart : startL2Height env l c = .ok start)
    (h : Settled env height g.ledger (.commitment c)) :
    Idle write (itemScript env height (.commitment c)) g := by
  by_cases hdone : c.index = 0 ∨ CommitmentDone g.ledger c
  · exact commitment_idle hdone
  obtain ⟨hzero, hfresh⟩ := not_or.mp hdone
  obtain ⟨start', hstart'⟩ := startL2Height_returns hstart g.ledger
  have hlinked := startL2Height_linked hstart'
  rcases h.resolve_left hfresh with ⟨hunlinked, hget⟩ | ⟨hyes, hunsynced, hpending⟩
  · -- the same commitment is put aside again
    obtain rfl : start' = none := by
      rw [← not_isSome_iff_eq_none, hlinked]
      exact hunlinked
    have hscript : itemScript env height (.commitment c) g =
        .ok ⟨[.storePendingCommitment c height], false⟩ := by
      rw [itemScript, commitmentTrace, if_neg hzero,
        processSequencerCommitment_of_not_done hfresh, commitFresh, hstart']
      rfl
    rw [Idle, Script.run_of_eq hscript]
    show Except.ok (({ g with ledger := g.ledger.storePendingCommitment c height } :
      FullLedger H), false) = _
    rw [Ledger.storePendingCommitment, Table.put_eq_self hget]
  · -- the L2 blocks are still missing, and the commitment is pending
    obtain ⟨start'', rfl⟩ := isSome_iff_exists.mp (hlinked.mpr hyes)
    refine idle_of_nil ?_
    rw [itemScript, commitmentTrace, if_neg hzero,
      processSequencerCommitment_of_not_done hfresh, commitFresh, hstart']
    simp only [bind, Except.bind, commitRange, if_pos hunsynced]
    rw [if_neg (by simpa using hpending)]
    rfl

/-- A commitment that was handled before the crash. -/
theorem commitment_replay (ht : itemScript env height (.commitment c) f = .ok t)
    (hhalted : t.halted = false) (hstep : Later f.ledger g.ledger)
    (hlater : Later (applyAll write t.writes f).ledger g.ledger)
    (hsettled : PutAside env f.ledger (.commitment c) →
      Settled env height g.ledger (.commitment c)) :
    Idle write (itemScript env height (.commitment c)) g := by
  rcases commitmentTrace_ok ht with ⟨-, hzero | hstop⟩ | ⟨-, hzero, result, hwrites⟩
  · exact commitment_idle (.inl hzero)
  · simp [hhalted] at hstop
  by_cases hdone : CommitmentDone f.ledger c
  · exact commitment_idle (.inr (hdone.later hstep))
  have hreturns := hwrites
  rw [processSequencerCommitment_of_not_done hdone, commitFresh, bind_eq_ok] at hreturns
  obtain ⟨start, hstart, -⟩ := hreturns
  have htrace := processSequencerCommitment_ok hwrites
  generalize hws : t.writes = writes at htrace hlater
  cases htrace with
  | discarded done => exact absurd done hdone
  | waiting fresh _ unsynced =>
    exact commitment_idle_of_settled hstart (hsettled ⟨hzero, fresh, .inr unsynced⟩)
  | pending fresh new =>
    exact commitment_idle_of_settled hstart (hsettled ⟨hzero, fresh, new.imp_right And.left⟩)
  | success fresh linked start =>
    -- its index has a stored commitment now
    have hstored : CommitmentDone (applyAll write (acceptWrites height height c start)
        f).ledger c := by
      refine .inl ?_
      rw [applyAll_ledger]
      show (f.ledger.sequencerCommitmentByIndex.put c.index c).get c.index ≠ none
      rw [Table.get_put_self]
      exact some_ne_none c
    exact commitment_idle (.inr (hstored.later hlater))

/-- An acceptable proof that starts in time is proven after it is handled. -/
theorem Acceptable.proven {output : BatchProofCircuitOutput H}
    (h : Acceptable env f.ledger proof output) (hkeys : StatusKeysAtMost height f.ledger)
    (hfresh : ¬ ProofDone f.ledger output) (hfirst : StartsInTime f.ledger output)
    (ht : itemScript env height (.proof proof) f = .ok t) :
    ProofDone (applyAll write t.writes f).ledger output := by
  replace ht : proofTrace env height proof f.ledger = .ok t := ht
  rw [proofTrace] at ht
  split at ht
  · next result writes hwrites =>
    obtain rfl := Except.ok.inj ht
    cases processZkProof_ok hwrites with
    | invalid never => exact absurd h.valid (never output)
    | discarded valid done =>
      obtain rfl := some_unique valid.extract h.valid.extract
      exact absurd done hfresh
    | pending valid _ _ waits =>
      obtain rfl := some_unique valid.extract h.valid.extract
      rcases waits with ⟨index, hash, hnames, hpending⟩ | ⟨-, hlate⟩
      · exact ((h.storedWith hnames).not_pendingWith hpending).elim
      · exact absurd hfirst hlate
    | success valid =>
      obtain rfl := some_unique valid.extract h.valid.extract
      rw [applyAll_ledger]
      refine .inl (UInt64.le_of_eq ?_)
      exact (congrArg L2HeightAndIndex.height (provenStatus_acceptProof hkeys)).symm
  · next error herror => exact absurd herror (h.supported.no_error h.valid)
  · simp at ht

/-- The writes of a proof that is not accepted on the ledger `g`. -/
theorem proof_idle (hpanic : ∀ message, processZkProof env height height proof g.ledger ≠
      Outcome.panic message)
    (hcase : ∀ output, ValidProof env proof output → ProofDone g.ledger output ∨
      ¬ Supported env g.ledger output ∨
      (g.ledger.pendingProofs.get output.sequencerCommitmentIndexRange = some (proof, height) ∧
        ¬ (Acceptable env g.ledger proof output ∧ StartsInTime g.ledger output))) :
    Idle write (itemScript env height (.proof proof)) g := by
  cases hresult : processZkProof env height height proof g.ledger with
  | error fault =>
    cases fault with
    | error e =>
      refine idle_of_nil ?_
      rw [itemScript, proofTrace, hresult]
      rfl
    | panic message => exact absurd hresult (hpanic message)
  | ok r =>
    obtain ⟨result, writes⟩ := r
    have hscript : itemScript env height (.proof proof) g = .ok ⟨writes, false⟩ := by
      rw [itemScript, proofTrace, hresult]
      rfl
    cases processZkProof_ok hresult with
    | invalid => exact idle_of_nil hscript
    | discarded => exact idle_of_nil hscript
    | pending valid fresh supported =>
      -- the same proof is put aside again
      rcases hcase _ valid with hdone | hnot | ⟨hget, -⟩
      · exact absurd hdone fresh
      · exact absurd supported hnot
      rw [Idle, Script.run_of_eq hscript]
      show Except.ok (({ g with ledger := g.ledger.storePendingProof _ proof height } :
        FullLedger H), false) = _
      rw [Ledger.storePendingProof, Table.put_eq_self hget]
    | success valid fresh first acceptable =>
      rcases hcase _ valid with hdone | hnot | ⟨-, hnot⟩
      · exact absurd hdone fresh
      · exact absurd acceptable.supported hnot
      · exact absurd ⟨acceptable, first⟩ hnot

/-- A proof that was handled before the crash. -/
theorem proof_replay (hkeys : StatusKeysAtMost height f.ledger)
    (ht : itemScript env height (.proof proof) f = .ok t)
    (hstep : Later f.ledger g.ledger)
    (hlater : Later (applyAll write t.writes f).ledger g.ledger)
    (hsettled : PutAside env f.ledger (.proof proof) →
      Settled env height g.ledger (.proof proof)) :
    Idle write (itemScript env height (.proof proof)) g := by
  have hreturns : ∀ message, processZkProof env height height proof f.ledger ≠
      Outcome.panic message := by
    intro message hpanic
    rw [itemScript, proofTrace, hpanic] at ht
    simp [Outcome.panic] at ht
  rcases processZkProof_cases env height height proof with
    ⟨hnever, hdiscarded⟩ | ⟨message, hpanic⟩ | ⟨output, initial, hvalid, hinitial, htangerine⟩
  · refine proof_idle (fun message hpanic => ?_) fun output hvalid => absurd hvalid (hnever output)
    simp [hdiscarded, Outcome.panic] at hpanic
  · exact absurd (hpanic f.ledger) (hreturns message)
  rw [htangerine] at hreturns
  by_cases hhash : g.ledger.getL1HeightOfL1Hash
      output.lastL1HashOnBitcoinLightClientContract = none
  · -- the L1 hash is still not known
    refine idle_of_nil ?_
    rw [itemScript, proofTrace, htangerine, processTangerineZkProof, if_pos (by rw [hhash]; rfl)]
    rfl
  by_cases hdone : ProofDone g.ledger output
  · refine idle_of_nil ?_
    rw [itemScript, proofTrace, htangerine, processTangerineZkProof_done hhash hdone]
    rfl
  -- so it was not accepted and not discarded
  have hfresh : ¬ ProofDone f.ledger output := fun h => hdone (hstep.proven output h)
  have hknown :
      f.ledger.getL1HeightOfL1Hash output.lastL1HashOnBitcoinLightClientContract ≠ none := by
    rwa [Ledger.getL1HeightOfL1Hash, ← hstep.hashes]
  have haside : ¬ (Acceptable env f.ledger proof output ∧ StartsInTime f.ledger output) := by
    rintro ⟨hacceptable, hfirst⟩
    refine hdone (hlater.proven output ?_)
    exact hacceptable.proven hkeys hfresh hfirst ht
  obtain ⟨habove, hcase⟩ := (hsettled ⟨output, hvalid, hknown, hfresh, haside⟩ output
    hvalid).resolve_left hdone
  refine proof_idle (fun message hpanic => ?_) fun output' hvalid' => ?_
  · -- a panic would have come before the crash too
    rw [htangerine, processTangerineZkProof_of_not_done hhash hdone, if_neg habove] at hpanic
    have hprevious := previousL2EndBlockNumber_panic (panicsOnly_checkProof message hpanic)
      f.ledger
    rw [processTangerineZkProof_of_not_done hknown hfresh] at hreturns
    split at hreturns
    · exact hreturns _ rfl
    · refine hreturns message ?_
      rw [checkProof, hprevious]
      rfl
  · obtain rfl := some_unique hvalid'.extract hvalid.extract
    exact .inr hcase

/-- A commitment or proof that was handled before the crash changes nothing when it is handled
again, if it is settled on the ledger of the crash in case it was put aside. -/
theorem item_idle (hinv : BlockInv env block f.ledger f.ledger)
    (ht : itemScript env block.height item f = .ok t) (hhalted : t.halted = false)
    (hlater : Later (applyAll write t.writes f).ledger g.ledger)
    (hsettled : PutAside env f.ledger item → Settled env block.height g.ledger item) :
    Idle write (itemScript env block.height item) g := by
  have hstep := ((item_keeps item).preserves f t hinv ht).later.trans hlater
  cases item with
  | commitment c => exact commitment_replay ht hhalted hstep hlater hsettled
  | proof p => exact proof_replay hinv.keys ht hstep hlater hsettled

end Citrea.Proofs.FullNode
