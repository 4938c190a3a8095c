import Citrea.Spec.FullNode.Crashes

/-!
# `Citrea.Proofs.FullNode.Traces`: the writes of a commitment and of a proof

`CommitmentTrace` and `ProofTrace` list the writes that `process_sequencer_commitment` and
`process_zk_proof` can make, with what they have checked. All other case lists come from these two.
-/

namespace Citrea.Proofs.FullNode

open Option hiding or_assoc
open Lib Spec Spec.BatchProof Spec.FullNode
open Spec.LightClient (networkToDevMode indexRange)

variable {H C : Type} [DecidableEq H] {env : FullNodeEnv H C} {l : Ledger H}
  {c : SequencerCommitment H} {current found : UInt64} {writes : List (LedgerWrite H)}
  {result : ProcessingResult} {proof : Bytes} {output : BatchProofCircuitOutput H} {l' : Ledger H}
  {output : BatchProofCircuitOutput H}

/-! ### The writes and the handler -/

theorem updateCommitmentsOnDaSlot_ledger (f : FullLedger H) (height : UInt64)
    (c : SequencerCommitment H) : (f.updateCommitmentsOnDaSlot height c).ledger = f.ledger := by
  rw [FullLedger.updateCommitmentsOnDaSlot]
  split
  · split
    · rfl
    · rfl
  · rfl

@[simp] theorem apply_ledger (w : LedgerWrite H) (f : FullLedger H) :
    (w.apply f).ledger = w.applyLedger f.ledger := by
  cases w with
  | updateCommitmentsOnDaSlot height c => exact updateCommitmentsOnDaSlot_ledger f height c
  | _ => rfl

theorem applyAll_ledger (writes : List (LedgerWrite H)) (f : FullLedger H) :
    (applyAll LedgerWrite.apply writes f).ledger =
      applyAll LedgerWrite.applyLedger writes f.ledger := by
  induction writes generalizing f with
  | nil => rfl
  | cons w rest ih => rw [applyAll_cons, applyAll_cons, ih, apply_ledger]

/-- No write is to the L2 blocks. -/
theorem applyAll_l2Blocks (writes : List (LedgerWrite H)) (f : FullLedger H) :
    (applyAll LedgerWrite.apply writes f).ledger.l2BlockByNumber = f.ledger.l2BlockByNumber := by
  refine applyAll_induction (P := fun g : FullLedger H =>
    g.ledger.l2BlockByNumber = f.ledger.l2BlockByNumber) (fun w _ g hg => ?_) rfl
  rw [apply_ledger]
  cases w with
  | _ => exact hg

/-! ### The writes of a commitment -/

/-- The predecessor of a commitment is stored. -/
def Linked (l : Ledger H) (c : SequencerCommitment H) : Prop :=
  c.index = 1 ∨ l.getCommitmentByIndex (c.index - 1) ≠ none

/-- The commitment is discarded: its index has a stored commitment, or it is not above the committed
status. -/
def CommitmentDone (l : Ledger H) (c : SequencerCommitment H) : Prop :=
  l.getCommitmentByIndex c.index ≠ none ∨ advancesCommitted l c = false

omit [DecidableEq H] in
theorem not_commitmentDone : ¬ CommitmentDone l c ↔
    l.getCommitmentByIndex c.index = none ∧ advancesCommitted l c = true := by
  rw [CommitmentDone, not_or, not_ne_iff, Bool.not_eq_false]

/-- The writes that `process_sequencer_commitment` can make. -/
inductive CommitmentTrace (current found : UInt64) (c : SequencerCommitment H) (l : Ledger H) :
    ProcessingResult → List (LedgerWrite H) → Prop
  | discarded (done : CommitmentDone l c) : CommitmentTrace current found c l .discarded []
  | waiting (fresh : ¬ CommitmentDone l c) (linked : Linked l c)
      (unsynced : l.getHeadL2BlockHeight.getD 0 < c.l2EndBlockNumber)
      (pending : l.getPendingCommitmentByIndex c.index ≠ none) :
      CommitmentTrace current found c l .pending []
  | pending (fresh : ¬ CommitmentDone l c)
      (new : ¬ Linked l c ∨ (l.getHeadL2BlockHeight.getD 0 < c.l2EndBlockNumber ∧
        l.getPendingCommitmentByIndex c.index = none)) :
      CommitmentTrace current found c l .pending [.storePendingCommitment c found]
  | success (fresh : ¬ CommitmentDone l c) (linked : Linked l c) (start : UInt64) :
      CommitmentTrace current found c l .success (acceptWrites current found c start)

omit [DecidableEq H] in
theorem startL2Height_linked {start : Option UInt64} (h : startL2Height env l c = .ok start) :
    start.isSome ↔ Linked l c := by
  rw [startL2Height] at h
  split at h
  · next hone =>
    rw [bind_eq_ok] at h
    obtain ⟨height, -, h⟩ := h
    rw [pure_eq_ok] at h
    simp [← h, Linked, hone]
  · next hone =>
    rw [pure_eq_ok] at h
    simp [← h, Linked, hone, isSome_iff_ne_none]

/-- A commitment that is done is discarded. -/
theorem processSequencerCommitment_done (h : CommitmentDone l c) :
    processSequencerCommitment env current found c l = .ok (.discarded, []) := by
  rw [processSequencerCommitment]
  rcases h with hstored | hbehind
  · rw [if_pos (isSome_iff_ne_none.mpr hstored)]
    rfl
  · split
    · rfl
    · rw [if_pos (by rw [hbehind]; rfl)]
      rfl

/-- Any other commitment waits for its predecessor or for its L2 blocks, or its root is compared. -/
theorem processSequencerCommitment_of_not_done (h : ¬ CommitmentDone l c) :
    processSequencerCommitment env current found c l = commitFresh env current found c l := by
  obtain ⟨hfresh, hadvances⟩ := not_commitmentDone.mp h
  rw [processSequencerCommitment, if_neg (by simp [hfresh]), if_neg (by simp [hadvances])]

theorem processSequencerCommitment_ok
    (h : processSequencerCommitment env current found c l = .ok (result, writes)) :
    CommitmentTrace current found c l result writes := by
  by_cases hdone : CommitmentDone l c
  · rw [processSequencerCommitment_done hdone, Except.ok.injEq, Prod.mk.injEq] at h
    obtain ⟨rfl, rfl⟩ := h
    exact .discarded hdone
  rw [processSequencerCommitment_of_not_done hdone, commitFresh, bind_eq_ok] at h
  obtain ⟨start, hstart, h⟩ := h
  have hlinked := startL2Height_linked hstart
  cases start with
  | none =>
    obtain ⟨rfl, rfl⟩ := pure_pair_eq_ok.mp h
    exact .pending hdone (.inl fun hl => absurd (hlinked.mpr hl) (by simp))
  | some start =>
    replace hlinked : Linked l c := hlinked.mp rfl
    simp only [commitRange] at h
    split at h
    · next hunsynced =>
      split at h
      · next hnone =>
        obtain ⟨rfl, rfl⟩ := pure_pair_eq_ok.mp h
        exact .pending hdone (.inr ⟨hunsynced, isNone_iff_eq_none.mp hnone⟩)
      · next hpending =>
        obtain ⟨rfl, rfl⟩ := pure_pair_eq_ok.mp h
        exact .waiting hdone hlinked hunsynced fun hnone => hpending (by rw [hnone]; rfl)
    · rw [bind_eq_ok] at h
      obtain ⟨blocks, -, h⟩ := h
      split at h
      · simp at h
      · split at h
        · obtain ⟨rfl, rfl⟩ := pure_pair_eq_ok.mp h
          exact .success hdone hlinked start
        · simp at h

/-- The tables that `process_sequencer_commitment` reads are the same. -/
structure SameCommitments (l l' : Ledger H) : Prop where
  blocks : l'.l2BlockByNumber = l.l2BlockByNumber
  stored : l'.sequencerCommitmentByIndex = l.sequencerCommitmentByIndex
  committed : l'.l2StatusHeights .committed = l.l2StatusHeights .committed
  pending : l'.pendingSequencerCommitments = l.pendingSequencerCommitments

theorem processSequencerCommitment_congr (h : SameCommitments l l') (current found : UInt64)
    (c : SequencerCommitment H) : processSequencerCommitment env current found c l' =
      processSequencerCommitment env current found c l := by
  have hstored : l'.getCommitmentByIndex = l.getCommitmentByIndex := by
    funext index
    rw [Ledger.getCommitmentByIndex, h.stored, Ledger.getCommitmentByIndex]
  have hadvances : advancesCommitted l' c = advancesCommitted l c := by
    rw [advancesCommitted, Ledger.getHighestL2HeightForStatus, h.committed]
    rfl
  have hstart : startL2Height env l' c = startL2Height env l c := by
    rw [startL2Height, hstored, startL2Height]
  have hrange : ∀ start, commitRange env current found c start l' =
      commitRange env current found c start l := by
    intro start
    rw [commitRange, Ledger.getHeadL2BlockHeight, h.blocks, Ledger.getPendingCommitmentByIndex,
      h.pending, Ledger.getL2BlockRange, h.blocks]
    rfl
  rw [processSequencerCommitment, hstored, hadvances, commitFresh, hstart,
    processSequencerCommitment, commitFresh]
  simp [hrange]

/-! ### The checks of a proof -/

/-- The proof system accepts the proof for the code commitment of its fork. -/
structure ValidProof (env : FullNodeEnv H C) (proof : Bytes) (output : BatchProofCircuitOutput H) :
    Prop where
  extract : env.extractOutput proof = some output
  verify : ∃ fork code, forkFromBlockNumber env.forks output.lastL2Height =
      (.ok fork : Outcome (ProcessingError H) Fork) ∧
    env.codeCommitmentsBySpec fork.specId = some code ∧
    env.verify proof code (networkToDevMode env.network) = true

/-- The range of a proof with its hashes. -/
abbrev rangeHashes (output : BatchProofCircuitOutput H) : List (UInt32 × H) :=
  (indexRange output.sequencerCommitmentIndexRange.1 output.sequencerCommitmentIndexRange.2).zip
    output.sequencerCommitmentHashes

/-- The end height of the commitment before a proof, which is stored. -/
def PreviousEnd (env : FullNodeEnv H C) (l : Ledger H) (output : BatchProofCircuitOutput H)
    (previousEnd : UInt64) : Prop :=
  match output.previousCommitmentIndex with
  | some index => ∃ c, l.getCommitmentByIndex index = some c ∧
      output.previousCommitmentHash = some (c.serializeAndCalculateSha256 env.sha256) ∧
      c.l2EndBlockNumber = previousEnd
  | none => ∃ height, getTangerineActivationHeightNonZero env.forks =
      (.ok height : Outcome (ProcessingError H) UInt64) ∧ height - 1 = previousEnd

/-- The proof is acceptable on its own: it is valid, its L1 hash is known, the commitments of its
range and the one before it are stored with their hashes, and its initial state root is the one of
the ledger. -/
structure Acceptable (env : FullNodeEnv H C) (l : Ledger H) (proof : Bytes)
    (output : BatchProofCircuitOutput H) : Prop where
  valid : ValidProof env proof output
  hash : l.getL1HeightOfL1Hash output.lastL1HashOnBitcoinLightClientContract ≠ none
  stored : ∀ item ∈ rangeHashes output, ∃ c, l.getCommitmentByIndex item.1 = some c ∧
    c.serializeAndCalculateSha256 env.sha256 = item.2
  root : ∃ previousEnd root, PreviousEnd env l output previousEnd ∧
    l.getL2StateRoot previousEnd = some root ∧ output.stateRoots.head? = some root

/-- The highest status, with the default of the handler. -/
def highestStatus (l : Ledger H) (status : L2HeightStatus) : L2HeightAndIndex :=
  (l.getHighestL2HeightForStatus status none).getD default

/-- The proven status. -/
abbrev provenStatus (l : Ledger H) : L2HeightAndIndex := highestStatus l .proven

/-- An index below another one has a successor. -/
theorem toNat_succ_of_lt {i j : UInt32} (h : i < j) : (i + 1).toNat = i.toNat + 1 := by
  have hlt := UInt32.lt_iff_toNat_lt.mp h
  have hmax := j.toNat_lt
  rw [UInt32.toNat_add, Nat.mod_eq_of_lt]
  · rfl
  · show i.toNat + 1 < 2 ^ 32
    omega

/-- The end of a proof is proven. -/
def ProofDone (l : Ledger H) (output : BatchProofCircuitOutput H) : Prop :=
  output.lastL2Height ≤ (provenStatus l).height ∨
    output.sequencerCommitmentIndexRange.2 ≤ (provenStatus l).commitmentIndex

/-- A proof starts at most one past the proven index. -/
def StartsInTime (l : Ledger H) (output : BatchProofCircuitOutput H) : Prop :=
  output.sequencerCommitmentIndexRange.1.toNat ≤ (provenStatus l).commitmentIndex.toNat + 1

/-- The commitment of an index is stored with a hash. -/
def StoredWith (env : FullNodeEnv H C) (l : Ledger H) (index : UInt32) (hash : H) : Prop :=
  ∃ c, l.getCommitmentByIndex index = some c ∧ c.serializeAndCalculateSha256 env.sha256 = hash

/-- The commitment of an index is pending with a hash, and none is stored. -/
def PendingWith (env : FullNodeEnv H C) (l : Ledger H) (index : UInt32) (hash : H) : Prop :=
  l.getCommitmentByIndex index = none ∧ ∃ c found,
    l.getPendingCommitmentByIndex index = some (c, found) ∧
    c.serializeAndCalculateSha256 env.sha256 = hash

/-- The commitments that a proof names: those of its range, and the one before it. -/
def Names (output : BatchProofCircuitOutput H) (index : UInt32) (hash : H) : Prop :=
  (index, hash) ∈ rangeHashes output ∨
    (output.previousCommitmentIndex = some index ∧ output.previousCommitmentHash = some hash)

/-- The checks of a proof against the ledger do not fail: its L1 hash is known, the commitments that
it names are stored or pending with their hashes, and its initial state root is the one of the
ledger if they are all stored. -/
structure Supported (env : FullNodeEnv H C) (l : Ledger H) (output : BatchProofCircuitOutput H) :
    Prop where
  hash : l.getL1HeightOfL1Hash output.lastL1HashOnBitcoinLightClientContract ≠ none
  known : ∀ index hash, Names output index hash →
    StoredWith env l index hash ∨ PendingWith env l index hash
  root : (∀ index hash, Names output index hash → StoredWith env l index hash) →
    ∀ previousEnd, PreviousEnd env l output previousEnd →
      ∃ root, l.getL2StateRoot previousEnd = some root ∧ output.stateRoots.head? = some root

omit [DecidableEq H] in
/-- A commitment is not both stored and pending. -/
theorem StoredWith.not_pendingWith {index : UInt32} {hash hash' : H}
    (h : StoredWith env l index hash) (h' : PendingWith env l index hash') : False := by
  obtain ⟨c, hc, -⟩ := h
  simp [h'.1] at hc

omit [DecidableEq H] in
theorem PreviousEnd.unique {a b : UInt64} (h : PreviousEnd env l output a)
    (h' : PreviousEnd env l output b) : a = b := by
  rw [PreviousEnd] at h h'
  cases hindex : output.previousCommitmentIndex with
  | some index =>
    rw [hindex] at h h'
    obtain ⟨c, hc, -, rfl⟩ := h
    obtain ⟨c', hc', -, rfl⟩ := h'
    rw [some_unique hc hc']
  | none =>
    rw [hindex] at h h'
    obtain ⟨height, hheight, rfl⟩ := h
    obtain ⟨height', hheight', rfl⟩ := h'
    rw [ok_unique hheight hheight']

omit [DecidableEq H] in
theorem PreviousEnd.storedWith {previousEnd : UInt64} {index : UInt32} {hash : H}
    (h : PreviousEnd env l output previousEnd)
    (hindex : output.previousCommitmentIndex = some index)
    (hhash : output.previousCommitmentHash = some hash) : StoredWith env l index hash := by
  rw [PreviousEnd, hindex] at h
  obtain ⟨c, hc, hsame, -⟩ := h
  exact ⟨c, hc, some_unique hsame hhash⟩

omit [DecidableEq H] in
/-- The commitments that an acceptable proof names are stored. -/
theorem Acceptable.storedWith (h : Acceptable env l proof output) {index : UInt32} {hash : H}
    (hnames : Names output index hash) : StoredWith env l index hash := by
  rcases hnames with hrange | ⟨hindex, hhash⟩
  · exact h.stored _ hrange
  · obtain ⟨previousEnd, root, hprevious, -⟩ := h.root
    exact hprevious.storedWith hindex hhash

omit [DecidableEq H] in
theorem Acceptable.supported (h : Acceptable env l proof output) : Supported env l output := by
  refine ⟨h.hash, fun index hash hnames => .inl (h.storedWith hnames), fun _ previousEnd hend => ?_⟩
  obtain ⟨previousEnd', root, hprevious, hroot⟩ := h.root
  rw [hend.unique hprevious]
  exact ⟨root, hroot⟩

/-- A commitment that a check finds is stored, or it is pending and not stored. -/
theorem verifyHash_ok {index : UInt32} {hash : H} {result : UInt64 × Bool}
    (h : verifySequencerCommitmentHashByIndex env l index hash = .ok result) :
    (result.2 = false ∧ ∃ c, l.getCommitmentByIndex index = some c ∧
      c.serializeAndCalculateSha256 env.sha256 = hash ∧ c.l2EndBlockNumber = result.1) ∨
    (result.2 = true ∧ PendingWith env l index hash) := by
  simp only [verifySequencerCommitmentHashByIndex, bind_eq_ok, ensure_eq_ok, pure_eq_ok] at h
  obtain ⟨⟨c, isPending⟩, hknown, -, hhash, rfl⟩ := h
  rw [knownCommitment] at hknown
  split at hknown
  · next c' hc' =>
    obtain ⟨rfl, rfl⟩ := pure_pair_eq_ok.mp hknown
    exact .inl ⟨rfl, c', hc', hhash, rfl⟩
  · next c' found hstored hpending =>
    obtain ⟨rfl, rfl⟩ := pure_pair_eq_ok.mp hknown
    exact .inr ⟨rfl, hstored, c', found, hpending, hhash⟩
  · simp at hknown

/-- The check finds a commitment that is stored or pending. -/
theorem verifyHash_of_known {index : UInt32} {hash : H}
    (h : StoredWith env l index hash ∨ PendingWith env l index hash) :
    ∃ result, verifySequencerCommitmentHashByIndex env l index hash = .ok result := by
  rw [verifySequencerCommitmentHashByIndex, knownCommitment]
  rcases h with ⟨c, hc, rfl⟩ | ⟨hnone, c, found, hc, rfl⟩
  · simp [hc, bind, Except.bind, pure, Except.pure, ensure]
  · simp [hnone, hc, bind, Except.bind, pure, Except.pure, ensure]

/-- The commitment before a proof is stored, or it is pending and not stored. -/
theorem previousL2EndBlockNumber_ok {previous : UInt64 × Bool}
    (h : previousL2EndBlockNumber env l output = .ok previous) :
    (previous.2 = false ∧ PreviousEnd env l output previous.1) ∨
    (previous.2 = true ∧ ∃ index hash, output.previousCommitmentIndex = some index ∧
      output.previousCommitmentHash = some hash ∧ PendingWith env l index hash) := by
  rw [previousL2EndBlockNumber] at h
  rw [PreviousEnd]
  cases hindex : output.previousCommitmentIndex with
  | some index =>
    rw [hindex] at h
    simp only [bind_eq_ok, expect_eq_ok] at h
    obtain ⟨hash, hhash, h⟩ := h
    rcases verifyHash_ok h with ⟨hflag, c, hc, hsame, hend⟩ | ⟨hflag, hpending⟩
    · exact .inl ⟨hflag, c, hc, by rw [hhash, hsame], hend⟩
    · exact .inr ⟨hflag, index, hash, rfl, hhash, hpending⟩
  | none =>
    rw [hindex] at h
    simp only [bind_eq_ok, pure_eq_ok] at h
    obtain ⟨height, hheight, rfl⟩ := h
    exact .inl ⟨rfl, height, hheight, rfl⟩

/-- The commitments of the range are stored or pending, and the result says whether one is pending.
-/
theorem verifyCommitmentHashes_ok {flag isPending : Bool}
    (h : verifyCommitmentHashes env l output flag = .ok isPending) :
    (∀ item ∈ rangeHashes output,
      StoredWith env l item.1 item.2 ∨ PendingWith env l item.1 item.2) ∧
    (isPending = true ↔ flag = true ∨
      ∃ item ∈ rangeHashes output, PendingWith env l item.1 item.2) := by
  refine foldlM_induction (P := fun items isPending => (∀ item ∈ items,
    StoredWith env l item.1 item.2 ∨ PendingWith env l item.1 item.2) ∧
    (isPending = true ↔ flag = true ∨ ∃ item ∈ items, PendingWith env l item.1 item.2))
    (s := flag) (by simp) _ ?_ isPending h
  rintro pre item post m t - - ⟨hknown, hm⟩ hstep
  rw [bind_eq_ok] at hstep
  obtain ⟨result, hverify, hflag⟩ := hstep
  rw [pure_eq_ok] at hflag
  have hitem : (StoredWith env l item.1 item.2 ∨ PendingWith env l item.1 item.2) ∧
      (result.2 = true ↔ PendingWith env l item.1 item.2) := by
    rcases verifyHash_ok hverify with ⟨hresult, c, hc, hhash, -⟩ | ⟨hresult, hpending⟩
    · have hstored : StoredWith env l item.1 item.2 := ⟨c, hc, hhash⟩
      exact ⟨.inl hstored, by simp [hresult], fun hp => (hstored.not_pendingWith hp).elim⟩
    · exact ⟨.inr hpending, fun _ => hpending, fun _ => hresult⟩
  rw [← hflag, Bool.or_eq_true, hm, hitem.2]
  constructor
  · intro other hother
    rcases List.mem_append.mp hother with hpre | hlast
    · exact hknown other hpre
    · exact List.mem_singleton.mp hlast ▸ hitem.1
  · simp [or_and_right, exists_or, or_assoc]

/-- What the checks of a proof against the commitments find. -/
theorem checks_ok {previous : UInt64 × Bool} {isPending : Bool}
    (hprevious : previousL2EndBlockNumber env l output = .ok previous)
    (hhashes : verifyCommitmentHashes env l output previous.2 = .ok isPending) :
    (∀ index hash, Names output index hash →
      StoredWith env l index hash ∨ PendingWith env l index hash) ∧
    (isPending = true ↔ ∃ index hash, Names output index hash ∧ PendingWith env l index hash) ∧
    (isPending = false → PreviousEnd env l output previous.1) := by
  obtain ⟨hrange, hpending⟩ := verifyCommitmentHashes_ok hhashes
  rcases previousL2EndBlockNumber_ok hprevious with
    ⟨hflag, hend⟩ | ⟨hflag, index, hash, hindex, hhash, hwaits⟩
  · refine ⟨fun i h hnames => ?_, ?_, fun _ => hend⟩
    · rcases hnames with hmem | ⟨hi, hh⟩
      · exact hrange _ hmem
      · exact .inl (hend.storedWith hi hh)
    · rw [hpending, hflag]
      constructor
      · rintro (hfalse | ⟨item, hitem, hwaits⟩)
        · cases hfalse
        · exact ⟨item.1, item.2, .inl hitem, hwaits⟩
      · rintro ⟨i, h, hmem | ⟨hi, hh⟩, hwaits⟩
        · exact .inr ⟨(i, h), hmem, hwaits⟩
        · exact ((hend.storedWith hi hh).not_pendingWith hwaits).elim
  · have htrue : isPending = true := hpending.mpr (.inl hflag)
    refine ⟨fun i h hnames => ?_, ?_, fun hfalse => by simp [htrue] at hfalse⟩
    · rcases hnames with hmem | ⟨hi, hh⟩
      · exact hrange _ hmem
      · obtain rfl := some_unique hindex hi
        obtain rfl := some_unique hhash hh
        exact .inr hwaits
    · exact ⟨fun _ => ⟨index, hash, .inr ⟨hindex, hhash⟩, hwaits⟩, fun _ => htrue⟩

/-- The check of the hashes returns if all commitments of the range are stored or pending. -/
theorem verifyCommitmentHashes_of_known
    (h : ∀ item ∈ rangeHashes output,
      StoredWith env l item.1 item.2 ∨ PendingWith env l item.1 item.2) (flag : Bool) :
    ∃ isPending, verifyCommitmentHashes env l output flag = .ok isPending := by
  rw [verifyCommitmentHashes]
  simp only [rangeHashes] at h
  generalize (indexRange output.sequencerCommitmentIndexRange.1
    output.sequencerCommitmentIndexRange.2).zip output.sequencerCommitmentHashes = items at h ⊢
  induction items generalizing flag with
  | nil => exact ⟨flag, rfl⟩
  | cons item rest ih =>
    obtain ⟨result, hverify⟩ := verifyHash_of_known (h item List.mem_cons_self)
    rw [List.foldlM_cons, hverify]
    exact ih _ fun other hother => h other (List.mem_cons_of_mem _ hother)

section
open Outcome (PanicsOnly panicsOnly_ok panicsOnly_err panicsOnly_ensure)

/-- The check of a hash does not panic. -/
theorem panicsOnly_verifyHash {P : String → Prop} {index : UInt32} {hash : H} :
    PanicsOnly P (verifySequencerCommitmentHashByIndex env l index hash) := by
  have hknown : PanicsOnly P (knownCommitment l index) := by
    rw [knownCommitment]
    split
    · exact panicsOnly_ok
    · exact panicsOnly_ok
    · exact panicsOnly_err
  exact hknown.bind fun _ _ => panicsOnly_ensure.bind fun _ _ => panicsOnly_ok

/-- The checks of a proof panic only for the commitment before it. -/
theorem panicsOnly_checkProof {proven : L2HeightAndIndex} {initial : H} :
    PanicsOnly (fun message => previousL2EndBlockNumber env l output = Outcome.panic message)
      (checkProof env current found proof output proven initial l) := by
  have hhashes : ∀ flag, PanicsOnly (fun message => previousL2EndBlockNumber env l output =
      Outcome.panic message) (verifyCommitmentHashes env l output flag) := by
    intro flag message hpanic
    obtain ⟨_, item, _, flag, -, -, hstep⟩ := foldlM_eq_error hpanic
    exact ((panicsOnly_verifyHash (P := fun _ => False)).bind fun _ _ => panicsOnly_ok)
      message hstep |>.elim
  have hprevious : PanicsOnly (fun message => previousL2EndBlockNumber env l output =
      Outcome.panic message) (previousL2EndBlockNumber env l output) := fun _ hpanic => hpanic
  refine hprevious.bind fun previous _ => (hhashes _).bind fun isPending _ => ?_
  split
  · exact panicsOnly_ok
  · rw [recordProof]
    split
    · exact panicsOnly_err
    split
    · exact panicsOnly_err
    split
    all_goals exact panicsOnly_ok

/-- Whether the commitment before a proof makes the node panic does not depend on the ledger. -/
theorem previousL2EndBlockNumber_panic {message : String}
    (h : previousL2EndBlockNumber env l output = Outcome.panic message) (l' : Ledger H) :
    previousL2EndBlockNumber env l' output = Outcome.panic message := by
  rw [previousL2EndBlockNumber] at h ⊢
  split at h
  · next index hindex =>
    cases hhash : output.previousCommitmentHash with
    | none =>
      rw [hhash] at h
      exact h
    | some hash =>
      rw [hhash] at h
      exact (panicsOnly_verifyHash (P := fun _ => False) message h).elim
  · exact h

end

/-! ### The writes of a proof -/

/-- The writes of an accepted proof. -/
def proofAcceptWrites (current found : UInt64) (proof : Bytes)
    (output : BatchProofCircuitOutput H) :
    List (LedgerWrite H) :=
  [.updateVerifiedProofData found proof output,
    .setL2HeightStatus .proven current
      ⟨output.lastL2Height, output.sequencerCommitmentIndexRange.2⟩]

/-- A valid proof goes to `process_tangerine_zk_proof`, whatever the ledger is. Any other proof is
discarded. The node panics for a proof without a code commitment or without a state root. -/
theorem processZkProof_cases (env : FullNodeEnv H C) (current found : UInt64) (proof : Bytes) :
    ((∀ output, ¬ ValidProof env proof output) ∧
      ∀ l, processZkProof env current found proof l = .ok (.discarded, [])) ∨
    (∃ message, ∀ l, processZkProof env current found proof l = Outcome.panic message) ∨
    ∃ output initial, ValidProof env proof output ∧ output.stateRoots.head? = some initial ∧ ∀ l,
      processZkProof env current found proof l =
        processTangerineZkProof env current found initial proof output l := by
  cases houtput : env.extractOutput proof with
  | none =>
    refine .inl ⟨fun output hvalid => ?_, fun l => ?_⟩
    · simpa [houtput] using hvalid.extract
    · rw [processZkProof, houtput]
      rfl
  | some output =>
    simp only [processZkProof, houtput]
    cases hfork : (forkFromBlockNumber env.forks output.lastL2Height :
      Outcome (ProcessingError H) Fork) with
    | error fault =>
      obtain ⟨message, rfl⟩ : ∃ message, fault = .panic message := by
        rw [forkFromBlockNumber] at hfork
        cases hget : env.forks[forkPosFromBlockNumber env.forks output.lastL2Height]? with
        | none =>
          rw [hget] at hfork
          exact ⟨_, (Except.error.inj hfork).symm⟩
        | some fork =>
          rw [hget] at hfork
          exact absurd hfork (by simp [expect])
      exact .inr (.inl ⟨message, fun l => rfl⟩)
    | ok fork =>
      cases hcode : env.codeCommitmentsBySpec fork.specId with
      | none =>
        refine .inr (.inl ⟨"Proof public input must contain valid spec id", fun l => ?_⟩)
        simp only [bind, Except.bind, hcode, expect]
        rfl
      | some code =>
        cases hverify : env.verify proof code (networkToDevMode env.network) with
        | false =>
          refine .inl ⟨fun output' hvalid => ?_, fun l => ?_⟩
          · obtain rfl := some_unique houtput hvalid.extract
            obtain ⟨fork', code', hfork', hcode', hverify'⟩ := hvalid.verify
            obtain rfl := ok_unique hfork hfork'
            obtain rfl := some_unique hcode hcode'
            simp [hverify] at hverify'
          · simp [bind, Except.bind, hcode, expect, hverify]
        | true =>
          cases hroot : output.stateRoots.head? with
          | none =>
            refine .inr (.inl ⟨"called `Option::unwrap()` on a `None` value", fun l => ?_⟩)
            simp only [bind, Except.bind, hcode, expect, hverify]
            rfl
          | some initial =>
            refine .inr (.inr ⟨output, initial, ⟨houtput, fork, code, hfork, hcode, hverify⟩,
              hroot, fun l => ?_⟩)
            simp [bind, Except.bind, hcode, expect, hverify]

omit [DecidableEq H] in
theorem not_proofDone : ¬ ProofDone l output ↔ (provenStatus l).height < output.lastL2Height ∧
    (provenStatus l).commitmentIndex < output.sequencerCommitmentIndexRange.2 := by
  rw [ProofDone, not_or, UInt64.not_le, UInt32.not_le]

/-- A proof whose end is proven is discarded. -/
theorem processTangerineZkProof_done {initial : H}
    (hhash : l.getL1HeightOfL1Hash output.lastL1HashOnBitcoinLightClientContract ≠ none)
    (hdone : ProofDone l output) :
    processTangerineZkProof env current found initial proof output l = .ok (.discarded, []) := by
  rw [processTangerineZkProof, if_neg (by simpa using hhash)]
  exact if_pos hdone

/-- Any other proof is checked, or the node panics. -/
theorem processTangerineZkProof_of_not_done {initial : H}
    (hhash : l.getL1HeightOfL1Hash output.lastL1HashOnBitcoinLightClientContract ≠ none)
    (hfresh : ¬ ProofDone l output) :
    processTangerineZkProof env current found initial proof output l =
      if (provenStatus l).Above (highestStatus l .committed) then
        Outcome.panic provenAboveCommitted
      else checkProof env current found proof output (provenStatus l) initial l := by
  rw [processTangerineZkProof, if_neg (by simpa using hhash)]
  exact if_neg hfresh

/-- A commitment that the proof names is pending, or the proof is acceptable and starts too late. -/
def Waits (env : FullNodeEnv H C) (l : Ledger H) (proof : Bytes)
    (output : BatchProofCircuitOutput H) :
    Prop :=
  (∃ index hash, Names output index hash ∧ PendingWith env l index hash) ∨
    (Acceptable env l proof output ∧ ¬ StartsInTime l output)

/-- The writes that `process_zk_proof` can make. -/
inductive ProofTrace (env : FullNodeEnv H C) (current found : UInt64) (proof : Bytes)
    (l : Ledger H) :
    ProcessingResult → List (LedgerWrite H) → Prop
  | invalid (never : ∀ output, ¬ ValidProof env proof output) :
      ProofTrace env current found proof l .discarded []
  | discarded {output : BatchProofCircuitOutput H} (valid : ValidProof env proof output)
      (done : ProofDone l output) : ProofTrace env current found proof l .discarded []
  | pending {output : BatchProofCircuitOutput H} (valid : ValidProof env proof output)
      (fresh : ¬ ProofDone l output) (supported : Supported env l output)
      (waits : Waits env l proof output) : ProofTrace env current found proof l .pending
        [.storePendingProof output.sequencerCommitmentIndexRange proof found]
  | success {output : BatchProofCircuitOutput H} (valid : ValidProof env proof output)
      (fresh : ¬ ProofDone l output) (first : StartsInTime l output)
      (acceptable : Acceptable env l proof output) : ProofTrace env current found proof l .success
        (proofAcceptWrites current found proof output)

theorem processTangerineZkProof_ok {initial : H} (hvalid : ValidProof env proof output)
    (hinitial : output.stateRoots.head? = some initial)
    (h : processTangerineZkProof env current found initial proof output l = .ok (result, writes)) :
    ProofTrace env current found proof l result writes := by
  by_cases hknown : l.getL1HeightOfL1Hash output.lastL1HashOnBitcoinLightClientContract = none
  · rw [processTangerineZkProof, if_pos (by rw [hknown]; rfl)] at h
    simp at h
  by_cases hfresh : ProofDone l output
  · obtain ⟨rfl, rfl⟩ := Prod.mk.inj (ok_unique (processTangerineZkProof_done hknown hfresh) h)
    exact .discarded hvalid hfresh
  rw [processTangerineZkProof_of_not_done hknown hfresh] at h
  split at h
  · simp at h
  simp only [checkProof, bind_eq_ok] at h
  obtain ⟨previous, hprevious, isPending, hhashes, h⟩ := h
  obtain ⟨hnamed, hpending, hend⟩ := checks_ok hprevious hhashes
  cases isPending with
  | true =>
    rw [if_pos rfl, pure_eq_ok, Prod.mk.injEq] at h
    obtain ⟨rfl, rfl⟩ := h
    obtain ⟨index, hash, hnames, hwaits⟩ := hpending.mp rfl
    refine .pending hvalid hfresh ⟨hknown, hnamed, fun hstored => ?_⟩
      (.inl ⟨index, hash, hnames, hwaits⟩)
    exact ((hstored index hash hnames).not_pendingWith hwaits).elim
  | false =>
    rw [if_neg (by decide), recordProof] at h
    split at h
    · simp at h
    next root hroot =>
    split at h
    · simp at h
    next hsame =>
    rw [not_ne_iff] at hsame
    have hacceptable : Acceptable env l proof output := by
      refine ⟨hvalid, hknown, fun item hitem => ?_, previous.1, root, hend rfl, hroot,
        by rw [hinitial, hsame]⟩
      refine (hnamed item.1 item.2 (.inl hitem)).resolve_right fun hwaits => ?_
      exact absurd (hpending.mpr ⟨item.1, item.2, .inl hitem, hwaits⟩) (by decide)
    have hfirst : (provenStatus l).commitmentIndex + 1 < output.sequencerCommitmentIndexRange.1 ↔
        ¬ StartsInTime l output := by
      rw [UInt32.lt_iff_toNat_lt, toNat_succ_of_lt (not_proofDone.mp hfresh).2, StartsInTime,
        Nat.not_le]
    split at h
    · next hgap =>
      obtain ⟨rfl, rfl⟩ := pure_pair_eq_ok.mp h
      exact .pending hvalid hfresh hacceptable.supported (.inr ⟨hacceptable, hfirst.mp hgap⟩)
    · next hgap =>
      obtain ⟨rfl, rfl⟩ := pure_pair_eq_ok.mp h
      exact .success hvalid hfresh (not_not.mp (hfirst.not.mp hgap)) hacceptable

theorem processZkProof_ok (h : processZkProof env current found proof l = .ok (result, writes)) :
    ProofTrace env current found proof l result writes := by
  rcases processZkProof_cases env current found proof with
    ⟨hnever, hdiscarded⟩ | ⟨message, hpanic⟩ | ⟨output, initial, hvalid, hinitial, htangerine⟩
  · obtain ⟨rfl, rfl⟩ := Prod.mk.inj (ok_unique (hdiscarded l) h)
    exact .invalid hnever
  · simp [hpanic l] at h
  · rw [htangerine] at h
    exact processTangerineZkProof_ok hvalid hinitial h

/-- The commitment before a supported proof is found. -/
theorem Supported.previous (h : Supported env l output) {e : ProcessingError H} :
    previousL2EndBlockNumber env l output ≠ .error (.error e) := by
  rw [previousL2EndBlockNumber]
  cases hindex : output.previousCommitmentIndex with
  | some index =>
    cases hhash : output.previousCommitmentHash with
    | none => simp [expect, Outcome.panic, bind, Except.bind]
    | some hash =>
      obtain ⟨result, hverify⟩ := verifyHash_of_known (h.known index hash (.inr ⟨hindex, hhash⟩))
      simp [expect, bind, Except.bind, hverify]
  | none =>
    cases hheight : (getTangerineActivationHeightNonZero env.forks :
      Outcome (ProcessingError H) UInt64) with
    | ok height => simp [bind, Except.bind, pure, Except.pure]
    | error fault =>
      cases fault with
      | panic message => simp [bind, Except.bind]
      | error e =>
        -- the function of the forks has no error of its own
        rw [getTangerineActivationHeightNonZero] at hheight
        cases hfirst : env.forks[0]? with
        | none => simp [hfirst, expect, Outcome.panic, bind, Except.bind] at hheight
        | some first =>
          simp only [hfirst, expect, bind, Except.bind] at hheight
          split at hheight
          · simp [pure, Except.pure] at hheight
          · cases hfind : env.forks.find? fun f => f.specId = .tangerine with
            | none => simp [hfind, Outcome.panic] at hheight
            | some fork => simp [hfind, pure, Except.pure] at hheight

/-- A supported proof does not fail with an error. -/
theorem Supported.no_error (h : Supported env l output) (hvalid : ValidProof env proof output)
    {e : ProcessingError H} : processZkProof env current found proof l ≠ .error (.error e) := by
  intro herror
  rcases processZkProof_cases env current found proof with
    ⟨hnever, -⟩ | ⟨message, hpanic⟩ | ⟨output', initial, hvalid', hinitial, htangerine⟩
  · exact hnever output hvalid
  · exact absurd ((hpanic l).symm.trans herror) (by simp [Outcome.panic])
  obtain rfl := some_unique hvalid'.extract hvalid.extract
  rw [htangerine] at herror
  by_cases hdone : ProofDone l output'
  · rw [processTangerineZkProof_done h.hash hdone] at herror
    exact absurd herror (by simp)
  rw [processTangerineZkProof_of_not_done h.hash hdone] at herror
  split at herror
  · exact absurd herror (by simp [Outcome.panic])
  rw [checkProof] at herror
  cases hprevious : previousL2EndBlockNumber env l output' with
  | error fault =>
    rw [hprevious] at herror
    obtain rfl : fault = .error e := Except.error.inj herror
    exact h.previous hprevious
  | ok previous =>
    obtain ⟨isPending, hhashes⟩ := verifyCommitmentHashes_of_known
      (fun item hitem => h.known item.1 item.2 (.inl hitem)) previous.2
    simp only [hprevious, bind, Except.bind, hhashes] at herror
    split at herror
    · exact absurd herror (by simp [pure, Except.pure])
    next hstored =>
    obtain ⟨hnamed, hpending, hend⟩ := checks_ok hprevious hhashes
    obtain ⟨root, hget, hhead⟩ := h.root (fun index hash hnames =>
      (hnamed index hash hnames).resolve_right fun hwaits =>
        hstored (hpending.mpr ⟨index, hash, hnames, hwaits⟩)) previous.1
          (hend (by simpa using hstored))
    rw [recordProof, hget, some_unique hinitial hhead] at herror
    simp only [ne_eq, not_true_eq_false, if_false] at herror
    split at herror
    all_goals exact absurd herror (by simp [pure, Except.pure])

/-- A proof that was accepted is discarded when its range is proven. -/
theorem processZkProof_proven
    (h : processZkProof env current found proof l = .ok (.success, writes))
    (houtput : env.extractOutput proof = some output) (hhashes : l'.slotByHash = l.slotByHash)
    (hproven : l'.getHighestL2HeightForStatus .proven none = some ⟨output.lastL2Height,
      output.sequencerCommitmentIndexRange.2⟩) :
    processZkProof env current found proof l' = .ok (.discarded, []) := by
  rcases processZkProof_cases env current found proof with
    ⟨-, hdiscarded⟩ | ⟨message, hpanic⟩ | ⟨output', initial, hvalid, -, htangerine⟩
  · simp [hdiscarded l] at h
  · simp [hpanic l] at h
  · obtain rfl := some_unique hvalid.extract houtput
    rw [htangerine, processTangerineZkProof] at h
    rw [htangerine]
    split at h
    · simp at h
    next hknown =>
    refine processTangerineZkProof_done ?_ (.inl ?_)
    · rw [Ledger.getL1HeightOfL1Hash, hhashes]
      exact fun hnone => hknown (by rw [Ledger.getL1HeightOfL1Hash, hnone]; rfl)
    · rw [provenStatus, highestStatus, hproven]
      exact UInt64.le_refl _

end Citrea.Proofs.FullNode
