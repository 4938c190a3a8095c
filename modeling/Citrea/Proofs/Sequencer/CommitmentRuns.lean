import Citrea.Proofs.Sequencer.CommitmentService

/-!
# `Citrea.Proofs.Sequencer.CommitmentRuns`: commitments tile the chain, also over restarts

A run of the commitment service is any order of its events. The service goes on (`Proceeds`) if the
block that opens a range fits on its own, and if the DA layer answers at a restart. Then its ranges
tile the chain (`commitments_tile`). If all blocks fit, they are the ranges of the run without
restarts (`restarts_keep_boundaries`).

A block that does not fit on its own stops the service if it is the first one of a range: the
controller cuts before it, the range is empty, and `get_commitment` has no merkle root to return
(`first_block_too_large`). Inside a range that is open already it does no harm, also over a restart
that comes later (`oversized_block_tiles`).
-/

namespace Citrea.Proofs.Sequencer

open List Lib Spec.Sequencer

variable {H : Type} {env : CommitmentEnv H}

/-- The conditions under which the service goes on: the block that opens a range fits on its own,
and at a restart the DA layer answers. -/
def Proceeds (env : CommitmentEnv H) (s : CommitmentService H) : ServiceEvent H → Prop
  | .check => s.controller.lastL2Height < s.ledger.headL2BlockHeight → Opens env s
  | .restart found => DaAnswers s found
  | _ => True

/-- The conditions on an event: the service goes on, and what it accumulates without compressing it
is within the limit. -/
def Covered (env : CommitmentEnv H) (s : CommitmentService H) (e : ServiceEvent H) : Prop :=
  Proceeds env s e ∧
    (e = .check → s.controller.lastL2Height < s.ledger.headL2BlockHeight → LetsThrough env s)

/-- The conditions on an event: a produced block fits on its own, and at a restart the DA layer
answers. -/
def Admissible (env : CommitmentEnv H) (s : CommitmentService H) : ServiceEvent H → Prop
  | .produce block => Fits env block.stateDiff
  | .restart found => DaAnswers s found
  | _ => True

/-! ### Tiles -/

/-- The submissions of the service: numbered from 1, for ranges of produced blocks that are not
empty, follow each other from the Tangerine height on and have at most the maximum number of blocks.
The compressed state diff of a range with more than one block is within the limit. An index is at
most the last height of its range. -/
structure Tiling (env : CommitmentEnv H) (s : CommitmentService H) : Prop where
  numbered : ∀ i sub, s.da[i]? = some sub →
    sub.commitment.index = i + 1 ∧ sub.commitment.l2EndBlockNumber = sub.range.stop
  nonempty : ∀ sub ∈ s.da, sub.range.start ≤ sub.range.stop
  first : ∀ sub, s.da[0]? = some sub → sub.range.start = env.tangerineHeight
  next : ∀ i a b, s.da[i]? = some a → s.da[i + 1]? = some b → b.range.start = a.range.stop + 1
  disjoint : s.da.Pairwise fun a b => a.range.stop < b.range.start
  bounded : ∀ sub ∈ s.da, sub.range.stop + 1 - sub.range.start ≤ env.maxL2Blocks
  produced : ∀ sub ∈ s.da, sub.range.stop ≤ s.ledger.l2Blocks.length
  index_le : ∀ sub ∈ s.da, sub.commitment.index ≤ sub.range.stop
  small : ∀ sub ∈ s.da, sub.range.start < sub.range.stop →
    (env.compressBlob (borshStateDiff (rangeDiff s.ledger.l2Blocks sub.range.start
      sub.range.stop))).length ≤ maxTxBodySize

theorem ServiceInv.tiling {s : CommitmentService H} (h : ServiceInv env s) (hsize : SizeInv env s)
    (hmax : 0 < env.maxL2Blocks) : Tiling env s := by
  have htiles := h.tiles hmax
  have hpos := env.tangerineHeight_pos
  have hget : ∀ (i : Nat) (sub : Submission H), s.da[i]? = some sub →
      (s.da.map span)[i]? = some (span sub) := by
    intro i sub hsub
    rw [List.getElem?_map, hsub]
    rfl
  refine ⟨h.numbered, ?_, ?_, ?_, ?_, ?_, fun sub hsub => h.produced hmax hsub, ?_,
    hsize.submitted⟩
  · intro sub hsub
    obtain ⟨i, hi⟩ := mem_iff_getElem?.mp hsub
    exact (htiles.start_eq i (span sub) (hget i sub hi)).1
  · intro sub hsub
    rcases (htiles.start_eq 0 (span sub) (hget 0 sub hsub)).2 with ⟨-, hfirst⟩ | ⟨j, p, hj, -⟩
    · exact hfirst
    · exact absurd hj (by omega)
  · intro i a b ha hb
    rcases (htiles.start_eq (i + 1) (span b) (hget _ b hb)).2 with ⟨hzero, -⟩ | ⟨j, p, hj, hp, hb⟩
    · exact absurd hzero (by omega)
    · obtain rfl : i = j := by omega
      obtain rfl := some_unique (hget i a ha) hp
      exact hb
  · exact pairwise_map.mp htiles.pairwise
  · obtain ⟨n, hcut, -⟩ := h.controller.atCut
    have hrange := @cuts_range (tooLarge env s.ledger.l2Blocks) _ _ hmax hpos n
    rw [cutsAt] at hcut
    rw [hcut] at hrange
    exact fun sub hsub => hrange (span sub) (mem_map_of_mem hsub)
  · intro sub hsub
    obtain ⟨i, hi⟩ := mem_iff_getElem?.mp hsub
    have hle : env.tangerineHeight + i ≤ sub.range.stop :=
      htiles.index_le i (span sub) (hget i sub hi)
    have hindex := (h.numbered i sub hi).1
    omega

/-! ### Two services over the same blocks -/

/-- The indices and ranges of the submissions. -/
def committed (s : CommitmentService H) : List (Nat × CommitmentRange) :=
  s.da.map fun sub => (sub.commitment.index, sub.range)

/-- The submissions of one service are the first ones of another, if its ranges are. -/
theorem committed_prefix {s t : CommitmentService H} (hs : ServiceInv env s) (ht : ServiceInv env t)
    (h : s.da.map span <+: t.da.map span) : committed s <+: committed t := by
  rw [prefix_iff_getElem?] at h ⊢
  intro i hi
  have hlt : i < s.da.length := by simpa [committed] using hi
  have hspan := h i (by simpa using hlt)
  rw [List.getElem?_map, getElem_map] at hspan
  obtain ⟨sub, hsub, heq⟩ := Option.map_eq_some_iff.mp hspan
  have hindex := (hs.numbered i _ (List.getElem?_eq_getElem hlt)).1
  have hindex' := (ht.numbered i sub hsub).1
  have hrange : sub.range = s.da[i].range := by
    have hstart := congrArg Prod.fst heq
    have hstop := congrArg Prod.snd heq
    show (⟨sub.range.start, sub.range.stop⟩ : CommitmentRange) = ⟨_, _⟩
    rw [show sub.range.start = s.da[i].range.start from hstart,
      show sub.range.stop = s.da[i].range.stop from hstop]
  have hother : (committed t)[i]? = some (sub.commitment.index, sub.range) := by
    rw [committed, List.getElem?_map, hsub]
    rfl
  have hthis : (committed s)[i] = (s.da[i].commitment.index, s.da[i].range) := getElem_map _
  rw [hother, hthis, hindex', hrange, hindex]

/-- A service that has checked all blocks has the ranges of every service over the same blocks. -/
theorem ServiceInv.ranges_prefix {s t : CommitmentService H} (hs : ServiceInv env s)
    (ht : ServiceInv env t) (hblocks : t.ledger.l2Blocks = s.ledger.l2Blocks)
    (hsync : t.ledger.l2Blocks.length ≤ t.controller.lastL2Height) :
    s.da.map span <+: t.da.map span := by
  obtain ⟨n, hcut, hn⟩ := hs.controller.atCut
  obtain ⟨m, hcut', hm⟩ := ht.controller.atCut
  have hlast := hs.controller.last_le
  have hlast' := ht.controller.last_ge
  have hle : n ≤ m := by
    rw [hblocks] at hm hsync
    omega
  have hmono := @cuts_mono (tooLarge env s.ledger.l2Blocks) env.maxL2Blocks env.tangerineHeight _ _
    hle
  rw [hblocks] at hcut'
  rw [cutsAt] at hcut hcut'
  rw [hcut, hcut'] at hmono
  exact hmono

/-! ### Runs -/

variable {s : CommitmentService H}

/-- What an event keeps: the invariant, the blocks but a produced one, and the sizes if the
controller lets nothing through. -/
structure StepKeeps (env : CommitmentEnv H) (s : CommitmentService H) (e : ServiceEvent H)
    (s' : CommitmentService H) : Prop where
  inv : ServiceInv env s'
  blocks : ∀ b ∈ s'.ledger.l2Blocks, b ∈ s.ledger.l2Blocks ∨ e = .produce b
  size : Covered env s e → SizeInv env s → SizeInv env s'

/-- An event that is not due. -/
theorem ServiceInv.stepKeeps_refl (h : ServiceInv env s) (e : ServiceEvent H) :
    StepKeeps env s e s :=
  ⟨h, fun _ hb => .inl hb, fun _ hsize => hsize⟩

/-- A block that fits on its own opens a range. -/
theorem ServiceInv.opens (h : ServiceInv env s) (hmax : 0 < env.maxL2Blocks)
    (hfits : ∀ b ∈ s.ledger.l2Blocks, Fits env b.stateDiff)
    (hlt : s.controller.lastL2Height < s.ledger.l2Blocks.length) : Opens env s := by
  intro _
  rw [h.getStateDiff_next hmax hlt, diffAt, Nat.add_sub_cancel, List.getElem?_eq_getElem hlt]
  exact hfits _ (getElem_mem hlt)

theorem Admissible.proceeds {e : ServiceEvent H} (h : Admissible env s e) (hinv : ServiceInv env s)
    (hmax : 0 < env.maxL2Blocks) (hfits : ∀ b ∈ s.ledger.l2Blocks, Fits env b.stateDiff) :
    Proceeds env s e := by
  cases e with
  | check => exact fun hlt => hinv.opens hmax hfits hlt
  | restart found => exact h
  | produce _ | interrupted _ | store | clear => trivial

variable [DecidableEq H]

/-- The states of the runs whose events all meet a condition. -/
inductive ReachBy (env : CommitmentEnv H) (cond : CommitmentService H → ServiceEvent H → Prop) :
    CommitmentService H → Prop where
  | initial : ReachBy env cond (.initial env)
  | step {s s' : CommitmentService H} (e : ServiceEvent H) (hs : ReachBy env cond s)
      (hcond : cond s e) (h : stepService env s e = .ok s') : ReachBy env cond s'

/-- The states of the runs whose events are admissible. -/
abbrev Reach (env : CommitmentEnv H) : CommitmentService H → Prop := ReachBy env (Admissible env)

/-- Every event returns and keeps the invariant. -/
theorem ServiceInv.step (h : ServiceInv env s) (hmax : 0 < env.maxL2Blocks) {e : ServiceEvent H}
    (hproceeds : Proceeds env s e) :
    ∃ s', stepService env s e = .ok s' ∧ StepKeeps env s e s' := by
  cases e with
  | produce block =>
    refine ⟨_, rfl, h.produce hmax block, fun b hb => ?_, fun _ hsize => ?_⟩
    · rcases mem_append.mp hb with hb | hb
      · exact .inl hb
      · exact .inr (by rw [mem_singleton.mp hb])
    · exact SizeInv.append h hsize hmax rfl rfl rfl
  | interrupted stateDiff =>
    exact ⟨_, rfl, h.interrupted stateDiff, fun _ hb => .inl hb, fun _ hsize =>
      ⟨hsize.opened, hsize.submitted⟩⟩
  | check =>
    simp only [stepService]
    cases hphase : s.phase with
    | idle =>
      by_cases hlt : s.controller.lastL2Height < s.ledger.headL2BlockHeight
      · obtain ⟨s', hrun, hinv, hledger, -, -, hsize⟩ := h.check hmax hphase hlt (hproceeds hlt)
        refine ⟨s', by simp only [if_pos hlt, hrun], hinv, fun b hb => ?_, fun hcovered => ?_⟩
        · rw [hledger] at hb
          exact .inl hb
        · exact hsize (hcovered.2 rfl hlt)
      · exact ⟨s, by simp only [if_neg hlt]; rfl, h.stepKeeps_refl _⟩
    | sent commitment range => exact ⟨s, rfl, h.stepKeeps_refl _⟩
    | stored range => exact ⟨s, rfl, h.stepKeeps_refl _⟩
  | store =>
    simp only [stepService]
    cases hphase : s.phase with
    | idle => exact ⟨s, rfl, h.stepKeeps_refl _⟩
    | sent commitment range =>
      exact ⟨_, rfl, h.store hphase, fun _ hb => .inl hb, fun _ hsize =>
        ⟨hsize.opened, hsize.submitted⟩⟩
    | stored range => exact ⟨s, rfl, h.stepKeeps_refl _⟩
  | clear =>
    simp only [stepService]
    cases hphase : s.phase with
    | idle => exact ⟨s, rfl, h.stepKeeps_refl _⟩
    | sent commitment range => exact ⟨s, rfl, h.stepKeeps_refl _⟩
    | stored range =>
      exact ⟨_, rfl, h.clear hmax hphase, fun _ hb => .inl hb, fun _ hsize =>
        ⟨hsize.opened, hsize.submitted⟩⟩
  | restart found =>
    obtain ⟨s', hrun, hinv, hblocks, hda, hopened⟩ := h.restart hmax hproceeds
    refine ⟨s', hrun, hinv, fun b hb => ?_, fun _ hsize => ⟨fun hlt => ?_, ?_⟩⟩
    · rw [hblocks] at hb
      exact .inl hb
    · omega
    · rw [hblocks, hda]
      exact hsize.submitted

/-- An admissible run keeps the invariant, and all its blocks fit. -/
theorem Reach.inv (h : Reach env s) (hmax : 0 < env.maxL2Blocks) :
    ServiceInv env s ∧ ∀ b ∈ s.ledger.l2Blocks, Fits env b.stateDiff := by
  induction h with
  | initial =>
    exact ⟨serviceInv_initial, fun b hb =>
      absurd hb (by simp [CommitmentService.initial, SequencerLedger.empty])⟩
  | step e hs hadm hstep ih =>
    obtain ⟨hinv, hfits⟩ := ih
    obtain ⟨s', hrun, hkeeps⟩ := hinv.step hmax (hadm.proceeds hinv hmax hfits)
    obtain rfl := ok_unique hstep hrun
    refine ⟨hkeeps.inv, fun b hb => ?_⟩
    rcases hkeeps.blocks b hb with hb | rfl
    · exact hfits b hb
    · exact hadm

/-- A run whose conditions are met keeps the invariant and the sizes. -/
theorem ReachBy.inv (h : ReachBy env (Covered env) s) (hmax : 0 < env.maxL2Blocks) :
    ServiceInv env s ∧ SizeInv env s := by
  induction h with
  | initial =>
    refine ⟨serviceInv_initial, fun hlt => ?_, fun sub hsub => absurd hsub (by simp
      [CommitmentService.initial])⟩
    have hlt' : env.tangerineHeight < env.tangerineHeight - 1 := hlt
    omega
  | step e hs hcovered hstep ih =>
    obtain ⟨hinv, hsize⟩ := ih
    obtain ⟨s', hrun, hkeeps⟩ := hinv.step hmax hcovered.1
    obtain rfl := ok_unique hstep hrun
    exact ⟨hkeeps.inv, hkeeps.size hcovered hsize⟩

/-- The commitments tile the chain, if the blocks that open a range fit on their own and the
controller lets no diff through that is above the limit. The service never fails. -/
theorem commitments_tile (hmax : 1 ≤ env.maxL2Blocks) {s : CommitmentService H}
    (h : ReachBy env (Covered env) s) :
    Tiling env s ∧ ∀ e, Proceeds env s e → ∃ s', stepService env s e = .ok s' := by
  obtain ⟨hinv, hsize⟩ := h.inv hmax
  refine ⟨hinv.tiling hsize hmax, fun e hproceeds => ?_⟩
  obtain ⟨s', hrun, -⟩ := hinv.step hmax hproceeds
  exact ⟨s', hrun⟩

theorem stepService_check (hidle : s.phase = .idle) : stepService env s .check =
      if s.controller.lastL2Height < s.ledger.l2Blocks.length then checkNextHeight env s
      else .ok s := by
  simp only [stepService, hidle]
  rfl

/-- Without a commitment there is nothing to write. -/
theorem stepService_writes (hidle : s.phase = .idle) :
    stepService env s .store = .ok s ∧ stepService env s .clear = .ok s := by
  simp only [stepService, hidle]
  exact ⟨rfl, rfl⟩

/-- Runs of events that always meet the condition reach their states. -/
theorem ReachBy.run {cond : CommitmentService H → ServiceEvent H → Prop} {t : CommitmentService H}
    (hs : ReachBy env cond s) {events : List (ServiceEvent H)} (hcond : ∀ e ∈ events, ∀ m, cond m e)
    (h : runService env s events = .ok t) : ReachBy env cond t := by
  induction events generalizing s with
  | nil =>
    obtain rfl : s = t := Except.ok.inj h
    exact hs
  | cons e rest ih =>
    rw [runService, foldlM_cons, bind_eq_ok] at h
    obtain ⟨m, hstep, hrest⟩ := h
    exact ih (.step e hs (hcond e (by simp) s) hstep) (fun e he => hcond e (by simp [he])) hrest

/-! ### Samples -/

/-- A block that sets one key. -/
def valueBlock (n : UInt8) (value : Bytes) : LedgerBlock Nat := ⟨n.toNat, [([n], some value)]⟩

/-- A block that changes one key. -/
abbrev sampleLedgerBlock (n : UInt8) : LedgerBlock Nat := valueBlock n [n]

/-- No compression. -/
def plainEnv (maxL2Blocks : Nat) : CommitmentEnv Nat where
  merkleRoot := carryRoot fun a b => 10 * a + b
  merkleRoot_eq_none := carryRoot_eq_none
  compressBlob := id
  maxL2Blocks := maxL2Blocks
  tangerineHeight := 1
  tangerineHeight_pos := Nat.one_pos

/-- Two blocks to a commitment. -/
abbrev sampleEnv : CommitmentEnv Nat := plainEnv 2

theorem length_valueBlock (n : UInt8) (value : Bytes) :
    (borshStateDiff (mergeStateDiffs [] (valueBlock n value).stateDiff)).length =
      14 + value.length := by
  simp [borshStateDiff, borshBytes, mergeStateDiffs, insertEntry, valueBlock]
  omega

theorem sampleBlock_fits (m : Nat) (n : UInt8) :
    Fits (plainEnv m) (sampleLedgerBlock n).stateDiff := by
  show (borshStateDiff _).length ≤ maxTxBodySize
  rw [length_valueBlock]
  exact Nat.le_of_ble_eq_true rfl

/-- The restart of a service, with all that the DA layer has. -/
def restartWithDa (env : CommitmentEnv Nat) (s : CommitmentService Nat) :
    Outcome Empty (CommitmentService Nat) :=
  stepService env s (.restart (some (s.da.map Submission.commitment)))

theorem daAnswers_all (s : CommitmentService Nat) :
    DaAnswers s (some (s.da.map Submission.commitment)) := by
  refine ⟨_, rfl, fun c hc => ?_, fun sub hsub _ => mem_map_of_mem hsub⟩
  obtain ⟨sub, hsub, rfl⟩ := mem_map.mp hc
  exact ⟨sub, hsub, rfl⟩

/-! ### A block that does not fit -/

/-- The first block exceeds the threshold alone. -/
theorem oversized_check (hfirst : env.tangerineHeight = 1) {block : LedgerBlock H}
    (hover : exceedsThreshold env (mergeStateDiffs [] block.stateDiff) = true) :
    ∃ s, runService env (.initial env) [.produce block] = .ok s ∧
      (∃ c, shouldCommit env s.ledger s.controller 1 = .ok (c, some (1, ⟨1, 0⟩))) ∧
      stepService env s .check = Outcome.panic "Failed to submit commitment" := by
  have hnew : CommitmentController.new env (.empty : SequencerLedger H) = ⟨1, 1, 0, []⟩ := by
    show (⟨1, env.tangerineHeight, env.tangerineHeight - 1, []⟩ : CommitmentController) = _
    rw [hfirst]
  generalize hs : (⟨⟨[block], Table.empty.put 1 block.stateDiff, Table.empty⟩,
    .new env .empty, .idle,
    []⟩ : CommitmentService H) = s
  have hrun : runService env (.initial env) [.produce block] = .ok s := by
    rw [← hs]
    rfl
  have hcontroller : s.controller = ⟨1, 1, 0, []⟩ := by rw [← hs, ← hnew]
  have hdecision : shouldCommit env s.ledger ⟨1, 1, 0, []⟩ (0 + 1) =
      .ok (⟨2, 1, 1, block.stateDiff⟩, some (1, ⟨1, 0⟩)) := by
    have hdiff : s.ledger.getStateDiff (0 + 1) = block.stateDiff := by
      rw [← hs]
      show ((Table.empty.put 1 block.stateDiff).get 1).getD [] = _
      rw [Table.get_put_self]
      rfl
    have heq := @shouldCommit_eq _ env ⟨1, 1, 0, []⟩ s.ledger (Nat.le_refl 1) _ hdiff
    rw [if_pos hover] at heq
    exact heq
  refine ⟨s, hrun, ⟨⟨2, 1, 1, block.stateDiff⟩, ?_⟩, ?_⟩
  · rw [hcontroller]
    exact hdecision
  · have hidle : s.phase = .idle := by rw [← hs]
    have hlt : s.controller.lastL2Height < s.ledger.l2Blocks.length := by
      rw [hcontroller, ← hs]
      exact Nat.one_pos
    have hroot := (env.merkleRoot_eq_none []).mpr rfl
    rw [stepService_check hidle, if_pos hlt, checkNextHeight, hcontroller, hdecision]
    show (getCommitment env 1 ⟨1, 0⟩ []).expectOk _ >>= _ = _
    rw [getCommitment, hroot]
    rfl

/-- Without compression, only the size of the diff counts. -/
theorem exceedsThreshold_plain {m : Nat} {diff : StateDiff} :
    exceedsThreshold (plainEnv m) diff = true ↔
      safeMaxUncompressedTxbodySize < (borshStateDiff diff).length := by
  have hsafe : safeMaxUncompressedTxbodySize = maxTxBodySize * 2 := rfl
  show (decide (_ < (borshStateDiff _).length) && decide (_ < (borshStateDiff _).length)) = true ↔ _
  rw [Bool.and_eq_true, decide_eq_true_eq, decide_eq_true_eq]
  omega

/-- A value of 800000 bytes. -/
def oversizedValue : Bytes := List.replicate 800000 0

theorem length_oversizedValue : safeMaxUncompressedTxbodySize ≤ oversizedValue.length := by
  rw [oversizedValue, length_replicate]
  decide

/-- A block that sets a key to this value. -/
abbrev oversizedBlock : LedgerBlock Nat := valueBlock 1 oversizedValue

/-- A first block that does not fit: the range of the commitment is empty, and the service
stops. -/
theorem first_block_too_large :
    ∃ s, runService (plainEnv 10) (.initial (plainEnv 10)) [.produce oversizedBlock] = .ok s ∧
      (∃ c, shouldCommit (plainEnv 10) s.ledger s.controller 1 = .ok (c, some (1, ⟨1, 0⟩))) ∧
      stepService (plainEnv 10) s .check = Outcome.panic "Failed to submit commitment" := by
  refine oversized_check rfl (exceedsThreshold_plain.mpr ?_)
  have hlarge := length_oversizedValue
  rw [length_valueBlock]
  omega

/-! ### A block that does not fit, inside of a range

Block 2 is too large for the range of block 1, and opens the next range. Block 3 is too large for
that one, so that block 2 is a range of its own. -/

section
variable {s s' : CommitmentService Nat} {value : Bytes}

/-- The size of the merged diff of two blocks that set different keys. -/
theorem length_two_values {m n : UInt8} (hne : m ≠ n) (v w : Bytes) :
    (borshStateDiff
      (mergeStateDiffs (valueBlock m v).stateDiff (valueBlock n w).stateDiff)).length =
      24 + v.length + w.length := by
  simp [borshStateDiff, borshBytes, mergeStateDiffs, insertEntry, valueBlock, hne]
  omega

/-- Block 1 is produced. -/
def firstProduced : CommitmentService Nat :=
  ⟨⟨[sampleLedgerBlock 1], Table.empty.put 1 (sampleLedgerBlock 1).stateDiff, Table.empty⟩,
    ⟨1, 1, 0, []⟩, .idle, []⟩

theorem firstProduced_check : stepService (plainEnv 10) firstProduced .check =
    .ok { firstProduced with controller := ⟨1, 1, 1, (sampleLedgerBlock 1).stateDiff⟩ } := rfl

/-- Block 1 waits in the open range, and block 2 is produced. -/
def openService (value : Bytes) : CommitmentService Nat where
  ledger :=
    { l2Blocks := [sampleLedgerBlock 1, valueBlock 2 value]
      stateDiffs := (Table.empty.put 1 (sampleLedgerBlock 1).stateDiff).put 2
        (valueBlock 2 value).stateDiff
      commitments := Table.empty }
  controller := ⟨1, 1, 1, (sampleLedgerBlock 1).stateDiff⟩
  phase := .idle
  da := []

/-- Block 1 is committed, and block 2 opens the next range. -/
def firstSent (value : Bytes) : CommitmentService Nat :=
  { openService value with
    controller := ⟨2, 2, 2, (valueBlock 2 value).stateDiff⟩
    phase := .sent ⟨1, 1, 1⟩ ⟨1, 1⟩
    da := [⟨⟨1, 1, 1⟩, ⟨1, 1⟩⟩] }

/-- The commitment is written, and block 3 is produced. -/
def cutService (value : Bytes) : CommitmentService Nat where
  ledger :=
    { l2Blocks := [sampleLedgerBlock 1, valueBlock 2 value, sampleLedgerBlock 3]
      stateDiffs := ((openService value).ledger.stateDiffs.delete 1).put 3
        (sampleLedgerBlock 3).stateDiff
      commitments := Table.empty.put 1 ⟨1, 1, 1⟩ }
  controller := ⟨2, 2, 2, (valueBlock 2 value).stateDiff⟩
  phase := .idle
  da := [⟨⟨1, 1, 1⟩, ⟨1, 1⟩⟩]

/-- Block 2 is committed. -/
def secondSent (value : Bytes) : CommitmentService Nat :=
  { cutService value with
    controller := ⟨3, 3, 3, (sampleLedgerBlock 3).stateDiff⟩
    phase := .sent ⟨2, 2, 2⟩ ⟨2, 2⟩
    da := [⟨⟨1, 1, 1⟩, ⟨1, 1⟩⟩, ⟨⟨2, 2, 2⟩, ⟨2, 2⟩⟩] }

/-- A check that cuts the range before the block. -/
theorem stepService_cut (hidle : s.phase = .idle)
    (hlt : s.controller.lastL2Height < s.ledger.l2Blocks.length)
    (hstart : s.controller.nextCommitmentStartHeight ≤ s.controller.lastL2Height + 1)
    (hover : exceedsThreshold (plainEnv 10) (nextDiff s) = true) {range : CommitmentRange}
    (hrange : range = ⟨s.controller.nextCommitmentStartHeight, s.controller.lastL2Height⟩)
    {commitment : Commitment Nat}
    (hcommitment : getCommitment (plainEnv 10) s.controller.nextCommitmentIndex range
      (s.ledger.getL2BlockHashes range) = .ok commitment) :
    stepService (plainEnv 10) s .check = .ok { s with
      controller := ⟨s.controller.nextCommitmentIndex + 1, s.controller.lastL2Height + 1,
        s.controller.lastL2Height + 1, s.ledger.getStateDiff (s.controller.lastL2Height + 1)⟩
      phase := .sent commitment range
      da := s.da ++ [⟨commitment, range⟩] } := by
  rw [nextDiff] at hover
  rw [stepService_check hidle, if_pos hlt, checkNextHeight, shouldCommit_eq hstart rfl,
    if_pos hover,
    ← hrange]
  dsimp only [bind, Except.bind]
  rw [hcommitment]
  rfl

theorem openService_over (hlarge : safeMaxUncompressedTxbodySize ≤ value.length) :
    exceedsThreshold (plainEnv 10) (nextDiff (openService value)) = true := by
  have hlength : (borshStateDiff (nextDiff (openService value))).length = 24 + 1 + value.length :=
    @length_two_values 1 2 (by decide) [1] value
  rw [exceedsThreshold_plain, hlength]
  omega

theorem cutService_over (hlarge : safeMaxUncompressedTxbodySize ≤ value.length) :
    exceedsThreshold (plainEnv 10) (nextDiff (cutService value)) = true := by
  have hlength : (borshStateDiff (nextDiff (cutService value))).length = 24 + value.length + 1 :=
    @length_two_values 2 3 (by decide) value [3]
  rw [exceedsThreshold_plain, hlength]
  omega

theorem openService_check (hlarge : safeMaxUncompressedTxbodySize ≤ value.length) :
    stepService (plainEnv 10) (openService value) .check = .ok (firstSent value) :=
  stepService_cut rfl (Nat.lt_succ_self _) (Nat.le_succ _) (openService_over hlarge) rfl rfl

theorem cutService_check (hlarge : safeMaxUncompressedTxbodySize ≤ value.length) :
    stepService (plainEnv 10) (cutService value) .check = .ok (secondSent value) :=
  stepService_cut rfl (Nat.lt_succ_self _) (Nat.le_succ _) (cutService_over hlarge) rfl rfl

/-- The condition on a check that cuts. -/
theorem covered_of_cut
    (hopen : s.controller.nextCommitmentStartHeight < s.controller.lastL2Height + 1)
    (hover : exceedsThreshold (plainEnv 10) (nextDiff s) = true) :
    Covered (plainEnv 10) s .check := by
  refine ⟨fun _ hfirst => ?_, fun _ _ hshort => ?_⟩
  · omega
  · have hlarge := exceedsThreshold_plain.mp hover
    omega

/-- The run so far meets the conditions. -/
theorem secondSent_reach (hlarge : safeMaxUncompressedTxbodySize ≤ value.length) :
    ReachBy (plainEnv 10) (Covered (plainEnv 10)) (secondSent value) := by
  have hproduce : ∀ block, ∀ e ∈ [ServiceEvent.produce block], ∀ m, Covered (plainEnv 10) m e := by
    simp [Covered, Proceeds]
  have hwrites : ∀ e ∈ [ServiceEvent.store, .clear, .produce (sampleLedgerBlock 3)],
      ∀ m, Covered (plainEnv 10) m e := by
    simp [Covered, Proceeds]
  have hproduced : ReachBy (plainEnv 10) (Covered (plainEnv 10)) firstProduced :=
    .run .initial (hproduce (sampleLedgerBlock 1)) rfl
  have hfits : Covered (plainEnv 10) firstProduced .check :=
    ⟨fun _ _ => sampleBlock_fits 10 1, fun _ _ _ => sampleBlock_fits 10 1⟩
  have hopen : ReachBy (plainEnv 10) (Covered (plainEnv 10)) (openService value) :=
    .run (.step .check hproduced hfits firstProduced_check) (hproduce (valueBlock 2 value)) rfl
  have hfirst : ReachBy (plainEnv 10) (Covered (plainEnv 10)) (firstSent value) :=
    .step .check hopen (covered_of_cut (Nat.lt_succ_self _) (openService_over hlarge))
      (openService_check hlarge)
  have hcut : ReachBy (plainEnv 10) (Covered (plainEnv 10)) (cutService value) :=
    .run hfirst hwrites rfl
  exact .step .check hcut (covered_of_cut (Nat.lt_succ_self _) (cutService_over hlarge))
    (cutService_check hlarge)

theorem secondSent_run (hlarge : safeMaxUncompressedTxbodySize ≤ value.length) :
    runService (plainEnv 10) (.initial (plainEnv 10)) [.produce (sampleLedgerBlock 1), .check,
      .produce (valueBlock 2 value), .check, .store, .clear, .produce (sampleLedgerBlock 3),
      .check] = .ok (secondSent value) := by
  have hfirst : runService (plainEnv 10) (.initial (plainEnv 10)) [.produce (sampleLedgerBlock 1),
      .check, .produce (valueBlock 2 value)] = .ok (openService value) := rfl
  have hsecond : runService (plainEnv 10) (firstSent value) [.store, .clear,
      .produce (sampleLedgerBlock 3)] = .ok (cutService value) := rfl
  rw [runService] at hfirst hsecond
  show runService _ _ ([.produce _, .check, .produce _] ++ .check ::
    ([.store, .clear, .produce (sampleLedgerBlock 3)] ++ [.check])) = _
  rw [runService, foldlM_append, hfirst]
  show foldlM _ (openService value) _ = _
  rw [foldlM_cons, openService_check hlarge]
  show foldlM _ (firstSent value) _ = _
  rw [foldlM_append, hsecond]
  show foldlM _ (cutService value) _ = _
  rw [foldlM_cons, cutService_check hlarge]
  rfl

end

/-- A block of 800000 bytes inside of a range, and a restart before the write of its commitment. -/
theorem oversized_block_tiles : ∃ s t,
    runService (plainEnv 10) (.initial (plainEnv 10)) [.produce (sampleLedgerBlock 1), .check,
      .produce (valueBlock 2 oversizedValue), .check, .store, .clear,
      .produce (sampleLedgerBlock 3), .check] = .ok s ∧
    restartWithDa (plainEnv 10) s = .ok t ∧ committed t = [(1, ⟨1, 1⟩), (2, ⟨2, 2⟩)] ∧
    Tiling (plainEnv 10) t := by
  have hlarge := length_oversizedValue
  have hreach := secondSent_reach hlarge
  obtain ⟨hinv, -⟩ := hreach.inv (by decide)
  obtain ⟨t, hrestart, -, -, hda, -⟩ := hinv.restart (by decide) (daAnswers_all _)
  have hcommitted : committed t = [(1, ⟨1, 1⟩), (2, ⟨2, 2⟩)] := by
    rw [committed, hda]
    rfl
  have hcovered : Covered (plainEnv 10) (secondSent oversizedValue) (.restart _) :=
    ⟨daAnswers_all _, by simp⟩
  exact ⟨secondSent oversizedValue, t, secondSent_run hlarge, hrestart, hcommitted,
    (commitments_tile (by decide) (.step _ hreach hcovered hrestart)).1⟩

/-! ### The run without restarts -/

/-- One block of the run without restarts. -/
theorem ServiceInv.oneBlock (h : ServiceInv env s) (hmax : 0 < env.maxL2Blocks)
    (hidle : s.phase = .idle) (hsync : s.ledger.l2Blocks.length ≤ s.controller.lastL2Height)
    {block : LedgerBlock H} (hfits : ∀ b ∈ s.ledger.l2Blocks ++ [block], Fits env b.stateDiff) :
    ∃ s', runService env s [.produce block, .check, .store, .clear] = .ok s' ∧ ServiceInv env s' ∧
      s'.phase = .idle ∧ s'.ledger.l2Blocks = s.ledger.l2Blocks ++ [block] ∧
      s'.ledger.l2Blocks.length ≤ s'.controller.lastL2Height := by
  have hproduced := h.produce hmax block
  -- The state after the production.
  generalize hm : ({ s with ledger := { s.ledger.setStateDiff (s.ledger.headL2BlockHeight + 1)
    block.stateDiff with l2Blocks := s.ledger.l2Blocks ++ [block] } } : CommitmentService H) = m
    at hproduced
  have hproduce : stepService env s (.produce block) = .ok m := by rw [← hm]; rfl
  have hblocks : m.ledger.l2Blocks = s.ledger.l2Blocks ++ [block] := by rw [← hm]
  have hmidle : m.phase = .idle := by rw [← hm]; exact hidle
  have hmlast : m.controller.lastL2Height = s.controller.lastL2Height := by rw [← hm]
  have hlength : m.ledger.l2Blocks.length = s.ledger.l2Blocks.length + 1 := by
    rw [hblocks, length_append]
    rfl
  simp only [runService, foldlM_cons, foldlM_nil, hproduce, bind, Except.bind]
  by_cases hlt : m.controller.lastL2Height < m.ledger.l2Blocks.length
  · have hopens := hproduced.opens hmax (hblocks ▸ hfits) hlt
    obtain ⟨t, hrun, htinv, hledger, hlast, hphase, -⟩ := hproduced.check hmax hmidle hlt hopens
    have hcheck : stepService env m .check = .ok t := by
      rw [stepService_check hmidle, if_pos hlt, hrun]
    simp only [hcheck]
    rcases hphase with hidle' | ⟨commitment, range, hsent⟩
    · obtain ⟨hstore, hclear⟩ := @stepService_writes _ env _ _ hidle'
      simp only [hstore, hclear]
      exact ⟨t, rfl, htinv, hidle', by rw [hledger, hblocks], by rw [hledger]; omega⟩
    · -- The commitment is written, and the state diffs are removed.
      have hstored := htinv.store hsent
      have hcleared := hstored.clear hmax rfl
      have hstore : stepService env t .store = .ok { t with
          ledger := t.ledger.putCommitmentByIndex commitment
          phase := .stored range } := by
        simp only [stepService, hsent]
        rfl
      simp only [hstore]
      refine ⟨_, rfl, hcleared, rfl, ?_, ?_⟩
      · show t.ledger.l2Blocks = _
        rw [hledger, hblocks]
      · show t.ledger.l2Blocks.length ≤ t.controller.lastL2Height
        rw [hledger]
        omega
  · have hcheck : stepService env m .check = .ok m := by
      rw [stepService_check hmidle, if_neg hlt]
    obtain ⟨hstore, hclear⟩ := @stepService_writes _ env _ _ hmidle
    simp only [hcheck, hstore, hclear]
    exact ⟨m, rfl, hproduced, hmidle, hblocks, by omega⟩

theorem withoutRestarts_ok (hmax : 0 < env.maxL2Blocks) (blocks : List (LedgerBlock H))
    (hfits : ∀ b ∈ blocks, Fits env b.stateDiff) :
    ∃ t, withoutRestarts env blocks = .ok t ∧ ServiceInv env t ∧ t.phase = .idle ∧
      t.ledger.l2Blocks = blocks ∧ t.ledger.l2Blocks.length ≤ t.controller.lastL2Height := by
  induction blocks using List.reverseRecOn with
  | nil => exact ⟨.initial env, rfl, serviceInv_initial, rfl, rfl, Nat.zero_le _⟩
  | append_singleton blocks block ih =>
    obtain ⟨m, hrun, hinv, hidle, hblocks, hsync⟩ :=
      ih fun b hb => hfits b (mem_append_left _ hb)
    obtain ⟨t, hblock, htinv, htidle, htblocks, htsync⟩ :=
      hinv.oneBlock hmax hidle hsync (hblocks.symm ▸ hfits)
    refine ⟨t, ?_, htinv, htidle, by rw [htblocks, hblocks], htsync⟩
    rw [withoutRestarts, runService] at hrun
    rw [withoutRestarts, flatMap_append, runService, foldlM_append, hrun]
    exact hblock

/-- Restarts do not move the boundaries: what a run with restarts has committed is the start of
what the run without restarts commits for the same blocks, and all of it once the service has
checked the last block. The state diffs that the controller is going to read are all stored. -/
theorem restarts_keep_boundaries (hmax : 2 ≤ env.maxL2Blocks) {s : CommitmentService H}
    (h : Reach env s) :
    (∃ t, withoutRestarts env s.ledger.l2Blocks = .ok t ∧ committed s <+: committed t ∧
      (s.ledger.headL2BlockHeight ≤ s.controller.lastL2Height → committed s = committed t)) ∧
    (∀ n, s.controller.lastL2Height < n → n ≤ s.ledger.headL2BlockHeight →
      s.ledger.stateDiffs.get n = some (diffAt s.ledger.l2Blocks n)) ∧
    ∀ e, Admissible env s e → ∃ s', stepService env s e = .ok s' := by
  have hpos : 0 < env.maxL2Blocks := by omega
  obtain ⟨hinv, hfits⟩ := h.inv hpos
  obtain ⟨t, hrun, htinv, -, hblocks, hsync⟩ := withoutRestarts_ok hpos _ hfits
  have hstarts := committed_prefix hinv htinv (hinv.ranges_prefix htinv hblocks hsync)
  refine ⟨⟨t, hrun, hstarts, fun hchecked => ?_⟩, fun n hlt hle => ?_, fun e hadm => ?_⟩
  · have hback := committed_prefix htinv hinv (htinv.ranges_prefix hinv hblocks.symm hchecked)
    exact hstarts.eq_of_length_le hback.length_le
  · have hstart := (hinv.controller.start_bounds hpos).2
    exact hinv.diffs n (by omega) hle
  · obtain ⟨s', hrun, -⟩ := hinv.step hpos (hadm.proceeds hinv hpos hfits)
    exact ⟨s', hrun⟩

/-- A restart between the first and the second block of a range. -/
theorem restart_inside_range : ∃ s m t, runService sampleEnv (.initial sampleEnv)
      [.produce (sampleLedgerBlock 1), .produce (sampleLedgerBlock 2), .check] = .ok s ∧
    restartWithDa sampleEnv s = .ok m ∧ runService sampleEnv m [.check, .check] = .ok t ∧
    committed t = [(1, ⟨1, 2⟩)] ∧
    ∃ u, withoutRestarts sampleEnv t.ledger.l2Blocks = .ok u ∧ committed t <+: committed u := by
  have hrun : (((runService sampleEnv (.initial sampleEnv)
      [.produce (sampleLedgerBlock 1), .produce (sampleLedgerBlock 2), .check]).bind
        (restartWithDa sampleEnv)).bind
        fun m => runService sampleEnv m [.check, .check]).map committed = .ok [(1, ⟨1, 2⟩)] := by
    decide +kernel
  obtain ⟨t, ht, hcommitted⟩ := map_eq_ok.mp hrun
  obtain ⟨m, hm, hchecks⟩ := bind_eq_ok.mp ht
  obtain ⟨s, hs, hrestart⟩ := bind_eq_ok.mp hm
  have hreach : Reach sampleEnv s := by
    refine ReachBy.run .initial ?_ hs
    intro e he m
    simp only [mem_cons, not_mem_nil, or_false] at he
    rcases he with rfl | rfl | rfl
    · exact sampleBlock_fits 2 1
    · exact sampleBlock_fits 2 2
    · exact trivial
  have hreach' : Reach sampleEnv t := by
    refine ReachBy.run (.step (.restart _) hreach (daAnswers_all s) hrestart) ?_ hchecks
    intro e he m
    simp only [mem_cons, not_mem_nil, or_false, or_self] at he
    rw [he]
    exact trivial
  obtain ⟨⟨u, hu, hstarts, -⟩, -⟩ := restarts_keep_boundaries (Nat.le_refl 2) hreach'
  exact ⟨s, m, t, hs, hrestart, hchecks, hcommitted, u, hu, hstarts⟩

end Citrea.Proofs.Sequencer
