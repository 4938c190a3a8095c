import Citrea.Lib.GreedyCuts
import Citrea.Spec.Sequencer.Commitment

/-!
# `Citrea.Proofs.Sequencer.Commitment`: the boundaries of the commitments

The controller cuts the chain of L2 blocks into ranges. `cuts` of `Lib.GreedyCuts` says where the
cuts are, given which ranges are too large (`tooLarge`), and `ServiceInv` says where the service
is: its submissions are the ranges of `cuts` at the last height that it has checked.

After a restart the controller has forgotten the accumulated diff, and it starts again at the open
range. If the open range starts with a block that was left out of the range before it, then the
service is one height behind the cuts (the second case of `AtCut`). The next check catches up, if
that block is not too large on its own. A block of any size can follow in a range that is open.
-/

namespace Citrea.Proofs.Sequencer

open List Lib Spec.Sequencer

variable {H : Type} {blocks : List (LedgerBlock H)} {start stop : Nat} {more : List (LedgerBlock H)}

/-! ### Merged state diffs -/

/-- The diff with one entry for each key. -/
def collected (diff : StateDiff) : StateDiff := diff.foldl insertEntry []

theorem mergeStateDiffs_eq (a b : StateDiff) : mergeStateDiffs a b = collected (a ++ b) := by
  rw [collected, foldl_append, mergeStateDiffs]

theorem keys_nodup_insertEntry {diff : StateDiff} (h : (diff.map Prod.fst).Nodup)
    (e : Bytes × Option Bytes) : ((insertEntry diff e).map Prod.fst).Nodup := by
  rw [insertEntry]
  split
  · -- A value is replaced, and the keys stay.
    have hkeys : (diff.map fun x => if x.1 == e.1 then e else x).map Prod.fst =
        diff.map Prod.fst := by
      rw [map_map]
      refine map_congr_left fun x _ => ?_
      by_cases hx : x.1 = e.1
      all_goals simp [hx]
    rw [hkeys]
    exact h
  · next hnew =>
    rw [map_append, nodup_append]
    refine ⟨h, by simp, ?_⟩
    intro a ha b hb hab
    obtain ⟨x, hx, rfl⟩ := mem_map.mp ha
    obtain rfl : b = e.1 := by simpa using hb
    refine hnew (any_eq_true.mpr ⟨x, hx, ?_⟩)
    simpa using hab

theorem keys_nodup_foldl (diff : StateDiff) {acc : StateDiff} (h : (acc.map Prod.fst).Nodup) :
    ((diff.foldl insertEntry acc).map Prod.fst).Nodup := by
  induction diff generalizing acc with
  | nil => exact h
  | cons e rest ih => exact ih (keys_nodup_insertEntry h e)

theorem keys_nodup_collected (diff : StateDiff) : ((collected diff).map Prod.fst).Nodup :=
  keys_nodup_foldl diff (by simp)

/-- Entries with new keys are put at the end. -/
theorem foldl_insertEntry_of_nodup (diff : StateDiff) :
    ∀ acc : StateDiff, ((acc ++ diff).map Prod.fst).Nodup →
      diff.foldl insertEntry acc = acc ++ diff := by
  induction diff with
  | nil => intro acc _; simp
  | cons e rest ih =>
    intro acc h
    have hnew : acc.any (fun x => x.1 == e.1) = false := by
      rw [any_eq_false]
      intro x hx heq
      rw [map_append, nodup_append] at h
      exact h.2.2 x.1 (mem_map_of_mem hx) e.1 (by simp) (by simpa using heq)
    have hinsert : insertEntry acc e = acc ++ [e] := by
      rw [insertEntry, hnew, if_neg (by simp)]
    rw [foldl_cons, hinsert, ih (acc ++ [e]) (by simpa using h)]
    simp

theorem collected_collected (diff : StateDiff) : collected (collected diff) = collected diff := by
  have hfold := foldl_insertEntry_of_nodup (collected diff) [] (keys_nodup_collected diff)
  simpa [collected] using hfold

/-- Earlier entries may be collected first. -/
theorem collected_append (a b : StateDiff) : collected (collected a ++ b) = collected (a ++ b) := by
  have hcollected : (collected a).foldl insertEntry [] = a.foldl insertEntry [] :=
    collected_collected a
  show (collected a ++ b).foldl insertEntry [] = (a ++ b).foldl insertEntry []
  rw [foldl_append, foldl_append, hcollected]

/-- The state diff of the block at a height. -/
def diffAt (blocks : List (LedgerBlock H)) (l2Height : Nat) : StateDiff :=
  (blocks[l2Height - 1]?.map LedgerBlock.stateDiff).getD []

/-- The merged state diff of a range of blocks. -/
def rangeDiff (blocks : List (LedgerBlock H)) (start stop : Nat) : StateDiff :=
  collected (((blocks.drop (start - 1)).take (stop - (start - 1))).flatMap LedgerBlock.stateDiff)

theorem rangeDiff_of_lt (h : stop < start) : rangeDiff blocks start stop = [] := by
  rw [rangeDiff, Nat.sub_eq_zero_of_le (by omega)]
  rfl

/-- One more block. -/
theorem rangeDiff_succ (hle : start ≤ stop + 1) : rangeDiff blocks start (stop + 1) =
      collected (rangeDiff blocks start stop ++ diffAt blocks (stop + 1)) := by
  have htake : stop + 1 - (start - 1) = (stop - (start - 1)) + 1 := by omega
  have hindex : start - 1 + (stop - (start - 1)) = stop := by omega
  rw [rangeDiff, rangeDiff, collected_append, htake, take_add_one, List.getElem?_drop, hindex,
    flatMap_append, diffAt, Nat.add_sub_cancel]
  cases blocks[stop]? with
  | none => rfl
  | some b => simp

/-- Later blocks do not matter. -/
theorem rangeDiff_append (hstop : stop ≤ blocks.length) :
    rangeDiff (blocks ++ more) start stop = rangeDiff blocks start stop := by
  by_cases hlt : stop < start
  · rw [rangeDiff_of_lt hlt, rangeDiff_of_lt hlt]
  · rw [rangeDiff, rangeDiff, drop_append_of_le_length (by omega),
      take_append_of_le_length (by rw [length_drop]; omega)]

theorem diffAt_append {l2Height : Nat} (hpos : 0 < l2Height) (hle : l2Height ≤ blocks.length) :
    diffAt (blocks ++ more) l2Height = diffAt blocks l2Height := by
  rw [diffAt, diffAt, List.getElem?_append_left (by omega)]

/-! ### Which ranges are too large -/

/-- The compressed state diff is within the limit. -/
def WithinLimit (env : CommitmentEnv H) (diff : StateDiff) : Prop :=
  (env.compressBlob (borshStateDiff diff)).length ≤ maxTxBodySize

/-- The compressed state diff of a single block is within the limit. -/
def Fits (env : CommitmentEnv H) (stateDiff : StateDiff) : Prop :=
  (env.compressBlob (borshStateDiff (mergeStateDiffs [] stateDiff))).length ≤ maxTxBodySize

/-- The merged state diff of the range exceeds the threshold of the controller. -/
def tooLarge (env : CommitmentEnv H) (blocks : List (LedgerBlock H)) (start stop : Nat) : Bool :=
  exceedsThreshold env (rangeDiff blocks start stop)

/-- The controller compresses what its first check does not let through. -/
theorem exceedsThreshold_eq_false {env : CommitmentEnv H} {diff : StateDiff} :
    exceedsThreshold env diff = false ↔
      (borshStateDiff diff).length ≤ safeMaxUncompressedTxbodySize ∨ WithinLimit env diff := by
  simp only [exceedsThreshold, WithinLimit, Bool.and_eq_false_iff, decide_eq_false_iff_not,
    Nat.not_lt]

/-- A range of the one block at a height. -/
theorem rangeDiff_self (n : Nat) :
    rangeDiff blocks (n + 1) (n + 1) = mergeStateDiffs [] (diffAt blocks (n + 1)) := by
  rw [rangeDiff_succ (Nat.le_refl _), rangeDiff_of_lt (Nat.lt_succ_self _), mergeStateDiffs_eq]

theorem not_tooLarge_of_fits {env : CommitmentEnv H} {n : Nat}
    (h : Fits env (diffAt blocks (n + 1))) : tooLarge env blocks (n + 1) (n + 1) = false := by
  rw [tooLarge, exceedsThreshold_eq_false, rangeDiff_self]
  exact .inr h

/-! ### The controller -/

/-- The cuts after the block at a height. -/
def cutsAt (env : CommitmentEnv H) (blocks : List (LedgerBlock H)) (l2Height : Nat) : Cuts :=
  cuts (tooLarge env blocks) env.maxL2Blocks env.tangerineHeight l2Height

/-- The controller has the open range of the cuts after its last height, or it is about to read
the first block of that range again. -/
def AtCut (env : CommitmentEnv H) (blocks : List (LedgerBlock H)) (c : CommitmentController)
    (ranges : List (Nat × Nat)) (n : Nat) : Prop :=
  cutsAt env blocks n = ⟨c.nextCommitmentStartHeight, ranges⟩ ∧
    (n = c.lastL2Height ∨
      (n = c.lastL2Height + 1 ∧ c.nextCommitmentStartHeight = n ∧ n ≤ blocks.length))

/-- The state of the controller after the submission of `ranges`. -/
structure ControllerInv (env : CommitmentEnv H) (blocks : List (LedgerBlock H))
    (c : CommitmentController) (ranges : List (Nat × Nat)) : Prop where
  accumulated : collected c.stateDiff =
    rangeDiff blocks c.nextCommitmentStartHeight c.lastL2Height
  atCut : ∃ n, AtCut env blocks c ranges n
  last_ge : env.tangerineHeight ≤ c.lastL2Height + 1
  last_le : c.lastL2Height ≤ blocks.length ∨ c.lastL2Height + 1 = env.tangerineHeight

section
variable {env : CommitmentEnv H} {blocks : List (LedgerBlock H)} {c : CommitmentController}
  {ranges : List (Nat × Nat)} {ledger : SequencerLedger H}

variable (h : ControllerInv env blocks c ranges)
include h

theorem ControllerInv.openRange (hmax : 0 < env.maxL2Blocks) {n : Nat}
    (hn : AtCut env blocks c ranges n) :
    OpenRange env.maxL2Blocks env.tangerineHeight ⟨c.nextCommitmentStartHeight, ranges⟩ n := by
  have hge : env.tangerineHeight ≤ n + 1 := by
    have := h.last_ge
    rcases hn.2 with rfl | ⟨rfl, -⟩ <;> omega
  rw [← hn.1]
  exact cuts_open hmax env.tangerineHeight_pos hge

theorem ControllerInv.start_bounds (hmax : 0 < env.maxL2Blocks) :
    env.tangerineHeight ≤ c.nextCommitmentStartHeight ∧
      c.nextCommitmentStartHeight ≤ c.lastL2Height + 1 := by
  obtain ⟨n, hn⟩ := h.atCut
  have hopen := h.openRange hmax hn
  refine ⟨hopen.first_le, ?_⟩
  have hle : c.nextCommitmentStartHeight ≤ n + 1 := hopen.start_le
  rcases hn.2 with rfl | ⟨rfl, hstart, -⟩
  · exact hle
  · omega

theorem ControllerInv.tiles (hmax : 0 < env.maxL2Blocks) :
    Tiles env.tangerineHeight ranges c.nextCommitmentStartHeight := by
  obtain ⟨n, hn, -⟩ := h.atCut
  have htiles := @cuts_tiles (tooLarge env blocks) _ _ hmax env.tangerineHeight_pos n
  rw [cutsAt] at hn
  rw [hn] at htiles
  exact htiles

/-- The accumulated diff with the next block is the diff of the range with it. -/
theorem ControllerInv.merge_eq (hstart : c.nextCommitmentStartHeight ≤ c.lastL2Height + 1) :
    mergeStateDiffs c.stateDiff (diffAt blocks (c.lastL2Height + 1)) =
      rangeDiff blocks c.nextCommitmentStartHeight (c.lastL2Height + 1) := by
  rw [mergeStateDiffs_eq, ← collected_append, h.accumulated, rangeDiff_succ hstart]

omit h in
/-- What `should_commit` returns, by the two checks. -/
theorem shouldCommit_eq (hstart : c.nextCommitmentStartHeight ≤ c.lastL2Height + 1)
    {diff : StateDiff} (hdiff : ledger.getStateDiff (c.lastL2Height + 1) = diff) :
    shouldCommit env ledger c (c.lastL2Height + 1) =
      if exceedsThreshold env (mergeStateDiffs c.stateDiff diff) then
        .ok (⟨c.nextCommitmentIndex + 1, c.lastL2Height + 1, c.lastL2Height + 1, diff⟩,
          some (c.nextCommitmentIndex, ⟨c.nextCommitmentStartHeight, c.lastL2Height⟩))
      else if c.lastL2Height + 1 + 1 - c.nextCommitmentStartHeight < env.maxL2Blocks then
        .ok (⟨c.nextCommitmentIndex, c.nextCommitmentStartHeight, c.lastL2Height + 1,
          mergeStateDiffs c.stateDiff diff⟩, none) else
        .ok (⟨c.nextCommitmentIndex + 1, c.lastL2Height + 1 + 1, c.lastL2Height + 1, []⟩,
          some (c.nextCommitmentIndex, ⟨c.nextCommitmentStartHeight, c.lastL2Height + 1⟩)) := by
  have hcomm : 1 + (c.lastL2Height + 1) = c.lastL2Height + 1 + 1 := by omega
  rw [shouldCommit, checkStateDiffThreshold, hdiff]
  cases exceedsThreshold env (mergeStateDiffs c.stateDiff diff) with
  | true => simp [assert, bind, Except.bind, pure, Except.pure]
  | false =>
    simp only [assert, checkMaxL2Blocks, hcomm, if_pos hstart, bind, Except.bind,
      pure, Except.pure, if_true, Bool.false_eq_true, if_false]
    by_cases hlen : c.lastL2Height + 1 + 1 - c.nextCommitmentStartHeight < env.maxL2Blocks
    · simp [hlen]
    · simp [hlen]

/-- What `should_commit` decides for the next block. What it has accumulated for a range with that
block does not exceed the threshold. -/
inductive Decision (env : CommitmentEnv H) (blocks : List (LedgerBlock H))
    (c : CommitmentController) (ranges : List (Nat × Nat)) :
    CommitmentController → Option (Nat × CommitmentRange) → Prop where
  | wait (c' : CommitmentController) (index : c'.nextCommitmentIndex = c.nextCommitmentIndex)
      (start : c'.nextCommitmentStartHeight = c.nextCommitmentStartHeight)
      (last : c'.lastL2Height = c.lastL2Height + 1)
      (small : tooLarge env blocks c.nextCommitmentStartHeight (c.lastL2Height + 1) = false)
      (inv : ControllerInv env blocks c' ranges) :
      Decision env blocks c ranges c' none
  | commit (c' : CommitmentController) (stop : Nat)
      (index : c'.nextCommitmentIndex = c.nextCommitmentIndex + 1)
      (start : c'.nextCommitmentStartHeight = stop + 1)
      (nonempty : c.nextCommitmentStartHeight ≤ stop)
      (last : c'.lastL2Height = c.lastL2Height + 1)
      (small : stop = c.lastL2Height ∨ stop = c.lastL2Height + 1 ∧
        tooLarge env blocks c.nextCommitmentStartHeight (c.lastL2Height + 1) = false)
      (inv : ControllerInv env blocks c' (ranges ++ [(c.nextCommitmentStartHeight, stop)])) :
      Decision env blocks c ranges c'
        (some (c.nextCommitmentIndex, ⟨c.nextCommitmentStartHeight, stop⟩))

/-- The cuts after the next block, from the cuts after the last one. -/
theorem ControllerInv.cuts_next
    (hcut : cutsAt env blocks c.lastL2Height = ⟨c.nextCommitmentStartHeight, ranges⟩) :
    cutsAt env blocks (c.lastL2Height + 1) =
      cutStep (tooLarge env blocks) env.maxL2Blocks ⟨c.nextCommitmentStartHeight, ranges⟩
        (c.lastL2Height + 1) := by
  rw [← hcut]
  exact cuts_succ h.last_ge

omit h

/-- `should_commit` returns, and follows the cuts, unless the block is the first of its range and
too large on its own. -/
theorem shouldCommit_decision (h : ControllerInv env ledger.l2Blocks c ranges)
    (hmax : 0 < env.maxL2Blocks) (hlt : c.lastL2Height < ledger.l2Blocks.length)
    (hfits : c.nextCommitmentStartHeight = c.lastL2Height + 1 →
      Fits env (diffAt ledger.l2Blocks (c.lastL2Height + 1)))
    (hdiff : ledger.getStateDiff (c.lastL2Height + 1) =
      diffAt ledger.l2Blocks (c.lastL2Height + 1)) :
    ∃ c' decision, shouldCommit env ledger c (c.lastL2Height + 1) = .ok (c', decision) ∧
      Decision env ledger.l2Blocks c ranges c' decision := by
  have hstart := (h.start_bounds hmax).2
  have hge := h.last_ge
  have hmerge := h.merge_eq hstart
  obtain ⟨n, hn⟩ := h.atCut
  have hopen := h.openRange hmax hn
  rw [shouldCommit_eq hstart hdiff, hmerge]
  by_cases hover : tooLarge env ledger.l2Blocks c.nextCommitmentStartHeight (c.lastL2Height + 1) =
      true
  · -- The range is cut before this block. It is not this block alone.
    have hne : c.nextCommitmentStartHeight ≠ c.lastL2Height + 1 := by
      intro heq
      rw [heq, not_tooLarge_of_fits (hfits heq)] at hover
      exact absurd hover (by decide)
    have hbefore : c.nextCommitmentStartHeight < c.lastL2Height + 1 := by omega
    have hcut : cutsAt env ledger.l2Blocks c.lastL2Height =
        ⟨c.nextCommitmentStartHeight, ranges⟩ := by
      rcases hn.2 with rfl | ⟨rfl, hagain, -⟩
      · exact hn.1
      · exact absurd hagain hne
    have hnext := h.cuts_next hcut
    rw [cutStep, if_pos ⟨hbefore, hover⟩, Nat.add_sub_cancel] at hnext
    rw [tooLarge] at hover
    rw [if_pos hover]
    refine ⟨_, _, rfl, .commit _ c.lastL2Height rfl rfl (by omega) rfl (.inl rfl) ?_⟩
    refine ⟨?_, ⟨_, hnext, .inl rfl⟩, ?_, .inl hlt⟩
    · show collected _ = rangeDiff _ (c.lastL2Height + 1) (c.lastL2Height + 1)
      rw [rangeDiff_self, mergeStateDiffs_eq, nil_append]
    · show env.tangerineHeight ≤ c.lastL2Height + 1 + 1
      omega
  · have hthreshold : ¬ exceedsThreshold env
        (rangeDiff ledger.l2Blocks c.nextCommitmentStartHeight (c.lastL2Height + 1)) = true := hover
    have hsmall : tooLarge env ledger.l2Blocks c.nextCommitmentStartHeight (c.lastL2Height + 1) =
        false := by
      simpa using hover
    have hjoin : ¬ (c.nextCommitmentStartHeight < c.lastL2Height + 1 ∧
        tooLarge env ledger.l2Blocks c.nextCommitmentStartHeight (c.lastL2Height + 1) = true) :=
      fun h => hover h.2
    rw [if_neg hthreshold]
    by_cases hlen : c.lastL2Height + 1 + 1 - c.nextCommitmentStartHeight < env.maxL2Blocks
    · -- The block joins the open range, or is read for the second time.
      have hnext : cutsAt env ledger.l2Blocks (c.lastL2Height + 1) =
          ⟨c.nextCommitmentStartHeight, ranges⟩ := by
        rcases hn.2 with rfl | ⟨rfl, -⟩
        · rw [h.cuts_next hn.1, cutStep, if_neg hjoin, if_pos hlen]
        · exact hn.1
      rw [if_pos hlen]
      refine ⟨_, _, rfl, .wait _ rfl rfl rfl hsmall ?_⟩
      refine ⟨?_, ⟨_, hnext, .inl rfl⟩, ?_, .inl hlt⟩
      · show collected (rangeDiff _ _ _) = rangeDiff _ _ _
        rw [rangeDiff, collected_collected]
      · show env.tangerineHeight ≤ c.lastL2Height + 1 + 1
        omega
    · -- The range is cut after this block. A block that is read again does not fill the range.
      have hcut : cutsAt env ledger.l2Blocks c.lastL2Height =
          ⟨c.nextCommitmentStartHeight, ranges⟩ := by
        rcases hn.2 with rfl | ⟨rfl, hagain, -⟩
        · exact hn.1
        · have hshort : c.lastL2Height + 1 + 1 - c.nextCommitmentStartHeight < env.maxL2Blocks :=
            hopen.short
          exact absurd hshort hlen
      have hnext := h.cuts_next hcut
      rw [cutStep, if_neg hjoin, if_neg hlen] at hnext
      rw [if_neg hlen]
      refine ⟨_, _, rfl, .commit _ (c.lastL2Height + 1) rfl rfl hstart rfl (.inr ⟨rfl, hsmall⟩) ?_⟩
      refine ⟨?_, ⟨_, hnext, .inl rfl⟩, ?_, .inl hlt⟩
      · show collected [] = rangeDiff _ (c.lastL2Height + 1 + 1) (c.lastL2Height + 1)
        rw [rangeDiff_of_lt (Nat.lt_succ_self _)]
        rfl
      · show env.tangerineHeight ≤ c.lastL2Height + 1 + 1
        omega

end

end Citrea.Proofs.Sequencer
