import Citrea.Proofs.Sequencer.Commitment

/-!
# `Citrea.Proofs.Sequencer.CommitmentService`: the invariant of the commitment service

`ServiceInv` is what every reachable state of the service has. Its submissions are numbered from 1,
the ledger has them all but the one that the DA layer has just received, and the state diffs from
the open range on are still stored. One lemma for each event says that the event returns and keeps
the invariant. `SizeInv` says that no range of two or more blocks is above the size limit. It holds
as long as the controller lets nothing through that is (`LetsThrough`).
-/

namespace Citrea.Proofs.Sequencer

open List Lib Spec.Sequencer

variable {H : Type}

/-- The start and the end of the range of a submission. -/
def span (sub : Submission H) : Nat × Nat := (sub.range.start, sub.range.stop)

/-- The submissions that the ledger has. -/
def storedSubmissions (s : CommitmentService H) : List (Submission H) :=
  match s.phase with
  | .sent _ _ => s.da.dropLast
  | _ => s.da

/-- The phase of `commit` belongs to the last submission. -/
def PhaseMatches (s : CommitmentService H) : Prop :=
  match s.phase with
  | .idle => True
  | .sent commitment range => s.da.getLast? = some ⟨commitment, range⟩
  | .stored range => ∃ commitment, s.da.getLast? = some ⟨commitment, range⟩

structure ServiceInv (env : CommitmentEnv H) (s : CommitmentService H) : Prop where
  controller : ControllerInv env s.ledger.l2Blocks s.controller (s.da.map span)
  index : s.controller.nextCommitmentIndex = s.da.length + 1
  numbered : ∀ i sub, s.da[i]? = some sub →
    sub.commitment.index = i + 1 ∧ sub.commitment.l2EndBlockNumber = sub.range.stop
  phase : PhaseMatches s
  entries : s.ledger.commitments.entries =
    (storedSubmissions s).map fun sub => (sub.commitment.index, sub.commitment)
  diffs : ∀ n, s.controller.nextCommitmentStartHeight ≤ n → n ≤ s.ledger.l2Blocks.length →
    s.ledger.stateDiffs.get n = some (diffAt s.ledger.l2Blocks n)

/-- The diff that the next check accumulates. -/
def nextDiff (s : CommitmentService H) : StateDiff :=
  mergeStateDiffs s.controller.stateDiff (s.ledger.getStateDiff (s.controller.lastL2Height + 1))

/-- If the next block is the first of a range, then it fits on its own. -/
def Opens (env : CommitmentEnv H) (s : CommitmentService H) : Prop :=
  s.controller.nextCommitmentStartHeight = s.controller.lastL2Height + 1 →
    Fits env (s.ledger.getStateDiff (s.controller.lastL2Height + 1))

/-- The diff that the next check accumulates is within the limit, if the controller returns before
it compresses it. -/
def LetsThrough (env : CommitmentEnv H) (s : CommitmentService H) : Prop :=
  (borshStateDiff (nextDiff s)).length ≤ safeMaxUncompressedTxbodySize →
    WithinLimit env (nextDiff s)

/-- The ranges of two or more blocks are within the limit, also the open one. -/
structure SizeInv (env : CommitmentEnv H) (s : CommitmentService H) : Prop where
  opened : s.controller.nextCommitmentStartHeight < s.controller.lastL2Height →
    WithinLimit env (rangeDiff s.ledger.l2Blocks s.controller.nextCommitmentStartHeight
      s.controller.lastL2Height)
  submitted : ∀ sub ∈ s.da, sub.range.start < sub.range.stop →
    WithinLimit env (rangeDiff s.ledger.l2Blocks sub.range.start sub.range.stop)

section
variable {env : CommitmentEnv H} {s : CommitmentService H} {sub : Submission H}
  {range : CommitmentRange} {ledger : SequencerLedger H} {front : List (Submission H)}

theorem serviceInv_initial : ServiceInv env (.initial env) := by
  have hpos := env.tangerineHeight_pos
  have hnew : CommitmentController.new env (.empty : SequencerLedger H) =
      ⟨1, env.tangerineHeight, env.tangerineHeight - 1, []⟩ := rfl
  refine ⟨?_, rfl, ?_, trivial, rfl, ?_⟩
  · show ControllerInv env [] (.new env .empty) []
    rw [hnew]
    refine ⟨?_, ⟨env.tangerineHeight - 1, ?_, .inl rfl⟩, ?_, .inr ?_⟩
    · show collected [] = rangeDiff _ env.tangerineHeight (env.tangerineHeight - 1)
      rw [rangeDiff_of_lt (by omega)]
      rfl
    · exact cuts_of_lt (by omega)
    · show env.tangerineHeight ≤ env.tangerineHeight - 1 + 1
      omega
    · show env.tangerineHeight - 1 + 1 = env.tangerineHeight
      omega
  · intro i sub h
    exact absurd h (by simp [CommitmentService.initial])
  · intro n hstart hle
    have hlen : n ≤ 0 := hle
    have htangerine : env.tangerineHeight ≤ n := hstart
    omega

variable (h : ServiceInv env s)
include h

/-- The ranges of the submissions tile the chain up to the open range. -/
theorem ServiceInv.tiles (hmax : 0 < env.maxL2Blocks) :
    Tiles env.tangerineHeight (s.da.map span) s.controller.nextCommitmentStartHeight :=
  h.controller.tiles hmax

/-- The ranges end at produced blocks. -/
theorem ServiceInv.produced (hmax : 0 < env.maxL2Blocks) (hsub : sub ∈ s.da) :
    sub.range.stop ≤ s.ledger.l2Blocks.length := by
  -- The ranges end before the open range, which starts after the last checked block.
  have hstart := h.controller.start_bounds hmax
  have hlast := h.controller.last_le
  have hend : env.tangerineHeight ≤ sub.range.stop ∧
      sub.range.stop < s.controller.nextCommitmentStartHeight :=
    (h.tiles hmax).stop_lt (span sub) (mem_map_of_mem hsub)
  omega

/-- The open range starts behind the last submission. -/
theorem ServiceInv.start_of_last (hmax : 0 < env.maxL2Blocks) (hlast : s.da.getLast? = some sub) :
    s.controller.nextCommitmentStartHeight = sub.range.stop + 1 := by
  have hhi := (h.tiles hmax).hi_eq
  rw [List.getLast?_map, hlast] at hhi
  exact hhi

/-! ### Blocks -/

omit h in
/-- The cuts up to the last height do not depend on later blocks. -/
theorem ControllerInv.produce {blocks : List (LedgerBlock H)} {c : CommitmentController}
    {ranges : List (Nat × Nat)} (h : ControllerInv env blocks c ranges)
    (hmax : 0 < env.maxL2Blocks) (more : List (LedgerBlock H)) :
    ControllerInv env (blocks ++ more) c ranges := by
  have hstart := h.start_bounds hmax
  have hlength : blocks.length ≤ (blocks ++ more).length := by simp
  refine ⟨?_, ?_, h.last_ge, ?_⟩
  · rw [h.accumulated]
    rcases h.last_le with hle | hlast
    · exact (rangeDiff_append hle).symm
    · rw [rangeDiff_of_lt (by omega), rangeDiff_of_lt (by omega)]
  · obtain ⟨n, hcut, hn⟩ := h.atCut
    refine ⟨n, ?_, ?_⟩
    · rw [← hcut]
      refine cuts_congr fun a b hb hbn => ?_
      have hle : b ≤ blocks.length := by
        rcases hn with rfl | ⟨-, -, hle⟩
        · rcases h.last_le with hle | hlast
          all_goals omega
        · omega
      rw [tooLarge, tooLarge, rangeDiff_append hle]
    · rcases hn with rfl | ⟨hn, hagain, hle⟩
      · exact .inl rfl
      · exact .inr ⟨hn, hagain, by omega⟩
  · rcases h.last_le with hle | hlast
    · exact .inl (by omega)
    · exact .inr hlast

theorem ServiceInv.produce (hmax : 0 < env.maxL2Blocks) (block : LedgerBlock H) :
    ServiceInv env { s with
      ledger := { s.ledger.setStateDiff (s.ledger.headL2BlockHeight + 1) block.stateDiff with
        l2Blocks := s.ledger.l2Blocks ++ [block] } } := by
  have hpos := env.tangerineHeight_pos
  have hstart := (h.controller.start_bounds hmax).1
  refine ⟨h.controller.produce hmax _, h.index, h.numbered, h.phase, h.entries, ?_⟩
  intro n hle hlen
  show (s.ledger.stateDiffs.put (s.ledger.l2Blocks.length + 1) block.stateDiff).get n = _
  have hlen' : n ≤ s.ledger.l2Blocks.length + 1 := by simpa using hlen
  have hge : s.controller.nextCommitmentStartHeight ≤ n := hle
  by_cases hn : n = s.ledger.l2Blocks.length + 1
  · subst hn
    rw [Table.get_put_self]
    simp [diffAt]
  · rw [Table.get_put_of_ne hn, diffAt_append (by omega) (by omega)]
    exact h.diffs n hge (by omega)

/-- A new block changes no range that there is. -/
theorem SizeInv.append (hsize : SizeInv env s) (hmax : 0 < env.maxL2Blocks)
    {s' : CommitmentService H} {more : List (LedgerBlock H)}
    (hblocks : s'.ledger.l2Blocks = s.ledger.l2Blocks ++ more)
    (hcontroller : s'.controller = s.controller) (hda : s'.da = s.da) : SizeInv env s' := by
  have hstart := h.controller.start_bounds hmax
  have hlast := h.controller.last_le
  refine ⟨?_, ?_⟩
  · rw [hblocks, hcontroller]
    intro hlt
    rw [rangeDiff_append (by omega)]
    exact hsize.opened hlt
  · rw [hblocks, hda]
    intro sub hsub hlt
    rw [rangeDiff_append (h.produced hmax hsub)]
    exact hsize.submitted sub hsub hlt

theorem ServiceInv.interrupted (stateDiff : StateDiff) : ServiceInv env { s with
      ledger := s.ledger.setStateDiff (s.ledger.headL2BlockHeight + 1) stateDiff } := by
  refine ⟨h.controller, h.index, h.numbered, h.phase, h.entries, ?_⟩
  intro n hle hlen
  show (s.ledger.stateDiffs.put (s.ledger.l2Blocks.length + 1) stateDiff).get n = _
  have hlen' : n ≤ s.ledger.l2Blocks.length := hlen
  rw [Table.get_put_of_ne (by omega)]
  exact h.diffs n hle hlen

/-! ### Checks and submissions -/

omit h in
/-- `get_commitment` succeeds for a range of produced blocks that is not empty. -/
theorem getCommitment_ok (hpos : 0 < range.start) (hne : range.start ≤ range.stop)
    (hle : range.stop ≤ ledger.l2Blocks.length) (index : Nat) :
    ∃ root, getCommitment env index range (ledger.getL2BlockHashes range) =
      .ok ⟨root, index, range.stop⟩ := by
  have hlength : (ledger.getL2BlockHashes range).length = range.stop + 1 - range.start := by
    simp only [SequencerLedger.getL2BlockHashes, length_map, length_take,
      length_drop]
    omega
  have hassert : range.length = (ledger.getL2BlockHashes range).length := by
    rw [CommitmentRange.length, if_pos (by omega), hlength]
  have hhashes : ledger.getL2BlockHashes range ≠ [] := by
    intro hnil
    rw [hnil] at hlength
    simp only [length_nil] at hlength
    omega
  obtain ⟨root, hroot⟩ : ∃ root, env.merkleRoot (ledger.getL2BlockHashes range) = some root :=
    Option.ne_none_iff_exists'.mp ((env.merkleRoot_eq_none _).not.mpr hhashes)
  refine ⟨root, ?_⟩
  rw [getCommitment, assert, if_pos hassert]
  dsimp only [bind, Except.bind]
  rw [hroot]
  rfl

/-- The state diff that the next check reads is the one of the block. -/
theorem ServiceInv.getStateDiff_next (hmax : 0 < env.maxL2Blocks)
    (hlt : s.controller.lastL2Height < s.ledger.l2Blocks.length) :
    s.ledger.getStateDiff (s.controller.lastL2Height + 1) =
      diffAt s.ledger.l2Blocks (s.controller.lastL2Height + 1) := by
  rw [SequencerLedger.getStateDiff, h.diffs _ (h.controller.start_bounds hmax).2 hlt]
  rfl

/-- What does not exceed the threshold is within the limit. -/
theorem ServiceInv.withinLimit (hmax : 0 < env.maxL2Blocks)
    (hlt : s.controller.lastL2Height < s.ledger.l2Blocks.length) (hthrough : LetsThrough env s)
    (hsmall : tooLarge env s.ledger.l2Blocks s.controller.nextCommitmentStartHeight
      (s.controller.lastL2Height + 1) = false) :
    WithinLimit env (rangeDiff s.ledger.l2Blocks s.controller.nextCommitmentStartHeight
      (s.controller.lastL2Height + 1)) := by
  have hnext : nextDiff s = rangeDiff s.ledger.l2Blocks s.controller.nextCommitmentStartHeight
      (s.controller.lastL2Height + 1) := by
    rw [nextDiff, h.getStateDiff_next hmax hlt]
    exact h.controller.merge_eq (h.controller.start_bounds hmax).2
  rw [LetsThrough, hnext] at hthrough
  rcases exceedsThreshold_eq_false.mp hsmall with hshort | hwithin
  · exact hthrough hshort
  · exact hwithin

/-- The next height is checked. The submission, if there is one, is the next range. -/
theorem ServiceInv.check (hmax : 0 < env.maxL2Blocks) (hidle : s.phase = .idle)
    (hlt : s.controller.lastL2Height < s.ledger.l2Blocks.length) (hopens : Opens env s) :
    ∃ s', checkNextHeight env s = .ok s' ∧ ServiceInv env s' ∧
      s'.ledger = s.ledger ∧ s'.controller.lastL2Height = s.controller.lastL2Height + 1 ∧
      (s'.phase = .idle ∨ ∃ commitment range, s'.phase = .sent commitment range) ∧
      (LetsThrough env s → SizeInv env s → SizeInv env s') := by
  have hpos := env.tangerineHeight_pos
  obtain ⟨hfirst, hstart⟩ := h.controller.start_bounds hmax
  have hdiff := h.getStateDiff_next hmax hlt
  rw [Opens, hdiff] at hopens
  have hstored : storedSubmissions s = s.da := by rw [storedSubmissions, hidle]
  obtain ⟨c', decision, hrun, hdecision⟩ :=
    shouldCommit_decision h.controller hmax hlt hopens hdiff
  cases hdecision with
  | wait index start last small inv =>
    refine ⟨{ s with controller := c' }, ?_, ?_, rfl, last, .inl hidle, ?_⟩
    · rw [checkNextHeight, hrun]
      rfl
    · exact ⟨inv, index.trans h.index, h.numbered, h.phase, h.entries,
        fun n hn => h.diffs n (start ▸ hn)⟩
    · intro hthrough hsize
      refine ⟨fun _ => ?_, hsize.submitted⟩
      show WithinLimit env (rangeDiff _ c'.nextCommitmentStartHeight c'.lastL2Height)
      rw [start, last]
      exact h.withinLimit hmax hlt hthrough small
  | commit stop index start nonempty last small inv =>
    have hrange : stop ≤ s.ledger.l2Blocks.length := by omega
    have hfrom : 0 < s.controller.nextCommitmentStartHeight := by omega
    obtain ⟨root, hcommitment⟩ := @getCommitment_ok _ env
      ⟨s.controller.nextCommitmentStartHeight, stop⟩ s.ledger hfrom nonempty hrange
      s.controller.nextCommitmentIndex
    have hnew : checkNextHeight env s = .ok
        { s with
          controller := c'
          phase := .sent ⟨root, s.controller.nextCommitmentIndex, stop⟩
            ⟨s.controller.nextCommitmentStartHeight, stop⟩
          da := s.da ++ [⟨⟨root, s.controller.nextCommitmentIndex, stop⟩,
            ⟨s.controller.nextCommitmentStartHeight, stop⟩⟩] } := by
      rw [checkNextHeight, hrun]
      simp only [bind, Except.bind, hcommitment, Outcome.expectOk]
      rfl
    refine ⟨_, hnew, ?_, rfl, last, .inr ⟨_, _, rfl⟩, ?_⟩
    swap
    · -- The open range has at most one block now, and the new range is the one before or with it.
      intro hthrough hsize
      refine ⟨fun hopen => ?_, fun sub hsub hne => ?_⟩
      · have hopen' : c'.nextCommitmentStartHeight < c'.lastL2Height := hopen
        omega
      · rcases mem_append.mp hsub with hsub | hsub
        · exact hsize.submitted sub hsub hne
        · obtain rfl := mem_singleton.mp hsub
          rcases small with rfl | ⟨rfl, hsmall⟩
          · exact hsize.opened hne
          · exact h.withinLimit hmax hlt hthrough hsmall
    refine ⟨?_, ?_, ?_, ?_, ?_, ?_⟩
    · show ControllerInv env s.ledger.l2Blocks c' ((s.da ++ [_]).map span)
      rw [map_append]
      exact inv
    · show c'.nextCommitmentIndex = (s.da ++ [_]).length + 1
      rw [length_append, index, h.index]
      rfl
    · intro i sub hsub
      have hsub' : (s.da ++ [_])[i]? = some sub := hsub
      rw [List.getElem?_append] at hsub'
      split at hsub'
      · exact h.numbered i sub hsub'
      · next hge =>
        obtain ⟨hi, rfl⟩ := List.getElem?_eq_some_iff.mp hsub'
        have hzero : i - s.da.length = 0 := by
          simp only [length_cons, length_nil] at hi
          omega
        simp only [hzero, getElem_cons_zero, and_true]
        rw [h.index]
        omega
    · show (s.da ++ [_]).getLast? = some _
      exact List.getLast?_concat
    · show s.ledger.commitments.entries = ((s.da ++ [_]).dropLast).map _
      rw [dropLast_concat, h.entries, hstored]
    · intro n hn
      have hn' : stop + 1 ≤ n := by
        have : c'.nextCommitmentStartHeight ≤ n := hn
        omega
      exact h.diffs n (by omega)

/-! ### The two writes -/

/-- The last submission, by its position. -/
theorem ServiceInv.numbered_last (hda : s.da = front ++ [sub]) :
    sub.commitment.index = front.length + 1 ∧ sub.commitment.l2EndBlockNumber = sub.range.stop := by
  have hget : s.da[front.length]? = some sub := by
    rw [hda, List.getElem?_append_right (Nat.le_refl _), Nat.sub_self]
    rfl
  exact h.numbered front.length sub hget

/-- The write of the last submission behind all others. -/
theorem entries_put_submission (hda : s.da = front ++ [sub])
    {commitments : Table Nat (Commitment H)}
    (hentries : commitments.entries = front.map fun sub => (sub.commitment.index, sub.commitment)) :
    (commitments.put sub.commitment.index sub.commitment).entries =
      s.da.map fun sub => (sub.commitment.index, sub.commitment) := by
  have hlast : ∀ e ∈ commitments.entries,
      TableKey.code e.1 < TableKey.code sub.commitment.index := by
    intro e he
    rw [hentries] at he
    obtain ⟨other, hother, rfl⟩ := mem_map.mp he
    obtain ⟨i, hi⟩ := mem_iff_getElem?.mp hother
    have hlt := (List.getElem?_eq_some_iff.mp hi).1
    have hget : s.da[i]? = some other := by
      rw [hda, List.getElem?_append_left hlt]
      exact hi
    show other.commitment.index < sub.commitment.index
    rw [(h.numbered i other hget).1, (h.numbered_last hda).1]
    omega
  rw [Table.entries_put_last hlast, hentries, hda, map_append]
  rfl

theorem ServiceInv.store {commitment : Commitment H}
    (hsent : s.phase = .sent commitment range) : ServiceInv env { s with
      ledger := s.ledger.putCommitmentByIndex commitment
      phase := .stored range } := by
  have hlast : s.da.getLast? = some ⟨commitment, range⟩ := by
    have hphase := h.phase
    rw [PhaseMatches, hsent] at hphase
    exact hphase
  obtain ⟨front, hda⟩ := List.getLast?_eq_some_iff.mp hlast
  have hentries := h.entries
  rw [storedSubmissions, hsent] at hentries
  simp only [hda, dropLast_concat] at hentries
  exact ⟨h.controller, h.index, h.numbered, ⟨commitment, hlast⟩,
    entries_put_submission h hda hentries, h.diffs⟩

omit h in
theorem get_foldl_delete {n : Nat} {heights : List Nat} (h : ∀ k ∈ heights, n ≠ k)
    (t : Table Nat StateDiff) : (heights.foldl Table.delete t).get n = t.get n := by
  induction heights generalizing t with
  | nil => rfl
  | cons k rest ih =>
    rw [foldl_cons, ih fun j hj => h j (mem_cons_of_mem _ hj)]
    exact Table.get_delete_of_ne (h k (by simp))

omit h in
/-- A state diff outside of the range stays. -/
theorem get_deleteStateDiffByRange {n : Nat} (h : range.stop < n) :
    (ledger.deleteStateDiffByRange range).stateDiffs.get n = ledger.stateDiffs.get n := by
  refine get_foldl_delete (fun k hk => ?_) _
  obtain ⟨hge, hlt⟩ := mem_range'_1.mp hk
  omega

theorem ServiceInv.clear (hmax : 0 < env.maxL2Blocks) (hstored : s.phase = .stored range) :
    ServiceInv env { s with ledger := s.ledger.deleteStateDiffByRange range, phase := .idle } := by
  have hphase := h.phase
  rw [PhaseMatches, hstored] at hphase
  obtain ⟨commitment, hlast⟩ := hphase
  have hstart := h.start_of_last hmax hlast
  have hentries := h.entries
  rw [storedSubmissions, hstored] at hentries
  refine ⟨h.controller, h.index, h.numbered, trivial, hentries, ?_⟩
  intro n hn hlen
  have hn' : s.controller.nextCommitmentStartHeight ≤ n := hn
  have hstop : range.stop < n := by
    have heq : s.controller.nextCommitmentStartHeight = range.stop + 1 := hstart
    omega
  show (s.ledger.deleteStateDiffByRange range).stateDiffs.get n = _
  rw [get_deleteStateDiffByRange hstop]
  exact h.diffs n hn' hlen

/-! ### Restarts -/

section
variable {α : Type} [DecidableEq α]

omit h in
theorem mem_dedupAdjacent {a : α} (l : List α) : a ∈ dedupAdjacent l ↔ a ∈ l := by
  induction l using dedupAdjacent.induct with
  | case1 => rfl
  | case2 b => rfl
  | case3 b rest ih =>
    rw [dedupAdjacent, if_pos rfl, ih]
    simp
  | case4 b c rest hne ih =>
    rw [dedupAdjacent, if_neg hne, mem_cons, ih, mem_cons (a := a) (b := b)]

omit h in
/-- A sorted list in which a key has one element has each element once after `dedup`. -/
theorem pairwise_dedupAdjacent {key : α → Nat} (l : List α)
    (hsorted : l.Pairwise fun a b => key a ≤ key b)
    (hkey : ∀ a ∈ l, ∀ b ∈ l, key a = key b → a = b) :
    (dedupAdjacent l).Pairwise fun a b => key a < key b := by
  induction l using dedupAdjacent.induct with
  | case1 => exact .nil
  | case2 b => exact pairwise_singleton _ _
  | case3 b rest ih =>
    rw [dedupAdjacent, if_pos rfl]
    exact ih (pairwise_cons.mp hsorted).2 fun a ha b hb =>
      hkey a (mem_cons_of_mem _ ha) b (mem_cons_of_mem _ hb)
  | case4 b c rest hne ih =>
    obtain ⟨hhead, htail⟩ := pairwise_cons.mp hsorted
    have htail' := ih htail fun a ha b hb =>
      hkey a (mem_cons_of_mem _ ha) b (mem_cons_of_mem _ hb)
    rw [dedupAdjacent, if_neg hne]
    refine pairwise_cons.mpr ⟨fun a ha => ?_, htail'⟩
    rw [mem_dedupAdjacent] at ha
    -- The second element has a larger key than the first, and the others follow it.
    have hbc : key b < key c := by
      refine Nat.lt_of_le_of_ne (hhead c (by simp)) fun heq => hne ?_
      exact hkey b (by simp) c (by simp) heq
    rcases mem_cons.mp ha with rfl | ha
    · exact hbc
    · exact Nat.lt_of_lt_of_le hbc ((pairwise_cons.mp htail).1 a ha)

end

variable {ledger : SequencerLedger H}

/-- At a restart the DA layer returns submissions, among them those that the ledger does not have
yet. -/
def DaAnswers (s : CommitmentService H) (found : Option (List (Commitment H))) : Prop :=
  ∃ commitments, found = some commitments ∧
    (∀ c ∈ commitments, ∃ sub ∈ s.da, sub.commitment = c) ∧
    ∀ sub ∈ s.da, (∀ c, s.ledger.getLastCommitment = some c → c.index < sub.commitment.index) →
      sub.commitment ∈ commitments

omit h in
theorem getLastCommitment_eq {subs : List (Submission H)}
    (hentries : ledger.commitments.entries = subs.map fun sub => (sub.commitment.index,
      sub.commitment)) : ledger.getLastCommitment = subs.getLast?.map Submission.commitment := by
  rw [SequencerLedger.getLastCommitment, Table.last?, hentries, List.getLast?_map, Option.map_map]
  rfl

/-- The submissions are those of the ledger, or one more. -/
theorem ServiceInv.stored_or :
    storedSubmissions s = s.da ∨ ∃ sub, s.da = storedSubmissions s ++ [sub] := by
  have hphase := h.phase
  rw [PhaseMatches] at hphase
  rw [storedSubmissions]
  cases hcase : s.phase with
  | idle => exact .inl rfl
  | stored range => exact .inl rfl
  | sent commitment range =>
    rw [hcase] at hphase
    obtain ⟨front, hda⟩ := List.getLast?_eq_some_iff.mp hphase
    refine .inr ⟨⟨commitment, range⟩, ?_⟩
    rw [hda, dropLast_concat]

/-- The index from which `store_commitments_from_da` goes on. -/
theorem ServiceInv.lastIndex_eq :
    (s.ledger.getLastCommitment.map Commitment.index).getD 0 = (storedSubmissions s).length := by
  rw [getLastCommitment_eq h.entries]
  cases hlast : (storedSubmissions s).getLast? with
  | none =>
    rw [List.getLast?_eq_none_iff.mp hlast]
    rfl
  | some sub =>
    obtain ⟨front, hfront⟩ := List.getLast?_eq_some_iff.mp hlast
    have hget : s.da[front.length]? = some sub := by
      have hstored : (storedSubmissions s)[front.length]? = some sub := by
        rw [hfront, List.getElem?_append_right (Nat.le_refl _), Nat.sub_self]
        rfl
      rcases h.stored_or with heq | ⟨last, heq⟩
      · rw [← heq]
        exact hstored
      · rw [heq, List.getElem?_append_left (by rw [hfront]; simp)]
        exact hstored
    show sub.commitment.index = _
    rw [(h.numbered _ sub hget).1, hfront]
    simp

/-- Submissions with the same index are the same. -/
theorem ServiceInv.eq_of_index {a b : Submission H} (ha : a ∈ s.da)
    (hb : b ∈ s.da) (heq : a.commitment.index = b.commitment.index) : a = b := by
  obtain ⟨i, hi⟩ := mem_iff_getElem?.mp ha
  obtain ⟨j, hj⟩ := mem_iff_getElem?.mp hb
  rw [(h.numbered i a hi).1, (h.numbered j b hj).1] at heq
  obtain rfl : i = j := by omega
  exact some_unique hi hj

/-- One commitment that the ledger does not have is written. -/
theorem storeFromDa_ok {front : List (Submission H)} {sub : Submission H}
    (hda : s.da = front ++ [sub]) (hfront : storedSubmissions s = front) :
    ∃ l2Start, storeFromDa env s.ledger sub.commitment = .ok
      ((s.ledger.putCommitmentByIndex sub.commitment).deleteStateDiffByRange
        ⟨l2Start, sub.commitment.l2EndBlockNumber⟩) := by
  have hindex := (h.numbered_last hda).1
  rw [storeFromDa]
  by_cases hone : sub.commitment.index = 1
  · exact ⟨env.tangerineHeight, by rw [if_pos hone]; rfl⟩
  · -- The commitment before it is in the ledger.
    have hne : front ≠ [] := by
      rintro rfl
      exact hone hindex
    obtain ⟨previous, hlast⟩ : ∃ previous, front.getLast? = some previous :=
      ⟨front.getLast hne, List.getLast?_eq_some_getLast hne⟩
    obtain ⟨earlier, hearlier⟩ := List.getLast?_eq_some_iff.mp hlast
    have hget : s.da[earlier.length]? = some previous := by
      rw [hda, hearlier, append_assoc, List.getElem?_append_right (Nat.le_refl _),
        Nat.sub_self]
      rfl
    have hprevious : previous.commitment.index = sub.commitment.index - 1 := by
      rw [(h.numbered _ previous hget).1, hindex, hearlier]
      simp
    have hstored : s.ledger.commitments.get (sub.commitment.index - 1) =
        some previous.commitment := by
      rw [← Table.mem_entries, h.entries, hfront, ← hprevious]
      exact mem_map.mpr ⟨previous, mem_of_getLast? hlast, rfl⟩
    refine ⟨previous.commitment.l2EndBlockNumber + 1, ?_⟩
    rw [if_neg hone, hstored]
    rfl

/-- The controller that a restart makes, when the ledger has all submissions. -/
theorem ServiceInv.new_eq (hmax : 0 < env.maxL2Blocks)
    (hentries : ledger.commitments.entries = s.da.map fun sub => (sub.commitment.index,
      sub.commitment)) : CommitmentController.new env ledger =
      ⟨s.da.length + 1, s.controller.nextCommitmentStartHeight,
        s.controller.nextCommitmentStartHeight - 1, []⟩ := by
  have hload : loadNextCommitmentIndexAndStartHeight env ledger =
      (s.da.length + 1, s.controller.nextCommitmentStartHeight) := by
    rw [loadNextCommitmentIndexAndStartHeight, getLastCommitment_eq hentries]
    cases hlast : s.da.getLast? with
    | none =>
      have hhi := (h.tiles hmax).hi_eq
      rw [List.getLast?_map, hlast] at hhi
      rw [List.getLast?_eq_none_iff.mp hlast]
      exact Prod.ext rfl hhi.symm
    | some sub =>
      obtain ⟨front, hda⟩ := List.getLast?_eq_some_iff.mp hlast
      obtain ⟨hindex, hend⟩ := h.numbered_last hda
      rw [h.start_of_last hmax hlast]
      show (sub.commitment.index + 1, sub.commitment.l2EndBlockNumber + 1) = _
      rw [hindex, hend, hda, length_append]
      rfl
  rw [CommitmentController.new, hload]

omit h in
/-- The restarted controller stands at the cut that opened the open range. -/
theorem ControllerInv.restart {blocks : List (LedgerBlock H)} {c : CommitmentController}
    {ranges : List (Nat × Nat)} (h : ControllerInv env blocks c ranges)
    (hmax : 0 < env.maxL2Blocks) (index : Nat) :
    ControllerInv env blocks
      ⟨index, c.nextCommitmentStartHeight, c.nextCommitmentStartHeight - 1, []⟩ ranges := by
  have hpos := env.tangerineHeight_pos
  obtain ⟨hfirst, hstart⟩ := h.start_bounds hmax
  have hlast := h.last_ge
  have hlastLe := h.last_le
  obtain ⟨n, hcut, hn⟩ := h.atCut
  have hge : env.tangerineHeight ≤ n + 1 := by
    rcases hn with rfl | ⟨rfl, -⟩ <;> omega
  have hreopen := @cuts_reopen (tooLarge env blocks) env.maxL2Blocks _ _ hpos hge
  rw [cutsAt] at hcut
  rw [hcut] at hreopen
  refine ⟨?_, ?_, ?_, ?_⟩
  · show collected [] =
      rangeDiff blocks c.nextCommitmentStartHeight (c.nextCommitmentStartHeight - 1)
    rw [rangeDiff_of_lt (by omega)]
    rfl
  · rcases hreopen with hopen | ⟨hle, hopen⟩
    · exact ⟨c.nextCommitmentStartHeight - 1, hopen, .inl rfl⟩
    · -- The open range starts with a block that was cut off; it is read again.
      have hle' : c.nextCommitmentStartHeight ≤ n := hle
      refine ⟨c.nextCommitmentStartHeight, hopen, .inr ⟨?_, rfl, ?_⟩⟩
      · show c.nextCommitmentStartHeight = c.nextCommitmentStartHeight - 1 + 1
        omega
      · rcases hn with rfl | ⟨-, -, hnle⟩ <;> omega
  · show env.tangerineHeight ≤ c.nextCommitmentStartHeight - 1 + 1
    omega
  · show c.nextCommitmentStartHeight - 1 ≤ blocks.length ∨
      c.nextCommitmentStartHeight - 1 + 1 = env.tangerineHeight
    omega

variable [DecidableEq H] {found : List (Commitment H)}

/-- The commitments that a restart has to write: none, or the last submission. -/
theorem ServiceInv.toStore_eq (hfound : DaAnswers s (some found)) :
    ((dedupAdjacent (found.insertionSort fun a b => a.index ≤ b.index)).filter fun c =>
        (storedSubmissions s).length < c.index) =
      (s.da.drop (storedSubmissions s).length).map Submission.commitment := by
  obtain ⟨commitments, heq, hsub, hall⟩ := hfound
  obtain rfl : found = commitments := Option.some.inj heq
  have htotal : Std.Total fun a b : Commitment H => a.index ≤ b.index :=
    ⟨fun a b => Nat.le_total a.index b.index⟩
  have htrans : IsTrans (Commitment H) fun a b => a.index ≤ b.index :=
    ⟨fun _ _ _ hab hbc => Nat.le_trans hab hbc⟩
  have hlastIndex := h.lastIndex_eq
  -- Both lists are in strict order of the indices, so their members decide.
  have hleft : ((dedupAdjacent (found.insertionSort fun a b => a.index ≤ b.index)).filter fun c =>
      (storedSubmissions s).length < c.index).Pairwise fun a b => a.index < b.index := by
    refine (pairwise_dedupAdjacent _ (pairwise_insertionSort _ found) ?_).filter _
    intro a ha b hb hindex
    rw [mem_insertionSort] at ha hb
    obtain ⟨a', ha', rfl⟩ := hsub a ha
    obtain ⟨b', hb', rfl⟩ := hsub b hb
    rw [h.eq_of_index ha' hb' hindex]
  have hright : ((s.da.drop (storedSubmissions s).length).map Submission.commitment).Pairwise
      fun a b => a.index < b.index := by
    rw [pairwise_map, pairwise_iff_getElem]
    intro i j hi hj hij
    rw [getElem_drop, getElem_drop]
    rw [(h.numbered _ _ (List.getElem?_eq_getElem _)).1,
      (h.numbered _ _ (List.getElem?_eq_getElem _)).1]
    omega
  refine eq_of_pairwise_lt hleft hright fun c => ?_
  rw [mem_filter, mem_dedupAdjacent, mem_insertionSort, decide_eq_true_eq, mem_map]
  constructor
  · rintro ⟨hc, hlt⟩
    obtain ⟨sub, hmem, rfl⟩ := hsub c hc
    obtain ⟨i, hi⟩ := mem_iff_getElem?.mp hmem
    rw [(h.numbered i sub hi).1] at hlt
    refine ⟨sub, mem_iff_getElem?.mpr ⟨i - (storedSubmissions s).length, ?_⟩, rfl⟩
    rw [List.getElem?_drop, Nat.add_sub_cancel' (by omega)]
    exact hi
  · rintro ⟨sub, hmem, rfl⟩
    obtain ⟨i, hi⟩ := mem_iff_getElem?.mp hmem
    rw [List.getElem?_drop] at hi
    have hindex := (h.numbered _ sub hi).1
    refine ⟨hall sub (mem_of_mem_drop hmem) fun c hc => ?_, by omega⟩
    rw [hc] at hlastIndex
    have hlast : c.index = (storedSubmissions s).length := hlastIndex
    omega

/-- After `store_commitments_from_da` the ledger has all submissions. -/
theorem storeCommitmentsFromDa_ok (hmax : 0 < env.maxL2Blocks) (hfound : DaAnswers s (some found)) :
    ∃ ledger, storeCommitmentsFromDa env s.ledger found = .ok ledger ∧
      ledger.l2Blocks = s.ledger.l2Blocks ∧ ledger.commitments.entries =
        (s.da.map fun sub => (sub.commitment.index, sub.commitment)) ∧
      ∀ n, s.controller.nextCommitmentStartHeight ≤ n →
        ledger.stateDiffs.get n = s.ledger.stateDiffs.get n := by
  have htoStore := h.toStore_eq hfound
  have hlastIndex := h.lastIndex_eq
  rcases h.stored_or with hall | ⟨sub, hda⟩
  · -- The ledger has all submissions already.
    refine ⟨s.ledger, ?_, rfl, by rw [h.entries, hall], fun n _ => rfl⟩
    rw [hall, drop_length, map_nil] at htoStore
    simp only [storeCommitmentsFromDa, hlastIndex, hall, htoStore]
    rfl
  · have hlast : s.da.getLast? = some sub := by
      rw [hda]
      exact List.getLast?_concat
    have hstart := h.start_of_last hmax hlast
    obtain ⟨hindex, hend⟩ := h.numbered_last hda
    obtain ⟨l2Start, hstore⟩ := storeFromDa_ok h hda rfl
    have hdrop : (s.da.drop (storedSubmissions s).length).map Submission.commitment =
        [sub.commitment] := by
      rw [hda, drop_left]
      rfl
    refine ⟨(s.ledger.putCommitmentByIndex sub.commitment).deleteStateDiffByRange
      ⟨l2Start, sub.commitment.l2EndBlockNumber⟩, ?_, rfl, ?_, fun n hn => ?_⟩
    · rw [hdrop] at htoStore
      simp only [storeCommitmentsFromDa, hlastIndex, htoStore]
      simp only [assert, List.head?_cons, Option.mem_def, Option.some.injEq, forall_eq',
        hindex, if_true, tail_cons, zip_nil_right, not_mem_nil, false_implies,
        implies_true, foldlM_cons, foldlM_nil, hstore]
      rfl
    · exact entries_put_submission h hda h.entries
    · refine get_deleteStateDiffByRange ?_
      show sub.commitment.l2EndBlockNumber < n
      omega

theorem ServiceInv.restart (hmax : 0 < env.maxL2Blocks)
    {found : Option (List (Commitment H))} (hfound : DaAnswers s found) :
    ∃ s', restartService env s found = .ok s' ∧ ServiceInv env s' ∧
      s'.ledger.l2Blocks = s.ledger.l2Blocks ∧ s'.da = s.da ∧
      s'.controller.lastL2Height < s'.controller.nextCommitmentStartHeight := by
  obtain ⟨commitments, rfl, hrest⟩ := id hfound
  -- The ledger after the recovery, whether it is skipped or not.
  have hledger : ∃ ledger, (if s.ledger.l2Blocks.isEmpty then pure s.ledger
      else storeCommitmentsFromDa env s.ledger commitments) = .ok ledger ∧
      ledger.l2Blocks = s.ledger.l2Blocks ∧
      ledger.commitments.entries =
        (s.da.map fun sub => (sub.commitment.index, sub.commitment)) ∧
      ∀ n, s.controller.nextCommitmentStartHeight ≤ n →
        ledger.stateDiffs.get n = s.ledger.stateDiffs.get n := by
    cases hempty : s.ledger.l2Blocks with
    | cons b rest =>
      rw [← hempty]
      have hne : s.ledger.l2Blocks.isEmpty = false := by rw [hempty]; rfl
      rw [hne, if_neg (by simp)]
      exact storeCommitmentsFromDa_ok h hmax hfound
    | nil =>
      -- Without blocks there are no submissions.
      obtain ⟨hfirst, hstart⟩ := h.controller.start_bounds hmax
      have hlast := h.controller.last_le
      have htiles := h.tiles hmax
      have hpos := env.tangerineHeight_pos
      rw [hempty, length_nil] at hlast
      have heq : s.controller.nextCommitmentStartHeight = env.tangerineHeight := by omega
      rw [heq] at htiles
      have hda : s.da = [] := by simpa using htiles.eq_nil
      refine ⟨s.ledger, rfl, hempty, ?_, fun n _ => rfl⟩
      rw [h.entries, storedSubmissions]
      cases s.phase <;> simp [hda]
  obtain ⟨ledger, hrun, hblocks, hentries, hdiffs⟩ := hledger
  have hnew := h.new_eq hmax hentries
  have hstart := (h.controller.start_bounds hmax).1
  have hpos := env.tangerineHeight_pos
  refine ⟨{ s with ledger, controller := .new env ledger, phase := .idle }, ?_, ?_,
    hblocks, rfl, ?_⟩
  · rw [restartService]
    cases hempty : s.ledger.l2Blocks.isEmpty with
    | true =>
      rw [hempty, if_pos rfl] at hrun
      obtain rfl : s.ledger = ledger := Except.ok.inj hrun
      rfl
    | false =>
      rw [hempty, if_neg (by simp)] at hrun
      simp only [Bool.false_eq_true, if_false, hrun]
      rfl
  · refine ⟨?_, ?_, h.numbered, trivial, hentries, ?_⟩
    · show ControllerInv env ledger.l2Blocks (.new env ledger) (s.da.map span)
      rw [hnew, hblocks]
      exact h.controller.restart hmax _
    · show (CommitmentController.new env ledger).nextCommitmentIndex = _
      rw [hnew]
    · show ∀ n, (CommitmentController.new env ledger).nextCommitmentStartHeight ≤ n →
        n ≤ ledger.l2Blocks.length → ledger.stateDiffs.get n = some (diffAt ledger.l2Blocks n)
      rw [hnew, hblocks]
      intro n hn hlen
      have hn' : s.controller.nextCommitmentStartHeight ≤ n := hn
      rw [hdiffs n hn']
      exact h.diffs n hn' hlen
  · show (CommitmentController.new env ledger).lastL2Height <
      (CommitmentController.new env ledger).nextCommitmentStartHeight
    rw [hnew]
    show s.controller.nextCommitmentStartHeight - 1 < s.controller.nextCommitmentStartHeight
    omega

end

end Citrea.Proofs.Sequencer
