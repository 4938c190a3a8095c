import Citrea.Spec.Fork

/-!
# `Citrea.Proofs.Fork`: the fork manager follows the fork lookup

`forkManager_tracks`: a manager that is fed consecutive heights is the one that is created at the
last height, wherever it started. `register_block` goes at most one fork on. This is enough, because
the activation heights increase strictly and no height is left out.
-/

namespace Citrea.Proofs

open UInt64 List Lib Spec

variable {ε : Type} {forks rest : List Fork} {fork : Fork} {height next : UInt64}

theorem pairwise_of_forksFollow (h : forksFollow fork rest = true) :
    (fork :: rest).Pairwise fun a b => a.activationHeight < b.activationHeight := by
  induction rest generalizing fork with
  | nil => exact pairwise_singleton _ _
  | cons later rest ih =>
    simp only [forksFollow, Bool.and_eq_true, decide_eq_true_eq] at h
    have hrest := ih h.2
    refine pairwise_cons.mpr ⟨fun b hb => ?_, hrest⟩
    rcases mem_cons.mp hb with rfl | hb
    · exact h.1.2
    · exact UInt64.lt_trans h.1.2 ((pairwise_cons.mp hrest).1 b hb)

/-- One call, for the height of the manager or the next one. -/
theorem registerBlock_next (hverify : verifyForks forks = true) (hne : forks ≠ [])
    (hnext : next = height ∨ next.toNat = height.toNat + 1) :
    (ForkManager.new forks height).registerBlock next =
      (.ok (ForkManager.new forks next) : Outcome ε ForkManager) := by
  obtain ⟨first, rest, rfl⟩ := exists_cons_of_ne_nil hne
  simp only [verifyForks, Bool.and_eq_true, beq_iff_eq] at hverify
  have hsorted := pairwise_of_forksFollow hverify.2
  have hnew : ∀ h, ForkManager.new (first :: rest) h = ⟨first :: rest,
      (first :: rest).countP (fun fork => fork.activationHeight ≤ h) - 1⟩ := fun h => by
    rw [ForkManager.new, forkPosFromBlockNumber, orPrevious_eq hsorted]
  have hpos := @key_le_iff_lt_countP _ _ height _ hsorted
  have hpos' := @key_le_iff_lt_countP _ _ next _ hsorted
  have hle : height.toNat ≤ next.toNat ∧ next.toNat ≤ height.toNat + 1 := by
    rcases hnext with rfl | hnext
    · omega
    · omega
  have hmono : (first :: rest).countP (fun fork => fork.activationHeight ≤ height) ≤
      (first :: rest).countP (fun fork => fork.activationHeight ≤ next) :=
    countP_mono_left fun fork _ h => by
      simp only [decide_eq_true_eq, le_iff_toNat_le] at h ⊢
      omega
  have hone := (hpos (j := 0) rfl).mp (by rw [hverify.1]; exact UInt64.zero_le)
  have hlast := countP_le_length (p := fun fork : Fork => decide (fork.activationHeight ≤ next))
    (l := first :: rest)
  rw [hnew, hnew, ForkManager.registerBlock]
  generalize (first :: rest).countP (fun fork => fork.activationHeight ≤ height) = c at *
  generalize (first :: rest).countP (fun fork => fork.activationHeight ≤ next) = c' at *
  dsimp only
  rw [Nat.sub_add_cancel hone]
  split
  · next hend =>
    obtain rfl : c = c' := by omega
    rfl
  · next hend =>
    have hlt : c < (first :: rest).length := by omega
    have hget := List.getElem?_eq_getElem hlt
    have habove := (hpos hget).not.mpr (by omega)
    rw [le_iff_toNat_le] at habove
    rw [hget]
    show (if next < _ then _ else _) = _
    split
    · next hbefore =>
      have hout := (hpos' hget).not.mp (UInt64.not_le.mpr hbefore)
      obtain rfl : c = c' := by omega
      rfl
    · next hactive =>
      have hin := (hpos' hget).mp (UInt64.not_lt.mp hactive)
      -- the fork after the next one is later still
      have hout : ¬ c + 1 < c' := by
        intro hlater
        have hlt' : c + 1 < (first :: rest).length := by omega
        have hle' := (hpos' (List.getElem?_eq_getElem hlt')).mpr hlater
        have hordered := pairwise_iff_getElem.mp hsorted c (c + 1) hlt hlt' (Nat.lt_succ_self c)
        rw [le_iff_toNat_le] at hle'
        rw [lt_iff_toNat_lt] at hordered
        omega
      rw [show c' - 1 = c by omega]
      rfl

/-- A manager that starts at any height and gets consecutive heights, each once or more, has the
fork of the lookup after each call. -/
theorem forkManager_tracks (hverify : verifyForks forks = true) (hne : forks ≠ [])
    (start : UInt64) (heights : List UInt64) (height : UInt64)
    (hheights : (start :: (heights ++ [height])).IsChain fun a b => b = a ∨ b.toNat = a.toNat + 1) :
    ∃ m fork, (heights ++ [height]).foldlM ForkManager.registerBlock (ForkManager.new forks start) =
        (.ok m : Outcome ε ForkManager) ∧ m.activeForkIdx = forkPosFromBlockNumber forks height ∧
      m.activeFork = (.ok fork : Outcome ε Fork) ∧
      forks[forkPosFromBlockNumber forks height]? = some fork := by
  have hget := List.getElem?_eq_getElem
    (orPrevious_lt (x := height) hne : forkPosFromBlockNumber forks height < forks.length)
  refine ⟨ForkManager.new forks height, _, ?_, rfl, expect_eq_ok.mpr hget, hget⟩
  induction heights generalizing start with
  | nil =>
    obtain ⟨hnext, -⟩ := isChain_cons_cons.mp hheights
    rw [nil_append, foldlM_cons, registerBlock_next hverify hne hnext]
    rfl
  | cons next heights ih =>
    obtain ⟨hnext, hrest⟩ := isChain_cons_cons.mp hheights
    rw [cons_append, foldlM_cons, registerBlock_next hverify hne hnext]
    exact ih next hrest

/-- Two forks at neighbouring heights, and a height that is registered twice. -/
theorem forkManager_tracks_neighbours : ∃ m fork, [4, 5, 5, 6].foldlM ForkManager.registerBlock
        (ForkManager.new [⟨.genesis, 0⟩, ⟨.kumquat, 5⟩, ⟨.tangerine, 6⟩] 4) =
          (.ok m : Outcome Empty ForkManager) ∧ m.activeForkIdx = 2 ∧
      m.activeFork = (.ok fork : Outcome Empty Fork) ∧ fork.specId = .tangerine := by
  obtain ⟨m, fork, hrun, hidx, hactive, hfork⟩ := @forkManager_tracks Empty
    [⟨.genesis, 0⟩, ⟨.kumquat, 5⟩, ⟨.tangerine, 6⟩] rfl (by simp) 4 [4, 5, 5] 6 (by decide)
  exact ⟨m, fork, hrun, hidx, hactive, by cases hfork; rfl⟩

/-- Without forks there is nothing to register. -/
theorem registerBlock_without_forks : verifyForks [] = true ∧
    (ForkManager.new [] 0).registerBlock 0 =
      (Outcome.panic "index out of bounds" : Outcome Empty ForkManager) :=
  ⟨rfl, rfl⟩

end Citrea.Proofs
