import Citrea.Proofs.FullNode.Replay

/-!
# `Citrea.Proofs.FullNode.Resume`: the loops of a block after a crash

The two loops over what is pending, when the block is processed again after a crash. `LoopSpec` is
what both loops have in common. A crash in the loop, not right before a status, is resumed
(`LoopSpec.resumes`), and a loop that has come to its end has nothing left to do
(`LoopSpec.quiet_end`).
-/

namespace Citrea.Proofs.FullNode

open Option List Lib
open Lib.Script (CrashPoint Keeps Preserves Idle)
open Spec Spec.BatchProof Spec.FullNode
open Spec.FullNode.LedgerWrite renaming apply → write

variable {H C : Type} [DecidableEq H] {env : FullNodeEnv H C} {block : L1Block H}
  {f g : FullLedger H} {k : Nat} {w : LedgerWrite H} {c : SequencerCommitment H} {height : UInt64}

/-! ### Loops over what is pending -/

section Loop
variable {α : Type} {turn : α → Ledger H → Outcome Empty (List (LedgerWrite H) × LoopControl)}
  {e : α} {rest : List α} {writes : List (LedgerWrite H)} {control : LoopControl}

theorem loopScript_next (h : turn e f.ledger = .ok (writes, .next)) :
    loopScript turn (e :: rest) f =
      Script.seq write (Script.emit writes) (loopScript turn rest) f := by
  simp only [loopScript, h]
  rfl

theorem run_loopScript_next (h : turn e f.ledger = .ok (writes, .next)) :
    Script.run write (loopScript turn (e :: rest)) f =
      Script.run write (loopScript turn rest) (applyAll write writes f) := by
  have hseq : Script.run write (loopScript turn (e :: rest)) f = Script.run
      write (Script.seq write (Script.emit writes) (loopScript turn rest))
      f := by
    rw [Script.run, loopScript_next h, Script.run]
  rw [hseq, Script.run_seq, Script.run_emit]
  rfl

theorem loopScript_exit (h : turn e f.ledger = .ok (writes, .exit)) :
    loopScript turn (e :: rest) f = .ok ⟨writes, false⟩ := by
  simp only [loopScript, h]
  rfl

theorem loopScript_halt (h : turn e f.ledger = .ok (writes, .halt)) :
    loopScript turn (e :: rest) f = .ok ⟨writes, true⟩ := by
  simp only [loopScript, h]
  rfl

/-- What a loop that returns does with its first element. -/
inductive LoopCase (turn : α → Ledger H → Outcome Empty (List (LedgerWrite H) × LoopControl))
    (e : α) (rest : List α) (f : FullLedger H) : Trace (LedgerWrite H) → Prop
  | next (writes : List (LedgerWrite H)) (t : Trace (LedgerWrite H))
      (turn_eq : turn e f.ledger = .ok (writes, .next))
      (rest_eq : loopScript turn rest (applyAll write writes f) = .ok t) :
      LoopCase turn e rest f ⟨writes ++ t.writes, t.halted⟩
  | exit (writes : List (LedgerWrite H)) (turn_eq : turn e f.ledger = .ok (writes, .exit)) :
      LoopCase turn e rest f ⟨writes, false⟩
  | halt (writes : List (LedgerWrite H)) (turn_eq : turn e f.ledger = .ok (writes, .halt)) :
      LoopCase turn e rest f ⟨writes, true⟩

theorem loopScript_cons_ok {t : Trace (LedgerWrite H)} (h : loopScript turn (e :: rest) f = .ok t) :
    LoopCase turn e rest f t := by
  have hloop := h
  rw [loopScript, bind_eq_ok] at h
  obtain ⟨⟨writes, control⟩, hturn, -⟩ := h
  cases control with
  | next =>
    rw [loopScript_next hturn] at hloop
    obtain ⟨ta, hta, hend⟩ := Script.seq_eq_ok hloop
    obtain rfl : (⟨writes, false⟩ : Trace (LedgerWrite H)) = ta := Except.ok.inj hta
    rcases hend with ⟨hhalted, -⟩ | ⟨-, u, hu, rfl⟩
    · simp at hhalted
    · exact .next writes u hturn hu
  | exit =>
    obtain rfl := ok_unique (loopScript_exit hturn) hloop
    exact .exit writes hturn
  | halt =>
    obtain rfl := ok_unique (loopScript_halt hturn) hloop
    exact .halt writes hturn

/-- What holds of the writes of each turn holds of the writes of the loop. -/
theorem loopScript_writes {Q : LedgerWrite H → Prop}
    (hturn : ∀ e l writes control, turn e l = .ok (writes, control) → ∀ w ∈ writes, Q w)
    {entries : List α} {t : Trace (LedgerWrite H)} (h : loopScript turn entries f = .ok t) :
    ∀ w ∈ t.writes, Q w := by
  induction entries generalizing f t with
  | nil =>
    obtain rfl : (⟨[], false⟩ : Trace (LedgerWrite H)) = t := Except.ok.inj h
    exact fun w hw => absurd hw not_mem_nil
  | cons e rest ih =>
    cases loopScript_cons_ok h with
    | next writes u hwrites hu =>
      intro w hw
      rcases mem_append.mp hw with hfirst | hlater
      · exact hturn e f.ledger writes _ hwrites w hfirst
      · exact ih hu w hlater
    | exit writes hwrites => exact hturn e f.ledger writes _ hwrites
    | halt writes hwrites => exact hturn e f.ledger writes _ hwrites

/-- A loop over the elements `pend` of the ledger that can be resumed after a crash, where the
ledger has the property `P` at each moment:

- `keeps`: a turn keeps `P`;
- `next`: a turn that goes on has removed its element, or it has written nothing and the rest of the
  loop writes nothing;
- `stop`: a turn that leaves the loop changes nothing, and its writes are `Quiet`;
- `resume`: after a crash that is not right before a status, the same turn comes again and ends as
  without the crash. -/
structure LoopSpec (turn : α → Ledger H → Outcome Empty (List (LedgerWrite H) × LoopControl))
    (pend : Ledger H → List α) (P : Ledger H → Prop)
    (Quiet : List (LedgerWrite H) → Prop) : Prop where
  keeps : ∀ (f : FullLedger H) e rest writes control, P f.ledger → pend f.ledger = e :: rest →
    turn e f.ledger = .ok (writes, control) →
    ∀ k, P (applyAll write (writes.take k) f).ledger
  next : ∀ (f : FullLedger H) e rest writes, P f.ledger → pend f.ledger = e :: rest →
    turn e f.ledger = .ok (writes, .next) →
    pend (applyAll write writes f).ledger = rest ∨
      (writes = [] ∧ loopScript turn rest f = .ok ⟨[], false⟩)
  stop : ∀ (f : FullLedger H) e rest writes, P f.ledger → pend f.ledger = e :: rest →
    turn e f.ledger = .ok (writes, .exit) →
    Quiet writes ∧ applyAll write writes f = f
  resume : ∀ (f : FullLedger H) e rest writes control k w, P f.ledger → pend f.ledger = e :: rest →
    turn e f.ledger = .ok (writes, control) → writes[k]? = some w → w.isStatus = false →
    pend (applyAll write (writes.take k) f).ledger = e :: rest ∧
    ∃ writes', turn e (applyAll write (writes.take k) f).ledger = .ok (writes', control) ∧
      applyAll write writes' (applyAll write (writes.take k) f) =
        applyAll write writes f
  quiet_nil : Quiet []

variable {pend : Ledger H → List α} {P : Ledger H → Prop} {Quiet : List (LedgerWrite H) → Prop}
  {t : Trace (LedgerWrite H)}

/-- The induction over the turns of a loop. The last turn finds nothing pending, or leaves the loop,
or keeps its element, and then the rest of the loop does nothing. -/
theorem LoopSpec.induction (spec : LoopSpec turn pend P Quiet)
    {R : FullLedger H → Trace (LedgerWrite H) → Prop}
    (hnil : ∀ f, P f.ledger → pend f.ledger = [] → R f ⟨[], false⟩)
    (hkept : ∀ f e rest, P f.ledger → pend f.ledger = e :: rest → turn e f.ledger = .ok ([],
      .next) → loopScript turn rest f = .ok ⟨[], false⟩ → R f ⟨[], false⟩)
    (hstop : ∀ f e rest t control, P f.ledger → pend f.ledger = e :: rest → control ≠ .next →
      (t.halted = false → control = .exit) → turn e f.ledger = .ok (t.writes, control) → R f t)
    (hnext : ∀ f e rest writes t, P f.ledger → pend f.ledger = e :: rest → turn e f.ledger = .ok
      (writes, .next) → pend (applyAll write writes f).ledger = rest → R (applyAll
      write writes f) t → R f ⟨writes ++ t.writes, t.halted⟩) (hf : P f.ledger)
    (ht : loopScript turn (pend f.ledger) f = .ok t) : R f t := by
  generalize hentries : pend f.ledger = entries at ht
  induction entries generalizing f t with
  | nil =>
    obtain rfl : (⟨[], false⟩ : Trace (LedgerWrite H)) = t := Except.ok.inj ht
    exact hnil f hf hentries
  | cons e rest ih =>
    cases loopScript_cons_ok ht with
    | next writes u hturn hu =>
      rcases spec.next f e rest writes hf hentries hturn with hrest | ⟨rfl, hquiet⟩
      · have hkeeps := spec.keeps f e rest writes _ hf hentries hturn writes.length
        rw [take_length] at hkeeps
        exact hnext f e rest writes u hf hentries hturn hrest (ih hkeeps hrest hu)
      · obtain rfl := ok_unique hquiet hu
        exact hkept f e rest hf hentries hturn hquiet
    | exit writes hturn => exact hstop f e rest _ .exit hf hentries (by simp) (fun _ => rfl) hturn
    | halt writes hturn => exact hstop f e rest _ .halt hf hentries (by simp) (by simp) hturn

theorem LoopSpec.keepsAll (spec : LoopSpec turn pend P Quiet) :
    Keeps write (fun f : FullLedger H => P f.ledger)
      (fun f => loopScript turn (pend f.ledger) f) := by
  intro f t hf ht
  refine spec.induction (R := fun f t => ∀ k, P (applyAll write (t.writes.take k) f).ledger)
    (fun f hf _ k => ?_) (fun f e rest hf _ _ _ k => ?_) ?_ ?_ hf ht
  · rwa [take_nil]
  · rwa [take_nil]
  · intro f e rest t control hf hpend _ _ hturn k
    exact spec.keeps f e rest t.writes control hf hpend hturn k
  · intro f e rest writes t hf hpend hturn _ ih k
    rw [take_append, applyAll_append]
    rcases Nat.lt_or_ge k writes.length with hlt | hge
    · rw [Nat.sub_eq_zero_of_le (Nat.le_of_lt hlt)]
      exact spec.keeps f e rest writes _ hf hpend hturn k
    · rw [take_of_length_le hge]
      exact ih _

/-- A property that each turn keeps holds at the end of the loop. -/
theorem LoopSpec.preservesAll (spec : LoopSpec turn pend P Quiet) {R : FullLedger H → Prop}
    (hturn : ∀ (f : FullLedger H) e rest writes control, P f.ledger → R f →
      pend f.ledger = e :: rest → turn e f.ledger = .ok (writes, control) →
      R (applyAll write writes f)) :
    Preserves write (fun f : FullLedger H => P f.ledger ∧ R f)
      (fun f => loopScript turn (pend f.ledger) f) := by
  rintro f t ⟨hf, hr⟩ ht
  refine ⟨spec.keepsAll.preserves f t hf ht, ?_⟩
  refine spec.induction (R := fun f t => R f → R (applyAll write t.writes f))
    (fun _ _ _ hr => hr) (fun _ _ _ _ _ _ _ hr => hr) ?_ ?_ hf ht hr
  · intro f e rest t control hf hpend _ _ hwrites hr
    exact hturn f e rest t.writes control hf hr hpend hwrites
  · intro f e rest writes t hf hpend hwrites _ ih hr
    rw [applyAll_append]
    exact ih (hturn f e rest writes _ hf hr hpend hwrites)

/-- A crash in a loop. -/
theorem LoopSpec.resumes (spec : LoopSpec turn pend P Quiet) (hf : P f.ledger)
    (h : CrashPoint write (fun f => loopScript turn (pend f.ledger) f) f k w g)
    (hw : w.isStatus = false) :
    Script.run write (fun f => loopScript turn (pend f.ledger) f) g =
      Script.run write (fun f => loopScript turn (pend f.ledger) f) f := by
  show Script.run write (loopScript turn (pend g.ledger)) g =
    Script.run write (loopScript turn (pend f.ledger)) f
  obtain ⟨t, ht, hwrite, hg⟩ := h
  refine spec.induction (R := fun f t => ∀ k, t.writes[k]? = some w →
    g = applyAll write (t.writes.take k) f →
    Script.run write (loopScript turn (pend g.ledger)) g =
      Script.run write (loopScript turn (pend f.ledger)) f)
    (fun _ _ _ k hk => by simp at hk) (fun _ _ _ _ _ _ _ k hk => by simp at hk) ?_ ?_
    hf ht k hwrite hg
  · rintro f e rest t control hf hpend hlast - hturn k hk rfl
    obtain ⟨hpend', writes', hturn', hend⟩ :=
      spec.resume f e rest t.writes control k w hf hpend hturn hk hw
    rw [hpend, hpend']
    cases control with
    | next => exact absurd rfl hlast
    | exit =>
      rw [Script.run_of_eq (loopScript_exit hturn'), Script.run_of_eq (loopScript_exit hturn), hend]
    | halt =>
      rw [Script.run_of_eq (loopScript_halt hturn'), Script.run_of_eq (loopScript_halt hturn), hend]
  · intro f e rest writes t hf hpend hturn hrest ih k hk hg
    rw [hpend, run_loopScript_next hturn]
    rcases Nat.lt_or_ge k writes.length with hlt | hge
    · -- the crash is in this turn
      rw [List.getElem?_append_left hlt] at hk
      rw [take_append_of_le_length (Nat.le_of_lt hlt)] at hg
      subst hg
      obtain ⟨hpend', writes', hturn', hend⟩ :=
        spec.resume f e rest writes _ k w hf hpend hturn hk hw
      rw [hpend', run_loopScript_next hturn', hend]
    · rw [List.getElem?_append_right hge] at hk
      rw [take_append, take_of_length_le hge, applyAll_append] at hg
      exact (ih _ hk hg).trans (by rw [hrest])

/-- At the end of a loop nothing is pending, or a turn for the first element leaves the loop, or it
keeps the element. -/
theorem LoopSpec.ends (spec : LoopSpec turn pend P Quiet) (hf : P f.ledger)
    (ht : loopScript turn (pend f.ledger) f = .ok t) (hhalted : t.halted = false)
    (hg : g = applyAll write t.writes f) :
    pend g.ledger = [] ∨ ∃ e rest writes control, pend g.ledger = e :: rest ∧
      turn e g.ledger = .ok (writes, control) ∧ (control = .exit ∨ writes = []) ∧
      loopScript turn (e :: rest) g = .ok ⟨writes, false⟩ ∧ Quiet writes ∧
      applyAll write writes g = g := by
  revert hhalted hg
  refine spec.induction (R := fun f t => t.halted = false → g = applyAll write t.writes f → _)
    ?_ ?_ ?_ ?_ hf ht
  · rintro f - hpend - rfl
    exact .inl hpend
  · rintro f e rest - hpend hturn hquiet - rfl
    refine .inr ⟨e, rest, [], .next, hpend, hturn, .inr rfl, ?_, spec.quiet_nil, rfl⟩
    rw [loopScript_next hturn]
    exact congrArg (fun r => r >>= _) hquiet
  · intro f e rest t control hf hpend _ hexit hturn hhalted hg
    obtain rfl := hexit hhalted
    obtain ⟨hquiet, hsame⟩ := spec.stop f e rest t.writes hf hpend hturn
    obtain rfl : g = f := hg.trans hsame
    exact .inr ⟨e, rest, t.writes, .exit, hpend, hturn, .inl rfl, loopScript_exit hturn,
      hquiet, hsame⟩
  · intro f e rest writes t _ _ _ _ ih hhalted hg
    exact ih hhalted (hg.trans (applyAll_append ..))

/-- At the end of a loop there is nothing left to do. -/
theorem LoopSpec.quiet_end (spec : LoopSpec turn pend P Quiet) (hf : P f.ledger)
    (ht : loopScript turn (pend f.ledger) f = .ok t) (hhalted : t.halted = false)
    (hg : g = applyAll write t.writes f) :
    ∃ writes, loopScript turn (pend g.ledger) g = .ok ⟨writes, false⟩ ∧ Quiet writes ∧
      applyAll write writes g = g := by
  rcases spec.ends hf ht hhalted hg with hnone | ⟨e, rest, writes, control, hpend, -, -, hquiet⟩
  · exact ⟨[], by rw [hnone]; rfl, spec.quiet_nil, rfl⟩
  · exact ⟨writes, hpend ▸ hquiet⟩

/-- A loop without writes does nothing on a ledger on which its turns do the same. -/
theorem loopScript_congr {entries : List α} (hturn : ∀ e, turn e g.ledger = turn e f.ledger)
    (h : loopScript turn entries f = .ok ⟨[], false⟩) :
    loopScript turn entries g = .ok ⟨[], false⟩ := by
  induction entries with
  | nil => rfl
  | cons e rest ih =>
    generalize ht : (⟨[], false⟩ : Trace (LedgerWrite H)) = t at h
    cases loopScript_cons_ok h with
    | next writes u hf hu =>
      obtain ⟨happend, hhalted⟩ := Trace.mk.inj ht
      obtain ⟨rfl, hnil⟩ := append_eq_nil_iff.mp happend.symm
      have hrest : loopScript turn rest f = .ok ⟨[], false⟩ := by
        rw [hhalted, ← hnil]
        exact hu
      rw [← ht, loopScript_next ((hturn e).trans hf), Script.seq]
      exact congrArg (fun r => r >>= _) (ih hrest)
    | exit writes hf =>
      obtain rfl := (Trace.mk.inj ht).1
      exact loopScript_exit ((hturn e).trans hf)
    | halt => simp at ht

end Loop

/-! ### The loop over pending commitments -/

section Commitments
variable {c : SequencerCommitment H} {index : UInt32} {found : UInt64}
  {rest : List (UInt32 × SequencerCommitment H × UInt64)} {l : Ledger H} {height : UInt64}

omit [DecidableEq H] in
/-- A commitment that the loop tries again has a stored predecessor. -/
theorem linked_of_processable (h : processable l c.index c = true) : Linked l c := by
  rw [processable] at h
  split at h
  · next hone => exact .inl hone
  · exact .inr (isSome_iff_ne_none.mp h)

omit [DecidableEq H] in
theorem processable_put (h : processable l index c = true) (c' : SequencerCommitment H) :
    processable (l.putCommitmentByIndex c') index c = true := by
  rw [processable] at h ⊢
  split at h
  · rwa [if_pos ‹_›]
  · rw [if_neg ‹_›]
    show ((l.sequencerCommitmentByIndex.put c'.index c').get (index - 1)).isSome = true
    by_cases heq : index - 1 = c'.index
    · rw [heq, Table.get_put_self]
      rfl
    · rwa [Table.get_put_of_ne heq]

/-- A turn for a commitment that is stored already removes it. -/
theorem retryCommitmentTurn_stored (hagain : processable l index c = true)
    (h : l.getCommitmentByIndex c.index ≠ none) :
    retryCommitmentTurn env height index c found l =
      .ok ([.removePendingCommitment index], .next) := by
  rw [retryCommitmentTurn, if_pos hagain, processSequencerCommitment_done (.inl h)]
  rfl

theorem retryCommitmentTurn_congr {l' : Ledger H} (h : SameCommitments l l') (height : UInt64) :
    retryCommitmentTurn env height index c found l' =
      retryCommitmentTurn env height index c found l := by
  have hagain : processable l' index c = processable l index c := by
    rw [processable, Ledger.getHeadL2BlockHeight, h.blocks, Ledger.getCommitmentByIndex, h.stored]
    rfl
  rw [retryCommitmentTurn, hagain, processSequencerCommitment_congr h, retryCommitmentTurn]

omit [DecidableEq H] in
/-- The first pending commitment. -/
theorem LedgerInv.first_pending (h : LedgerInv env l)
    (hpend : l.getPendingCommitments = (index, c, found) :: rest) :
    l.getPendingCommitmentByIndex c.index = some (c, found) ∧ c.index = index ∧ index ≠ 0 := by
  have hget : l.getPendingCommitmentByIndex index = some (c, found) := by
    refine Table.mem_entries.mp ?_
    rw [show l.pendingSequencerCommitments.entries = _ from hpend]
    exact mem_cons_self
  obtain ⟨hindex, hzero⟩ := h.pending index _ hget
  replace hindex : c.index = index := hindex
  exact ⟨by rwa [hindex], hindex, hzero⟩

/-- Behind a commitment that stays pending, no commitment is tried. -/
theorem LedgerInv.stuck_behind (h : LedgerInv env f.ledger)
    (hpend : f.ledger.getPendingCommitments = (index, c, found) :: rest)
    (hfresh : f.ledger.getCommitmentByIndex c.index = none) :
    loopScript (fun e => retryCommitmentTurn env height e.1 e.2.1 e.2.2) rest f =
      .ok ⟨[], false⟩ := by
  obtain ⟨-, rfl, hzero⟩ := h.first_pending hpend
  cases rest with
  | nil => rfl
  | cons e rest =>
    -- the next key is greater, so its predecessor is not stored
    have hsorted := f.ledger.pendingSequencerCommitments.sorted
    rw [show f.ledger.pendingSequencerCommitments.entries = _ from hpend,
      pairwise_cons] at hsorted
    have hlt : c.index.toNat < e.1.toNat := hsorted.1 e mem_cons_self
    have hpred : f.ledger.getCommitmentByIndex (e.1 - 1) = none := by
      refine h.none_above hfresh hzero (e.1.toNat - 1 - c.index.toNat) _ ?_
      rw [UInt32.toNat_sub_of_le _ _ (by rw [UInt32.le_iff_toNat_le]; simp; omega)]
      simp
      omega
    have hone : e.1 ≠ 1 := by
      intro hone
      have hpos : c.index.toNat ≠ 0 := fun hz => hzero (UInt32.toNat_inj.mp hz)
      rw [hone] at hlt
      simp at hlt
      omega
    refine loopScript_exit ?_
    rw [retryCommitmentTurn, processable, if_neg hone, hpred]
    rfl

/-- The loop over pending commitments can be resumed. -/
theorem commitments_spec (env : FullNodeEnv H C) (block : L1Block H) (l₀ : Ledger H) :
    LoopSpec (fun e => retryCommitmentTurn env block.height e.1 e.2.1 e.2.2)
      (fun l : Ledger H => l.getPendingCommitments) (BlockInv env block l₀)
      (fun writes => writes = []) where
  keeps := by
    rintro f ⟨index, c, found⟩ rest writes control hf hpend hturn k
    obtain ⟨-, hindex, hzero⟩ := hf.toLedgerInv.first_pending hpend
    have hc : c.index ≠ 0 := fun hc => hzero (hindex.symm.trans hc)
    refine hf.applyAll ?_ k
    cases retryCommitmentTurn_ok hturn with
    | accept fresh linked start again =>
      exact acceptWrites_allowed hc fresh linked fun _ => ⟨trivial, trivial⟩
    | discard => exact ⟨trivial, trivial⟩
    | keep fresh _ trace again => exact trace.allowed hc
    | exit => trivial
    | halt => trivial
  next := by
    rintro f ⟨index, c, found⟩ rest writes hf hpend hturn
    obtain ⟨hget, rfl, hzero⟩ := hf.toLedgerInv.first_pending hpend
    cases retryCommitmentTurn_ok hturn with
    | accept fresh linked start again =>
      refine .inl ?_
      rw [applyAll_ledger]
      exact Table.entries_delete_head hpend
    | discard => exact .inl (Table.entries_delete_head hpend)
    | keep fresh _ trace again =>
      refine .inr ⟨?_, hf.toLedgerInv.stuck_behind hpend (not_commitmentDone.mp fresh).1⟩
      cases trace with
      | waiting => rfl
      | pending _ new =>
        rcases new with hunlinked | ⟨-, hnone⟩
        · exact absurd (linked_of_processable again) hunlinked
        · simp [hget] at hnone
  stop := by
    rintro f ⟨index, c, found⟩ rest writes hf hpend hturn
    cases retryCommitmentTurn_ok hturn with
    | exit => exact ⟨rfl, rfl⟩
  resume := by
    rintro f ⟨index, c, found⟩ rest writes control k w hf hpend hturn hwrite hw
    obtain ⟨hget, rfl, hzero⟩ := hf.toLedgerInv.first_pending hpend
    cases k with
    | zero => exact ⟨hpend, writes, hturn, rfl⟩
    | succ k =>
      cases retryCommitmentTurn_ok hturn with
      | discard => simp at hwrite
      | keep fresh _ trace again =>
        cases trace with
        | waiting => simp at hwrite
        | pending => simp at hwrite
      | exit => simp at hwrite
      | halt => simp at hwrite
      | accept fresh linked start again =>
        rcases Nat.lt_or_ge (k + 1) 4 with hlt | hge
        · -- before the commitment is stored
          have hlen : k + 1 < (acceptWrites block.height found c start).length := hlt
          rw [List.getElem?_append_left hlen] at hwrite
          rw [take_append_of_le_length (Nat.le_of_lt hlen)]
          obtain ⟨hledger, hagain⟩ := acceptWrites_take (f := f) (le_two_of_accept hwrite hw)
          rw [hledger]
          exact ⟨hpend, _, hturn, by rw [applyAll_append, hagain, applyAll_append]⟩
        · -- the commitment is stored with its status, and only its removal is left
          have hlen : (acceptWrites block.height found c start).length ≤ k + 1 := hge
          have hk : k + 1 < 5 := (List.getElem?_eq_some_iff.mp hwrite).1
          obtain rfl : k = 3 := by omega
          have htake : (acceptWrites block.height found c start ++
              [LedgerWrite.removePendingCommitment c.index]).take (3 + 1) =
              acceptWrites block.height found c start := rfl
          rw [htake, applyAll_ledger]
          refine ⟨hpend, [.removePendingCommitment c.index], retryCommitmentTurn_stored ?_ ?_, ?_⟩
          · exact processable_put again c
          · show (f.ledger.sequencerCommitmentByIndex.put c.index c).get c.index ≠ none
            rw [Table.get_put_self]
            exact some_ne_none c
          · rw [applyAll_append]
  quiet_nil := rfl

end Commitments

/-! ### The loop over pending proofs -/

section Proofs
variable {range : UInt32 × UInt32} {proof : Bytes} {found : UInt64}
  {rest : List ((UInt32 × UInt32) × Bytes × UInt64)}

/-- A turn for a proof whose range is proven already removes it. -/
theorem retryProofTurn_proven {height : UInt64} {l l' : Ledger H} {writes : List (LedgerWrite H)}
    {output : BatchProofCircuitOutput H}
    (h : processZkProof env height found proof l = .ok (.success, writes))
    (houtput : env.extractOutput proof = some output) (hhashes : l'.slotByHash = l.slotByHash)
    (hproven : l'.getHighestL2HeightForStatus .proven none =
      some ⟨output.lastL2Height, output.sequencerCommitmentIndexRange.2⟩) :
    retryProofTurn env height range proof found l' = .ok ([.removePendingProof range], .next) := by
  rw [retryProofTurn, processZkProof_proven h houtput hhashes hproven]
  rfl

/-- The loop over pending proofs can be resumed. -/
theorem proofs_spec (env : FullNodeEnv H C) (block : L1Block H) (l₀ : Ledger H) :
    LoopSpec (fun e => retryProofTurn env block.height e.1 e.2.1 e.2.2)
      (fun l : Ledger H => l.getPendingProofs) (BlockInv env block l₀) (fun _ => True) where
  keeps := by
    rintro f ⟨range, proof, found⟩ rest writes control hf hpend hturn k
    refine hf.applyAll ?_ k
    cases retryProofTurn_ok hturn with
    | accept _ fresh => exact proofAcceptWrites_allowed fresh fun _ => ⟨trivial, trivial⟩
    | discard => exact ⟨trivial, trivial⟩
    | keep valid => exact ⟨⟨_, valid.extract, rfl⟩, trivial⟩
    | exit => trivial
  next := by
    rintro f ⟨range, proof, found⟩ rest writes hf hpend hturn
    cases retryProofTurn_ok hturn with
    | accept => exact .inl (Table.entries_delete_head hpend)
    | discard => exact .inl (Table.entries_delete_head hpend)
  stop := by
    rintro f ⟨range, proof, found⟩ rest writes hf hpend hturn
    cases retryProofTurn_ok hturn with
    | exit => exact ⟨trivial, rfl⟩
    | keep valid =>
      -- the proof is stored again under its own key
      have hget : f.ledger.pendingProofs.get range = some (proof, found) := by
        refine Table.mem_entries.mp ?_
        rw [show f.ledger.pendingProofs.entries = _ from hpend]
        exact mem_cons_self
      obtain ⟨output', houtput', hrange⟩ := hf.proofs range _ hget
      obtain rfl := some_unique houtput' valid.extract
      refine ⟨trivial, ?_⟩
      show { f with ledger := f.ledger.storePendingProof _ proof found } = f
      rw [hrange, Ledger.storePendingProof, Table.put_eq_self hget]
  resume := by
    rintro f ⟨range, proof, found⟩ rest writes control k w hf hpend hturn hwrite hw
    cases k with
    | zero => exact ⟨hpend, writes, hturn, rfl⟩
    | succ k =>
      cases retryProofTurn_ok hturn with
      | discard => simp at hwrite
      | keep => simp at hwrite
      | exit => simp at hwrite
      | accept valid _ _ _ writes_eq =>
        have hk : k + 1 < 3 := (List.getElem?_eq_some_iff.mp hwrite).1
        have hcases : k = 0 ∨ k = 1 := by omega
        rcases hcases with rfl | rfl
        · -- the second write is the status
          obtain rfl := some.inj hwrite
          exact absurd hw (by simp [LedgerWrite.isStatus])
        · -- the range is proven, and only the removal is left
          refine ⟨hpend, [.removePendingProof range], ?_, rfl⟩
          exact retryProofTurn_proven writes_eq valid.extract rfl (getHighest_acceptProof hf.keys)
  quiet_nil := trivial

end Proofs

end Citrea.Proofs.FullNode
