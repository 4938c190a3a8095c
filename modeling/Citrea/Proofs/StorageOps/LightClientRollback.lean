import Citrea.Proofs.StorageOps.StateRollback

/-!
# `Citrea.Proofs.StorageOps.LightClientRollback`: light-client rollbacks under every schedule

`execute` computes the target version from the last scanned height. The task of the ledger, which is
running by then, overwrites this height with the target. If `execute` reads it before, the state is
rolled back by the number of blocks between the two heights. If it reads it after, the difference is
0, and the state keeps all its versions.

The proofs are deleted from the last key down, and the loop stops at the first height that is not
above the target. The keys are in the order of their little-endian bytes, so heights above the
target can come after that.

`run_inv` is the invariant over schedules: it says for each point of `execute` what was read, and
what the tasks have done. `execute_rolls_back_iff` puts the two conditions together.
-/

set_option linter.unusedSectionVars false

namespace Citrea.Proofs.StorageOps

open List Lib Spec.StorageOps
open TableKey (code)

/-! ### The proofs -/

/-- Every height above the target is after all heights up to it, in the order of the keys. -/
def SlotsInOrder {Proof : Type} (l1Target : UInt64) (proofs : Table SlotNumber Proof) : Prop :=
  ∀ e ∈ proofs.entries, ∀ e' ∈ proofs.entries, e'.1.height ≤ l1Target → l1Target < e.1.height →
    code e'.1 < code e.1

/-- A loop from the last key down reaches an entry if it does not stop before. -/
theorem mem_takeWhile_reverse {K V : Type} [TableKey K] (t : Table K V) {p : K × V → Bool}
    {e : K × V} : e ∈ t.entries.reverse.takeWhile p ↔
      e ∈ t.entries ∧ ∀ e' ∈ t.entries, code e.1 ≤ code e'.1 → p e' = true := by
  have hsorted : t.entries.reverse.Pairwise fun a b => code b.1 < code a.1 :=
    pairwise_reverse.mpr t.sorted
  have hreverse : ∀ e, e ∈ t.entries ↔ e ∈ t.entries.reverse := fun _ => mem_reverse.symm
  simp only [hreverse]
  generalize t.entries.reverse = entries at hsorted
  induction entries with
  | nil => simp
  | cons first entries ih =>
    rw [pairwise_cons] at hsorted
    have hrest := ih hsorted.2
    by_cases hp : p first = true
    · rw [takeWhile_cons_of_pos hp, mem_cons, mem_cons]
      constructor
      · rintro (rfl | he)
        · refine ⟨.inl rfl, fun e' he' hle => ?_⟩
          rcases mem_cons.mp he' with rfl | he'
          · exact hp
          · have hlt := hsorted.1 e' he'
            omega
        · obtain ⟨he, hall⟩ := hrest.mp he
          refine ⟨.inr he, fun e' he' hle => ?_⟩
          rcases mem_cons.mp he' with rfl | he'
          · exact hp
          · exact hall e' he' hle
      · rintro ⟨rfl | he, hall⟩
        · exact .inl rfl
        · exact .inr (hrest.mpr ⟨he, fun e' he' => hall e' (mem_cons_of_mem _ he')⟩)
    · rw [takeWhile_cons_of_neg hp]
      refine ⟨fun he => absurd he not_mem_nil, fun ⟨he, hall⟩ => ?_⟩
      refine absurd (hall first mem_cons_self ?_) hp
      rcases mem_cons.mp he with rfl | he
      · exact Nat.le_refl _
      · exact Nat.le_of_lt (hsorted.1 e he)

theorem mem_foldl_delete {K V : Type} [TableKey K] {l : List (K × V)} {t : Table K V} {e : K × V} :
    e ∈ (l.foldl (fun t e => t.delete e.1) t).entries ↔ e ∈ t.entries ∧ ∀ e' ∈ l, e.1 ≠ e'.1 := by
  induction l generalizing t with
  | nil => simp
  | cons first l ih =>
    rw [foldl_cons, ih, Table.mem_delete, forall_mem_cons, and_assoc]

/-- No proof above the target is left exactly if the keys of those proofs come last. -/
theorem rollbackSlotsByNumber_iff {Proof : Type} (l1Target : UInt64)
    (proofs : Table SlotNumber Proof) :
    (∀ e ∈ (rollbackSlotsByNumber l1Target proofs).entries, e.1.height ≤ l1Target) ↔
      SlotsInOrder l1Target proofs := by
  have hleft : ∀ e ∈ proofs.entries, e ∈ (rollbackSlotsByNumber l1Target proofs).entries ↔
      ∃ e' ∈ proofs.entries, code e.1 ≤ code e'.1 ∧ e'.1.height ≤ l1Target := by
    intro e he
    rw [rollbackSlotsByNumber, mem_foldl_delete]
    constructor
    · rintro ⟨-, hkept⟩
      by_contra hnone
      refine hkept e ((mem_takeWhile_reverse proofs).mpr ⟨he, fun e' he' hle => ?_⟩) rfl
      refine decide_eq_true fun hheight => hnone ⟨e', he', hle, hheight⟩
    · rintro ⟨e', he', hle, hheight⟩
      refine ⟨he, fun e'' he'' hkey => ?_⟩
      obtain ⟨-, hall⟩ := (mem_takeWhile_reverse proofs).mp he''
      have habove := of_decide_eq_true (hall e' he' (hkey ▸ hle))
      exact habove hheight
  constructor
  · intro hnone e he e' he' hheight habove
    by_contra hle
    have hkept := (hleft e he).mpr ⟨e', he', by omega, hheight⟩
    exact absurd (hnone e hkept) (UInt64.not_le.mpr habove)
  · intro horder e hkept
    have he : e ∈ proofs.entries := (mem_foldl_delete.mp hkept).1
    obtain ⟨e', he', hle, hheight⟩ := (hleft e he).mp hkept
    by_contra habove
    have hlt := horder e he e' he' hheight (UInt64.not_le.mp habove)
    omega

/-! ### The schedules -/

/-- The second step of `execute`, which reads the last scanned height, comes before the second step
of the ledger task, which writes it. -/
def ReadsFirst (schedule : List RollbackTask) : Prop :=
  ∃ before after, schedule = before ++ RollbackTask.main :: after ∧ before.count .main = 1 ∧
    before.count .ledger < 2

theorem readsFirst_concat (schedule : List RollbackTask) (task : RollbackTask) :
    ReadsFirst (schedule ++ [task]) ↔ ReadsFirst schedule ∨
      (task = .main ∧ schedule.count .main = 1 ∧ schedule.count .ledger < 2) := by
  constructor
  · rintro ⟨before, after, hsplit, hmain, hledger⟩
    rcases eq_nil_or_concat after with rfl | ⟨after, last, rfl⟩
    · obtain ⟨rfl, htask⟩ := append_inj' hsplit rfl
      exact .inr ⟨head_eq_of_cons_eq htask, hmain, hledger⟩
    · rw [concat_eq_append, ← cons_append, ← append_assoc] at hsplit
      obtain ⟨rfl, -⟩ := append_inj' hsplit rfl
      exact .inl ⟨before, after, rfl, hmain, hledger⟩
  · rintro (⟨before, after, rfl, hmain, hledger⟩ | ⟨rfl, hmain, hledger⟩)
    · exact ⟨before, after ++ [task], by rw [append_assoc, cons_append], hmain, hledger⟩
    · exact ⟨schedule, [], rfl, hmain, hledger⟩

/-- The first read comes at the second step, so later steps do not change what was read. -/
theorem count_of_readsFirst {schedule : List RollbackTask} (h : ReadsFirst schedule) :
    2 ≤ schedule.count .main := by
  obtain ⟨before, after, rfl, hmain, -⟩ := h
  rw [count_append, count_cons_self, hmain]
  omega

section
variable {P H Proof : Type}

/-- The height that `execute` reads under a schedule. -/
def ReadAs (l1Target lastScanned : UInt64) (schedule : List RollbackTask)
    (height : UInt64) : Prop :=
  (ReadsFirst schedule → height = lastScanned) ∧ (¬ReadsFirst schedule → height = l1Target)

theorem ReadAs.concat {l1Target lastScanned height : UInt64} {schedule : List RollbackTask}
    (h : ReadAs l1Target lastScanned schedule height) (hcount : 2 ≤ schedule.count .main)
    (task : RollbackTask) : ReadAs l1Target lastScanned (schedule ++ [task]) height := by
  have hsame : ReadsFirst (schedule ++ [task]) ↔ ReadsFirst schedule := by
    rw [readsFirst_concat, or_iff_left fun hnew => by omega]
  rw [ReadAs, hsame]
  exact h

/-- The ledger after so many steps of its task. -/
structure LedgerInv (l1Target : UInt64) (db : Databases P H Proof) (steps : Nat)
    (s : System P H Proof) : Prop where
  point : s.ledger = if steps = 0 then .start else if steps = 1 then .slotsRolledBack else .finished
  proofs : s.db.proofs = if steps = 0 then db.proofs else rollbackSlotsByNumber l1Target db.proofs
  lastScanned : s.db.lastScanned = if steps < 2 then db.lastScanned else some l1Target

/-- The state DB and its task, before and after the step of the task. -/
def StateInv (db : Databases P H Proof) (targetVersion : Nat) (s : System P H Proof) : Prop :=
  (s.stateTask = .spawned targetVersion ∧ s.db.state = db.state) ∨
  (s.stateTask = .finished ∧ s.db.state = match db.state.rollbackStateDb targetVersion with
    | .ok state => state
    | .error _ => db.state)

/-- The native DB and its task, before and after the step of the task. -/
def NativeInv (db : Databases P H Proof) (targetVersion : Nat) (s : System P H Proof) : Prop :=
  (s.nativeTask = .spawned targetVersion ∧ s.db.native = db.native) ∨
  (s.nativeTask = .finished ∧ s.db.native = rollbackNativeDb db.native targetVersion)

/-- Nothing was spawned, and the state DB and the native DB are as they were. -/
structure Untouched (db : Databases P H Proof) (s : System P H Proof) : Prop where
  stateTask : s.stateTask = .notSpawned
  nativeTask : s.nativeTask = .notSpawned
  state : s.db.state = db.state
  native : s.db.native = db.native

/-- What holds at each point of `execute`. -/
def MainInv (l1Target lastScanned : UInt64) (version : Nat) (db : Databases P H Proof)
    (schedule : List RollbackTask) (s : System P H Proof) : Prop :=
  match s.main with
  | .start => schedule.count .main = 0 ∧ Untouched db s
  | .versionRead target v =>
    target = l1Target ∧ v = version ∧ schedule.count .main = 1 ∧ Untouched db s
  | .joining => 2 ≤ schedule.count .main ∧ ∃ height, ReadAs l1Target lastScanned schedule height ∧
      height ≠ 0 ∧ StateInv db (version - (height.toNat - l1Target.toNat)) s ∧
      NativeInv db (version - (height.toNat - l1Target.toNat)) s
  | .returned (.ok ()) => 2 ≤ schedule.count .main ∧
      ∃ height, ReadAs l1Target lastScanned schedule height ∧
        ((height = 0 ∧ Untouched db s) ∨
          (height ≠ 0 ∧ s.ledger = .finished ∧ s.stateTask = .finished ∧ s.nativeTask = .finished ∧
            StateInv db (version - (height.toNat - l1Target.toNat)) s ∧
            NativeInv db (version - (height.toNat - l1Target.toNat)) s))
  | .returned (.error _) => False
  | .panicked => True

variable {l1Target lastScanned : UInt64} {version : Nat} {db : Databases P H Proof}
  {schedule : List RollbackTask} {s : System P H Proof} {steps : Nat}

variable (h : MainInv l1Target lastScanned version db schedule s)
include h

/-- The steps of the other tasks are not those of `execute`. -/
theorem MainInv.concat {task : RollbackTask} (htask : task ≠ .main) :
    MainInv l1Target lastScanned version db (schedule ++ [task]) s := by
  have hcount : (schedule ++ [task]).count .main = schedule.count .main := by
    rw [count_append, count_singleton, if_neg (by simpa using htask), Nat.add_zero]
  have hread : ∀ height, ReadAs l1Target lastScanned (schedule ++ [task]) height ↔
      ReadAs l1Target lastScanned schedule height := by
    intro height
    rw [ReadAs, readsFirst_concat, or_iff_left fun hmain => htask hmain.1]
    rfl
  rw [MainInv] at h ⊢
  simp only [hcount, hread]
  exact h

/-- What the invariant of `execute` looks at. -/
theorem MainInv.transfer {s' : System P H Proof} (hmain : s'.main = s.main)
    (huntouched : Untouched db s → Untouched db s')
    (hstate : ∀ n, StateInv db n s → StateInv db n s')
    (hnative : ∀ n, NativeInv db n s → NativeInv db n s')
    (hledger : s.ledger = .finished → s'.ledger = .finished)
    (hstateTask : s.stateTask = .finished → s'.stateTask = .finished)
    (hnativeTask : s.nativeTask = .finished → s'.nativeTask = .finished) :
    MainInv l1Target lastScanned version db schedule s' := by
  rw [MainInv] at h ⊢
  rw [hmain]
  match hpoint : s.main with
  | .start => rw [hpoint] at h; exact ⟨h.1, huntouched h.2⟩
  | .versionRead target v => rw [hpoint] at h; exact ⟨h.1, h.2.1, h.2.2.1, huntouched h.2.2.2⟩
  | .joining =>
    rw [hpoint] at h
    obtain ⟨hcount, height, hread, hne, hs, hn⟩ := h
    exact ⟨hcount, height, hread, hne, hstate _ hs, hnative _ hn⟩
  | .returned (.error e) => rw [hpoint] at h; exact h
  | .returned (.ok ()) =>
    rw [hpoint] at h
    obtain ⟨hcount, height, hread, hcase⟩ := h
    refine ⟨hcount, height, hread, ?_⟩
    rcases hcase with ⟨hzero, h⟩ | ⟨hne, hfinished, hs', hn', hs, hn⟩
    · exact .inl ⟨hzero, huntouched h⟩
    · exact .inr ⟨hne, hledger hfinished, hstateTask hs', hnativeTask hn', hstate _ hs,
        hnative _ hn⟩
  | .panicked => trivial

theorem MainInv.ledgerStep :
    MainInv l1Target lastScanned version db schedule (s.ledgerStep (some l1Target)) := by
  unfold System.ledgerStep
  cases hledger : s.ledger with
  | start =>
    exact h.transfer rfl (fun hu => ⟨hu.1, hu.2, hu.3, hu.4⟩) (fun _ hs => hs) (fun _ hn => hn)
      (fun hfinished => by cases hledger.symm.trans hfinished) id id
  | slotsRolledBack =>
    exact h.transfer rfl (fun hu => ⟨hu.1, hu.2, hu.3, hu.4⟩) (fun _ hs => hs) (fun _ hn => hn)
      (fun _ => rfl) id id
  | finished => exact h

omit h in
theorem LedgerInv.ledgerStep (h : LedgerInv l1Target db steps s) :
    LedgerInv l1Target db (steps + 1) (s.ledgerStep (some l1Target)) := by
  obtain ⟨hpoint, hproofs, hlast⟩ := h
  match steps with
  | 0 =>
    have hpoint : s.ledger = .start := hpoint
    unfold System.ledgerStep
    rw [hpoint]
    exact ⟨rfl, by rw [hproofs]; rfl, hlast⟩
  | 1 =>
    have hpoint : s.ledger = .slotsRolledBack := hpoint
    unfold System.ledgerStep
    rw [hpoint]
    exact ⟨rfl, hproofs, rfl⟩
  | n + 2 =>
    have hpoint : s.ledger = .finished := hpoint
    unfold System.ledgerStep
    rw [hpoint]
    refine ⟨hpoint, hproofs, ?_⟩
    rw [if_neg (by omega)] at hlast ⊢
    exact hlast

/-- The task of the state DB takes its step while `execute` waits for it. -/
theorem MainInv.stateStep : MainInv l1Target lastScanned version db schedule s.stateStep := by
  unfold System.stateStep
  cases htask : s.stateTask with
  | notSpawned => exact h
  | finished => exact h
  | spawned n =>
    refine h.transfer rfl (fun hu => ?_) (fun m hs => ?_) (fun _ hn => hn) id (fun _ => rfl) id
    · cases htask.symm.trans hu.1
    · rcases hs with ⟨hspawned, hstate⟩ | ⟨hfinished, -⟩
      · obtain rfl := DbTask.spawned.inj (htask.symm.trans hspawned)
        exact .inr ⟨rfl, hstate ▸ rfl⟩
      · cases htask.symm.trans hfinished

theorem MainInv.nativeStep : MainInv l1Target lastScanned version db schedule s.nativeStep := by
  unfold System.nativeStep
  cases htask : s.nativeTask with
  | notSpawned => exact h
  | finished => exact h
  | spawned n =>
    refine h.transfer rfl (fun hu => ?_) (fun _ hs => hs) (fun m hn => ?_) id id (fun _ => rfl)
    · cases htask.symm.trans hu.2
    · rcases hn with ⟨hspawned, hnative⟩ | ⟨hfinished, -⟩
      · obtain rfl := DbTask.spawned.inj (htask.symm.trans hspawned)
        exact .inr ⟨rfl, hnative ▸ rfl⟩
      · cases htask.symm.trans hfinished

/-- The step of `execute`, by the point at which it stands. -/
theorem MainInv.mainStep (hledger : LedgerInv l1Target db (schedule.count .ledger) s)
    (hlast : db.lastScanned.getD 0 = lastScanned) (hversion : db.state.nextVersion = version + 1)
    (htarget : l1Target ≤ lastScanned) :
    MainInv l1Target lastScanned version db (schedule ++ [.main]) (s.mainStep (some l1Target)) := by
  have hcount : (schedule ++ [RollbackTask.main]).count .main = schedule.count .main + 1 := by
    rw [count_append, count_singleton_self]
  unfold MainInv at h
  match hpoint : s.main with
  | .start =>
    rw [hpoint] at h
    obtain ⟨hzero, huntouched⟩ := h
    unfold System.mainStep MainInv
    rw [hpoint]
    refine ⟨rfl, ?_, by rw [hcount, hzero], huntouched.1, huntouched.2, huntouched.3, huntouched.4⟩
    rw [huntouched.3, hversion, Nat.add_sub_cancel]
  | .versionRead target v =>
    rw [hpoint] at h
    obtain ⟨rfl, rfl, hone, huntouched⟩ := h
    have hread : ReadAs target lastScanned (schedule ++ [.main]) (s.db.lastScanned.getD 0) := by
      rw [hledger.lastScanned]
      constructor
      · intro hfirst
        rcases (readsFirst_concat _ _).mp hfirst with hbefore | ⟨-, -, hlt⟩
        · have htwo := count_of_readsFirst hbefore
          omega
        · rw [if_pos hlt, hlast]
      · intro hlater
        rw [if_neg fun hlt => hlater ((readsFirst_concat _ _).mpr (.inr ⟨rfl, hone, hlt⟩))]
        rfl
    have hstep : s.mainStep (some target) =
        s.spawnRollbacks target v (s.db.lastScanned.getD 0) := by
      unfold System.mainStep
      rw [hpoint]
    rw [hstep]
    generalize s.db.lastScanned.getD 0 = height at hread
    have htwo : 2 ≤ (schedule ++ [RollbackTask.main]).count .main := by rw [hcount, hone]
    unfold System.spawnRollbacks
    split
    · next hbelow =>
      -- Both heights that can be read are at least the target.
      by_cases hfirst : ReadsFirst (schedule ++ [.main])
      · rw [hread.1 hfirst] at hbelow
        exact absurd htarget (UInt64.not_le.mpr hbelow)
      · rw [hread.2 hfirst] at hbelow
        exact absurd hbelow (UInt64.lt_irrefl _)
    split
    · next hzero =>
      exact ⟨htwo, height, hread,
        .inl ⟨hzero, huntouched.1, huntouched.2, huntouched.3, huntouched.4⟩⟩
    · next hne =>
      split
      · trivial
      · exact ⟨htwo, height, hread, hne, .inl ⟨rfl, huntouched.3⟩, .inl ⟨rfl, huntouched.4⟩⟩
  | .joining =>
    rw [hpoint] at h
    obtain ⟨htwo, height, hread, hne, hstate, hnative⟩ := h
    have htwo' : 2 ≤ (schedule ++ [RollbackTask.main]).count .main := by omega
    have hread' := hread.concat htwo .main
    unfold System.mainStep
    rw [hpoint]
    dsimp only
    split
    · next hdone =>
      obtain ⟨hfinished, hs, hn⟩ := hdone
      have hstateTask : s.stateTask = .finished := by
        rcases hstate with ⟨hspawned, -⟩ | ⟨hfinished, -⟩
        · exact absurd ⟨by rw [hspawned]; simp, by rw [hspawned]; simp⟩ hs
        · exact hfinished
      have hnativeTask : s.nativeTask = .finished := by
        rcases hnative with ⟨hspawned, -⟩ | ⟨hfinished, -⟩
        · exact absurd ⟨by rw [hspawned]; simp, by rw [hspawned]; simp⟩ hn
        · exact hfinished
      exact ⟨htwo', height, hread', .inr ⟨hne, hfinished, hstateTask, hnativeTask, hstate, hnative⟩⟩
    · unfold MainInv
      rw [hpoint]
      exact ⟨htwo', height, hread', hne, hstate, hnative⟩
  | .returned (.error e) => rw [hpoint] at h; exact h.elim
  | .returned (.ok ()) =>
    rw [hpoint] at h
    obtain ⟨htwo, height, hread, hcase⟩ := h
    unfold System.mainStep MainInv
    simp only [hpoint]
    exact ⟨by omega, height, hread.concat htwo .main, hcase⟩
  | .panicked =>
    unfold System.mainStep MainInv
    simp [hpoint]

omit h

/-- The other tasks leave the ledger alone. -/
theorem LedgerInv.stateStep (h : LedgerInv l1Target db steps s) :
    LedgerInv l1Target db steps s.stateStep := by
  unfold System.stateStep
  split
  · exact ⟨h.1, h.2, h.3⟩
  · exact h

theorem LedgerInv.nativeStep (h : LedgerInv l1Target db steps s) :
    LedgerInv l1Target db steps s.nativeStep := by
  unfold System.nativeStep
  split
  · exact ⟨h.1, h.2, h.3⟩
  · exact h

theorem LedgerInv.mainStep (h : LedgerInv l1Target db steps s) (target : Option UInt64) :
    LedgerInv l1Target db steps (s.mainStep target) := by
  have hsame : (s.mainStep target).ledger = s.ledger ∧ (s.mainStep target).db = s.db := by
    unfold System.mainStep System.spawnRollbacks
    repeat' split
    all_goals exact ⟨rfl, rfl⟩
  exact ⟨hsame.1.trans h.1, by rw [hsame.2]; exact h.2, by rw [hsame.2]; exact h.3⟩

/-- The invariant over schedules. -/
theorem run_inv (hlast : db.lastScanned.getD 0 = lastScanned)
    (hversion : db.state.nextVersion = version + 1) (htarget : l1Target ≤ lastScanned)
    (schedule : List RollbackTask) :
    LedgerInv l1Target db (schedule.count .ledger) (System.run (some l1Target) schedule db) ∧
    MainInv l1Target lastScanned version db schedule (System.run (some l1Target) schedule db) := by
  induction schedule using List.reverseRecOn with
  | nil => exact ⟨⟨rfl, rfl, rfl⟩, rfl, rfl, rfl, rfl, rfl⟩
  | append_singleton schedule task ih =>
    obtain ⟨hledger, hmain⟩ := ih
    have hrun : System.run (some l1Target) (schedule ++ [task]) db =
        (System.run (some l1Target) schedule db).step (some l1Target) task := by
      rw [System.run, foldl_append]
      rfl
    have hcount : task ≠ .ledger →
        (schedule ++ [task]).count .ledger = schedule.count .ledger := by
      intro hne
      rw [count_append, count_singleton, if_neg (by simpa using hne), Nat.add_zero]
    rw [hrun]
    generalize System.run (some l1Target) schedule db = s at hledger hmain
    cases task with
    | main =>
      rw [hcount (by decide)]
      exact ⟨hledger.mainStep (some l1Target), hmain.mainStep hledger hlast hversion htarget⟩
    | ledger =>
      rw [count_append, count_singleton_self]
      exact ⟨hledger.ledgerStep, hmain.ledgerStep.concat (by decide)⟩
    | state =>
      rw [hcount (by decide)]
      exact ⟨hledger.stateStep, hmain.stateStep.concat (by decide)⟩
    | native =>
      rw [hcount (by decide)]
      exact ⟨hledger.nativeStep, hmain.nativeStep.concat (by decide)⟩

end

/-! ### The databases afterwards -/

section
variable {P H Proof : Type} [DecidableEq P] [DecidableEq H]

/-- The databases of a light client that scanned the L1 up to `lastScanned`, with one version of the
state for each scanned block. The accessors of the light client insert values and delete none. -/
structure LightClientDb (jmt : Jmt P H) (db : Databases P H Proof) (lastScanned : UInt64)
    (version : Nat) : Prop where
  scanned : db.lastScanned.getD 0 = lastScanned
  state : ∃ logs, logs.length = version ∧ (∀ log ∈ logs, ∀ e ∈ log.writes, e.2 ≠ none) ∧
    StateDb.executeBlocks jmt StateDb.empty logs = .ok db.state
  native : ∀ key n, version < n → db.native key n = none
  proofs : ∀ e ∈ db.proofs.entries, e.1.height ≤ lastScanned
  version_le : version ≤ lastScanned.toNat

/-- The databases hold the versions up to `version` and no later ones. -/
structure HoldUpTo (db : Databases P H Proof) (version : Nat) (final : Databases P H Proof) :
    Prop where
  nodes : final.state.nodes = upTo db.state.nodes version
  values : final.state.values = db.state.values.upTo version
  native : final.native = db.native.upTo version

/-- A rollback to the height `l1Target`, where the state has the version `version`. -/
structure RolledBack (db : Databases P H Proof) (l1Target : UInt64) (version : Nat)
    (final : Databases P H Proof) : Prop where
  versions : HoldUpTo db version final
  scanned : final.lastScanned.getD 0 = l1Target
  proofs : ∀ e ∈ final.proofs.entries, e.1.height ≤ l1Target

variable {jmt : Jmt P H} {db : Databases P H Proof} {lastScanned l1Target : UInt64} {version : Nat}
  {target steps : Nat} {final : Databases P H Proof} {s : System P H Proof}

theorem rollbackNativeDb_eq (native : Versioned Bytes (Option Bytes)) (target : Nat) :
    rollbackNativeDb native target = native.upTo target := by
  funext key n
  rw [rollbackNativeDb, Versioned.upTo]
  by_cases hn : n ≤ target
  · rw [if_neg (by omega), if_pos hn]
  · rw [if_pos (by omega), if_neg hn]

/-- What the task of the state DB leaves, also if it panics on an empty database. -/
theorem stateTask_spec (hjmt : JmtSpec jmt) (hdb : LightClientDb jmt db lastScanned version)
    {state : StateDb P H} (h : state =
      match db.state.rollbackStateDb target with
      | .ok state => state
      | .error _ => db.state) :
    state.nodes = upTo db.state.nodes target ∧ state.values = db.state.values.upTo target := by
  obtain ⟨logs, -, hputs, hrun⟩ := hdb.state
  by_cases hne : logs = []
  · subst hne
    have hempty : StateDb.empty = db.state := Except.ok.inj hrun
    rw [← hempty] at h ⊢
    obtain rfl : state = StateDb.empty := h
    refine ⟨rfl, ?_⟩
    funext key n
    rw [Versioned.upTo]
    split
    · rfl
    · rfl
  · rw [rollbackStateDb_eq hjmt hne hrun] at h
    subst h
    refine ⟨rfl, ?_⟩
    obtain ⟨state, hrun', -, hvalues⟩ := executeBlocks_empty hjmt logs
    obtain rfl := ok_unique hrun hrun'
    funext key n
    show rolledValues db.state.values target key n = _
    rw [rolledValues, Versioned.upTo]
    refine if_congr Iff.rfl rfl (if_neg fun hdeleted => ?_)
    rw [hvalues] at hdeleted
    cases n with
    | zero => cases hdeleted
    | succ n =>
      obtain ⟨log, hlog, hwritten⟩ := Option.bind_eq_some_iff.mp hdeleted
      exact hputs log (mem_of_getElem? hlog) _ (written_eq_some.mp hwritten) rfl

/-- A database with the version `version` holds no later one. -/
theorem holdUpTo_self (hjmt : JmtSpec jmt) (hdb : LightClientDb jmt db lastScanned version) :
    HoldUpTo db version db := by
  obtain ⟨logs, rfl, -, hrun⟩ := hdb.state
  obtain ⟨state, hrun', hat, hvalues⟩ := executeBlocks_empty hjmt logs
  obtain rfl := ok_unique hrun hrun'
  refine ⟨(upTo_of_le hat.version_le).symm, ?_, ?_⟩
  · funext key n
    rw [Versioned.upTo]
    split
    · rfl
    · next hn => rw [hvalues, recordAt_of_lt (by omega)]
  · funext key n
    rw [Versioned.upTo]
    split
    · rfl
    · next hn => exact hdb.native key n (by omega)

/-- Databases with all versions of the state hold the versions up to `target` only if there are no
others. -/
theorem eq_of_holdUpTo (hjmt : JmtSpec jmt) (hdb : LightClientDb jmt db lastScanned version)
    (hfinal : HoldUpTo db version final) (h : HoldUpTo db target final) : version ≤ target := by
  obtain ⟨logs, rfl, -, hrun⟩ := hdb.state
  obtain ⟨state, hrun', hat, -⟩ := executeBlocks_empty hjmt logs
  obtain rfl := ok_unique hrun hrun'
  rcases hat with ⟨-, hzero⟩ | ⟨-, hlast⟩
  · omega
  · obtain ⟨⟨e, he, hversion⟩, -⟩ := largestVersion_eq_some.mp hlast
    have hmem : e ∈ (upTo db.state.nodes logs.length).entries :=
      mem_filter.mpr ⟨he, decide_eq_true (by omega)⟩
    rw [← hfinal.nodes, h.nodes] at hmem
    have hle := of_decide_eq_true (mem_filter.mp hmem).2
    omega

/-- If the height was read after the write, the state keeps all its versions. This is right if there
was nothing to roll back. -/
theorem holdUpTo_iff_of_all (hjmt : JmtSpec jmt) (hdb : LightClientDb jmt db lastScanned version)
    (htarget : l1Target ≤ lastScanned) (hfinal : HoldUpTo db version final) :
    HoldUpTo db (version - (lastScanned.toNat - l1Target.toNat)) final ↔
      l1Target = lastScanned ∨ version = 0 := by
  have hle : l1Target.toNat ≤ lastScanned.toNat := UInt64.le_iff_toNat_le.mp htarget
  rw [← UInt64.toNat_inj]
  constructor
  · intro h
    have hversion := eq_of_holdUpTo hjmt hdb hfinal h
    omega
  · intro h
    have hsame : version - (lastScanned.toNat - l1Target.toNat) = version := by omega
    rwa [hsame]

/-- After the task of the ledger. -/
theorem rolledBack_iff_of_ledger (h : LedgerInv l1Target db steps s) (hsteps : 2 ≤ steps)
    (target : Nat) : RolledBack db l1Target target s.db ↔
      SlotsInOrder l1Target db.proofs ∧ HoldUpTo db target s.db := by
  have hproofs := h.proofs
  have hlast := h.lastScanned
  rw [if_neg (by omega)] at hproofs hlast
  rw [← rollbackSlotsByNumber_iff, ← hproofs]
  constructor
  · rintro ⟨hversions, -, hslots⟩
    exact ⟨hslots, hversions⟩
  · rintro ⟨hslots, hversions⟩
    exact ⟨hversions, by rw [hlast]; rfl, hslots⟩

theorem LedgerInv.two_le (h : LedgerInv l1Target db steps s) (hfinished : s.ledger = .finished) :
    2 ≤ steps := by
  have hpoint := h.point
  rw [hfinished] at hpoint
  match steps with
  | 0 => cases hpoint
  | 1 => cases hpoint
  | n + 2 => omega

/-- Either the height is read first, or the ledger task has taken both its steps. -/
theorem readsFirst_or_ledger {schedule : List RollbackTask} (h : 2 ≤ schedule.count .main) :
    ReadsFirst schedule ∨ 2 ≤ schedule.count .ledger := by
  induction schedule using List.reverseRecOn with
  | nil => cases h
  | append_singleton schedule task ih =>
    rw [readsFirst_concat]
    have hmono : schedule.count .ledger ≤ (schedule ++ [task]).count .ledger := by
      rw [count_append]
      omega
    by_cases hbefore : 2 ≤ schedule.count .main
    · rcases ih hbefore with hfirst | htwo
      · exact .inl (.inl hfirst)
      · exact .inr (by omega)
    · rw [count_append, count_singleton] at h
      have htask : task = .main := by
        by_contra hne
        rw [if_neg (by simpa using hne)] at h
        omega
      subst htask
      rw [if_pos (by rfl)] at h
      by_cases hledger : schedule.count .ledger < 2
      · exact .inl (.inr ⟨rfl, by omega, hledger⟩)
      · exact .inr (by omega)

/-- The rollback of a light client to a height that it has scanned. `execute` returns no error. When
it returns, the databases are rolled back exactly if the keys of the proofs above the target come
last, and the last scanned height was read before the task of the ledger wrote it, or there was
nothing to roll back in the state. -/
theorem execute_rolls_back_iff (hjmt : JmtSpec jmt)
    (hdb : LightClientDb jmt db lastScanned version) (htarget : l1Target ≤ lastScanned)
    (schedule : List RollbackTask) :
    (∀ e, (System.run (some l1Target) schedule db).main ≠ .returned (.error e)) ∧
    ((System.run (some l1Target) schedule db).main = .returned (.ok ()) →
      (RolledBack db l1Target (version - (lastScanned.toNat - l1Target.toNat))
          (System.run (some l1Target) schedule db).db ↔ SlotsInOrder l1Target db.proofs ∧
          (ReadsFirst schedule ∨ l1Target = lastScanned ∨ version = 0))) := by
  have hversion : db.state.nextVersion = version + 1 := by
    obtain ⟨logs, rfl, -, hrun⟩ := hdb.state
    obtain ⟨state, hrun', hat, -⟩ := executeBlocks_empty hjmt logs
    obtain rfl := ok_unique hrun hrun'
    exact hat.nextVersion
  obtain ⟨hledger, hmain⟩ := run_inv hdb.scanned hversion htarget schedule
  generalize System.run (some l1Target) schedule db = s at hledger hmain ⊢
  rw [MainInv] at hmain
  refine ⟨fun e herror => by rw [herror] at hmain; exact hmain, fun hok => ?_⟩
  rw [hok] at hmain
  obtain ⟨hcount, height, hread, hcase⟩ := hmain
  rcases hcase with ⟨hzero, huntouched⟩ | ⟨hne, hfinished, hstateTask, hnativeTask, hstate, hnative⟩
  · -- `execute` returned early, and the state was not touched.
    have hself := holdUpTo_self hjmt hdb
    have hall : HoldUpTo db version s.db :=
      ⟨by rw [huntouched.state]; exact hself.nodes, by rw [huntouched.state]; exact hself.values,
        by rw [huntouched.native]; exact hself.native⟩
    by_cases hfirst : ReadsFirst schedule
    · -- No block was scanned.
      have hscanned : lastScanned = 0 := (hread.1 hfirst).symm.trans hzero
      have htargetZero : l1Target = 0 := by
        rw [hscanned] at htarget
        exact UInt64.le_zero_iff.mp htarget
      subst hscanned htargetZero
      have hkept : ∀ e ∈ s.db.proofs.entries, e ∈ db.proofs.entries := by
        intro e he
        rw [hledger.proofs] at he
        split at he
        · exact he
        · exact (mem_foldl_delete.mp he).1
      refine iff_of_true ⟨hall, ?_, fun e he => hdb.proofs e (hkept e he)⟩ ⟨?_, .inl hfirst⟩
      · rw [hledger.lastScanned]
        split
        · exact hdb.scanned
        · rfl
      · intro e he _ _ _ habove
        exact absurd (hdb.proofs e he) (UInt64.not_le.mpr habove)
    · have hsteps := (readsFirst_or_ledger hcount).resolve_left hfirst
      rw [rolledBack_iff_of_ledger hledger hsteps, holdUpTo_iff_of_all hjmt hdb htarget hall,
        or_iff_right hfirst]
  · have hsteps := hledger.two_le hfinished
    rw [rolledBack_iff_of_ledger hledger hsteps]
    have hrolled := hstate.resolve_left fun h => by rw [hstateTask] at h; cases h.1
    have hnativeRolled := hnative.resolve_left fun h => by rw [hnativeTask] at h; cases h.1
    obtain ⟨hnodes, hvalues⟩ := stateTask_spec hjmt hdb hrolled.2
    have hhold : HoldUpTo db (version - (height.toNat - l1Target.toNat)) s.db :=
      ⟨hnodes, hvalues, hnativeRolled.2.trans (rollbackNativeDb_eq _ _)⟩
    by_cases hfirst : ReadsFirst schedule
    · rw [hread.1 hfirst] at hhold
      exact and_congr_right fun _ => ⟨fun _ => .inl hfirst, fun _ => hhold⟩
    · rw [hread.2 hfirst, Nat.sub_self, Nat.sub_zero] at hhold
      rw [holdUpTo_iff_of_all hjmt hdb htarget hhold, or_iff_right hfirst]

end

/-! ### Two light clients that scanned two blocks -/

def sampleLogs : List StateWrites := [putOne [1] [7], putOne [1] [8]]

def sampleState : StateDb Bytes Bytes :=
  match StateDb.executeBlocks flatJmt StateDb.empty sampleLogs with
  | .ok state => state
  | .error _ => StateDb.empty

/-- The databases of a light client that scanned the blocks `height` and `height + 1`. -/
def sampleDb (height : UInt64) : Databases Bytes Bytes Unit where
  proofs := (Table.empty.put ⟨height⟩ ()).put ⟨height + 1⟩ ()
  lastScanned := some (height + 1)
  state := sampleState
  native := Versioned.empty

theorem sampleDb_scanned {height : UInt64} (hheight : height < height + 1)
    (hpos : 1 ≤ height.toNat) : LightClientDb flatJmt (sampleDb height) (height + 1) 2 where
  scanned := rfl
  state := by
    refine ⟨sampleLogs, rfl, ?_, ?_⟩
    · intro log hlog e he
      simp only [sampleLogs, mem_cons, not_mem_nil, or_false] at hlog
      rcases hlog with rfl | rfl <;>
      · obtain rfl := mem_singleton.mp he
        exact Option.some_ne_none _
    · obtain ⟨state, hrun, -⟩ := executeBlocks_empty flatJmt_spec sampleLogs
      show _ = Except.ok sampleState
      rw [sampleState, hrun]
  native := fun _ _ _ => rfl
  proofs := by
    intro e he
    rcases Table.mem_put.mp he with rfl | ⟨he, -⟩
    · exact UInt64.le_refl _
    · rcases Table.mem_put.mp he with rfl | ⟨he, -⟩
      · exact UInt64.le_of_lt hheight
      · cases he
  version_le := by
    have hlt := UInt64.lt_iff_toNat_lt.mp hheight
    omega

/-- The task of the ledger runs before `execute` reads the last scanned height. -/
def ledgerFirst : List RollbackTask := [.ledger, .ledger, .main, .main, .state, .native, .main]

/-- The task of the ledger runs after `execute` has read the last scanned height. -/
def mainFirst : List RollbackTask := [.main, .main, .ledger, .ledger, .state, .native, .main]

/-- A rollback by one block from the height 10 leaves the state at its version, if the ledger task
comes first. A rollback from the height 256 to 255 leaves the proof of 256, in any case. -/
theorem execute_keeps_version_and_proof :
    (JmtSpec flatJmt ∧ LightClientDb flatJmt (sampleDb 9) 10 2 ∧
      (System.run (some 9) ledgerFirst (sampleDb 9)).main = .returned (.ok ()) ∧
      ¬RolledBack (sampleDb 9) 9 1 (System.run (some 9) ledgerFirst (sampleDb 9)).db) ∧
    (LightClientDb flatJmt (sampleDb 255) 256 2 ∧
      (System.run (some 255) mainFirst (sampleDb 255)).main = .returned (.ok ()) ∧
      ¬RolledBack (sampleDb 255) 255 1 (System.run (some 255) mainFirst (sampleDb 255)).db) := by
  refine ⟨⟨flatJmt_spec, sampleDb_scanned (by decide) (by decide), rfl, fun h => ?_⟩,
    sampleDb_scanned (by decide) (by decide), rfl, fun h => ?_⟩
  · have hlargest : (System.run (some 9) ledgerFirst (sampleDb 9)).db.state.nodes.largestVersion =
        some 2 := by decide +kernel
    rw [h.versions.nodes] at hlargest
    exact absurd hlargest (by decide +kernel)
  · have hmem : (⟨256⟩, ()) ∈
        (System.run (some 255) mainFirst (sampleDb 255)).db.proofs.entries := by decide +kernel
    exact absurd (h.proofs _ hmem) (by decide)

theorem mainFirst_rolls_back :
    JmtSpec flatJmt ∧ LightClientDb flatJmt (sampleDb 9) 10 2 ∧ (9 : UInt64) ≤ 10 ∧
    RolledBack (sampleDb 9) 9 1 (System.run (some 9) mainFirst (sampleDb 9)).db := by
  have hdb : LightClientDb flatJmt (sampleDb 9) 10 2 := sampleDb_scanned (by decide) (by decide)
  have horder : SlotsInOrder 9 (sampleDb 9).proofs := by
    show ∀ e ∈ (sampleDb 9).proofs.entries, _
    decide +kernel
  have hfirst : ReadsFirst mainFirst := ⟨[.main], _, rfl, rfl, by decide⟩
  have htarget : (9 : UInt64) ≤ 10 := by decide
  have hexecute := execute_rolls_back_iff flatJmt_spec hdb htarget mainFirst
  exact ⟨flatJmt_spec, hdb, htarget, (hexecute.2 rfl).mpr ⟨horder, .inl hfirst⟩⟩

end Citrea.Proofs.StorageOps
