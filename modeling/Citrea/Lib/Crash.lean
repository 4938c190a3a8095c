import Citrea.Lib.Outcome

/-!
# `Citrea.Lib.Crash`: writes that a crash can interrupt

A script reads the state and returns the writes that it makes, in their order, and whether it stops
early. A crash after `k` writes leaves the state after the first `k` of them. Then the script runs
again, on that state.

`Script.run` is the state at the end. A script resumes from the state `g` of a crash if `run` is the
same from `g` as from the start. `CrashPoint.seq` finds the script of a crash in two scripts in a
row, and `run_seq_left` and `run_seq_right` are the rules for it: a crash in the first script, and a
crash in the second one, where the first one has to be idle at the crash.

`Keeps P` says that `P` holds at every crash, and `Preserves P` that it holds at the end.
-/

namespace Citrea.Lib

open List

/-- The writes of a run, and whether it stopped early. -/
structure Trace (ω : Type) where
  writes : List ω
  halted : Bool

/-- A script over states `σ` with writes `ω`. -/
abbrev Script (σ ω ε : Type) := σ → Outcome ε (Trace ω)

variable {σ ω ε α : Type}

/-- The state after some writes. -/
def applyAll (apply : ω → σ → σ) (writes : List ω) (s : σ) : σ := writes.foldl
    (fun s w => apply w s) s

namespace Script

/-- A script that always makes the same writes. -/
def emit (writes : List ω) : Script σ ω ε := fun _ => pure ⟨writes, false⟩

variable (apply : ω → σ → σ)

/-- One script after the other. -/
def seq (a b : Script σ ω ε) : Script σ ω ε := fun s => do
  let t ← a s
  if t.halted then pure t
  else do
    let u ← b (applyAll apply t.writes s)
    pure ⟨t.writes ++ u.writes, u.halted⟩

/-- A script for each element of a list. -/
def each (f : α → Script σ ω ε) : List α → Script σ ω ε
  | [] => emit []
  | a :: rest => seq apply (f a) (each f rest)

/-- The state at the end, and whether the run stopped early. -/
def run (a : Script σ ω ε) (s : σ) : Outcome ε (σ × Bool) := do
  let t ← a s
  pure (applyAll apply t.writes s, t.halted)

/-- The script has no effect on the state. -/
def Idle (a : Script σ ω ε) (s : σ) : Prop := run apply a s = .ok (s, false)

/-- A crash after `k` writes, right before the write `w`, leaves the state `g`. -/
def CrashPoint (a : Script σ ω ε) (s : σ) (k : Nat) (w : ω) (g : σ) : Prop :=
  ∃ t, a s = .ok t ∧ t.writes[k]? = some w ∧ g = applyAll apply (t.writes.take k) s

/-- The property holds at every moment of a run. -/
def Keeps (P : σ → Prop) (a : Script σ ω ε) : Prop :=
  ∀ s t, P s → a s = .ok t → ∀ k, P (applyAll apply (t.writes.take k) s)

/-- The property holds at the end of a run. -/
def Preserves (P : σ → Prop) (a : Script σ ω ε) : Prop :=
  ∀ s t, P s → a s = .ok t → P (applyAll apply t.writes s)

end Script

variable {apply : ω → σ → σ}

theorem applyAll_append (l r : List ω) (s : σ) :
    applyAll apply (l ++ r) s = applyAll apply r (applyAll apply l s) := foldl_append

theorem applyAll_cons (w : ω) (rest : List ω) (s : σ) :
    applyAll apply (w :: rest) s = applyAll apply rest (apply w s) := rfl

/-- A property that every write keeps. -/
theorem applyAll_induction {P : σ → Prop} {writes : List ω} {s : σ}
    (hstep : ∀ w ∈ writes, ∀ s, P s → P (apply w s)) (hs : P s) : P (applyAll apply writes s) := by
  induction writes generalizing s with
  | nil => exact hs
  | cons w rest ih =>
    refine ih (fun v hv => hstep v (mem_cons_of_mem _ hv)) ?_
    exact hstep w (mem_cons_self ..) s hs

namespace Script

variable {a b : Script σ ω ε} {s m g : σ}

theorem run_eq_ok {result : σ × Bool} : run apply a s = .ok result ↔
    ∃ t, a s = .ok t ∧ (applyAll apply t.writes s, t.halted) = result := by
  simp only [run, bind_eq_ok, pure_eq_ok]

theorem run_of_eq {t : Trace ω} (h : a s = .ok t) :
    run apply a s = .ok (applyAll apply t.writes s, t.halted) := by
  rw [run, h]
  rfl

theorem run_emit (writes : List ω) (s : σ) :
    run apply (emit writes : Script σ ω ε) s = .ok (applyAll apply writes s, false) := rfl

/-- The end of two scripts in a row. -/
theorem run_seq (a b : Script σ ω ε) (s : σ) : run apply (seq apply a b) s = (do
    let r ← run apply a s
    if r.2 then pure r else run apply b r.1) := by
  simp only [run, seq]
  cases ha : a s with
  | error fault => rfl
  | ok t =>
    simp only [bind, Except.bind, pure, Except.pure]
    cases hhalted : t.halted with
    | true => simp [hhalted]
    | false =>
      cases hb : b (applyAll apply t.writes s) with
      | error fault => rfl
      | ok u => simp [applyAll_append]

/-- A crash in the first script. -/
theorem run_seq_left (h : run apply a g = run apply a s) :
    run apply (seq apply a b) g = run apply (seq apply a b) s := by rw [run_seq, run_seq, h]

/-- A crash in the second script. -/
theorem run_seq_right (hidle : Idle apply a g) (ha : run apply a s = .ok (m, false))
    (hb : run apply b g = run apply b m) :
    run apply (seq apply a b) g = run apply (seq apply a b) s := by
  rw [run_seq, run_seq, hidle, ha]
  exact hb

/-- Two scripts in a row that return. -/
theorem seq_eq_ok {t : Trace ω} (h : seq apply a b s = .ok t) : ∃ ta, a s = .ok ta ∧
    ((ta.halted = true ∧ t = ta) ∨ (ta.halted = false ∧ ∃ tb,
      b (applyAll apply ta.writes s) = .ok tb ∧ t = ⟨ta.writes ++ tb.writes, tb.halted⟩)) := by
  simp only [seq, bind_eq_ok] at h
  obtain ⟨ta, ha, h⟩ := h
  refine ⟨ta, ha, ?_⟩
  cases hhalted : ta.halted with
  | true =>
    rw [hhalted, if_pos rfl, pure_eq_ok] at h
    exact .inl ⟨rfl, h.symm⟩
  | false =>
    rw [hhalted, if_neg (by decide), bind_eq_ok] at h
    obtain ⟨tb, hb, h⟩ := h
    exact .inr ⟨rfl, tb, hb, (pure_eq_ok.mp h).symm⟩

/-- A crash in two scripts in a row is a crash in the first one, or in the second one after the
first one has made all its writes. -/
theorem CrashPoint.seq {k : Nat} {w : ω} (h : CrashPoint apply (Script.seq apply a b) s k w g) :
    CrashPoint apply a s k w g ∨ ∃ ta, a s = .ok ta ∧ ta.halted = false ∧ ta.writes.length ≤ k ∧
      CrashPoint apply b (applyAll apply ta.writes s) (k - ta.writes.length) w g := by
  obtain ⟨t, ht, hw, rfl⟩ := h
  obtain ⟨ta, hta, ⟨-, rfl⟩ | ⟨hhalted, tb, htb, rfl⟩⟩ := seq_eq_ok ht
  · exact .inl ⟨t, hta, hw, rfl⟩
  rcases Nat.lt_or_ge k ta.writes.length with hlt | hge
  · refine .inl ⟨ta, hta, ?_, ?_⟩
    · rw [← hw, List.getElem?_append_left hlt]
    · rw [take_append_of_le_length (Nat.le_of_lt hlt)]
  · refine .inr ⟨ta, hta, hhalted, hge, tb, htb, ?_, ?_⟩
    · rw [← hw, List.getElem?_append_right hge]
    · rw [take_append, take_of_length_le hge, applyAll_append]

theorem CrashPoint.of_emit_singleton {k : Nat} {v w : ω}
    (h : CrashPoint apply (emit [v] : Script σ ω ε) s k w g) : k = 0 ∧ g = s := by
  obtain ⟨t, ht, hw, rfl⟩ := h
  obtain rfl : (⟨[v], false⟩ : Trace ω) = t := Except.ok.inj ht
  cases k with
  | zero => exact ⟨rfl, rfl⟩
  | succ k => simp at hw

variable {P : σ → Prop} {writes : List ω} {f : α → Script σ ω ε} {items : List α}

theorem Keeps.preserves (h : Keeps apply P a) : Preserves apply P a := by
  intro s t hs ht
  have hend := h s t hs ht t.writes.length
  rwa [take_length] at hend

theorem Keeps.crash {k : Nat} {w : ω} (h : Keeps apply P a) (hs : P s)
    (hcrash : CrashPoint apply a s k w g) : P g := by
  obtain ⟨t, ht, -, rfl⟩ := hcrash
  exact h s t hs ht k

theorem Keeps.seq (ha : Keeps apply P a) (hb : Keeps apply P b) :
    Keeps apply P (Script.seq apply a b) := by
  intro s t hs ht k
  obtain ⟨ta, hta, ⟨-, rfl⟩ | ⟨-, tb, htb, rfl⟩⟩ := seq_eq_ok ht
  · exact ha s t hs hta k
  rw [take_append, applyAll_append]
  rcases Nat.lt_or_ge k ta.writes.length with hlt | hge
  · rw [Nat.sub_eq_zero_of_le (Nat.le_of_lt hlt)]
    exact ha s ta hs hta k
  · rw [take_of_length_le hge]
    exact hb _ tb (ha.preserves s ta hs hta) htb _

theorem Preserves.seq (ha : Preserves apply P a) (hb : Preserves apply P b) :
    Preserves apply P (Script.seq apply a b) := by
  intro s t hs ht
  obtain ⟨ta, hta, ⟨-, rfl⟩ | ⟨-, tb, htb, rfl⟩⟩ := seq_eq_ok ht
  · exact ha s t hs hta
  · rw [applyAll_append]
    exact hb _ tb (ha s ta hs hta) htb

theorem preserves_emit (h : ∀ s, P s → P (applyAll apply writes s)) :
    Preserves apply P (emit writes : Script σ ω ε) := by
  intro s t hs ht
  obtain rfl : (⟨writes, false⟩ : Trace ω) = t := Except.ok.inj ht
  exact h s hs

theorem keeps_emit (h : ∀ w ∈ writes, ∀ s, P s → P (apply w s)) :
    Keeps apply P (emit writes : Script σ ω ε) := by
  intro s t hs ht k
  obtain rfl : (⟨writes, false⟩ : Trace ω) = t := Except.ok.inj ht
  exact applyAll_induction (fun w hw => h w (mem_of_mem_take hw)) hs

theorem Keeps.each (h : ∀ x ∈ items, Keeps apply P (f x)) :
    Keeps apply P (Script.each apply f items) := by
  induction items with
  | nil => exact keeps_emit fun _ hw => absurd hw (not_mem_nil)
  | cons x rest ih =>
    exact (h x mem_cons_self).seq (ih fun y hy => h y (mem_cons_of_mem _ hy))

theorem Preserves.each (h : ∀ x ∈ items, Preserves apply P (f x)) :
    Preserves apply P (Script.each apply f items) := by
  induction items with
  | nil => exact preserves_emit fun _ hs => hs
  | cons x rest ih =>
    exact (h x mem_cons_self).seq (ih fun y hy => h y (mem_cons_of_mem _ hy))

theorem Idle.seq (ha : Idle apply a s) (hb : Idle apply b s) : Idle apply
    (Script.seq apply a b) s := by
  rw [Idle, run_seq, ha]
  exact hb

end Script

end Citrea.Lib
