import Citrea.Lib.Outcome
import Mathlib.Logic.Function.Basic

/-!
# `Citrea.Lib.StoreProg`: programs over a proved store and a hinted store

A `StoreProg` reads and writes a store whose values have a type for each key, and a second store
whose reads are hints. A hint comes with a flag that says whether it was found in a cache. A read
says whether the program checks what it gets (`readHint`) or takes it as it is (`lookupHint`). The
program does not know where the values come from.

`StoreProg.run` executes a program on two backends. `mapStore` is the backend that is just a map.
`run_simulates` is the refinement rule: if each access of one backend is matched by the other one,
then so is every run. The match may depend on a condition on the final state, such as "all reads
have been checked", as long as the condition at a later point implies it at an earlier point.

`Raises` says which errors a program can return, on any backend.
-/

namespace Citrea.Lib

/-- A program that returns `α`, may return `Err` or panic, and accesses the two stores. A write of
`none` deletes. -/
inductive StoreProg {K : Type} (Val : K → Type) (C W ε α : Type) where
  | pure (a : α)
  | fail (fault : Fault ε)
  | get (k : K) (next : Option (Val k) → StoreProg Val C W ε α)
  | set (k : K) (v : Option (Val k)) (next : StoreProg Val C W ε α)
  | getHint (checked : Bool) (c : C) (next : Option W × Bool → StoreProg Val C W ε α)
  | setHint (c : C) (w : W) (next : StoreProg Val C W ε α)

namespace StoreProg

variable {K : Type} {Val : K → Type} {C W ε α β : Type}

/-- Sequential composition. -/
def bind (p : StoreProg Val C W ε α) (f : α → StoreProg Val C W ε β) : StoreProg Val C W ε β :=
  match p with
  | pure a => f a
  | fail fault => fail fault
  | get k next => get k fun v => (next v).bind f
  | set k v next => set k v (next.bind f)
  | getHint checked c next => getHint checked c fun w => (next w).bind f
  | setHint c w next => setHint c w (next.bind f)

instance : Monad (StoreProg Val C W ε) where
  pure := pure
  bind := bind

/-- Reads a key. -/
def read (k : K) : StoreProg Val C W ε (Option (Val k)) := get k pure

/-- Writes a key. -/
def write (k : K) (v : Val k) : StoreProg Val C W ε Unit := set k (some v) (pure ())

/-- Reads a hint that the program checks, with the flag of the cache. -/
def readHint (c : C) : StoreProg Val C W ε (Option W × Bool) := getHint true c pure

/-- Reads a hint without a check. -/
def lookupHint (c : C) : StoreProg Val C W ε (Option W) := getHint false c fun r => pure r.1

/-- Writes a hint. -/
def writeHint (c : C) (w : W) : StoreProg Val C W ε Unit := setHint c w (pure ())

/-- A step without access to the stores. -/
def ofOutcome : Outcome ε α → StoreProg Val C W ε α
  | .ok a => pure a
  | .error fault => fail fault

/-- The same program with another error type. -/
def mapError {ε' : Type} (f : ε → ε') : StoreProg Val C W ε α → StoreProg Val C W ε' α
  | pure a => pure a
  | fail (.error e) => fail (.error (f e))
  | fail (.panic message) => fail (.panic message)
  | get k next => get k fun v => (next v).mapError f
  | set k v next => set k v (next.mapError f)
  | getHint checked c next => getHint checked c fun w => (next w).mapError f
  | setHint c w next => setHint c w (next.mapError f)

/-- Where a program reads and writes. An access may panic, but it returns no `Err`. -/
structure Backend (Val : K → Type) (σ : Type) where
  get : (k : K) → σ → Outcome Empty (Option (Val k) × σ)
  set : (k : K) → Option (Val k) → σ → σ

/-- Where a program gets its hints. -/
structure HintBackend (C W τ : Type) where
  get : C → τ → Outcome Empty ((Option W × Bool) × τ)
  set : C → W → τ → τ

/-- A map as a backend. -/
def mapStore [DecidableEq K] : Backend Val ((k : K) → Option (Val k)) where
  get := fun k store => .ok (store k, store)
  set := fun k v store => Function.update store k v

/-- A call that returns no `Err`, as a call with any error type. -/
def liftEmpty : Outcome Empty α → Outcome ε α
  | .ok a => .ok a
  | .error (.panic message) => Outcome.panic message

@[simp]
theorem liftEmpty_eq_ok {x : Outcome Empty α} {a : α} :
    (liftEmpty x : Outcome ε α) = .ok a ↔ x = .ok a := by
  rcases x with (e | message) | b
  · exact e.elim
  all_goals simp [liftEmpty]

section
variable {σ τ : Type} (B : Backend Val σ) (O : HintBackend C W τ)

/-- Executes a program. -/
def run : StoreProg Val C W ε α → σ → τ → Outcome ε (α × σ × τ)
  | pure a, s, t => .ok (a, s, t)
  | fail fault, _, _ => .error fault
  | get k next, s, t => liftEmpty (B.get k s) >>= fun r => run (next r.1) r.2 t
  | set k v next, s, t => run next (B.set k v s) t
  | getHint _ c next, s, t => liftEmpty (O.get c t) >>= fun r => run (next r.1) s r.2
  | setHint c w next, s, t => run next s (O.set c w t)

variable {B O} {t t' : τ} {s s' : σ} {a : α} {p : StoreProg Val C W ε α}
  {f : α → StoreProg Val C W ε β} {k : K}

@[simp]
theorem run_pure : run B O (Pure.pure a : StoreProg Val C W ε α) s t = .ok (a, s, t) := rfl

theorem run_pure_eq_ok {b : α} : run B O (Pure.pure a : StoreProg Val C W ε α) s t =
    .ok (b, s', t') ↔ a = b ∧ s = s' ∧ t = t' := by
  simp

/-- A composition runs one part after the other. -/
theorem run_bind :
    run B O (p >>= f) s t = run B O p s t >>= fun r => run B O (f r.1) r.2.1 r.2.2 := by
  show run B O (p.bind f) s t = _
  induction p generalizing s t with
  | pure a => rfl
  | fail fault => rfl
  | get k next ih =>
    simp only [bind, run]
    cases (liftEmpty (B.get k s) : Outcome ε _) with
    | error fault => rfl
    | ok r => exact ih r.1
  | set k v next ih => exact ih
  | getHint checked c next ih =>
    simp only [bind, run]
    cases (liftEmpty (O.get c t) : Outcome ε _) with
    | error fault => rfl
    | ok r => exact ih r.1
  | setHint c w next ih => exact ih

/-- A composition returns exactly when both parts do. -/
@[simp]
theorem run_bind_eq_ok {b : β} : run B O (p >>= f) s t = .ok (b, s', t') ↔
      ∃ a m n, run B O p s t = .ok (a, m, n) ∧ run B O (f a) m n = .ok (b, s', t') := by
  rw [run_bind, bind_eq_ok]
  constructor
  · rintro ⟨⟨a, m, n⟩, hp, hf⟩
    exact ⟨a, m, n, hp, hf⟩
  · rintro ⟨a, m, n, hp, hf⟩
    exact ⟨(a, m, n), hp, hf⟩

/-- A composition returns `Err` when its first part does, or the second one after it. -/
theorem run_bind_eq_err {e : ε} :
    run B O (p >>= f) s t = Outcome.err e ↔ run B O p s t = Outcome.err e ∨
      ∃ a m n, run B O p s t = .ok (a, m, n) ∧ run B O (f a) m n = Outcome.err e := by
  rw [run_bind, Outcome.bind_eq_err]
  refine or_congr_right ?_
  constructor
  · rintro ⟨⟨a, m, n⟩, hp, hf⟩
    exact ⟨a, m, n, hp, hf⟩
  · rintro ⟨a, m, n, hp, hf⟩
    exact ⟨(a, m, n), hp, hf⟩

@[simp]
theorem run_lookupHint {c : C} : run B O (lookupHint c : StoreProg Val C W ε _) s t =
      (liftEmpty (O.get c t) : Outcome ε _) >>= fun r => .ok (r.1.1, s, r.2) := rfl

@[simp]
theorem run_writeHint {c : C} {w : W} :
    run B O (writeHint c w : StoreProg Val C W ε _) s t = .ok ((), s, O.set c w t) := rfl

@[simp]
theorem run_ofOutcome_eq_ok {x : Outcome ε α} :
    run B O (ofOutcome x : StoreProg Val C W ε α) s t = .ok (a, s', t') ↔
      x = .ok a ∧ s = s' ∧ t = t' := by
  rcases x with fault | b
  all_goals simp [ofOutcome, run]

@[simp]
theorem run_read_mapStore [DecidableEq K] {s : (k : K) → Option (Val k)} :
    run mapStore O (read k : StoreProg Val C W ε _) s t = .ok (s k, s, t) := rfl

@[simp]
theorem run_write_mapStore [DecidableEq K] {v : Val k} {s : (k : K) → Option (Val k)} :
    run mapStore O (write k v : StoreProg Val C W ε _) s t =
      .ok ((), Function.update s k (some v), t) := rfl

/-- A change of the error type does not change what a program returns. -/
@[simp]
theorem run_mapError_eq_ok {ε' : Type} {f : ε → ε'} :
    run B O (p.mapError f) s t = .ok (a, s', t') ↔ run B O p s t = .ok (a, s', t') := by
  induction p generalizing s t with
  | pure b => simp [mapError, run]
  | fail fault => cases fault <;> simp [mapError, run]
  | get k next ih =>
    simp only [mapError, run, bind_eq_ok, liftEmpty_eq_ok]
    exact exists_congr fun r => and_congr_right fun _ => ih r.1
  | set k v next ih => exact ih
  | getHint checked c next ih =>
    simp only [mapError, run, bind_eq_ok, liftEmpty_eq_ok]
    exact exists_congr fun r => and_congr_right fun _ => ih r.1
  | setHint c w next ih => exact ih

/-- A run that returns, access by access. -/
inductive Runs (B : Backend Val σ) (O : HintBackend C W τ) (a : α) (s' : σ) (t' : τ) :
    StoreProg Val C W ε α → σ → τ → Prop where
  | pure : Runs B O a s' t' (pure a) s' t'
  | get {k next s t v m} (hget : B.get k s = .ok (v, m)) (rest : Runs B O a s' t' (next v) m t) :
      Runs B O a s' t' (get k next) s t
  | set {k v next s t} (rest : Runs B O a s' t' next (B.set k v s) t) :
      Runs B O a s' t' (set k v next) s t
  | getHint {checked c next s t r n} (hget : O.get c t = .ok (r, n))
      (rest : Runs B O a s' t' (next r) s n) : Runs B O a s' t' (getHint checked c next) s t
  | setHint {c w next s t} (rest : Runs B O a s' t' next s (O.set c w t)) :
      Runs B O a s' t' (setHint c w next) s t

theorem runs_of_run (h : run B O p s t = .ok (a, s', t')) : Runs B O a s' t' p s t := by
  induction p generalizing s t with
  | pure b =>
    obtain ⟨rfl, rfl, rfl⟩ := run_pure_eq_ok.mp h
    exact .pure
  | fail fault => exact nomatch h
  | get k next ih =>
    obtain ⟨r, hget, h⟩ := bind_eq_ok.mp h
    exact .get (liftEmpty_eq_ok.mp hget) (ih r.1 h)
  | set k v next ih => exact .set (ih h)
  | getHint checked c next ih =>
    obtain ⟨r, hget, h⟩ := bind_eq_ok.mp h
    exact .getHint (liftEmpty_eq_ok.mp hget) (ih r.1 h)
  | setHint c w next ih => exact .setHint (ih h)

end

/-! ### Refinement -/

section
variable {σ₁ σ₂ τ : Type} {B₁ : Backend Val σ₁} {B₂ : Backend Val σ₂} {O : HintBackend C W τ}
  {valid : σ₁ → Prop} {R : σ₁ → σ₂ → Prop}

/-- Each access of `B₁` is matched by `B₂`, as long as `valid` holds after it. -/
structure Simulates (B₁ : Backend Val σ₁) (B₂ : Backend Val σ₂) (valid : σ₁ → Prop)
    (R : σ₁ → σ₂ → Prop) : Prop where
  valid_get : ∀ {k v s s'}, B₁.get k s = .ok (v, s') → valid s' → valid s
  valid_set : ∀ {k v s}, valid (B₁.set k v s) → valid s
  get : ∀ {k v s₁ s₁' s₂}, R s₁ s₂ → B₁.get k s₁ = .ok (v, s₁') → valid s₁' →
    ∃ s₂', B₂.get k s₂ = .ok (v, s₂') ∧ R s₁' s₂'
  set : ∀ {k v s₁ s₂}, R s₁ s₂ → R (B₁.set k v s₁) (B₂.set k v s₂)

variable {p : StoreProg Val C W ε α} {a : α} {s₁ s₁' : σ₁} {s₂ : σ₂} {t t' : τ}

/-- The condition at the end of a run implies it at the start. -/
theorem valid_of_run (h : Simulates B₁ B₂ valid R) (hrun : Runs B₁ O a s₁' t' p s₁ t)
    (hvalid : valid s₁') : valid s₁ := by
  induction hrun with
  | pure => exact hvalid
  | get hget _ ih => exact h.valid_get hget ih
  | set _ ih => exact h.valid_set ih
  | getHint _ _ ih => exact ih
  | setHint _ ih => exact ih

/-- Every run on `B₁` whose final state is valid is matched by a run on `B₂`. -/
theorem run_simulates (h : Simulates B₁ B₂ valid R) (hR : R s₁ s₂)
    (hrun : run B₁ O p s₁ t = .ok (a, s₁', t')) (hvalid : valid s₁') :
    ∃ s₂', run B₂ O p s₂ t = .ok (a, s₂', t') ∧ R s₁' s₂' := by
  replace hrun := runs_of_run hrun
  induction hrun generalizing s₂ with
  | pure => exact ⟨s₂, rfl, hR⟩
  | get hget hrest ih =>
    -- the condition at the end gives it right after this read
    obtain ⟨m₂, hget₂, hRm⟩ := h.get hR hget (valid_of_run h hrest hvalid)
    obtain ⟨s₂', hrun₂, hR'⟩ := ih hRm
    exact ⟨s₂', bind_eq_ok.mpr ⟨(_, m₂), liftEmpty_eq_ok.mpr hget₂, hrun₂⟩, hR'⟩
  | set _ ih => exact ih (h.set hR)
  | getHint hget _ ih =>
    obtain ⟨s₂', hrun₂, hR'⟩ := ih hR
    exact ⟨s₂', bind_eq_ok.mpr ⟨_, liftEmpty_eq_ok.mpr hget, hrun₂⟩, hR'⟩
  | setHint _ ih => exact ih hR

end

/-! ### Errors -/

/-- Each `Err` that the program can return has `P`. -/
def Raises (P : ε → Prop) : StoreProg Val C W ε α → Prop
  | pure _ => True
  | fail (.error e) => P e
  | fail (.panic _) => True
  | get _ next => ∀ v, Raises P (next v)
  | set _ _ next => Raises P next
  | getHint _ _ next => ∀ w, Raises P (next w)
  | setHint _ _ next => Raises P next

namespace Raises

variable {P : ε → Prop}

theorem pure {a : α} : Raises P (Pure.pure a : StoreProg Val C W ε α) := trivial

theorem bind {p : StoreProg Val C W ε α} {f : α → StoreProg Val C W ε β} (h : Raises P p)
    (hf : ∀ a, Raises P (f a)) : Raises P (p >>= f) := by
  show Raises P (p.bind f)
  induction p with
  | pure a => exact hf a
  | fail fault =>
    cases fault with
    | error e => exact h
    | panic message => trivial
  | get k next ih => exact fun v => ih v (h v)
  | set k v next ih => exact ih h
  | getHint checked c next ih => exact fun w => ih w (h w)
  | setHint c w next ih => exact ih h

theorem read (k : K) : Raises P (StoreProg.read k : StoreProg Val C W ε (Option (Val k))) :=
  fun _ => trivial

theorem ofOutcome {x : Outcome ε α} (h : ∀ e, x = Outcome.err e → P e) :
    Raises P (StoreProg.ofOutcome x : StoreProg Val C W ε α) := by
  rcases x with (e | message) | a
  · exact h e rfl
  · trivial
  · trivial

theorem ensure {c : Prop} [Decidable c] {e : ε} (h : P e) :
    Raises P (StoreProg.ofOutcome (Outcome.ensure c e) : StoreProg Val C W ε Unit) := by
  rw [Outcome.ensure]
  split
  · trivial
  · exact h

theorem mapError {ε' : Type} {f : ε' → ε} {p : StoreProg Val C W ε' α} (h : ∀ e, P (f e)) :
    Raises P (p.mapError f) := by
  induction p with
  | pure a => trivial
  | fail fault =>
    cases fault with
    | error e => exact h e
    | panic message => trivial
  | get k next ih => exact fun v => ih v
  | set k v next ih => exact ih
  | getHint checked c next ih => exact fun w => ih w
  | setHint c w next ih => exact ih

/-- An `Err` of a run has `P`. -/
theorem sound {σ τ : Type} {B : Backend Val σ} {O : HintBackend C W τ}
    {p : StoreProg Val C W ε α} (h : Raises P p) : ∀ {s : σ} {t : τ} {e : ε},
      run B O p s t = Outcome.err e → P e := by
  -- an access may panic, but it returns no `Err`
  have hlift : ∀ {γ δ : Type} {x : Outcome Empty γ} {f : γ → Outcome ε δ} {e : ε},
      (liftEmpty x >>= f) = Outcome.err e → ∃ a, x = .ok a ∧ f a = Outcome.err e := by
    intro γ δ x f e hx
    rcases x with (none | message) | a
    · exact none.elim
    · exact nomatch hx
    · exact ⟨a, rfl, hx⟩
  induction p with
  | pure a =>
    intro s t e hrun
    exact nomatch hrun
  | fail fault =>
    intro s t e hrun
    obtain rfl : fault = .error e := Except.error.inj hrun
    exact h
  | get k next ih =>
    intro s t e hrun
    obtain ⟨r, -, hrest⟩ := hlift hrun
    exact ih r.1 (h r.1) hrest
  | set k v next ih =>
    intro s t e hrun
    exact ih h hrun
  | getHint checked c next ih =>
    intro s t e hrun
    obtain ⟨r, -, hrest⟩ := hlift hrun
    exact ih r.1 (h r.1) hrest
  | setHint c w next ih =>
    intro s t e hrun
    exact ih h hrun

end Raises

end StoreProg

export StoreProg (run_pure run_pure_eq_ok run_bind run_bind_eq_ok run_lookupHint run_writeHint
  run_ofOutcome_eq_ok run_read_mapStore run_write_mapStore run_mapError_eq_ok)

/-! ### Programs that only read

`ReadOnly st post p` is a weakest precondition for a program without writes. The reads of `p` are
answered by the state `st`, the hints are arbitrary, and each result has `post`. The rules follow
the structure of a program, so that a fact about a function of a store is proved along its text.
`ReadOnly.sound` turns it into a fact about runs: the state is the same after the run, and the
result has `post`.

`Judgement` has the rules that such a condition shares with others. A fact about each judgement that
follows the text of a program is proved once.
-/

namespace StoreProg

variable {K : Type} {Val : K → Type} {C W ε α β : Type} {st : (k : K) → Option (Val k)}

/-- The rules of a judgement `J post p` that follows the text of the program `p`. -/
structure Judgement (J : ∀ {ε α : Type}, (α → Prop) → StoreProg Val C W ε α → Prop) : Prop where
  pure : ∀ {ε α : Type} {post : α → Prop} {a : α}, post a →
    J post (Pure.pure a : StoreProg Val C W ε α)
  bind : ∀ {ε α β : Type} {post : α → Prop} {post' : β → Prop} {p : StoreProg Val C W ε α}
    {f : α → StoreProg Val C W ε β}, J post p → (∀ a, post a → J post' (f a)) → J post' (p >>= f)
  mono : ∀ {ε α : Type} {post weaker : α → Prop} {p : StoreProg Val C W ε α}, J post p →
    (∀ a, post a → weaker a) → J weaker p
  ofOutcome : ∀ {ε α : Type} {x : Outcome ε α},
    J (fun a => x = .ok a) (StoreProg.ofOutcome x : StoreProg Val C W ε α)

/-- The program has no writes, and on the state `st` each of its results has `post`. -/
def ReadOnly (st : (k : K) → Option (Val k)) (post : α → Prop) : StoreProg Val C W ε α → Prop
  | pure a => post a
  | fail _ => True
  | get k next => ReadOnly st post (next (st k))
  | set _ _ _ => False
  | getHint _ _ next => ∀ r, ReadOnly st post (next r)
  | setHint _ _ _ => False

namespace ReadOnly

variable {post : α → Prop} {post' : β → Prop} {p : StoreProg Val C W ε α}

theorem pure {a : α} (h : post a) : ReadOnly st post (Pure.pure a : StoreProg Val C W ε α) := h

theorem bind {f : α → StoreProg Val C W ε β} (h : ReadOnly st post p)
    (hf : ∀ a, post a → ReadOnly st post' (f a)) : ReadOnly st post' (p >>= f) := by
  show ReadOnly st post' (p.bind f)
  induction p with
  | pure a => exact hf a h
  | fail fault => trivial
  | get k next ih => exact ih (st k) h
  | set k v next ih => exact h.elim
  | getHint checked c next ih => exact fun r => ih r (h r)
  | setHint c w next ih => exact h.elim

theorem mono {weaker : α → Prop} (h : ReadOnly st post p) (hmono : ∀ a, post a → weaker a) :
    ReadOnly st weaker p := by
  induction p with
  | pure a => exact hmono a h
  | fail fault => trivial
  | get k next ih => exact ih (st k) h
  | set k v next ih => exact h
  | getHint checked c next ih => exact fun r => ih r (h r)
  | setHint c w next ih => exact h

theorem ofOutcome {x : Outcome ε α} :
    ReadOnly st (fun a => x = .ok a) (StoreProg.ofOutcome x : StoreProg Val C W ε α) := by
  rcases x with fault | a
  · trivial
  · rfl

theorem judgement : Judgement (C := C) (W := W) (ReadOnly st) := ⟨pure, bind, mono, ofOutcome⟩

theorem read (k : K) : ReadOnly st (fun v => v = st k)
    (StoreProg.read k : StoreProg Val C W ε (Option (Val k))) := rfl

theorem mapError {ε' : Type} {f : ε → ε'} (h : ReadOnly st post p) :
    ReadOnly st post (p.mapError f) := by
  induction p with
  | pure a => exact h
  | fail fault => cases fault <;> trivial
  | get k next ih => exact ih (st k) h
  | set k v next ih => exact h
  | getHint checked c next ih => exact fun r => ih r (h r)
  | setHint c w next ih => exact h

/-- A run on the state `st` leaves it as it is, and its result has `post`. -/
theorem sound [DecidableEq K] {τ : Type} {O : HintBackend C W τ} (h : ReadOnly st post p)
    {t t' : τ} {a : α} {st' : (k : K) → Option (Val k)}
    (hrun : run mapStore O p st t = .ok (a, st', t')) : st' = st ∧ post a := by
  replace hrun := runs_of_run hrun
  induction hrun with
  | pure => exact ⟨rfl, h⟩
  | get hget _ ih =>
    cases hget
    exact ih h
  | set _ _ => exact h.elim
  | getHint _ _ ih => exact ih (h _)
  | setHint _ _ => exact h.elim

end ReadOnly

end StoreProg

export StoreProg (ofOutcome)

end Citrea.Lib
