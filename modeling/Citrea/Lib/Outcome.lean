import Mathlib.Data.List.Induction
import Mathlib.Logic.Basic

/-!
# `Citrea.Lib.Outcome`: a call that returns, fails, or panics

A Rust function that returns `Result<T, E>` has three ways to end: `Ok`, `Err`, and a panic
from `assert!`, `unwrap` or `expect`. `Outcome` keeps the three apart, so that a statement
about "the call returns" excludes the panics and a statement about an error can name it.

`bind_eq_ok` takes a successful run of a `do` block apart, one step at a time. Every proof
about a successful run goes through it, and no such proof unfolds the monad.
-/

namespace Citrea.Lib

open List

/-- The two ways in which a call does not return a value: an `Err`, or a panic with its
message. -/
inductive Fault (ε : Type) where
  | error (e : ε)
  | panic (message : String)
deriving DecidableEq, Repr

/-- The result of a call that may return `Err` or panic. -/
abbrev Outcome (ε α : Type) := Except (Fault ε) α

namespace Outcome

variable {ε α β : Type} {x r : Outcome ε α} {f : α → Outcome ε β} {b : β} {e : ε} {a : α} {c : Prop}
  {message : String}

/-- The call returns `Err e`. -/
def err (e : ε) : Outcome ε α := .error (.error e)

/-- The call panics with `message`. -/
def panic (message : String) : Outcome ε α := .error (.panic message)

/-- `assert!(c, message)`. -/
def assert (c : Prop) [Decidable c] (message : String) : Outcome ε Unit :=
  if c then .ok () else panic message

/-- `if !c { return Err(e) }`. -/
def ensure (c : Prop) [Decidable c] (e : ε) : Outcome ε Unit :=
  if c then .ok () else err e

/-- `o.expect(message)`, and `o.unwrap()` with the message of the failed `unwrap`. -/
def expect (o : Option α) (message : String) : Outcome ε α :=
  match o with
  | some a => .ok a
  | none => panic message

/-- `r.expect(message)` on a `Result`: an `Err` becomes a panic. -/
def expectOk {ε' : Type} (r : Outcome ε α) (message : String) : Outcome ε' α :=
  match r with
  | .ok a => .ok a
  | .error (.error _) => panic message
  | .error (.panic inner) => panic inner

/-- `match r { Ok(a) => a, Err(_) => default }`. -/
def okOr {ε' : Type} (r : Outcome ε α) (default : α) : Outcome ε' α :=
  match r with
  | .ok a => .ok a
  | .error (.error _) => .ok default
  | .error (.panic inner) => panic inner

/-- `r.map_err(f)`. -/
def mapErr {ε' : Type} (f : ε → ε') : Outcome ε α → Outcome ε' α
  | .ok a => .ok a
  | .error (.error e) => err (f e)
  | .error (.panic message) => panic message

/-- A `do` block returns exactly when its first step and then the rest return. -/
@[simp]
theorem bind_eq_ok : x >>= f = .ok b ↔ ∃ a, x = .ok a ∧ f a = .ok b := by
  rcases x with fault | a <;> simp [bind, Except.bind]

/-- A `do` block returns `Err` when its first step does, or the rest after it. -/
theorem bind_eq_err : x >>= f = err e ↔ x = err e ∨ ∃ a, x = .ok a ∧ f a = err e := by
  rcases x with fault | a <;> simp [bind, Except.bind, err]

@[simp]
theorem pure_eq_ok {b : α} : (pure a : Outcome ε α) = .ok b ↔ a = b := by
  simp [pure, Except.pure]

theorem pure_pair_eq_ok {c : α} {d : β} :
    (pure (a, b) : Outcome ε (α × β)) = .ok (c, d) ↔ a = c ∧ b = d := by
  rw [pure_eq_ok, Prod.mk.injEq]

/-- A mapped call returns exactly when the call returns a value that is mapped to the result. -/
theorem map_eq_ok {f : α → β} : x.map f = .ok b ↔ ∃ a, x = .ok a ∧ f a = b := by
  rcases x with fault | a <;> simp [Except.map]

theorem exists_ok_iff {P : α → Prop} : (∃ b, (.ok a : Outcome ε α) = .ok b ∧ P b) ↔ P a := by simp

theorem not_exists_error {P : α → Prop} {fault : Fault ε} :
    ¬ ∃ b, (.error fault : Outcome ε α) = .ok b ∧ P b := by simp

/-- Whether a call returns a value with a property that can be decided. -/
instance decidableExistsOk {P : α → Prop} [DecidablePred P] : Decidable (∃ a, x = .ok a ∧ P a) :=
  match x with
  | .ok _ => decidable_of_iff _ exists_ok_iff.symm
  | .error _ => isFalse not_exists_error

/-- Mapping the result does not change a fault. -/
theorem map_eq_error {f : α → β} {fault : Fault ε} : x.map f = .error fault ↔ x = .error fault := by
  rcases x with other | a <;> simp [Except.map]

@[simp]
theorem assert_eq_ok [Decidable c] {u : Unit} :
    (assert c message : Outcome ε Unit) = .ok u ↔ c := by
  unfold assert panic
  split <;> simp_all

@[simp]
theorem ensure_eq_ok [Decidable c] {u : Unit} : ensure c e = .ok u ↔ c := by
  unfold ensure err
  split <;> simp_all

theorem ensure_eq_err [Decidable c] {e' : ε} : ensure c e = err e' ↔ ¬ c ∧ e = e' := by
  unfold ensure err
  split <;> simp_all

@[simp]
theorem expect_eq_ok {o : Option α} : (expect o message : Outcome ε α) = .ok a ↔ o = some a := by
  cases o <;> simp [expect, panic]

@[simp]
theorem expectOk_eq_ok {ε' : Type} : (expectOk r message : Outcome ε' α) = .ok a ↔ r = .ok a := by
  rcases r with (e | inner) | b <;> simp [expectOk, panic]

@[simp]
theorem mapErr_eq_ok {ε' : Type} {f : ε → ε'} : mapErr f r = .ok a ↔ r = .ok a := by
  rcases r with (e | inner) | b <;> simp [mapErr, err, panic]

/-- A result with a default for an error. -/
theorem okOr_eq_ok {ε' : Type} {default : α} (h : (okOr r default : Outcome ε' α) = .ok a) :
    r = .ok a ∨ a = default := by
  rcases r with (e | inner) | b
  · exact .inr (Except.ok.inj h).symm
  · exact absurd h (by simp [okOr, panic])
  · exact .inl (congrArg Except.ok (Except.ok.inj h))

/-- If the call returns, its result has the property `P`. -/
def Returns (P : α → Prop) (x : Outcome ε α) : Prop := ∀ a, x = .ok a → P a

/-- A `do` block returns what its last step returns. -/
theorem returns_bind {P : β → Prop} (h : ∀ a, Returns P (f a)) : Returns P (x >>= f) := by
  intro b hb
  obtain ⟨a, -, ha⟩ := bind_eq_ok.mp hb
  exact h a b ha

/-- If the call panics, its message has the property `P`. -/
def PanicsOnly (P : String → Prop) (x : Outcome ε α) :
    Prop := ∀ message, x = panic message → P message

/-- The call returns `Ok` or `Err`. -/
abbrev NoPanic (x : Outcome ε α) : Prop := PanicsOnly (fun _ => False) x

section
variable {P : String → Prop} {message : String}

theorem panicsOnly_ok {a : α} : PanicsOnly P (.ok a : Outcome ε α) := fun _ h => nomatch h

theorem panicsOnly_err {e : ε} : PanicsOnly P (err e : Outcome ε α) := fun _ h => nomatch h

theorem panicsOnly_panic (h : P message) : PanicsOnly P (panic message : Outcome ε α) := by
  intro other heq
  obtain rfl : message = other := by simpa [panic] using heq
  exact h

/-- A `do` block panics like its first step, or like the rest after it. -/
theorem PanicsOnly.bind {x : Outcome ε α} {f : α → Outcome ε β} (hx : PanicsOnly P x)
    (hf : ∀ a, x = .ok a → PanicsOnly P (f a)) : PanicsOnly P (x >>= f) := by
  rcases x with (e | message) | a
  · exact panicsOnly_err
  · exact panicsOnly_panic (hx message rfl)
  · exact hf a rfl

theorem panicsOnly_ensure {c : Prop} [Decidable c] {e : ε} : PanicsOnly P (ensure c e) := by
  unfold ensure
  split
  · exact panicsOnly_ok
  · exact panicsOnly_err

theorem panicsOnly_expect {o : Option α} (h : P message) :
    PanicsOnly P (expect o message : Outcome ε α) := by
  cases o with
  | none => exact panicsOnly_panic h
  | some a => exact panicsOnly_ok

theorem panicsOnly_expect_some {o : Option α} {a : α} (h : o = some a) :
    PanicsOnly P (expect o message : Outcome ε α) := by
  rw [h]
  exact panicsOnly_ok

end

/-- A call that does not panic returns `Err`, or else `Ok`. -/
theorem NoPanic.cases {x : Outcome ε α} (h : NoPanic x) : (∃ e, x = err e) ∨ ∃ a, x = .ok a := by
  rcases x with (e | message) | a
  · exact .inl ⟨e, rfl⟩
  · exact (h message rfl).elim
  · exact .inr ⟨a, rfl⟩

@[simp]
theorem err_ne_ok {e : ε} {a : α} : (err e : Outcome ε α) ≠ .ok a := by simp [err]

@[simp]
theorem panic_ne_ok {message : String} {a : α} : (panic message : Outcome ε α) ≠ .ok a := by
  simp [panic]

/-- A call has one value. -/
theorem ok_unique (ha : x = .ok a) {b : α} (hb : x = .ok b) : a = b := Except.ok.inj
    (ha.symm.trans hb)

theorem some_unique {o : Option α} {b : α} (ha : o = some a) (hb : o = some b) : a = b :=
  Option.some.inj (ha.symm.trans hb)

end Outcome

export Outcome (expect ensure assert err bind_eq_ok pure_eq_ok pure_pair_eq_ok
  ensure_eq_ok expect_eq_ok assert_eq_ok map_eq_ok
  err_ne_ok panic_ne_ok ok_unique some_unique)

/-! ### Runs of a step function over a list

A loop over a list, and a chain that takes one block after the other, are both `List.foldlM` of a
step. The rules here lift a fact about one step to a whole run that returns.
-/

variable {ε σ α : Type} {step : σ → α → Outcome ε σ} {s t : σ} {l : List α} {P : List α → σ → Prop}

/-- A run over `l ++ [a]` is a run over `l` and then one step. -/
theorem foldlM_concat_eq_ok {a : α} :
    (l ++ [a]).foldlM step s = .ok t ↔ ∃ m, l.foldlM step s = .ok m ∧ step m a = .ok t := by
  rw [foldlM_append, bind_eq_ok]
  simp

/-- A property of the items so far and the state holds after a run, if it holds at the start and
each step keeps it. The step may use where in the list its item stands, and that the items before
it lead to its state. -/
theorem foldlM_induction (start : P [] s) (l : List α) :
    (∀ pre a post m t, l = pre ++ a :: post → pre.foldlM step s = .ok m → P pre m →
      step m a = .ok t → P (pre ++ [a]) t) → ∀ t, l.foldlM step s = .ok t → P l t := by
  induction l using List.reverseRecOn with
  | nil =>
    intro _ t h
    rw [foldlM_nil, pure_eq_ok] at h
    rwa [← h]
  | append_singleton l a ih =>
    intro next t h
    obtain ⟨m, hm, ht⟩ := foldlM_concat_eq_ok.mp h
    refine next l a [] m t rfl hm (ih ?_ m hm) ht
    intro pre b post m t hl
    exact next pre b (post ++ [a]) m t (by rw [hl, append_assoc, cons_append])

/-- A run returns, if each step returns from the states that the items before it can lead to. -/
theorem foldlM_returns (start : P [] s) (l : List α) :
    (∀ pre a post m, l = pre ++ a :: post → P pre m → ∃ t, step m a = .ok t ∧ P (pre ++ [a]) t) →
    ∃ t, l.foldlM step s = .ok t ∧ P l t := by
  induction l using List.reverseRecOn with
  | nil => exact fun _ => ⟨s, rfl, start⟩
  | append_singleton l a ih =>
    intro next
    obtain ⟨m, hm, hP⟩ := ih fun pre b post m hl =>
      next pre b (post ++ [a]) m (by rw [hl, append_assoc, cons_append])
    obtain ⟨t, ht, hP⟩ := next l a [] m rfl hP
    exact ⟨t, foldlM_concat_eq_ok.mpr ⟨m, hm, ht⟩, hP⟩

/-- A property of the state holds after a run, if each step keeps it. -/
theorem foldlM_invariant {P : σ → Prop} (next : ∀ a m t, P m → step m a = .ok t → P t)
    (h : l.foldlM step s = .ok t) (hs : P s) : P t :=
  foldlM_induction (P := fun _ => P) hs l (fun _ a _ m t _ _ hm => next a m t hm) t h

/-- A property of the items to come and the state, if each step moves it to the rest. -/
theorem foldlM_suffix (next : ∀ a rest m t, P (a :: rest) m → step m a = .ok t → P rest t)
    (l : List α) : ∀ s t, l.foldlM step s = .ok t → P l s → P [] t := by
  induction l with
  | nil =>
    intro s t h hs
    rw [foldlM_nil, pure_eq_ok] at h
    rwa [← h]
  | cons a l ih =>
    intro s t h hs
    rw [foldlM_cons, bind_eq_ok] at h
    obtain ⟨m, hm, ht⟩ := h
    exact ih m t ht (next a l s m hs hm)

/-- A run that does not return has a step that does not. -/
theorem foldlM_eq_error {fault : Fault ε} : ∀ {s : σ}, l.foldlM step s = .error fault →
      ∃ pre a post m, l = pre ++ a :: post ∧ pre.foldlM step s = .ok m ∧
        step m a = .error fault := by
  induction l with
  | nil => exact fun h => nomatch h
  | cons a l ih =>
    intro s h
    rw [foldlM_cons] at h
    cases hstep : step s a with
    | error other =>
      rw [hstep] at h
      exact ⟨[], a, l, s, rfl, rfl, hstep.trans h⟩
    | ok m =>
      rw [hstep] at h
      obtain ⟨pre, b, post, t, rfl, hpre, hb⟩ := ih h
      refine ⟨a :: pre, b, post, t, rfl, ?_, hb⟩
      rw [foldlM_cons, hstep]
      exact hpre

/-- A preorder on the states holds between the ends of a run, if it holds across each step. -/
theorem foldlM_rel {R : σ → σ → Prop} (refl : ∀ s, R s s)
    (trans : ∀ {a b c}, R a b → R b c → R a c) (next : ∀ a m t, step m a = .ok t → R m t)
    (h : l.foldlM step s = .ok t) : R s t :=
  foldlM_invariant (fun a m t hm hstep => trans hm (next a m t hstep)) h (refl s)

end Citrea.Lib
