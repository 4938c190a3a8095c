import Citrea.Spec.Storage.StateVec
import Mathlib.Data.List.Basic

/-!
# `Citrea.Proofs.Storage.StateVec`: a state vector is a list, but its iterator can return twice

`IsList` relates a vector to a list, and every operation keeps it (`IsList.apply`). The iterator
does not compare its two cursors. It returns the ends of what is left until everything was returned,
and after that it must be asked from one end only (`iterate_eq_iff`).
-/

namespace Citrea.Proofs.Storage

open Lib Spec.Storage Spec.Storage.StateVec

variable {V : Type} {s : StateVec V} {l : List V}

/-- The elements of the list are stored, and nothing else. -/
structure IsList (s : StateVec V) (l : List V) : Prop where
  len : s.len = l.length
  elems : ∀ i, s.elems i = l[i]?

/-- The list after an operation. -/
def listOp (l : List V) : VecOp V → List V
  | .push value => l ++ [value]
  | .pop => l.dropLast
  | .set index value => l.set index value
  | .setAll values => values
  | .clear => []

/-- What `next` and `next_back` are to return: the ends of what is left, and the number of elements
that are left then. -/
def takeEnds : List V → List Side → List (Option V × Outcome Empty Nat)
  | _, [] => []
  | l, .front :: rest => (l.head?, .ok l.tail.length) :: takeEnds l.tail rest
  | l, .back :: rest => (l.getLast?, .ok l.dropLast.length) :: takeEnds l.dropLast rest

theorem setElems_eq (value : Nat → Option V) (n : Nat) : ∀ (s : StateVec V) start,
    s.setElems value start n = ⟨s.lenValue, fun i =>
      if start ≤ i ∧ i < start + n then value i else s.elems i⟩ := by
  induction n with
  | zero =>
    intro s start
    have hempty : ∀ i, ¬ (start ≤ i ∧ i < start + 0) := by omega
    simp only [hempty, if_false]
    rfl
  | succ n ih =>
    intro s start
    rw [setElems, List.range'_succ, List.foldl_cons]
    refine (ih _ _).trans (congrArg _ (funext fun i => ?_))
    simp only [setElem, Function.update_apply]
    grind

theorem IsList.apply (h : IsList s l) (op : VecOp V) :
    IsList (op.apply s) (listOp l op) := by
  obtain ⟨hlen, helems⟩ := h
  cases op with
  | push value =>
    refine ⟨?_, fun i => ?_⟩
    · show s.len + 1 = _
      simp [hlen, listOp]
    · simp only [VecOp.apply, push, setLen, setElem, Function.update_apply, listOp, helems, hlen]
      grind
  | pop =>
    rcases List.eq_nil_or_concat' l with rfl | ⟨l, x, rfl⟩
    · simp only [VecOp.apply, pop, hlen]
      exact ⟨hlen, helems⟩
    · have hlast : s.elems l.length = some x := by simp [helems]
      simp only [VecOp.apply, pop, hlen, List.length_append, List.length_singleton, hlast, listOp,
        List.dropLast_concat]
      refine ⟨rfl, fun i => ?_⟩
      simp only [setLen, setElem, Function.update_apply, helems]
      grind
  | set index value =>
    simp only [VecOp.apply, StateVec.set, ensure, hlen, listOp]
    by_cases hlt : index < l.length
    · rw [if_pos hlt]
      refine ⟨hlen.trans List.length_set.symm, fun i => ?_⟩
      show Function.update s.elems index (some value) i = _
      rw [Function.update_apply, helems]
      grind
    · rw [if_neg hlt, List.set_eq_of_length_le (by omega)]
      exact ⟨hlen, helems⟩
  | setAll values =>
    simp only [VecOp.apply, setAll, setElems_eq, listOp]
    refine ⟨rfl, fun i => ?_⟩
    simp only [setLen, helems, hlen]
    grind
  | clear =>
    simp only [VecOp.apply, clear, setElems_eq, listOp]
    refine ⟨rfl, fun i => ?_⟩
    simp only [helems, hlen]
    grind

/-- A vector to which nothing was written. -/
def emptyVec : StateVec V := ⟨none, fun _ => none⟩

theorem IsList.run (ops : List (VecOp V)) :
    IsList (ops.foldl VecOp.apply emptyVec) (ops.foldl listOp []) := by
  induction ops using List.reverseRecOn with
  | nil => exact ⟨rfl, fun i => List.getElem?_nil.symm⟩
  | append_singleton ops op ih =>
    rw [List.foldl_append, List.foldl_append]
    exact ih.apply op

theorem IsList.last (h : IsList s l) : s.last = l.getLast? := by
  rw [StateVec.last, h.len, List.getLast?_eq_getElem?]
  cases l with
  | nil => rfl
  | cons x l => exact h.elems _

theorem exactLen_add (a n : Nat) : StateVecIter.exactLen ⟨a + n, a⟩ = .ok n := by
  simp [StateVecIter.exactLen, assert, bind, Except.bind, pure, Except.pure]

/-- From one state of the iterator on: `pre` and `post` were returned, and `m` is left. -/
theorem iterate_eq_iff (h : ∀ i, s.get i = l[i]?) (calls : List Side) : ∀ pre m post,
    l = pre ++ (m ++ post) →
    (s.iterate ⟨pre.length + m.length, pre.length⟩ calls = takeEnds m calls ↔
      calls.length ≤ m.length ∨ (post = [] ∧ ∀ c ∈ calls, c = .front) ∨
        (pre = [] ∧ ∀ c ∈ calls, c = .back) ∨ l = []) := by
  induction calls with
  | nil => simp [iterate, takeEnds]
  | cons side calls ih =>
    rintro pre m post rfl
    cases side with
    | front =>
      cases m with
      | cons x m =>
        have hget : s.get pre.length = some x := by simp [h]
        have hlen : pre.length + (m.length + 1) = pre.length + 1 + m.length := by omega
        have hrest := ih (pre ++ [x]) m post (by simp)
        simp only [List.length_append, List.length_singleton] at hrest
        simp [iterate, takeEnds, next, hget, hlen, exactLen_add, hrest]
      | nil =>
        -- the cursor is at the first element that was returned from the back, if there is one
        cases post with
        | nil =>
          have hget : s.get pre.length = none := by simp [h]
          have hzero : StateVecIter.exactLen ⟨pre.length, pre.length⟩ = .ok 0 := exactLen_add _ 0
          have hrest := ih pre [] [] rfl
          simp [iterate, takeEnds, next, hget, hzero] at hrest ⊢
          grind
        | cons y post =>
          have hget : s.get pre.length = some y := by simp [h]
          simp [iterate, takeEnds, next, hget]
    | back =>
      rcases List.eq_nil_or_concat' m with rfl | ⟨m, x, rfl⟩
      · -- the cursor is behind the last element that was returned from the front
        rcases List.eq_nil_or_concat' pre with rfl | ⟨pre, y, rfl⟩
        · have hrest := ih [] [] post rfl
          simp [iterate, takeEnds, nextBack, exactLen_add 0 0] at hrest ⊢
          grind
        · have hget : s.get pre.length = some y := by simp [h]
          simp [iterate, takeEnds, nextBack, hget]
      · have hget : s.get (pre.length + m.length) = some x := by simp [h]
        have hrest := ih pre m (x :: post) (by simp)
        simp [iterate, takeEnds, nextBack, hget, ← Nat.add_assoc, exactLen_add, hrest]

/-- After any operations the vector is the list of the model. Its iterator returns the ends of what
is left and the exact length if and only if it is called at most once for each element, or from one
end only, or the list is empty. -/
theorem stateVec_list_iff (ops : List (VecOp V)) (calls : List Side) :
    let s := ops.foldl VecOp.apply emptyVec
    let l := ops.foldl listOp []
    (s.len = l.length ∧ (∀ i, s.get i = l[i]?) ∧ s.last = l.getLast?) ∧
      (s.iterate s.iter calls = takeEnds l calls ↔ calls.length ≤ l.length ∨
        (∀ c ∈ calls, c = .front) ∨ (∀ c ∈ calls, c = .back) ∨ l = []) := by
  intro s l
  have h : IsList s l := .run ops
  refine ⟨⟨h.len, h.elems, h.last⟩, ?_⟩
  have hiter := iterate_eq_iff h.elems calls [] l [] (by simp)
  simpa [iter, h.len] using hiter

/-- One element and a call from each end. It is returned twice, and then the cursors have crossed.
-/
theorem iterate_returns_twice :
    let s := VecOp.apply emptyVec (.push 7)
    s.iterate s.iter [.front, .back] = [(some 7, .ok 0), (some 7,
      Outcome.panic "attempt to subtract with overflow")] := rfl

end Citrea.Proofs.Storage
