import Citrea.Lib.Outcome
import Mathlib.Logic.Function.Basic

/-!
# `Citrea.Spec.Storage.StateVec`: a vector in the state

`crates/sovereign-sdk/module-system/sov-modules-api/src/containers/traits/vec.rs`. The length and
the elements are containers under two prefixes, and a container returns what was last written to it.
So they are two fields here. A `usize` is a `Nat`.
-/

namespace Citrea.Spec.Storage

open Lib

/-- The containers `len_value` and `elems` of a `StateVec`. -/
structure StateVec (V : Type) where
  lenValue : Option Nat
  elems : Nat → Option V

/-- `StateVecIter`, without the vector. -/
structure StateVecIter where
  len : Nat
  nextI : Nat

/-- `StateVecError::IndexOutOfBounds`. -/
inductive StateVecError where
  | indexOutOfBounds (index : Nat)

namespace StateVec

variable {V : Type} (s : StateVec V)

/-- `len`. -/
def len : Nat := s.lenValue.getD 0

/-- `set_len`. -/
def setLen (length : Nat) : StateVec V := { s with lenValue := some length }

/-- `elems().set`, and `elems().delete` for `none`. -/
def setElem (i : Nat) (value : Option V) : StateVec V :=
  { s with elems := Function.update s.elems i value }

/-- A loop over the `n` indices from `start` on that sets or deletes each element. -/
def setElems (value : Nat → Option V) (start n : Nat) : StateVec V :=
  (List.range' start n).foldl (fun s i => s.setElem i (value i)) s

/-- `set`. -/
def set (index : Nat) (value : V) : Outcome StateVecError (StateVec V) := do
  ensure (index < s.len) (.indexOutOfBounds index)
  pure (s.setElem index (some value))

/-- `get`. -/
def get (index : Nat) : Option V := s.elems index

/-- `push`. -/
def push (value : V) : StateVec V := (s.setElem s.len (some value)).setLen (s.len + 1)

/-- `pop`. -/
def pop : Option V × StateVec V :=
  match s.len with
  | 0 => (none, s)
  | lastI + 1 =>
    match s.elems lastI with
    | none => (none, s.setElem lastI none)
    | some elem => (some elem, (s.setElem lastI none).setLen lastI)

/-- `clear`. -/
def clear : StateVec V := { s with lenValue := none }.setElems (fun _ => none) 0 s.len

/-- `set_all`. -/
def setAll (values : List V) : StateVec V :=
  ((s.setElems (fun _ => none) values.length (s.len - values.length)).setElems
    (fun i => values[i]?) 0 values.length).setLen values.length

/-- `last`. -/
def last : Option V :=
  match s.len with
  | 0 => none
  | i + 1 => s.elems i

/-- `iter`. -/
def iter : StateVecIter := ⟨s.len, 0⟩

/-- `Iterator::next`. -/
def next (it : StateVecIter) : Option V × StateVecIter :=
  match s.get it.nextI with
  | none => (none, it)
  | some elem => (some elem, { it with nextI := it.nextI + 1 })

/-- `DoubleEndedIterator::next_back`. -/
def nextBack (it : StateVecIter) : Option V × StateVecIter :=
  if it.len = 0 then (none, it)
  else (s.get (it.len - 1), { it with len := it.len - 1 })

end StateVec

/-- `ExactSizeIterator::len`. The subtraction overflows if the cursors have crossed. -/
def StateVecIter.exactLen (it : StateVecIter) : Outcome Empty Nat := do
  assert (it.nextI ≤ it.len) "attempt to subtract with overflow"
  pure (it.len - it.nextI)

/-- A call of an operation that changes a vector. -/
inductive VecOp (V : Type) where
  | push (value : V)
  | pop
  | set (index : Nat) (value : V)
  | setAll (values : List V)
  | clear

/-- The vector after an operation. A `set` that fails leaves it as it is. -/
def VecOp.apply {V : Type} (s : StateVec V) : VecOp V → StateVec V
  | push value => s.push value
  | pop => s.pop.2
  | set index value =>
    match s.set index value with
    | .ok s' => s'
    | .error _ => s
  | setAll values => s.setAll values
  | clear => s.clear

/-- The two ends of an iterator. -/
inductive Side where
  | front
  | back

/-- The items of a sequence of `next` and `next_back`, each with the exact length after the call. -/
def StateVec.iterate {V : Type} (s : StateVec V) :
    StateVecIter → List Side → List (Option V × Outcome Empty Nat)
  | _, [] => []
  | it, side :: rest =>
    let (item, it') := match side with
      | .front => s.next it
      | .back => s.nextBack it
    (item, it'.exactLen) :: s.iterate it' rest

end Citrea.Spec.Storage
