import Citrea.Lib.BinarySearch
import Citrea.Lib.Outcome

/-!
# `Citrea.Spec.Fork`: forks and the fork manager

`crates/sovereign-sdk/rollup-interface/src/{spec.rs,fork/mod.rs,fork/manager.rs}`. The guest
registers no migration handler, so the manager has none here and `register_block` returns no
error.
-/

namespace Citrea.Spec

open Lib

/-- `SpecId`, without the variant of the test feature. -/
inductive SpecId where
  | genesis
  | kumquat
  | tangerine
  | fork3
deriving DecidableEq, Repr

/-- The discriminant of a spec id, by which the source orders them. -/
def SpecId.toNat : SpecId → Nat
  | genesis => 0
  | kumquat => 1
  | tangerine => 2
  | fork3 => 3

/-- `Fork`. -/
structure Fork where
  specId : SpecId
  activationHeight : UInt64
deriving DecidableEq

/-- The forks after `previous`: the spec id goes up by one, and the activation height goes up. -/
def forksFollow (previous : Fork) : List Fork → Bool
  | [] => true
  | fork :: rest => fork.specId.toNat - previous.specId.toNat == 1 &&
      decide (previous.activationHeight < fork.activationHeight) && forksFollow fork rest

/-- `verify_forks`. -/
def verifyForks : List Fork → Bool
  | [] => true
  | fork :: rest => fork.activationHeight == 0 && forksFollow fork rest

/-- `fork_pos_from_block_number`. -/
def forkPosFromBlockNumber (forks : List Fork) (blockNumber : UInt64) : Nat :=
  (binarySearchByKey Fork.activationHeight blockNumber forks).orPrevious

/-- `ForkManager`. -/
structure ForkManager where
  forks : List Fork
  activeForkIdx : Nat
deriving DecidableEq

namespace ForkManager

variable {ε : Type}

/-- `ForkManager::new`. -/
def new (forks : List Fork) (currentL2Height : UInt64) : ForkManager :=
  ⟨forks, forkPosFromBlockNumber forks currentL2Height⟩

/-- `ForkManager::active_fork`. -/
def activeFork (m : ForkManager) : Outcome ε Fork :=
  expect m.forks[m.activeForkIdx]? "index out of bounds"

/-- `ForkManager::register_block`. -/
def registerBlock (m : ForkManager) (height : UInt64) : Outcome ε ForkManager :=
  if m.activeForkIdx + 1 = m.forks.length then pure m
  else do
    let nextFork ← expect m.forks[m.activeForkIdx + 1]? "index out of bounds"
    if height < nextFork.activationHeight then pure m
    else pure { m with activeForkIdx := m.activeForkIdx + 1 }

end ForkManager

end Citrea.Spec
