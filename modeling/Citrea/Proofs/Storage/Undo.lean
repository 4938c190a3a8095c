import Citrea.Proofs.Storage.Cache

/-!
# `Citrea.Proofs.Storage.Undo`: checkpoints and reverts

A `WorkingSet` writes to a buffer over the cache. `checkpoint` moves the buffer into the cache, and
`revert` drops it. `UndoState` says what this is for: a state, and the state to which `revert` goes
back. `calls_refine_undo` is the refinement, with the cache of an earlier block as the start.
-/

namespace Citrea.Spec.Storage

/-- A call on a `WorkingSet`. To set `none` is `delete`. After `checkpoint` and `revert`,
`to_revertable` makes a `WorkingSet` again. -/
inductive WorkingSetCall where
  | get (key : Bytes)
  | set (key : Bytes) (value : Option Bytes)
  | checkpoint
  | revert

/-- One call, after the values that `get` has returned so far. -/
def StateDelta.call {H : Type} (storage : StorageOps H) (t : List (Option Bytes) × StateDelta) :
    WorkingSetCall → Lib.Outcome Empty (List (Option Bytes) × StateDelta)
  | .get key => do
    let (value, d) ← t.2.get storage key
    pure (t.1 ++ [value], d)
  | .set key value => pure (t.1, t.2.set key value)
  | .checkpoint => pure (t.1, t.2.commit)
  | .revert => pure (t.1, t.2.revert)

end Citrea.Spec.Storage

namespace Citrea.Proofs.Storage

open List Lib Spec.Storage
open Function (update)

/-- The values returned so far, the state, and the state to which `revert` goes back. -/
structure UndoState where
  values : List (Option Bytes)
  current : State
  saved : State

/-- One call on a state. -/
def UndoState.call (u : UndoState) : WorkingSetCall → UndoState
  | .get key => { u with values := u.values ++ [u.current key] }
  | .set key value => { u with current := update u.current key value }
  | .checkpoint => { u with saved := u.current }
  | .revert => { u with current := u.saved }

variable {H : Type} {storage : StorageOps H} {stored m : State} {d : StateDelta}

theorem represents_commit (h : Represents stored d m) : Represents stored d.commit m where
  view := by
    rw [← h.view]
    funext k
    show cacheView (commitWrites d.cacheLog d.uncommittedWrites) stored k = _
    rw [cacheView_commitWrites, applyWrites_toList]
    rfl
  consistent := consistent_commitWrites h.consistent _

/-- A delta stands for the state and for the saved one, and its reads are of stored values. -/
structure StandsFor (stored : State) (d : StateDelta) (u : UndoState) : Prop where
  current : Represents stored d u.current
  saved : Represents stored d.revert u.saved
  reads : ReadsStored stored d

section
variable {u : UndoState} (hstored : ∀ key w, ∃ w', storage.get key w = .ok (stored key, w'))
include hstored

/-- A read returns the current value, from the buffer, the cache or the storage. -/
theorem StandsFor.get (h : StandsFor stored d u) (key : Bytes) :
    ∃ d', d.get storage key = .ok (u.current key, d') ∧ StandsFor stored d' u := by
  obtain ⟨w', hw⟩ := hstored key d.witness
  obtain ⟨⟨v, d'⟩, hget⟩ : ∃ r, d.get storage key = .ok r := by
    unfold StateDelta.get
    split
    · exact ⟨_, rfl⟩
    split
    · exact ⟨_, rfl⟩
    next hmiss =>
    simp only [hw, CacheLog.addRead, Option.map_eq_none_iff.mp hmiss]
    exact ⟨_, rfl⟩
  rcases get_cases hget stored with ⟨rfl, rfl⟩ | ⟨hwrites, hmiss, witness, hs, rfl⟩
  · exact ⟨_, h.current.view ▸ hget, h⟩
  · obtain rfl : stored key = v := (Prod.mk.inj (ok_unique hw hs)).1
    have hcurrent : u.current key = stored key := by
      rw [← h.current.view, deltaView, hwrites, cacheView, CacheLog.getValue, hmiss]
      rfl
    rw [hcurrent]
    refine ⟨_, hget, represents_read h.current hmiss rfl _ _,
      represents_read h.saved hmiss rfl _ _, ?_⟩
    rw [ReadsStored, forall_mem_append]
    exact ⟨h.reads, by simp⟩

/-- One call keeps the relation. -/
theorem StandsFor.call (h : StandsFor stored d u) (c : WorkingSetCall) :
    ∃ d', StateDelta.call storage (u.values, d) c = .ok ((u.call c).values, d') ∧
      StandsFor stored d' (u.call c) := by
  cases c with
  | get key =>
    obtain ⟨d', hget, h'⟩ := h.get hstored key
    refine ⟨d', ?_, h'.current, h'.saved, h'.reads⟩
    rw [StateDelta.call, hget]
    rfl
  | set key value => exact ⟨_, rfl, represents_set h.current key value, h.saved, h.reads⟩
  | checkpoint =>
    have hcommit := represents_commit h.current
    exact ⟨_, rfl, hcommit, hcommit, h.reads⟩
  | revert => exact ⟨_, rfl, h.saved, h.saved, h.reads⟩

/-- Any calls on a working set with the cache of an earlier block. They return the values that the
undo state returns. The reads are of stored values, the writes lead to the saved state, and the
cache that is left holds values of it. -/
theorem calls_refine_undo (log : ReadWriteLog) (hlog : Cached stored log.cacheLog)
    (witness : Witness) (calls : List WorkingSetCall) :
    let u := calls.foldl UndoState.call ⟨[], stored, stored⟩
      ∃ d, calls.foldlM (StateDelta.call storage) ([], .withWitnessAndLog witness log) =
          .ok (u.values, d) ∧ ReadsStored stored d ∧
        applyWrites stored d.freeze.1.iterOrderedWrites = u.saved ∧
        Cached u.saved d.freeze.1.cacheLog := by
  intro u
  have hstart : Represents stored (.withWitnessAndLog witness log) stored :=
    ⟨cacheView_markAllAsRead hlog, consistent_markAllAsRead hlog⟩
  obtain ⟨_, hrun, d, rfl, h⟩ := foldlM_returns (P := fun pre t => ∃ d,
      t = ((pre.foldl UndoState.call ⟨[], stored, stored⟩).values, d) ∧
        StandsFor stored d (pre.foldl UndoState.call ⟨[], stored, stored⟩))
    ⟨_, rfl, hstart, hstart, by simp [ReadsStored, StateDelta.withWitnessAndLog]⟩ calls
    (by
      rintro pre c - _ - ⟨d, rfl, h⟩
      obtain ⟨d', hd', h'⟩ := h.call hstored c
      rw [foldl_concat]
      exact ⟨_, hd', d', rfl, h'⟩)
  have hview : cacheView d.cacheLog stored = u.saved := h.saved.view
  rw [← hview]
  exact ⟨d, hrun, h.reads, applyWrites_iterWrites h.saved.consistent, cached_cacheView _ _⟩

end

/-- The storage of an empty state. -/
def emptyStorage : StorageOps Unit :=
  ⟨fun _ w => .ok (none, w), fun _ w _ => .ok (none, w), fun _ w => .ok (none, w),
    fun _ w => .ok (⟨(), (), []⟩, w)⟩

/-- A write that is reverted, and one that is kept. -/
theorem calls_refine_undo_revert : ∃ d, [.set [1] (some [2]), .revert, .get [1],
      .set [1] (some [3]), .checkpoint, .get [1]].foldlM (StateDelta.call emptyStorage)
      ([], .withWitnessAndLog [] ⟨[], .empty⟩) = .ok ([none, some [3]], d) := by
  have hstored : ∀ key w, ∃ w', emptyStorage.get key w = .ok ((fun _ => none : State) key, w') :=
    fun _ w => ⟨w, rfl⟩
  have hlog := cached_cacheView .empty fun _ => none
  rw [cacheView_empty] at hlog
  obtain ⟨d, hrun, -⟩ := calls_refine_undo hstored ⟨[], .empty⟩ hlog [] _
  exact ⟨d, hrun⟩

end Citrea.Proofs.Storage
