import Citrea.Lib.StoreTrace
import Citrea.Spec.Storage.Cache

/-!
# `Citrea.Proofs.Storage.Cache`: the cache as a view of the stored state

A state is a map from keys to values. `applyWrites` is a list of writes on top of a state, and
`cacheView` is what the cache says about the keys that it has, with the stored state for the
others.

`Consistent` relates a cache to the stored state: a value that was read is the stored value. Then
the writes of the cache lead from the stored state to the view (`applyWrites_iterWrites`). So after
they have been applied, the cached values are the values of the new state. This is `Cached`, and it
survives pruning. The next block marks all entries as read, and the cache is consistent with the
new state (`consistent_markAllAsRead`).
-/

namespace Citrea.Proofs.Storage

open Function (Injective update update_of_ne update_self)
open Option List Lib Spec.Storage
open Std (TreeMap)

/-- The contents of a state tree. -/
abbrev State := Bytes → Option Bytes

variable {k : Bytes} {v : Option Bytes} {c : CacheLog} {base : State}
  {writes : List (Bytes × Option Bytes)} {access : Access}

/-- A list of writes on top of a state. A write of `none` deletes. -/
def applyWrites (m : State) (writes : List (Bytes × Option Bytes)) : State :=
  writes.foldl (fun m write => update m write.1 write.2) m

theorem applyWrites_append (m : State) (l₁ l₂ : List (Bytes × Option Bytes)) :
    applyWrites m (l₁ ++ l₂) = applyWrites (applyWrites m l₁) l₂ := foldl_append

/-- A key that is not written keeps its value. -/
theorem applyWrites_of_notMem (h : ∀ v, (k, v) ∉ writes) (m : State) :
    applyWrites m writes k = m k := by
  induction writes generalizing m with
  | nil => rfl
  | cons write rest ih =>
    have hne : k ≠ write.1 := by
      rintro rfl
      exact h write.2 (mem_cons_self ..)
    show applyWrites (update m write.1 write.2) rest k = m k
    rw [ih fun v hv => h v (mem_cons_of_mem _ hv), update_of_ne hne]

/-- A key that is written once has the value that is written. -/
theorem applyWrites_of_mem (hdistinct : writes.Pairwise fun a b => a.1 ≠ b.1)
    (h : (k, v) ∈ writes) (m : State) : applyWrites m writes k = v := by
  induction writes generalizing m with
  | nil => cases h
  | cons write rest ih =>
    rw [pairwise_cons] at hdistinct
    show applyWrites (update m write.1 write.2) rest k = v
    rcases mem_cons.mp h with rfl | hrest
    · have hnot : ∀ v', (k, v') ∉ rest := fun v' hv' => hdistinct.1 _ hv' rfl
      rw [applyWrites_of_notMem hnot]
      exact update_self ..
    · exact ih hdistinct.2 hrest _

/-- The keys of a tree map are distinct. -/
theorem pairwise_toList {V : Type} (u : TreeMap Bytes V) : u.toList.Pairwise fun a b => a.1 ≠ b.1 :=
  u.distinct_keys_toList.imp fun hcompare heq => hcompare (Std.compare_eq_iff_eq.mpr heq)

/-- The entries of a tree map as writes. -/
theorem applyWrites_toList (u : TreeMap Bytes (Option Bytes)) (m : State) (k : Bytes) :
    applyWrites m u.toList k = u[k]?.getD (m k) := by
  cases hk : u[k]? with
  | none =>
    refine applyWrites_of_notMem (fun v hv => ?_) m
    rw [TreeMap.mem_toList_iff_getElem?_eq_some, hk] at hv
    cases hv
  | some v =>
    exact applyWrites_of_mem (pairwise_toList u)
      (TreeMap.mem_toList_iff_getElem?_eq_some.mpr hk) m

/-! ### The view of a cache -/

/-- The cached values, and the stored state for the other keys. -/
def cacheView (c : CacheLog) (base : State) : State := fun k => (c.getValue k).getD (base k)

/-- The values that an access has read agree with the stored value. -/
def Access.Agrees (stored : Option Bytes) : Access → Prop
  | .read value => value = stored
  | .readThenWrite original _ => original = stored
  | .write _ => True

/-- The values that the cache has read are the stored ones. -/
def Consistent (base : State) (c : CacheLog) : Prop :=
  ∀ k access, c.log[k]? = some access → Access.Agrees (base k) access

theorem lastValue_writeValue (access : Access) (v : Option Bytes) :
    (access.writeValue v).lastValue = v := by
  cases access with
  | read original =>
    by_cases h : original = v
    · rw [Access.writeValue, if_pos h, Access.lastValue, h]
    · rw [Access.writeValue, if_neg h, Access.lastValue]
  | readThenWrite original modified =>
    by_cases h : original = v
    · rw [Access.writeValue, if_pos h, Access.lastValue]
    · rw [Access.writeValue, if_neg h, Access.lastValue]
  | write value => rfl

theorem agrees_writeValue {stored : Option Bytes} (h : Access.Agrees stored access)
    (v : Option Bytes) : Access.Agrees stored (access.writeValue v) := by
  cases access with
  | read original =>
    rw [Access.writeValue]
    split
    · exact h
    · exact h
  | readThenWrite original modified =>
    rw [Access.writeValue]
    split
    · -- the write is discarded, because it sets the key back to the value that was read
      next heq => exact heq ▸ h
    · exact h
  | write value => exact trivial

theorem getElem?_insert {V : Type} (u : TreeMap Bytes V) (k k' : Bytes) (v : V) :
    (u.insert k v)[k']? = if k = k' then some v else u[k']? := by
  rw [TreeMap.getElem?_insert]
  simp

/-- An entry after a write: the new entry at the key, and the old entries at the others. -/
theorem getElem?_addWrite (c : CacheLog) (k k' : Bytes) (v : Option Bytes) :
    (c.addWrite k v).log[k']? =
      if k = k' then some ((c.log[k]?.map (Access.writeValue v)).getD (.write v))
      else c.log[k']? := by
  rw [CacheLog.addWrite]
  cases hk : c.log[k]? with
  | none => exact getElem?_insert ..
  | some access => exact getElem?_insert ..

theorem cacheView_addWrite (c : CacheLog) (base : State) (k : Bytes) (v : Option Bytes) :
    cacheView (c.addWrite k v) base = update (cacheView c base) k v := by
  funext k'
  rw [cacheView, CacheLog.getValue, getElem?_addWrite]
  by_cases heq : k = k'
  · subst heq
    rw [if_pos rfl, update_self]
    cases c.log[k]? with
    | none => rfl
    | some access => exact lastValue_writeValue access v
  · rw [if_neg heq, update_of_ne (Ne.symm heq)]
    rfl

theorem consistent_addWrite (h : Consistent base c) (k : Bytes) (v : Option Bytes) :
    Consistent base (c.addWrite k v) := by
  intro k' access hget
  rw [getElem?_addWrite] at hget
  split at hget
  · next heq =>
    subst heq
    obtain rfl := some.inj hget
    cases hk : c.log[k]? with
    | none => exact trivial
    | some old => exact agrees_writeValue (h k old hk) v
  · exact h k' access hget

theorem cacheView_commitWrites (c : CacheLog) (base : State)
    (writes : TreeMap Bytes (Option Bytes)) :
    cacheView (commitWrites c writes) base = applyWrites (cacheView c base) writes.toList := by
  rw [commitWrites, applyWrites]
  induction writes.toList generalizing c with
  | nil => rfl
  | cons write rest ih => rw [foldl_cons, foldl_cons, ih, cacheView_addWrite]

theorem consistent_commitWrites (h : Consistent base c) (writes : TreeMap Bytes (Option Bytes)) :
    Consistent base (commitWrites c writes) := by
  rw [commitWrites]
  induction writes.toList generalizing c with
  | nil => exact h
  | cons write rest ih => exact ih (consistent_addWrite h write.1 write.2)

/-! ### The writes of a cache -/

theorem mem_iterWrites :
    (k, v) ∈ c.iterWrites ↔ ∃ access, c.log[k]? = some access ∧ access.written = some v := by
  simp only [CacheLog.iterWrites, mem_filterMap, map_eq_some_iff, Prod.mk.injEq]
  constructor
  · rintro ⟨⟨k', access⟩, hmem, v', hv, rfl, rfl⟩
    exact ⟨access, TreeMap.mem_toList_iff_getElem?_eq_some.mp hmem, hv⟩
  · rintro ⟨access, hget, hv⟩
    exact ⟨(k, access), TreeMap.mem_toList_iff_getElem?_eq_some.mpr hget, v, hv, rfl, rfl⟩

theorem pairwise_iterWrites (c : CacheLog) : c.iterWrites.Pairwise fun a b => a.1 ≠ b.1 := by
  refine (pairwise_toList c.log).filterMap _ ?_
  rintro ⟨k, access⟩ ⟨k', access'⟩ hne w hw w' hw'
  simp only [map_eq_some_iff] at hw hw'
  obtain ⟨v, -, rfl⟩ := hw
  obtain ⟨v', -, rfl⟩ := hw'
  exact hne

/-- The writes of a consistent cache lead from the stored state to its view. A key that was set
back to the stored value is not among the writes, and keeps that value. -/
theorem applyWrites_iterWrites (h : Consistent base c) :
    applyWrites base c.iterWrites = cacheView c base := by
  funext k
  rw [cacheView, CacheLog.getValue]
  cases hk : c.log[k]? with
  | none =>
    refine applyWrites_of_notMem (fun v hv => ?_) base
    obtain ⟨access, hget, -⟩ := mem_iterWrites.mp hv
    rw [hk] at hget
    cases hget
  | some access =>
    have hagrees := h k access hk
    cases access with
    | read value =>
      have hnot : ∀ v, (k, v) ∉ c.iterWrites := by
        intro v hv
        obtain ⟨access, hget, hwritten⟩ := mem_iterWrites.mp hv
        obtain rfl := some_unique hk hget
        cases hwritten
      rw [applyWrites_of_notMem hnot]
      exact hagrees.symm
    | readThenWrite original modified =>
      exact applyWrites_of_mem (pairwise_iterWrites c) (mem_iterWrites.mpr ⟨_, hk, rfl⟩) base
    | write value =>
      exact applyWrites_of_mem (pairwise_iterWrites c) (mem_iterWrites.mpr ⟨_, hk, rfl⟩) base

/-! ### From block to block -/

/-- The cached values are the values of the state. -/
def Cached (base : State) (c : CacheLog) : Prop := ∀ k v, c.getValue k = some v → base k = v

/-- A cache agrees with its own view. -/
theorem cached_cacheView (c : CacheLog) (base : State) : Cached (cacheView c base) c := by
  intro k v hv
  rw [cacheView, hv]
  rfl

theorem getValue_markAllAsRead (c : CacheLog) (k : Bytes) :
    c.markAllAsRead.getValue k = c.getValue k := by
  rw [CacheLog.getValue, CacheLog.getValue, CacheLog.markAllAsRead, TreeMap.getElem?_map,
    Option.map_map]
  rfl

/-- A cache of current values can be marked as read. -/
theorem consistent_markAllAsRead (h : Cached base c) : Consistent base c.markAllAsRead := by
  intro k access hget
  have hlast : c.getValue k = some access.lastValue := by
    rw [← getValue_markAllAsRead, CacheLog.getValue, hget]
    rfl
  rw [CacheLog.markAllAsRead, TreeMap.getElem?_map] at hget
  obtain ⟨old, -, rfl⟩ := map_eq_some_iff.mp hget
  exact (h k _ hlast).symm

/-- A cache of current values shows the state. -/
theorem cacheView_markAllAsRead (h : Cached base c) : cacheView c.markAllAsRead base = base := by
  funext k
  rw [cacheView, getValue_markAllAsRead]
  cases hk : c.getValue k with
  | none => rfl
  | some v => exact (h k v hk).symm

/-- Every entry that is left after pruning was there before. -/
theorem getElem?_pruneHalf (h : c.pruneHalf.log[k]? = some access) : c.log[k]? = some access := by
  rw [CacheLog.pruneHalf] at h
  split at h
  · exact h
  · rw [TreeMap.getElem?_filter, pfilter_eq_some_iff] at h
    exact h.1

theorem getValue_pruneHalf (h : c.pruneHalf.getValue k = some v) : c.getValue k = some v := by
  obtain ⟨access, hget, rfl⟩ := map_eq_some_iff.mp h
  rw [CacheLog.getValue, getElem?_pruneHalf hget]
  rfl

theorem cached_pruneHalf (h : Cached base c) :
    Cached base c.pruneHalf := fun k v hv => h k v (getValue_pruneHalf hv)

theorem consistent_empty (base : State) : Consistent base .empty := by
  intro k access hget
  have hnone : (CacheLog.empty.log)[k]? = none := TreeMap.getElem?_emptyc
  rw [hnone] at hget
  cases hget

theorem cacheView_empty (base : State) : cacheView .empty base = base := by
  funext k
  have hnone : (CacheLog.empty.log)[k]? = none := TreeMap.getElem?_emptyc
  rw [cacheView, CacheLog.getValue, hnone]
  rfl

/-! ### A working set refines the state

`stateMap` is the state itself as the store of a program. `simulates_stateMap` says that a run on a
`StateDelta` is a run on the state, if the values that it took from the storage are the stored ones.
The storage is arbitrary. It may return any value, as the storage of the guest does, and the
condition is about the list of ordered reads that the delta keeps.

`got_eq_stored` says what a run on the state gets: the value of the state with the writes of the
run so far on top.
-/

open Lib.StoreProg (Backend HintBackend Simulates trace)

variable {d : StateDelta} {key : Bytes} {v : Option Bytes} {base m : State}

/-! ### The view of a delta -/

/-- The value of each key as a delta sees it, over the stored state. -/
def deltaView (base : State) (d : StateDelta) : State :=
  fun k => d.uncommittedWrites[k]?.getD (cacheView d.cacheLog base k)

/-- The values that the delta took from the storage are the stored ones. -/
def ReadsStored (base : State) (d : StateDelta) : Prop :=
  ∀ read ∈ d.orderedStorageReads, base read.1 = read.2

/-- A delta stands for the state `m`. -/
structure Represents (base : State) (d : StateDelta) (m : State) : Prop where
  view : deltaView base d = m
  consistent : Consistent base d.cacheLog

/-- A read is answered from the writes or the cache, or it becomes a new entry of the cache and of
the ordered reads. -/
theorem get_cases {H : Type} {storage : StorageOps H} {d' : StateDelta}
    (h : d.get storage key = .ok (v, d')) (base : State) : (d' = d ∧ v = deltaView base d key) ∨
    (d.uncommittedWrites[key]? = none ∧ d.cacheLog.log[key]? = none ∧
      ∃ witness, storage.get key d.witness = .ok (v, witness) ∧ d' = { d with
          cacheLog := ⟨d.cacheLog.log.insert key (.read v)⟩
          orderedStorageReads := d.orderedStorageReads ++ [(key, v)]
          witness := witness }) := by
  unfold StateDelta.get at h
  split at h
  · next value hwritten =>
    obtain ⟨rfl, rfl⟩ := Prod.mk.inj (pure_eq_ok.mp h)
    refine .inl ⟨rfl, ?_⟩
    rw [deltaView, hwritten]
    rfl
  · next hnone =>
    split at h
    · next value hcached =>
      obtain ⟨rfl, rfl⟩ := Prod.mk.inj (pure_eq_ok.mp h)
      refine .inl ⟨rfl, ?_⟩
      rw [deltaView, hnone, cacheView, hcached]
      rfl
    · next hmiss =>
      have hmiss : d.cacheLog.log[key]? = none := map_eq_none_iff.mp hmiss
      simp only [bind_eq_ok, CacheLog.addRead, hmiss, pure_eq_ok] at h
      obtain ⟨⟨v', witness⟩, hget, -, rfl, heq⟩ := h
      obtain ⟨rfl, rfl⟩ := Prod.mk.inj heq
      exact .inr ⟨hnone, hmiss, witness, hget, rfl⟩

/-- The cache with a new entry for the stored value sees the same state. -/
theorem represents_read (h : Represents base d m) (hmiss : d.cacheLog.log[key]? = none)
    (hv : base key = v) (reads : List (Bytes × Option Bytes)) (witness : Witness) : Represents base
      { d with
        cacheLog := ⟨d.cacheLog.log.insert key (.read v)⟩
        orderedStorageReads := reads
        witness := witness } m where
  view := by
    rw [← h.view]
    funext k
    show d.uncommittedWrites[k]?.getD _ = d.uncommittedWrites[k]?.getD _
    congr 1
    rw [cacheView, cacheView, CacheLog.getValue, CacheLog.getValue, getElem?_insert]
    by_cases hk : key = k
    · subst hk
      rw [if_pos rfl, hmiss]
      exact hv.symm
    · rw [if_neg hk]
  consistent := by
    intro k access hget
    rw [getElem?_insert] at hget
    split at hget
    · next hk =>
      subst hk
      obtain rfl := some.inj hget
      exact hv.symm
    · exact h.consistent k access hget

/-- A write changes the view at its key. -/
theorem represents_set (h : Represents base d m) (key : Bytes) (v : Option Bytes) :
    Represents base (d.set key v) (update m key v) where
  view := by
    rw [← h.view]
    funext k
    rw [deltaView]
    show ((d.uncommittedWrites.insert key v)[k]?).getD _ = _
    rw [getElem?_insert]
    by_cases hk : key = k
    · subst hk
      rw [if_pos rfl, update_self]
      rfl
    · rw [if_neg hk, update_of_ne (Ne.symm hk)]
      rfl
  consistent := h.consistent

/-! ### Refinement -/

section
variable {K : Type} {Val : K → Type} {C W ε α H τ : Type} (codec : Codec Val)

/-- The state as the store of a program. -/
def stateMap : Backend Val State where
  get := fun k m => do
    let value ← codec.decodeUnwrap k (m (codec.keyBytes k))
    pure (value, m)
  set := fun k v m => update m (codec.keyBytes k) (v.map (codec.encode k))

/-- A run on a delta that read stored values is a run on the state. -/
theorem simulates_stateMap (storage : StorageOps H) (base : State) :
    Simulates (stateBackend storage codec) (stateMap codec) (ReadsStored base)
      (Represents base) where
  valid_get := by
    intro k v d d' hget hvalid
    simp only [stateBackend, bind_eq_ok, pure_eq_ok, Prod.mk.injEq] at hget
    obtain ⟨⟨bytes, d''⟩, hget, -, -, -, rfl⟩ := hget
    rcases get_cases hget base with ⟨rfl, -⟩ | ⟨-, -, witness, -, rfl⟩
    · exact hvalid
    · intro read hread
      exact hvalid read (mem_append_left _ hread)
  valid_set := fun hvalid => hvalid
  get := by
    intro k v d d' m hR hget hvalid
    simp only [stateBackend, bind_eq_ok, pure_eq_ok, Prod.mk.injEq] at hget
    obtain ⟨⟨bytes, d''⟩, hget, value, hdecode, rfl, rfl⟩ := hget
    have hcases := get_cases hget base
    have hbytes : m (codec.keyBytes k) = bytes := by
      rw [← hR.view]
      rcases hcases with ⟨-, hv⟩ | ⟨hwrites, hmiss, witness, -, rfl⟩
      · exact hv.symm
      · rw [deltaView, hwrites, cacheView, CacheLog.getValue, hmiss]
        exact hvalid (codec.keyBytes k, bytes) (mem_append_right _ (by simp))
    refine ⟨m, ?_, ?_⟩
    · show (codec.decodeUnwrap k (m (codec.keyBytes k)) >>= fun value => pure (value, m)) = _
      rw [hbytes, hdecode]
      rfl
    · rcases hcases with ⟨rfl, -⟩ | ⟨-, hmiss, witness, -, rfl⟩
      · exact hR
      · refine represents_read hR hmiss ?_ _ _
        exact hvalid (codec.keyBytes k, bytes) (mem_append_right _ (by simp))
  set := fun hR => represents_set hR _ _

/-- Distinct keys have distinct bytes, and a value is read back as it was written. -/
structure Codec.Lawful : Prop where
  keyBytes : Injective codec.keyBytes
  decode : ∀ k v, codec.decode k (codec.encode k v) = some v

/-- The values of a state. -/
def typedState (m : State) : (k : K) → Option (Val k) :=
  fun k => (m (codec.keyBytes k)).bind (codec.decode k)

variable {codec}

theorem typedState_of_decodeUnwrap {m : State} {k : K} {value : Option (Val k)}
    (h : codec.decodeUnwrap k (m (codec.keyBytes k)) = .ok value) :
    typedState codec m k = value := by
  rw [typedState]
  cases hbytes : m (codec.keyBytes k) with
  | none =>
    rw [hbytes] at h
    exact pure_eq_ok.mp h
  | some bytes =>
    rw [hbytes, Codec.decodeUnwrap, bind_eq_ok] at h
    obtain ⟨v, hdecode, h⟩ := h
    rw [expect_eq_ok] at hdecode
    rw [bind_some, hdecode]
    exact pure_eq_ok.mp h

theorem typedState_update [DecidableEq K] (hcodec : Codec.Lawful codec) (m : State) (k : K)
    (v : Option (Val k)) : typedState codec (update m (codec.keyBytes k) (v.map (codec.encode k))) =
      update (typedState codec m) k v := by
  funext k'
  by_cases hk : k' = k
  · subst hk
    rw [typedState, update_self, update_self]
    cases v with
    | none => rfl
    | some v => exact hcodec.decode k' v
  · have hbytes : codec.keyBytes k' ≠ codec.keyBytes k := fun h => hk (hcodec.keyBytes h)
    rw [typedState, update_of_ne hbytes, update_of_ne hk, typedState]

/-- A run on the bytes of a state is a run on its values. -/
theorem simulates_mapStore [DecidableEq K] (hcodec : Codec.Lawful codec) :
    Simulates (stateMap codec) StoreProg.mapStore (fun _ => True)
      (fun m st => typedState codec m = st) where
  valid_get := fun _ _ => trivial
  valid_set := fun _ => trivial
  get := by
    rintro k v m m' _ rfl hget -
    simp only [stateMap, bind_eq_ok, pure_eq_ok, Prod.mk.injEq] at hget
    obtain ⟨value, hdecode, rfl, rfl⟩ := hget
    refine ⟨typedState codec m, ?_, rfl⟩
    show Except.ok (typedState codec m k, typedState codec m) = _
    rw [typedState_of_decodeUnwrap hdecode]
  set := by
    rintro k v m _ rfl
    exact typedState_update hcodec m k v

variable (codec)

/-! ### What a run on the state gets -/

/-- The write of an access, in bytes. -/
def writeOf : Event Val C W → Option (Bytes × Option Bytes)
  | .put k v => some (codec.keyBytes k, v.map (codec.encode k))
  | _ => none

/-- The writes of a list of accesses. -/
def writesOf (l : List (Event Val C W)) : List (Bytes × Option Bytes) := l.filterMap (writeOf codec)

/-- A run on the state ends in the state with its writes on top. -/
theorem run_stateMap {O : HintBackend C W τ} {p : StoreProg Val C W ε α} {m m' t t' a}
    (hrun : StoreProg.run (stateMap codec) O p m t = .ok (a, m', t')) :
    m' = applyWrites m (writesOf codec (trace (stateMap codec) O p m t)) := by
  replace hrun := StoreProg.runs_of_run hrun
  induction hrun with
  | pure => rfl
  | get hget _ ih =>
    rw [trace, hget]
    simp only [stateMap, bind_eq_ok, pure_eq_ok, Prod.mk.injEq] at hget
    obtain ⟨-, -, -, rfl⟩ := hget
    exact ih
  | set _ ih => exact ih
  | getHint hget _ ih =>
    rw [trace, hget]
    exact ih
  | setHint _ ih => exact ih

/-- Each value that a run on the state gets is the decoded value of its key in the state with the
writes so far on top. -/
theorem got_eq_stored {O : HintBackend C W τ} (p : StoreProg Val C W ε α) :
    ∀ {m t l₁ k v l₂}, trace (stateMap codec) O p m t = l₁ ++ .got k v :: l₂ →
      codec.decodeUnwrap k (applyWrites m (writesOf codec l₁) (codec.keyBytes k)) = .ok v := by
  induction p with
  | pure a => intro m t l₁ k v l₂ htrace; simp [trace] at htrace
  | fail fault => intro m t l₁ k v l₂ htrace; simp [trace] at htrace
  | get k₀ next ih =>
    intro m t l₁ k v l₂ htrace
    rw [trace] at htrace
    split at htrace
    · next r hget =>
      simp only [stateMap, bind_eq_ok, pure_eq_ok] at hget
      obtain ⟨value, hdecode, rfl⟩ := hget
      cases l₁ with
      | nil =>
        -- the value in question is the one of this read, and nothing has been written yet
        simp only [nil_append, List.cons.injEq, Event.got.injEq] at htrace
        obtain ⟨⟨rfl, hv⟩, -⟩ := htrace
        obtain rfl := eq_of_heq hv
        exact hdecode
      | cons e l₁ =>
        rw [cons_append, List.cons.injEq] at htrace
        obtain ⟨rfl, htrace⟩ := htrace
        have hrest := ih _ htrace
        exact hrest
    · simp at htrace
  | set k₀ v₀ next ih =>
    intro m t l₁ k v l₂ htrace
    cases l₁ with
    | nil => simp [trace] at htrace
    | cons e l₁ =>
      rw [trace, cons_append, List.cons.injEq] at htrace
      obtain ⟨rfl, htrace⟩ := htrace
      have hrest := ih htrace
      exact hrest
  | getHint checked c next ih =>
    intro m t l₁ k v l₂ htrace
    rw [trace] at htrace
    split at htrace
    · cases l₁ with
      | nil => simp at htrace
      | cons e l₁ =>
        rw [cons_append, List.cons.injEq] at htrace
        obtain ⟨rfl, htrace⟩ := htrace
        have hrest := ih _ htrace
        exact hrest
    · simp at htrace
  | setHint c w next ih =>
    intro m t l₁ k v l₂ htrace
    cases l₁ with
    | nil => simp [trace] at htrace
    | cons e l₁ =>
      rw [trace, cons_append, List.cons.injEq] at htrace
      obtain ⟨rfl, htrace⟩ := htrace
      have hrest := ih htrace
      exact hrest

end

end Citrea.Proofs.Storage
