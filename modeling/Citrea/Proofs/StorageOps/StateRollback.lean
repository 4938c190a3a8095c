import Citrea.Proofs.StorageOps.StateDb

/-!
# `Citrea.Proofs.StorageOps.StateRollback`: what a rollback of the state leaves behind

`rollback_state_db` finds the values of the versions that it takes back through the leaves of these
versions. A value has a leaf of its version. A deletion has none, so its record stays
(`rollbackStateDb_eq`).

The record of a deletion hides the older value of its key from the reads at its version and after
it, in the database after the rollback and in everything that is executed on it.
`rollback_forgets_iff` says when the rollback forgets: no deletion was rolled back, apart from those
in the first block after the target of keys that had no value there.
-/

set_option linter.unusedSectionVars false

namespace Citrea.Proofs.StorageOps

open Option List Lib Spec.StorageOps

/-- The records after a rollback to the version `version`. -/
def rolledValues (t : Versioned Bytes (Option Bytes)) (version : Nat) :
    Versioned Bytes (Option Bytes) :=
  fun key n => if n ≤ version then t key n else if t key n = some none then some none else none

/-- The database after a rollback to the version `version`: the nodes of the versions up to it, and
the records of these versions and of the deletions after them. -/
def rolledDb {P H : Type} (db : StateDb P H) (version : Nat) : StateDb P H :=
  ⟨upTo db.nodes version, rolledValues db.values version, db.preimages⟩

/-- The nodes are in the order of their versions, so the loop stops after the last node above the
target. -/
theorem mem_takeWhile_above {P H : Type} (t : NodeTable P H) {version : Nat}
    {e : NodeKey P × Node H} : e ∈ (t.entries.takeWhile fun e => ¬e.1.version ≤ version) ↔
      e ∈ t.entries ∧ version < e.1.version := by
  have hsorted := t.sorted
  generalize t.entries = entries at hsorted
  induction entries with
  | nil => simp
  | cons e' entries ih =>
    rw [pairwise_cons] at hsorted
    by_cases habove : e'.1.version ≤ version
    · rw [takeWhile_cons_of_neg (by simpa using habove)]
      refine ⟨fun he => absurd he not_mem_nil, fun ⟨he, hlt⟩ => ?_⟩
      rcases mem_cons.mp he with rfl | he
      · omega
      · have hle := (hsorted.1 e he).1
        omega
    · have hrest := ih hsorted.2
      rw [takeWhile_cons_of_pos (by simpa using habove), mem_cons, mem_cons]
      constructor
      · rintro (rfl | he)
        · exact ⟨.inl rfl, by omega⟩
        · exact ⟨.inr (hrest.mp he).1, (hrest.mp he).2⟩
      · rintro ⟨rfl | he, hlt⟩
        · exact .inl rfl
        · exact .inr (hrest.mpr ⟨he, hlt⟩)

section
variable {P H : Type} [DecidableEq P] [DecidableEq H] {jmt : Jmt P H} {db : StateDb P H}
  {version : Nat} {key : Bytes} {logs : List StateWrites} {rolled fresh : StateDb P H}

/-- The loop collects the leaves above the target, under the key of their hash. -/
theorem mem_leafValues {n : Nat} : (key, n) ∈ db.leafValues version ↔ version < n ∧ ∃ path hash,
      (⟨n, path⟩, Node.leaf hash) ∈ db.nodes.entries ∧ db.preimages hash = some key := by
  rw [StateDb.leafValues, mem_filterMap]
  constructor
  · rintro ⟨⟨nodeKey, node⟩, he, hsome⟩
    obtain ⟨he, hlt⟩ := (mem_takeWhile_above db.nodes).mp he
    cases node with
    | null => cases hsome
    | internal => cases hsome
    | leaf hash =>
      obtain ⟨key', hkey, hpair⟩ := map_eq_some_iff.mp hsome
      obtain ⟨rfl, rfl⟩ := Prod.mk.inj hpair
      exact ⟨hlt, nodeKey.nibblePath, hash, he, hkey⟩
  · rintro ⟨hlt, path, hash, he, hkey⟩
    refine ⟨_, (mem_takeWhile_above db.nodes).mpr ⟨he, hlt⟩, ?_⟩
    show (db.preimages hash).map _ = _
    rw [hkey]
    rfl

theorem executeBlocks_empty (hjmt : JmtSpec jmt) (logs : List StateWrites) :
    ∃ db, StateDb.executeBlocks jmt StateDb.empty logs = .ok db ∧
      AtVersion jmt db.nodes logs.length ∧ ∀ key n, db.values key n = recordAt logs key n := by
  obtain ⟨db, hrun, hat, hvalues⟩ := executeBlocks_spec hjmt atVersion_empty logs
  rw [Nat.zero_add] at hat
  refine ⟨db, hrun, hat, fun key n => ?_⟩
  rw [hvalues]
  exact or_none

theorem rollbackStateDb_eq (hjmt : JmtSpec jmt) (hne : logs ≠ [])
    (hrun : StateDb.executeBlocks jmt StateDb.empty logs = .ok db) (version : Nat) :
    db.rollbackStateDb version = .ok (rolledDb db version) := by
  obtain ⟨db', hrun', hat, hvalues⟩ := executeBlocks_empty hjmt logs
  obtain rfl := ok_unique hrun hrun'
  have hpos := length_pos_of_ne_nil hne
  obtain ⟨hbuilt, hlast⟩ := hat.resolve_left fun h => by omega
  have hle := (largestVersion_eq_some.mp hlast).2
  have hnodes : (if logs.length + 1 > version
      then db.nodes.deleteRange (version + 1) (logs.length + 1) else db.nodes) =
      upTo db.nodes version := by
    split
    · rw [NodeTable.deleteRange, upTo, NodeTable.mk.injEq]
      refine filter_congr fun e he => ?_
      have hbound := hle e he
      rw [decide_eq_decide]
      omega
    · exact (upTo_of_le fun e he => (hle e he).trans (by omega)).symm
  have hrecords : (db.leafValues version).foldl (fun t e => t.delete e.1 e.2) db.values =
      rolledValues db.values version := by
    funext key n
    rw [Versioned.foldl_delete, rolledValues]
    by_cases hn : n ≤ version
    · rw [if_pos hn, if_neg fun h => absurd (mem_leafValues.mp h).1 (by omega)]
    rw [if_neg hn]
    cases hrecord : db.values key n with
    | none => simp
    | some value =>
      rw [hvalues] at hrecord
      obtain ⟨hknown, hleaf⟩ := leaf_iff hjmt hrun hrecord
      cases value with
      | none =>
        rw [if_pos rfl, if_neg]
        intro hmem
        obtain ⟨-, path, hash, he, hkey⟩ := mem_leafValues.mp hmem
        rw [preimages_sound hjmt hrun hkey] at he
        exact absurd (hleaf.mp ⟨path, he⟩) (by simp)
      | some value =>
        obtain ⟨path, he⟩ := hleaf.mpr rfl
        rw [if_pos (mem_leafValues.mpr ⟨by omega, path, _, he, hknown⟩), if_neg (by simp)]
  rw [StateDb.rollbackStateDb, hlast]
  show Except.ok (StateDb.mk _ _ _) = _
  rw [hnodes, hrecords]
  rfl

/-! ### What the reads see -/

/-- Two databases answer every read alike. -/
def ReadsAlike (a b : StateDb P H) : Prop :=
  ∀ version key, a.getValueOptionByKey version key = b.getValueOptionByKey version key

/-- The value of a key after blocks, the one of its last write. -/
def valueAfter (logs : List StateWrites) (key : Bytes) : Option Bytes :=
  logs.foldl (fun value log => (written log key).getD value) none

theorem read_of_some {value : Option Bytes} (h : db.values key version = some value) :
    db.getValueOptionByKey version key = value := by
  rw [StateDb.getValueOptionByKey, Versioned.latest_of_some h]

theorem read_succ_of_none (h : db.values key (version + 1) = none) :
    db.getValueOptionByKey (version + 1) key = db.getValueOptionByKey version key := by
  rw [StateDb.getValueOptionByKey, Versioned.latest_succ_of_none h]
  rfl

/-- A read at a version is the value after the blocks up to it. -/
theorem read_eq_valueAfter (h : ∀ key n, db.values key n = recordAt logs key n) (version : Nat)
    (key : Bytes) : db.getValueOptionByKey version key = valueAfter (logs.take version) key := by
  induction version with
  | zero =>
    have hnone : db.values key 0 = none := h key 0
    rw [StateDb.getValueOptionByKey, Versioned.latest, hnone]
    rfl
  | succ n ih =>
    have hrecord : db.values key (n + 1) = logs[n]?.bind fun log => written log key := h key (n + 1)
    rw [take_add_one]
    cases hlog : logs[n]? with
    | none =>
      rw [hlog] at hrecord
      rw [read_succ_of_none hrecord, ih, toList_none, append_nil]
    | some log =>
      rw [hlog] at hrecord
      rw [toList_some, valueAfter, foldl_append]
      show _ = (written log key).getD (valueAfter (logs.take n) key)
      cases hwritten : written log key with
      | none => exact (read_succ_of_none (hrecord.trans hwritten)).trans ih
      | some value => exact read_of_some (hrecord.trans hwritten)

/-- The records agree, apart from deletions at `version + 1` of keys without a value. -/
def Covered (version : Nat) (rolled fresh : StateDb P H) : Prop :=
  ∀ key n, rolled.values key n = fresh.values key n ∨
    (n = version + 1 ∧ rolled.values key n = some none ∧ fresh.values key n = none ∧
      fresh.getValueOptionByKey version key = none)

theorem Covered.readsAlike (h : Covered version rolled fresh) : ReadsAlike rolled fresh := by
  intro n key
  induction n with
  | zero =>
    rcases h key 0 with hsame | ⟨hzero, -⟩
    · rw [StateDb.getValueOptionByKey, StateDb.getValueOptionByKey, Versioned.latest,
        Versioned.latest, hsame]
    · omega
  | succ n ih =>
    rcases h key (n + 1) with hsame | ⟨hn, hrolled, hfresh, habsent⟩
    · cases hrecord : fresh.values key (n + 1) with
      | none => rw [read_succ_of_none hrecord, read_succ_of_none (hsame.trans hrecord), ih]
      | some value => rw [read_of_some hrecord, read_of_some (hsame.trans hrecord)]
    · obtain rfl : n = version := by omega
      rw [read_of_some hrolled, read_succ_of_none hfresh, habsent]

theorem recordAt_take (logs : List StateWrites) (version : Nat) (key : Bytes) (n : Nat) :
    recordAt (logs.take version) key n = if n ≤ version then recordAt logs key n else none := by
  cases n with
  | zero => rw [if_pos (Nat.zero_le _)]; rfl
  | succ n =>
    rw [recordAt, recordAt, List.getElem?_take]
    by_cases hn : n < version
    · rw [if_pos hn, if_pos (show n + 1 ≤ version from hn)]
    · rw [if_neg hn, if_neg (show ¬n + 1 ≤ version from hn)]
      rfl

/-- The nodes after a rollback are those of the tree at the target version, or at the last version
if the target is after it. -/
theorem atVersion_rolled (hjmt : JmtSpec jmt) (hne : logs ≠ [])
    (hrun : StateDb.executeBlocks jmt StateDb.empty logs = .ok db) (version : Nat) :
    AtVersion jmt (rolledDb db version).nodes (min version logs.length) := by
  obtain ⟨db', hrun', hat, -⟩ := executeBlocks_empty hjmt logs
  obtain rfl := ok_unique hrun hrun'
  obtain ⟨fresh, hfresh, hatFresh, -⟩ := executeBlocks_empty hjmt (logs.take version)
  rw [length_take] at hatFresh
  -- The blocks after the target are executed on the database of the blocks before it.
  have hrest : StateDb.executeBlocks jmt fresh (logs.drop version) = .ok db := by
    have happend := hrun
    rw [StateDb.executeBlocks, ← take_append_drop version logs, foldlM_append,
      bind_eq_ok] at happend
    obtain ⟨m, hm, hdb⟩ := happend
    obtain rfl := ok_unique hm hfresh
    exact hdb
  have hentries : db.nodes.entries ≠ [] := by
    have hpos := length_pos_of_ne_nil hne
    obtain ⟨-, hlast⟩ := hat.resolve_left fun h => by omega
    obtain ⟨⟨e, he, -⟩, -⟩ := largestVersion_eq_some.mp hlast
    exact ne_nil_of_mem he
  have hnodes := upTo_executeBlocks hjmt hatFresh _ hrest
  rw [withGenesis_of_ne_nil hentries] at hnodes
  have hsame : upTo db.nodes version = upTo db.nodes (min version logs.length) := by
    rw [upTo, upTo, NodeTable.mk.injEq]
    refine filter_congr fun e he => ?_
    have hle := hat.version_le e he
    rw [decide_eq_decide]
    omega
  show AtVersion jmt (upTo db.nodes version) _
  rw [hsame, hnodes]
  exact .inr (hatFresh.withGenesis hjmt)

/-- Blocks on two databases whose records agree but for covered deletions. -/
theorem Covered.executeBlocks (hjmt : JmtSpec jmt) {m : Nat} (h : Covered version rolled fresh)
    (hrolled : AtVersion jmt rolled.nodes m) (hfresh : AtVersion jmt fresh.nodes m)
    (hm : (∃ key n, rolled.values key n ≠ fresh.values key n) → m = version)
    (next : List StateWrites) :
    ∃ rolled' fresh', StateDb.executeBlocks jmt rolled next = .ok rolled' ∧
      StateDb.executeBlocks jmt fresh next = .ok fresh' ∧
      rolled'.nextVersion = fresh'.nextVersion ∧ ReadsAlike rolled' fresh' := by
  obtain ⟨rolled', hrun, hat, hvalues⟩ := executeBlocks_spec hjmt hrolled next
  obtain ⟨fresh', hrun', hat', hvalues'⟩ := executeBlocks_spec hjmt hfresh next
  have hcovered : Covered version rolled' fresh' := by
    intro key n
    rw [hvalues, hvalues']
    rcases h key n with hsame | ⟨hn, hleft, hnone, habsent⟩
    · exact .inl (by rw [hsame])
    cases hrecord : recordAt next key (n - m) with
    | some value => exact .inl rfl
    | none =>
      refine .inr ⟨hn, hleft, hnone, ?_⟩
      -- The new blocks are after the target, so they do not change the read there.
      obtain rfl : m = version := hm ⟨key, n, by rw [hleft, hnone]; exact some_ne_none _⟩
      rw [← habsent, StateDb.getValueOptionByKey, StateDb.getValueOptionByKey,
        Versioned.latest_congr fun i hi => ?_]
      rw [hvalues', Nat.sub_eq_zero_of_le hi]
      rfl
  exact ⟨rolled', fresh', hrun, hrun', by rw [hat.nextVersion, hat'.nextVersion],
    hcovered.readsAlike⟩

/-- A rollback returns, and forgets the versions after its target: the reads are those of a database
that executed the blocks up to the target, and so are the reads and the next version after any
further blocks. -/
def Forgets (jmt : Jmt P H) (logs : List StateWrites) (version : Nat) : Prop :=
  ∃ db rolled fresh, StateDb.executeBlocks jmt StateDb.empty logs = .ok db ∧
    db.rollbackStateDb version = .ok rolled ∧
    StateDb.executeBlocks jmt StateDb.empty (logs.take version) = .ok fresh ∧
    ReadsAlike rolled fresh ∧
    ∀ next, ∃ rolled' fresh', StateDb.executeBlocks jmt rolled next = .ok rolled' ∧
      StateDb.executeBlocks jmt fresh next = .ok fresh' ∧
      rolled'.nextVersion = fresh'.nextVersion ∧ ReadsAlike rolled' fresh'

/-- After the version `version` there are no deletions, but for deletions in the first block after
it of keys that have no value there. -/
def OnlyAbsentDeletions (logs : List StateWrites) (version : Nat) : Prop :=
  ∀ n key, version < n → recordAt logs key n = some none →
    n = version + 1 ∧ valueAfter (logs.take version) key = none

/-- A block that puts one value. -/
def putOne (key value : Bytes) : StateWrites := ⟨[(key, some value)], nodup_singleton _⟩

/-- A block without writes. -/
def noWrites : StateWrites := ⟨[], nodup_nil⟩

/-- After a put and blocks without writes, there is one new record of the key. -/
theorem recordAt_putOne (key : Bytes) (value : Bytes) (count n : Nat) :
    recordAt (putOne key value :: List.replicate count noWrites) key n =
      if n = 1 then some (some value) else none := by
  match n with
  | 0 => rfl
  | 1 =>
    rw [recordAt, List.getElem?_cons_zero, bind_some, if_pos rfl, written_eq_some]
    exact mem_singleton_self _
  | n + 2 =>
    have hlater : ¬n + 2 = 1 := by omega
    rw [recordAt, List.getElem?_cons_succ, List.getElem?_replicate, if_neg hlater]
    split <;> rfl

/-- A rollback forgets the versions after its target exactly if there was a block, and no deletion
of a value or of a later block is taken back. -/
theorem rollback_forgets_iff (hjmt : JmtSpec jmt) (logs : List StateWrites) (version : Nat) :
    Forgets jmt logs version ↔ logs ≠ [] ∧ OnlyAbsentDeletions logs version := by
  obtain ⟨db, hrun, hat, hvalues⟩ := executeBlocks_empty hjmt logs
  obtain ⟨fresh, hfresh, hatFresh, hvaluesFresh⟩ := executeBlocks_empty hjmt (logs.take version)
  rw [length_take] at hatFresh
  constructor
  · rintro ⟨db', rolled, fresh', hrun', hroll, hfresh', hreads, hnext⟩
    obtain rfl := ok_unique hrun hrun'
    obtain rfl := ok_unique hfresh hfresh'
    have hne : logs ≠ [] := by
      rintro rfl
      obtain rfl := Except.ok.inj hrun
      cases hroll
    refine ⟨hne, fun n key hn hdeleted => ?_⟩
    rw [rollbackStateDb_eq hjmt hne hrun] at hroll
    obtain rfl := Except.ok.inj hroll
    have hlength : n ≤ logs.length := by
      by_contra hlt
      rw [recordAt_of_lt (by omega)] at hdeleted
      cases hdeleted
    have hmin : min version logs.length = version := by omega
    have hatRolled := atVersion_rolled hjmt hne hrun version
    rw [hmin] at hatRolled hatFresh
    -- The record of the deletion is still there.
    have hleft : (rolledDb db version).values key n = some none := by
      show rolledValues db.values version key n = _
      rw [rolledValues, if_neg (by omega), hvalues, if_pos hdeleted]
    have hgone : fresh.values key n = none := by
      rw [hvaluesFresh, recordAt_take, if_neg (by omega)]
    by_cases hfirst : n = version + 1
    · subst hfirst
      refine ⟨rfl, ?_⟩
      have hread := hreads (version + 1) key
      rw [read_of_some hleft, read_succ_of_none hgone, read_eq_valueAfter hvaluesFresh,
        take_take, Nat.min_self] at hread
      exact hread.symm
    · -- A value that is put in the first block after the rollback is hidden from the
      -- version `n` on.
      exfalso
      obtain ⟨rolled', fresh', hrolled', hfresh', -, hreads'⟩ :=
        hnext (putOne key [] :: List.replicate (n - version) noWrites)
      obtain ⟨_, hspec, -, hrecords⟩ := executeBlocks_spec hjmt hatRolled
        (putOne key [] :: List.replicate (n - version) noWrites)
      obtain rfl := ok_unique hrolled' hspec
      obtain ⟨_, hspec, -, hrecords'⟩ := executeBlocks_spec hjmt hatFresh
        (putOne key [] :: List.replicate (n - version) noWrites)
      obtain rfl := ok_unique hfresh' hspec
      have hhidden : rolled'.values key n = some none := by
        rw [hrecords, recordAt_putOne, if_neg (by omega)]
        exact hleft
      have hput : fresh'.values key (version + 1) = some (some []) := by
        rw [hrecords', recordAt_putOne, if_pos (by omega)]
        rfl
      have hafter : ∀ i, version + 1 < i → i ≤ n → fresh'.values key i = none := by
        intro i hi _
        rw [hrecords', recordAt_putOne, if_neg (by omega), hvaluesFresh, recordAt_take,
          if_neg (by omega)]
        rfl
      have hread := hreads' n key
      rw [read_of_some hhidden, StateDb.getValueOptionByKey,
        Versioned.latest_eq_of_none (by omega) hafter, Versioned.latest_of_some hput] at hread
      cases hread
  · rintro ⟨hne, hdeletions⟩
    have hatRolled := atVersion_rolled hjmt hne hrun version
    have hrolled : ∀ key n, (rolledDb db version).values key n =
        if n ≤ version then recordAt logs key n
        else if recordAt logs key n = some none then some none else none := by
      intro key n
      rw [← hvalues]
      rfl
    have hkept : ∀ key n, fresh.values key n =
        if n ≤ version then recordAt logs key n else none := by
      intro key n
      rw [hvaluesFresh, recordAt_take]
    have hcovered : Covered version (rolledDb db version) fresh := by
      intro key n
      rw [hrolled, hkept]
      by_cases hn : n ≤ version
      · exact .inl (by rw [if_pos hn, if_pos hn])
      rw [if_neg hn, if_neg hn]
      by_cases hdeleted : recordAt logs key n = some none
      · obtain ⟨hfirst, habsent⟩ := hdeletions n key (by omega) hdeleted
        refine .inr ⟨hfirst, if_pos hdeleted, rfl, ?_⟩
        rw [read_eq_valueAfter hvaluesFresh, take_take, Nat.min_self, habsent]
      · exact .inl (if_neg hdeleted)
    refine ⟨db, _, fresh, hrun, rollbackStateDb_eq hjmt hne hrun version, hfresh,
      hcovered.readsAlike, fun next => hcovered.executeBlocks hjmt hatRolled hatFresh ?_ next⟩
    rintro ⟨key, n, hdiffer⟩
    -- A record that differs is a deletion in a block after the target.
    rcases Nat.le_total version logs.length with hle | hge
    · omega
    · refine absurd ?_ hdiffer
      rw [hrolled, hkept]
      by_cases hn : n ≤ version
      · rw [if_pos hn, if_pos hn]
      · rw [if_neg hn, if_neg hn, recordAt_of_lt (by omega), if_neg (by simp)]

end

variable {set : List (Bytes × Option Bytes)}

/-! ### A tree with all its leaves below the root -/

/-- The nodes of a set of values in a tree with all leaves below the root. -/
def flatNodes (set : List (Bytes × Option Bytes)) (next : Nat) :
    List (NodeKey Bytes × Node Bytes) :=
  (⟨next, []⟩, .internal) :: set.filterMap fun e =>
    e.2.map fun _ => (⟨next, 1 :: e.1⟩, .leaf e.1)

def flatJmt : Jmt Bytes Bytes where
  keyHash := id
  rootPath := []
  putValueSet := fun _ set next => ⟨flatNodes set next, set.map fun e => ((next, e.1), e.2)⟩

theorem mem_flatNodes {next : Nat} {e : NodeKey Bytes × Node Bytes} :
    e ∈ flatNodes set next ↔ e = (⟨next, []⟩, .internal) ∨
      ∃ hash value, (hash, some value) ∈ set ∧ e = (⟨next, 1 :: hash⟩, .leaf hash) := by
  rw [flatNodes, mem_cons, mem_filterMap]
  refine or_congr_right ⟨?_, ?_⟩
  · rintro ⟨⟨hash, value⟩, hmem, hsome⟩
    obtain ⟨value, rfl, rfl⟩ := map_eq_some_iff.mp hsome
    exact ⟨hash, value, hmem, rfl⟩
  · rintro ⟨hash, value, hmem, rfl⟩
    exact ⟨(hash, some value), hmem, rfl⟩

theorem nodup_flatNodes (hset : (set.map Prod.fst).Nodup) (next : Nat) :
    ((flatNodes set next).map Prod.fst).Nodup := by
  rw [flatNodes, map_cons, nodup_cons]
  constructor
  · intro hmem
    obtain ⟨e, he, hkey⟩ := mem_map.mp hmem
    obtain ⟨e', -, hsome⟩ := mem_filterMap.mp he
    obtain ⟨value, -, rfl⟩ := map_eq_some_iff.mp hsome
    exact absurd (NodeKey.mk.inj hkey).2 (cons_ne_nil _ _)
  · rw [map_filterMap]
    have hdistinct : set.Pairwise fun e e' => e.1 ≠ e'.1 := pairwise_map.mp hset
    refine hdistinct.filterMap _ fun e e' hne key hkey key' hkey' hsame => hne ?_
    rw [Option.map_map, Option.map_eq_some_iff] at hkey hkey'
    obtain ⟨value, -, rfl⟩ := hkey
    obtain ⟨value', -, rfl⟩ := hkey'
    exact cons_injective (NodeKey.mk.inj hsame).2

theorem flatJmt_spec : JmtSpec flatJmt where
  keyHash_injective := fun _ _ h => h
  version := by
    intro get next set _ _ e he
    rcases mem_flatNodes.mp he with rfl | ⟨hash, value, -, rfl⟩
    · rfl
    · rfl
  nodup := fun _ hset => nodup_flatNodes hset _
  root := fun _ _ => ⟨.internal, mem_flatNodes.mpr (.inl rfl)⟩
  values := fun _ _ => List.Perm.refl _
  leaf_of_put := fun _ _ _ value hmem => ⟨_, mem_flatNodes.mpr (.inr ⟨_, value, hmem, rfl⟩)⟩
  no_leaf_of_delete := by
    intro get next set _ hset hash hmem key hleaf
    rcases mem_flatNodes.mp hleaf with hroot | ⟨hash', value, hmem', hsame⟩
    · cases (Prod.mk.inj hroot).2
    · obtain rfl : hash = hash' := Node.leaf.inj (Prod.mk.inj hsame).2
      cases (Prod.mk.inj (inj_on_of_nodup_map hset hmem hmem' rfl)).2

/-- A block that deletes one key. -/
def deleteOne (key : Bytes) : StateWrites := ⟨[(key, none)], nodup_singleton _⟩

/-- A value is put at the version 1 and deleted at the version 2. After a rollback to the version 1,
the value is hidden from the reads at the version 2. -/
theorem rollback_keeps_deletion :
    JmtSpec flatJmt ∧ ¬Forgets flatJmt [putOne [1] [7], deleteOne [1]] 1 := by
  refine ⟨flatJmt_spec, ?_⟩
  rintro ⟨db, rolled, fresh, hrun, hroll, hfresh, hreads, -⟩
  have hrolled : (((StateDb.executeBlocks flatJmt StateDb.empty
      [putOne [1] [7], deleteOne [1]]).bind fun db => db.rollbackStateDb 1).map
        fun db => db.getValueOptionByKey 2 [1]) = .ok none := by decide +kernel
  have hvalue : ((StateDb.executeBlocks flatJmt StateDb.empty [putOne [1] [7]]).map
        fun db => db.getValueOptionByKey 2 [1]) = .ok (some [7]) := by decide +kernel
  rw [hrun] at hrolled
  change (db.rollbackStateDb 1).map _ = _ at hrolled
  rw [hroll] at hrolled
  rw [show StateDb.executeBlocks flatJmt StateDb.empty [putOne [1] [7]] = _ from hfresh] at hvalue
  have hread := (Except.ok.inj hrolled).symm.trans ((hreads 2 [1]).trans (Except.ok.inj hvalue))
  cases hread

/-- Blocks without deletions. -/
theorem onlyAbsentDeletions_of_puts {logs : List StateWrites}
    (h : ∀ log ∈ logs, ∀ e ∈ log.writes, e.2 ≠ none) (version : Nat) :
    OnlyAbsentDeletions logs version := by
  intro n key _ hdeleted
  cases n with
  | zero => cases hdeleted
  | succ n =>
    obtain ⟨log, hlog, hwritten⟩ := bind_eq_some_iff.mp hdeleted
    exact absurd rfl (h log (mem_of_getElem? hlog) _ (written_eq_some.mp hwritten))

theorem rollback_of_puts_forgets :
    JmtSpec flatJmt ∧ Forgets flatJmt [putOne [1] [7], putOne [1] [8], putOne [2] [9]] 1 := by
  refine ⟨flatJmt_spec, (rollback_forgets_iff flatJmt_spec _ _).mpr ⟨cons_ne_nil _ _, ?_⟩⟩
  refine onlyAbsentDeletions_of_puts ?_ 1
  intro log hlog e he
  simp only [mem_cons, not_mem_nil, or_false] at hlog
  rcases hlog with rfl | rfl | rfl <;>
  · obtain rfl := mem_singleton.mp he
    exact some_ne_none _

end Citrea.Proofs.StorageOps
