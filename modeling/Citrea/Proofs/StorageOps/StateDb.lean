import Citrea.Spec.StorageOps.StateDb

/-!
# `Citrea.Proofs.StorageOps.StateDb`: what a block writes to the state DB

`executeBlock_eq` is the state DB after one block. It does not fail on the nodes that the tree wrote
itself (`AtVersion`), the new nodes depend on the old nodes only, and the new records are the writes
of the block.

`executeBlocks_spec` is about blocks on any such database: they return, and the records are the
writes of the blocks and the older records. `upTo_executeBlocks` says that the nodes of the older
versions stay. `leaf_iff` is about a database that executed its blocks from the start: a value has a
leaf of its version, and a deletion has none.
-/

namespace Citrea.Proofs.StorageOps

open List Lib Spec.StorageOps

section
variable {P H : Type} [DecidableEq P] {t : NodeTable P H} {key : NodeKey P} {node : Node H}
  {e : NodeKey P × Node H}

theorem mem_put : e ∈ (t.put key node).entries ↔ e = (key, node) ∨ (e ∈ t.entries ∧ e.1 ≠ key) := by
  show e ∈ t.entries.filter _ ++ (key, node) :: t.entries.filter _ ↔ _
  simp only [mem_append, mem_cons, mem_filter, decide_eq_true_eq]
  constructor
  · rintro (⟨he, hlt⟩ | rfl | ⟨he, -, hne⟩)
    · refine .inr ⟨he, fun hsame => ?_⟩
      rw [hsame] at hlt
      omega
    · exact .inl rfl
    · exact .inr ⟨he, hne⟩
  · rintro (rfl | ⟨he, hne⟩)
    · exact .inr (.inl rfl)
    · rcases Nat.lt_or_ge key.version e.1.version with hlt | hge
      · exact .inl ⟨he, hlt⟩
      · exact .inr (.inr ⟨he, hge, hne⟩)

/-- A key has one node. -/
theorem get_eq_some : t.get key = some node ↔ (key, node) ∈ t.entries := by
  rw [NodeTable.get, Option.map_eq_some_iff]
  constructor
  · rintro ⟨e, he, rfl⟩
    have hkey : e.1 = key := by simpa using List.find?_some he
    rw [← hkey]
    exact mem_of_find?_eq_some he
  · intro hmem
    -- The keys of the entries are distinct, so the first entry with the key is this one.
    cases hfind : t.entries.find? fun e => e.1 = key with
    | none => exact absurd (List.find?_eq_none.mp hfind _ hmem) (by simp)
    | some e =>
      have hkey : e.1 = key := by simpa using List.find?_some hfind
      have hnodup : (t.entries.map Prod.fst).Nodup :=
        pairwise_map.mpr (t.sorted.imp fun h => h.2)
      have hsame := inj_on_of_nodup_map hnodup (mem_of_find?_eq_some hfind) hmem hkey
      exact ⟨e, rfl, by rw [hsame]⟩

theorem get_put : (t.put key node).get = fun k => if k = key then some node else t.get k := by
  funext k
  apply Option.ext
  intro node'
  rw [get_eq_some, mem_put, Prod.mk.injEq]
  by_cases hkey : k = key
  · simp [hkey, eq_comm]
  · simp [hkey, get_eq_some]

theorem get_putAll (t : NodeTable P H) (nodes : List (NodeKey P × Node H)) :
    (t.putAll nodes).get = withNodes t.get nodes := by
  induction nodes generalizing t with
  | nil => rfl
  | cons e nodes ih =>
    show ((t.put e.1 e.2).putAll nodes).get = _
    rw [ih, get_put]
    rfl

theorem mem_putAll {nodes : List (NodeKey P × Node H)} (hnodup : (nodes.map Prod.fst).Nodup) :
    e ∈ (t.putAll nodes).entries ↔ e ∈ nodes ∨ (e ∈ t.entries ∧ e.1 ∉ nodes.map Prod.fst) := by
  induction nodes generalizing t with
  | nil => simp [NodeTable.putAll]
  | cons e' nodes ih =>
    rw [map_cons, nodup_cons] at hnodup
    show e ∈ ((t.put e'.1 e'.2).putAll nodes).entries ↔ _
    rw [ih hnodup.2, mem_put, mem_cons, map_cons, mem_cons, not_or]
    constructor
    · rintro (he | ⟨rfl | ⟨he, hne⟩, hnot⟩)
      · exact .inl (.inr he)
      · exact .inl (.inl rfl)
      · exact .inr ⟨he, hne, hnot⟩
    · rintro ((rfl | he) | ⟨he, hne, hnot⟩)
      · exact .inr ⟨.inl rfl, hnodup.1⟩
      · exact .inl he
      · exact .inr ⟨.inr ⟨he, hne⟩, hnot⟩

end

theorem largestVersion_eq_some {P H : Type} {t : NodeTable P H} {n : Nat} :
    t.largestVersion = some n ↔
      (∃ e ∈ t.entries, e.1.version = n) ∧ ∀ e ∈ t.entries, e.1.version ≤ n := by
  have hsorted := t.sorted
  rw [NodeTable.largestVersion]
  cases hentries : t.entries with
  | nil => simp
  | cons e rest =>
    rw [hentries, pairwise_cons] at hsorted
    have hbound : ∀ e' ∈ e :: rest, e'.1.version ≤ e.1.version := by
      intro e' he'
      rcases mem_cons.mp he' with rfl | he'
      · omega
      · exact (hsorted.1 e' he').1
    rw [List.head?_cons, Option.map_some, Option.some_inj]
    constructor
    · rintro rfl
      exact ⟨⟨e, mem_cons_self, rfl⟩, hbound⟩
    · rintro ⟨⟨e', he', rfl⟩, hle⟩
      exact Nat.le_antisymm (hle e mem_cons_self) (hbound e' he')

/-- The nodes up to a version. -/
def upTo {P H : Type} (t : NodeTable P H) (version : Nat) : NodeTable P H :=
  ⟨t.entries.filter fun e => e.1.version ≤ version, t.sorted.filter _⟩

theorem upTo_of_le {P H : Type} {t : NodeTable P H} {version : Nat}
    (h : ∀ e ∈ t.entries, e.1.version ≤ version) : upTo t version = t := by
  rw [upTo, NodeTable.mk.injEq, filter_eq_self]
  intro e he
  exact decide_eq_true (h e he)

section
variable {P H : Type} [DecidableEq P] {key : NodeKey P} {nodes : List (NodeKey P × Node H)}
  {version : Nat} {get : NodeKey P → Option (Node H)}

/-- A newer node does not change the nodes up to a version. -/
theorem upTo_put {t : NodeTable P H} {node : Node H} (h : version < key.version) :
    upTo (t.put key node) version = upTo t version := by
  rw [upTo, upTo, NodeTable.mk.injEq]
  show (t.entries.filter _ ++ (key, node) :: t.entries.filter _).filter _ = _
  rw [filter_append, filter_cons_of_neg (by simpa using h), filter_filter,
    filter_filter]
  have hnone : (t.entries.filter fun e => decide (e.1.version ≤ version) &&
      decide (key.version < e.1.version)) = [] := by
    rw [filter_eq_nil_iff]
    intro e _ hboth
    simp only [Bool.and_eq_true, decide_eq_true_eq] at hboth
    omega
  rw [hnone, nil_append]
  refine filter_congr fun e _ => ?_
  rw [Bool.eq_iff_iff]
  simp only [Bool.and_eq_true, decide_eq_true_eq]
  refine ⟨fun hboth => hboth.1, fun hle => ⟨hle, by omega, fun hsame => ?_⟩⟩
  rw [hsame] at hle
  omega

theorem upTo_putAll {t : NodeTable P H} (h : ∀ e ∈ nodes, version < e.1.version) :
    upTo (t.putAll nodes) version = upTo t version := by
  induction nodes generalizing t with
  | nil => rfl
  | cons e nodes ih =>
    show upTo ((t.put e.1 e.2).putAll nodes) version = _
    rw [ih fun e' he' => h e' (mem_cons_of_mem _ he'), upTo_put (h e mem_cons_self)]

theorem withNodes_of_not_mem (h : key ∉ nodes.map Prod.fst) :
    withNodes get nodes key = get key := by
  induction nodes generalizing get with
  | nil => rfl
  | cons e nodes ih =>
    rw [map_cons, mem_cons, not_or] at h
    show withNodes (fun k => if k = e.1 then some e.2 else get k) nodes key = _
    rw [ih h.2, if_neg h.1]

theorem withNodes_of_mem (hnodup : (nodes.map Prod.fst).Nodup) {node : Node H}
    (h : (key, node) ∈ nodes) : withNodes get nodes key = some node := by
  induction nodes generalizing get with
  | nil => cases h
  | cons e nodes ih =>
    rw [map_cons, nodup_cons] at hnodup
    show withNodes (fun k => if k = e.1 then some e.2 else get k) nodes key = _
    rcases mem_cons.mp h with rfl | h
    · rw [withNodes_of_not_mem hnodup.1, if_pos rfl]
    · exact ih hnodup.2 h

variable {jmt : Jmt P H}

/-- Each version that the tree wrote has a root. -/
theorem Built.root (hjmt : JmtSpec jmt) {get : NodeKey P → Option (Node H)} {n : Nat}
    (h : Built jmt get (n + 1)) : ∃ node, get ⟨n, jmt.rootPath⟩ = some node := by
  cases h with
  | put hbuilt set hset =>
    obtain ⟨node, hnode⟩ := hjmt.root hbuilt hset
    exact ⟨node, withNodes_of_mem (hjmt.nodup hbuilt hset) hnode⟩

end

section
variable {P H : Type} [DecidableEq P] (jmt : Jmt P H)

/-- The nodes after `compute_state_update` has looked for an empty tree. -/
def withGenesis (t : NodeTable P H) : NodeTable P H :=
  if t.entries = [] then t.putAll (jmt.putValueSet t.get [] 0).nodes else t

/-- The set of values that a block puts into the tree. -/
def hashed (log : StateWrites) : List (H × Option Bytes) :=
  log.writes.map fun e => (jmt.keyHash e.1, e.2)

/-- The nodes after a block on the version `n`. -/
def nextNodes (t : NodeTable P H) (n : Nat) (log : StateWrites) : NodeTable P H :=
  (withGenesis jmt t).putAll
    (jmt.putValueSet (withGenesis jmt t).get (hashed jmt log) (n + 1)).nodes

/-- What a block writes to a key. -/
def written (log : StateWrites) (key : Bytes) : Option (Option Bytes) :=
  (log.writes.find? fun e => e.1 = key).map Prod.snd

/-- The records after a block with the version `n`. -/
def nextValues (t : Versioned Bytes (Option Bytes)) (n : Nat) (log : StateWrites) :
    Versioned Bytes (Option Bytes) :=
  fun key m => if m = n then (written log key).or (t key m) else t key m

/-- The nodes are those of the tree, with the version `n` as the last one. -/
def AtVersion (t : NodeTable P H) (n : Nat) : Prop :=
  (t.entries = [] ∧ n = 0) ∨ (Built jmt t.get (n + 1) ∧ t.largestVersion = some n)

end

theorem written_eq_some {log : StateWrites} {key : Bytes} {value : Option Bytes} :
    written log key = some value ↔ (key, value) ∈ log.writes := by
  rw [written, Option.map_eq_some_iff]
  constructor
  · rintro ⟨e, he, rfl⟩
    have hkey : e.1 = key := by simpa using List.find?_some he
    rw [← hkey]
    exact mem_of_find?_eq_some he
  · intro hmem
    cases hfind : log.writes.find? fun e => e.1 = key with
    | none => exact absurd (List.find?_eq_none.mp hfind _ hmem) (by simp)
    | some e =>
      have hkey : e.1 = key := by simpa using List.find?_some hfind
      have hsame := inj_on_of_nodup_map log.nodup (mem_of_find?_eq_some hfind) hmem hkey
      exact ⟨e, rfl, by rw [hsame]⟩

section
variable {P H : Type} [DecidableEq P] {jmt : Jmt P H} {n : Nat} {t : NodeTable P H}
  {log : StateWrites} {e : NodeKey P × Node H}

theorem nodup_hashed (hjmt : JmtSpec jmt) (log : StateWrites) :
    ((hashed jmt log).map Prod.fst).Nodup := by
  have hmap : (hashed jmt log).map Prod.fst = (log.writes.map Prod.fst).map jmt.keyHash := by
    rw [hashed, map_map, map_map]
    rfl
  rw [hmap]
  exact log.nodup.map hjmt.keyHash_injective

theorem mem_hashed (hjmt : JmtSpec jmt) {key : Bytes} {value : Option Bytes} :
    (jmt.keyHash key, value) ∈ hashed jmt log ↔ (key, value) ∈ log.writes := by
  rw [hashed, mem_map]
  constructor
  · rintro ⟨e, he, hsame⟩
    rw [Prod.mk.injEq] at hsame
    rw [← hjmt.keyHash_injective hsame.1, ← hsame.2]
    exact he
  · intro hmem
    exact ⟨_, hmem, rfl⟩

theorem AtVersion.nextVersion {db : StateDb P H} (h : AtVersion jmt db.nodes n) :
    db.nextVersion = n + 1 := by
  rw [StateDb.nextVersion]
  rcases h with ⟨hempty, rfl⟩ | ⟨-, hlast⟩
  · rw [NodeTable.largestVersion, hempty]
    rfl
  · rw [hlast]
    rfl

/-- A batch of the tree moves the nodes to its version. -/
theorem atVersion_putAll (hjmt : JmtSpec jmt) (hbuilt : Built jmt t.get n)
    (hle : ∀ e ∈ t.entries, e.1.version ≤ n) {set : List (H × Option Bytes)}
    (hset : (set.map Prod.fst).Nodup) :
    Built jmt (t.putAll (jmt.putValueSet t.get set n).nodes).get (n + 1) ∧
    (t.putAll (jmt.putValueSet t.get set n).nodes).largestVersion = some n := by
  constructor
  · rw [get_putAll]
    exact hbuilt.put set hset
  · rw [largestVersion_eq_some]
    obtain ⟨node, hnode⟩ := hjmt.root hbuilt hset
    have hnodup := hjmt.nodup hbuilt hset
    refine ⟨⟨_, (mem_putAll hnodup).mpr (.inl hnode), rfl⟩, fun e he => ?_⟩
    rcases (mem_putAll hnodup).mp he with he | ⟨he, -⟩
    · exact Nat.le_of_eq (hjmt.version hbuilt hset e he)
    · exact hle e he

theorem get_of_entries_nil (h : t.entries = []) : t.get = fun _ => none := by
  funext key
  rw [NodeTable.get, h]
  rfl

/-- After the look for an empty tree, there is a tree. -/
theorem AtVersion.withGenesis (hjmt : JmtSpec jmt) (h : AtVersion jmt t n) :
    Built jmt (withGenesis jmt t).get (n + 1) ∧
    (StorageOps.withGenesis jmt t).largestVersion = some n := by
  rcases h with ⟨hempty, rfl⟩ | ⟨hbuilt, hlast⟩
  · rw [StorageOps.withGenesis, if_pos hempty]
    refine atVersion_putAll hjmt ?_ ?_ nodup_nil
    · rw [get_of_entries_nil hempty]
      exact .empty
    · rw [hempty]
      exact fun e he => absurd he not_mem_nil
  · have hne : t.entries ≠ [] := by
      obtain ⟨⟨e, he, -⟩, -⟩ := largestVersion_eq_some.mp hlast
      exact ne_nil_of_mem he
    rw [StorageOps.withGenesis, if_neg hne]
    exact ⟨hbuilt, hlast⟩

theorem AtVersion.nextNodes (hjmt : JmtSpec jmt) (h : AtVersion jmt t n) (log : StateWrites) :
    AtVersion jmt (nextNodes jmt t n log) (n + 1) := by
  obtain ⟨hbuilt, hlast⟩ := h.withGenesis hjmt
  refine Or.inr (atVersion_putAll hjmt hbuilt (fun e he => ?_) (nodup_hashed hjmt log))
  exact Nat.le_succ_of_le ((largestVersion_eq_some.mp hlast).2 e he)

theorem atVersion_empty : AtVersion jmt (StateDb.empty : StateDb P H).nodes 0 := .inl ⟨rfl, rfl⟩

theorem withGenesis_of_ne_nil (h : t.entries ≠ []) : withGenesis jmt t = t :=
  if_neg h

theorem AtVersion.version_le (h : AtVersion jmt t n) : ∀ e ∈ t.entries, e.1.version ≤ n := by
  rcases h with ⟨hempty, -⟩ | ⟨-, hlast⟩
  · rw [hempty]
    exact fun e he => absurd he not_mem_nil
  · exact (largestVersion_eq_some.mp hlast).2

/-- The look for an empty tree only adds nodes of the version 0. -/
theorem mem_withGenesis (hjmt : JmtSpec jmt) (h : e.1.version ≠ 0) :
    e ∈ (withGenesis jmt t).entries ↔ e ∈ t.entries := by
  rw [withGenesis]
  split
  · next hempty =>
    have hset : (([] : List (H × Option Bytes)).map Prod.fst).Nodup := nodup_nil
    rw [get_of_entries_nil hempty, mem_putAll (hjmt.nodup .empty hset)]
    constructor
    · rintro (he | ⟨he, -⟩)
      · exact absurd (hjmt.version .empty hset e he) h
      · exact he
    · intro he
      rw [hempty] at he
      cases he
  · exact Iff.rfl

/-- A block adds nodes of its version, and those are the nodes of its batch. -/
theorem mem_nextNodes (hjmt : JmtSpec jmt) (hat : AtVersion jmt t n) (h : e.1.version ≠ 0) :
    e ∈ (nextNodes jmt t n log).entries ↔
      if e.1.version = n + 1
      then e ∈ (jmt.putValueSet (withGenesis jmt t).get (hashed jmt log) (n + 1)).nodes
      else e ∈ t.entries := by
  obtain ⟨hbuilt, hlast⟩ := hat.withGenesis hjmt
  have hset := nodup_hashed hjmt log
  have hversion := hjmt.version hbuilt hset
  rw [nextNodes, mem_putAll (hjmt.nodup hbuilt hset), mem_withGenesis hjmt h]
  split
  · next hnew =>
    refine ⟨fun he => he.resolve_right fun ⟨hold, _⟩ => ?_, .inl⟩
    have hle := hat.version_le e hold
    omega
  · next hnew =>
    constructor
    · rintro (he | ⟨he, -⟩)
      · exact absurd (hversion e he) hnew
      · exact he
    · intro he
      refine .inr ⟨he, fun hmem => ?_⟩
      obtain ⟨e', he', hkey⟩ := mem_map.mp hmem
      exact hnew (hkey ▸ hversion e' he')

end

section
variable {P H : Type} [DecidableEq P] [DecidableEq H] {jmt : Jmt P H} {key : Bytes}
  {db : StateDb P H} {n : Nat} {logs : List StateWrites} {preimages : H → Option Bytes}
  {log : StateWrites}

theorem mapM_eq_some_map {α β : Type} {f : α → Option β} {g : α → β} {l : List α}
    (h : ∀ a ∈ l, f a = some (g a)) : l.mapM f = some (l.map g) := by
  induction l with
  | nil => rfl
  | cons a l ih =>
    rw [mapM_cons, h a mem_cons_self, ih fun b hb => h b (mem_cons_of_mem _ hb)]
    rfl

/-- `KeyHashToKey` after the preimages of a block. -/
def nextPreimages (jmt : Jmt P H) (preimages : H → Option Bytes) (log : StateWrites) :
    H → Option Bytes :=
  (log.writes.map fun e => (jmt.keyHash e.1, e.1)).foldl
    (fun preimages e hash => if hash = e.1 then some e.2 else preimages hash) preimages

omit [DecidableEq P] in
/-- A key keeps its preimage, whatever other keys are written. -/
theorem nextPreimages_of_known (hinjective : Function.Injective jmt.keyHash)
    (h : preimages (jmt.keyHash key) = some key ∨ key ∈ log.writes.map Prod.fst) :
    nextPreimages jmt preimages log (jmt.keyHash key) = some key := by
  rw [nextPreimages]
  generalize log.writes = writes at h
  induction writes generalizing preimages with
  | nil =>
    rcases h with h | h
    · exact h
    · exact absurd h not_mem_nil
  | cons e writes ih =>
    rw [map_cons, foldl_cons]
    refine ih ?_
    rw [map_cons, mem_cons] at h
    by_cases hkey : key = e.1
    · exact .inl (by rw [hkey, if_pos rfl])
    · rw [if_neg (hinjective.ne hkey)]
      exact h.imp id fun h => h.resolve_left hkey

omit [DecidableEq P] in
/-- A preimage is a key of its hash. -/
theorem nextPreimages_sound (h : ∀ hash key, preimages hash = some key → hash = jmt.keyHash key)
    (log : StateWrites) :
    ∀ hash key, nextPreimages jmt preimages log hash = some key → hash = jmt.keyHash key := by
  rw [nextPreimages]
  generalize log.writes = writes
  induction writes generalizing preimages with
  | nil => exact h
  | cons e writes ih =>
    rw [map_cons, foldl_cons]
    refine ih fun hash key hsome => ?_
    split at hsome
    · next hhash => rw [hhash, ← Option.some.inj hsome]
    · exact h hash key hsome

/-- The values of a batch are written under the keys of the block. -/
theorem writeNodeBatch_eq (hjmt : JmtSpec jmt) (db : StateDb P H) {batch : NodeBatch P H}
    (hvalues : batch.values.Perm ((hashed jmt log).map fun e => ((n, e.1), e.2))) :
    (db.putPreimages (log.writes.map fun e => (jmt.keyHash e.1, e.1))).writeNodeBatch batch =
      some ⟨db.nodes.putAll batch.nodes, nextValues db.values n log,
        nextPreimages jmt db.preimages log⟩ := by
  have hknown : ∀ e ∈ log.writes,
      nextPreimages jmt db.preimages log (jmt.keyHash e.1) = some e.1 := by
    intro e he
    exact nextPreimages_of_known hjmt.keyHash_injective (.inr (mem_map_of_mem he))
  -- The records that are written, in the order of the batch.
  let record := fun e : (Nat × H) × Option Bytes =>
    (((nextPreimages jmt db.preimages log e.1.2).getD [], e.1.1), e.2)
  have hmap : ((hashed jmt log).map fun e => ((n, e.1), e.2)).map record =
      log.writes.map fun e => ((e.1, n), e.2) := by
    rw [hashed, map_map, map_map]
    refine map_congr_left fun e he => ?_
    show (((nextPreimages jmt db.preimages log (jmt.keyHash e.1)).getD [], n), e.2) = _
    rw [hknown e he]
    rfl
  have hperm : (batch.values.map record).Perm (log.writes.map fun e => ((e.1, n), e.2)) :=
    hmap ▸ hvalues.map record
  have hmapM : (batch.values.mapM fun e => (do
      let key ← nextPreimages jmt db.preimages log e.1.2
      pure ((key, e.1.1), e.2) : Option ((Bytes × Nat) × Option Bytes))) =
      some (batch.values.map record) := by
    refine mapM_eq_some_map fun e he => ?_
    obtain ⟨e', he', rfl⟩ := mem_map.mp (hvalues.mem_iff.mp he)
    obtain ⟨e'', he'', rfl⟩ := mem_map.mp he'
    show (nextPreimages jmt db.preimages log (jmt.keyHash e''.1)).bind _ = some
      (((nextPreimages jmt db.preimages log (jmt.keyHash e''.1)).getD [], n), e''.2)
    rw [hknown e'' he'']
    rfl
  have hnodup : ((batch.values.map record).map Prod.fst).Nodup := by
    rw [(hperm.map Prod.fst).nodup_iff, map_map]
    have hfst : (Prod.fst ∘ fun e : Bytes × Option Bytes => ((e.1, n), e.2)) =
        (fun key => (key, n)) ∘ Prod.fst := rfl
    rw [hfst, ← map_map]
    exact log.nodup.map fun _ _ h => (Prod.mk.inj h).1
  have hrecords : (batch.values.map record).foldl (fun t e => t.put e.1.1 e.1.2 e.2) db.values =
      nextValues db.values n log := by
    funext key m
    rw [nextValues]
    by_cases hmem : (key, m) ∈ (batch.values.map record).map Prod.fst
    · obtain ⟨e, he, hkey⟩ := mem_map.mp hmem
      obtain ⟨e', he', rfl⟩ := mem_map.mp (hperm.mem_iff.mp he)
      obtain ⟨rfl, rfl⟩ := Prod.mk.inj hkey
      rw [Versioned.foldl_put_of_mem hnodup he, if_pos rfl, written_eq_some.mpr he']
      rfl
    · rw [Versioned.foldl_put_of_not_mem hmem]
      by_cases hm : m = n
      · have hnone : written log key = none := by
          rw [Option.eq_none_iff_forall_ne_some]
          intro value hvalue
          refine hmem (mem_map.mpr ⟨((key, m), value), hperm.mem_iff.mpr ?_, rfl⟩)
          exact mem_map.mpr ⟨(key, value), written_eq_some.mp hvalue, by rw [hm]⟩
        rw [if_pos hm, hnone]
        rfl
      · rw [if_neg hm]
  rw [StateDb.writeNodeBatch]
  show Option.bind _ _ = _
  rw [Option.bind_eq_some_iff]
  refine ⟨_, hmapM, ?_⟩
  rw [← hrecords]
  rfl

omit [DecidableEq H] in
theorem handleEmptyJmt_eq (hjmt : JmtSpec jmt) (h : AtVersion jmt db.nodes n) :
    StateDb.handleEmptyJmt jmt db n = .ok { db with nodes := withGenesis jmt db.nodes } := by
  rw [StateDb.handleEmptyJmt]
  rcases h with ⟨hempty, rfl⟩ | ⟨hbuilt, hlast⟩
  · have hget := get_of_entries_nil hempty
    have hvalues : (jmt.putValueSet db.nodes.get [] 0).values = [] := by
      have hset : (([] : List (H × Option Bytes)).map Prod.fst).Nodup := nodup_nil
      rw [hget]
      exact (hjmt.values .empty hset).eq_nil
    have hwrite : db.writeNodeBatch (jmt.putValueSet db.nodes.get [] 0) =
        some { db with nodes := db.nodes.putAll (jmt.putValueSet db.nodes.get [] 0).nodes } := by
      rw [StateDb.writeNodeBatch, hvalues]
      rfl
    rw [congrFun hget, hwrite, withGenesis, if_pos hempty]
    rfl
  · obtain ⟨node, hroot⟩ := Built.root hjmt hbuilt
    have hne : db.nodes.entries ≠ [] := by
      obtain ⟨⟨e, he, -⟩, -⟩ := largestVersion_eq_some.mp hlast
      exact ne_nil_of_mem he
    rw [hroot, withGenesis, if_neg hne]
    rfl

/-- The state DB after a block. -/
def nextDb (jmt : Jmt P H) (db : StateDb P H) (n : Nat) (log : StateWrites) : StateDb P H :=
  ⟨nextNodes jmt db.nodes n log, nextValues db.values (n + 1) log,
    nextPreimages jmt db.preimages log⟩

/-- A block on the nodes of the tree returns. -/
theorem executeBlock_eq (hjmt : JmtSpec jmt) (h : AtVersion jmt db.nodes n) (log : StateWrites) :
    StateDb.executeBlock jmt db log = .ok (nextDb jmt db n log) := by
  obtain ⟨hbuilt, hlast⟩ := h.withGenesis hjmt
  obtain ⟨node, hroot⟩ := Built.root hjmt hbuilt
  have hset := nodup_hashed hjmt log
  have hvalues := hjmt.values hbuilt hset
  have hversion : db.nextVersion - 1 = n := by rw [h.nextVersion, Nat.add_sub_cancel]
  have hintegrity : ∀ e ∈ (jmt.putValueSet (withGenesis jmt db.nodes).get (hashed jmt log)
      (n + 1)).values, e.1.1 = n + 1 := by
    intro e he
    obtain ⟨e', -, rfl⟩ := mem_map.mp (hvalues.mem_iff.mp he)
    rfl
  have hwrite := writeNodeBatch_eq hjmt { db with nodes := withGenesis jmt db.nodes } hvalues
  simp only [StateDb.executeBlock, StateDb.computeStateUpdate, StateDb.commit, hversion,
    bind_eq_ok, expect_eq_ok, pure_eq_ok, assert_eq_ok]
  exact ⟨_, ⟨_, handleEmptyJmt_eq hjmt h, node, hroot, rfl⟩, (), hintegrity, hwrite⟩

/-- The record that the blocks `logs` write, one block for each version from 1 on. -/
def recordAt (logs : List StateWrites) (key : Bytes) : Nat → Option (Option Bytes)
  | 0 => none
  | i + 1 => logs[i]?.bind fun log => written log key

theorem recordAt_concat (logs : List StateWrites) (log : StateWrites) (key : Bytes) (i : Nat) :
    recordAt (logs ++ [log]) key i =
      if i = logs.length + 1 then written log key else recordAt logs key i := by
  cases i with
  | zero => rw [if_neg (by omega), recordAt, recordAt]
  | succ i =>
    rw [recordAt, recordAt]
    rcases Nat.lt_trichotomy i logs.length with hlt | rfl | hgt
    · rw [if_neg (by omega), List.getElem?_append_left hlt]
    · rw [if_pos rfl, List.getElem?_concat_length]
      rfl
    · have hlength : (logs ++ [log]).length ≤ i := by
        rw [length_append]
        exact hgt
      rw [if_neg (by omega), List.getElem?_eq_none hlength, List.getElem?_eq_none (by omega)]

theorem recordAt_of_lt {i : Nat} (h : logs.length < i) : recordAt logs key i = none := by
  cases i with
  | zero => rfl
  | succ i => rw [recordAt, List.getElem?_eq_none (by omega)]; rfl

/-- The state DB after blocks on the version `n`: the version, and the records. -/
theorem executeBlocks_spec (hjmt : JmtSpec jmt) (h : AtVersion jmt db.nodes n)
    (logs : List StateWrites) : ∃ db', StateDb.executeBlocks jmt db logs = .ok db' ∧
      AtVersion jmt db'.nodes (n + logs.length) ∧
      ∀ key m, db'.values key m = (recordAt logs key (m - n)).or (db.values key m) := by
  induction logs using List.reverseRecOn with
  | nil =>
    refine ⟨db, rfl, h, fun key m => ?_⟩
    cases m - n <;> rfl
  | append_singleton logs log ih =>
    obtain ⟨m, hm, hat, hvalues⟩ := ih
    refine ⟨nextDb jmt m (n + logs.length) log, ?_, ?_, fun key i => ?_⟩
    · exact foldlM_concat_eq_ok.mpr ⟨m, hm, executeBlock_eq hjmt hat log⟩
    · rw [length_append]
      exact hat.nextNodes hjmt log
    · show nextValues m.values (n + logs.length + 1) log key i = _
      rw [nextValues, recordAt_concat, hvalues]
      by_cases hi : i = n + logs.length + 1
      · rw [if_pos hi, if_pos (by omega), recordAt_of_lt (by omega)]
        rfl
      · rw [if_neg hi, if_neg (by omega)]

/-- Blocks leave the nodes of the older versions as they are. -/
theorem upTo_executeBlocks (hjmt : JmtSpec jmt) (h : AtVersion jmt db.nodes n)
    (logs : List StateWrites) {db' : StateDb P H}
    (hrun : StateDb.executeBlocks jmt db logs = .ok db') :
    upTo (withGenesis jmt db'.nodes) n = withGenesis jmt db.nodes := by
  have hstart : upTo (withGenesis jmt db.nodes) n = withGenesis jmt db.nodes :=
    upTo_of_le (largestVersion_eq_some.mp (h.withGenesis hjmt).2).2
  induction logs using List.reverseRecOn generalizing db' with
  | nil =>
    rw [StateDb.executeBlocks, foldlM_nil, pure_eq_ok] at hrun
    rwa [← hrun]
  | append_singleton logs log ih =>
    obtain ⟨m, hm, hstep⟩ := foldlM_concat_eq_ok.mp hrun
    obtain ⟨m', hm', hat, -⟩ := executeBlocks_spec hjmt h logs
    obtain rfl := ok_unique hm hm'
    rw [executeBlock_eq hjmt hat] at hstep
    obtain rfl := Except.ok.inj hstep
    obtain ⟨hbuilt, -⟩ := hat.withGenesis hjmt
    have hset := nodup_hashed hjmt log
    have hne : (nextNodes jmt m.nodes (n + logs.length) log).entries ≠ [] := by
      obtain ⟨node, hnode⟩ := hjmt.root hbuilt hset
      exact ne_nil_of_mem ((mem_putAll (hjmt.nodup hbuilt hset)).mpr (.inl hnode))
    show upTo (withGenesis jmt (nextNodes jmt m.nodes (n + logs.length) log)) n = _
    rw [withGenesis_of_ne_nil hne, nextNodes, upTo_putAll, ih hm]
    intro e he
    have hversion := hjmt.version hbuilt hset e he
    omega

/-- The records of a database that executed its blocks from the start: the key of a record is known,
and the leaves of its version have it exactly if it is a value. -/
theorem leaf_iff (hjmt : JmtSpec jmt)
    (hrun : StateDb.executeBlocks jmt StateDb.empty logs = .ok db) {value : Option Bytes}
    (h : recordAt logs key n = some value) : db.preimages (jmt.keyHash key) = some key ∧
    ((∃ path, (⟨n, path⟩, Node.leaf (jmt.keyHash key)) ∈ db.nodes.entries) ↔ value.isSome) := by
  induction logs using List.reverseRecOn generalizing db with
  | nil => rw [recordAt_of_lt (by cases n; cases h; exact Nat.succ_pos _)] at h; cases h
  | append_singleton logs log ih =>
    obtain ⟨m, hm, hstep⟩ := foldlM_concat_eq_ok.mp hrun
    obtain ⟨m', hm', hat, -⟩ := executeBlocks_spec hjmt atVersion_empty logs
    obtain rfl := ok_unique hm hm'
    rw [Nat.zero_add] at hat
    rw [executeBlock_eq hjmt hat] at hstep
    obtain rfl := Except.ok.inj hstep
    have hn : n ≠ 0 := by
      rintro rfl
      cases h
    obtain ⟨hbuilt, -⟩ := hat.withGenesis hjmt
    have hset := nodup_hashed hjmt log
    rw [recordAt_concat] at h
    show nextPreimages jmt m.preimages log (jmt.keyHash key) = some key ∧
      ((∃ path, _ ∈ (nextNodes jmt m.nodes logs.length log).entries) ↔ _)
    simp only [mem_nextNodes hjmt hat (e := (⟨n, _⟩, Node.leaf (jmt.keyHash key))) hn]
    split at h
    · next hnew =>
      -- The record is of the last block. Its leaves are in the batch of the block.
      have hmem := written_eq_some.mp h
      refine ⟨nextPreimages_of_known hjmt.keyHash_injective (.inr (mem_map_of_mem hmem)), ?_⟩
      simp only [if_pos hnew]
      cases value with
      | none =>
        have hno := hjmt.no_leaf_of_delete hbuilt hset ((mem_hashed hjmt).mpr hmem)
        exact ⟨fun ⟨path, hleaf⟩ => absurd hleaf (hno _), fun hsome => by cases hsome⟩
      | some value =>
        refine ⟨fun _ => rfl, fun _ => ?_⟩
        obtain ⟨leafKey, hleaf⟩ := hjmt.leaf_of_put hbuilt hset ((mem_hashed hjmt).mpr hmem)
        have hversion : leafKey.version = n := (hjmt.version hbuilt hset _ hleaf).trans hnew.symm
        exact ⟨leafKey.nibblePath, by rw [← hversion]; exact hleaf⟩
    · next hold =>
      obtain ⟨hknown, hleaf⟩ := ih hm h
      refine ⟨nextPreimages_of_known hjmt.keyHash_injective (.inl hknown), ?_⟩
      simp only [if_neg hold]
      exact hleaf

theorem preimages_sound (hjmt : JmtSpec jmt)
    (hrun : StateDb.executeBlocks jmt StateDb.empty logs = .ok db) {hash : H}
    (h : db.preimages hash = some key) : hash = jmt.keyHash key := by
  induction logs using List.reverseRecOn generalizing db hash key with
  | nil =>
    rw [StateDb.executeBlocks, foldlM_nil, pure_eq_ok] at hrun
    rw [← hrun] at h
    cases h
  | append_singleton logs log ih =>
    obtain ⟨m, hm, hstep⟩ := foldlM_concat_eq_ok.mp hrun
    obtain ⟨m', hm', hat, -⟩ := executeBlocks_spec hjmt atVersion_empty logs
    obtain rfl := ok_unique hm hm'
    rw [executeBlock_eq hjmt hat] at hstep
    obtain rfl := Except.ok.inj hstep
    exact nextPreimages_sound (fun _ _ hsome => ih hm hsome) log hash key h

end

end Citrea.Proofs.StorageOps
