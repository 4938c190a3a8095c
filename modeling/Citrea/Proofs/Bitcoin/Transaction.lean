import Citrea.Lib.PairLevel
import Citrea.Spec.Bitcoin.Transaction
import Mathlib.Data.List.Nodup
import Mathlib.Data.List.TakeDrop

/-!
# `Citrea.Proofs.Bitcoin.Transaction`: the bytes of a transaction determine it

`encodeWithoutWitness_inj`: the bytes under a txid determine everything but the witnesses.
`consensusEncode_inj`: the bytes under a wtxid determine the whole transaction.

Both are chains of prefix codes, one for each field in the order of the format. The second has
one more case. A segwit serialization has a zero byte where a legacy serialization has the
number of its inputs. A legacy serialization has at least one input, so the two never agree.
-/

namespace Citrea.Proofs.Bitcoin

open List Lib Spec.Bitcoin

variable {tx tx' : Transaction}

/-! ### The field codes -/

theorem prefixCode_bytes32 : PrefixCodeOn Set.univ Bytes32.data :=
  .of_length 32 (fun b _ => b.length_eq) fun _ _ _ _ h => Bytes32.ext h

theorem prefixCode_uint32 : PrefixCodeOn Set.univ (fun n : UInt32 => leBytes 4 n.toNat) := by
  refine .of_length 4 (fun n _ => length_leBytes 4 _) fun m _ n _ h => ?_
  exact UInt32.toNat_inj.mp (leBytes_inj m.toNat_lt n.toNat_lt h)

theorem prefixCode_uint64 : PrefixCodeOn Set.univ (fun n : UInt64 => leBytes 8 n.toNat) := by
  refine .of_length 8 (fun n _ => length_leBytes 8 _) fun m _ n _ h => ?_
  exact UInt64.toNat_inj.mp (leBytes_inj m.toNat_lt n.toNat_lt h)

theorem prefixCode_byteVec : PrefixCodeOn Set.univ (fun b : ByteVec => varBytes b.data) := by
  intro b _ c _ r s h
  obtain ⟨hdata, hrest⟩ := prefixCode_varBytes b.fits c.fits h
  exact ⟨ByteVec.ext hdata, hrest⟩

/-- An output is written field by field. -/
theorem prefixCode_txOut : PrefixCodeOn Set.univ TxOut.consensusEncode := by
  intro o _ p _ r s h
  simp only [TxOut.consensusEncode, append_assoc] at h
  obtain ⟨hvalue, h⟩ := prefixCode_uint64 (Set.mem_univ _) (Set.mem_univ _) h
  obtain ⟨hscript, h⟩ := prefixCode_byteVec (Set.mem_univ _) (Set.mem_univ _) h
  exact ⟨TxOut.ext hvalue hscript, h⟩

/-- The input with an empty witness. -/
def dropWitness (i : TxIn) : TxIn := { i with witness := [], witness_fits := by simp }

/-- Among inputs without a witness, the bytes of an input determine it. -/
theorem prefixCode_txIn : PrefixCodeOn (Set.range dropWitness) TxIn.consensusEncode := by
  rintro _ ⟨i, rfl⟩ _ ⟨j, rfl⟩ r s h
  simp only [TxIn.consensusEncode, append_assoc] at h
  obtain ⟨htxid, h⟩ := prefixCode_bytes32 (Set.mem_univ _) (Set.mem_univ _) h
  obtain ⟨hvout, h⟩ := prefixCode_uint32 (Set.mem_univ _) (Set.mem_univ _) h
  obtain ⟨hscript, h⟩ := prefixCode_byteVec (Set.mem_univ _) (Set.mem_univ _) h
  obtain ⟨hsequence, h⟩ := prefixCode_uint32 (Set.mem_univ _) (Set.mem_univ _) h
  exact ⟨TxIn.ext (OutPoint.ext htxid hvout) hscript hsequence rfl, h⟩

theorem prefixCode_witness : PrefixCodeOn {w : List ByteVec | w.length < 2 ^ 64} encodeWitness := by
  intro v hv w hw r s h
  exact prefixCode_byteVec.varList ⟨hv, fun _ _ => Set.mem_univ _⟩
    ⟨hw, fun _ _ => Set.mem_univ _⟩ h

/-! ### Whole transactions -/

/-- A list of inputs has the bytes of the same list without its witnesses. -/
theorem varList_map_dropWitness (l : List TxIn) :
    varList TxIn.consensusEncode (l.map dropWitness) = varList TxIn.consensusEncode l := by
  simp only [varList, length_map, flatMap_map]
  rfl

/-- The inputs and outputs of two transactions, up to witnesses, from a shared run of bytes. -/
theorem inputs_outputs_inj (tx tx' : Transaction) {r s : List UInt8}
    (h : varList TxIn.consensusEncode tx.input ++ (varList TxOut.consensusEncode tx.output ++ r) =
      varList TxIn.consensusEncode tx'.input ++ (varList TxOut.consensusEncode tx'.output ++ s)) :
    tx.input.map dropWitness = tx'.input.map dropWitness ∧ tx.output = tx'.output ∧ r = s := by
  have mem : ∀ t : Transaction, (t.input.map dropWitness).length < 2 ^ 64 ∧
      ∀ x ∈ t.input.map dropWitness, x ∈ Set.range dropWitness := by
    intro t
    refine ⟨by simpa using t.input_fits, fun x hx => ?_⟩
    obtain ⟨i, -, rfl⟩ := mem_map.mp hx
    exact ⟨i, rfl⟩
  rw [← varList_map_dropWitness tx.input, ← varList_map_dropWitness tx'.input] at h
  obtain ⟨hin, h⟩ := prefixCode_txIn.varList (mem tx) (mem tx') h
  obtain ⟨hout, h⟩ := prefixCode_txOut.varList ⟨tx.output_fits, fun _ _ => Set.mem_univ _⟩
    ⟨tx'.output_fits, fun _ _ => Set.mem_univ _⟩ h
  exact ⟨hin, hout, h⟩

/-- The transaction with all witnesses empty. -/
def withoutWitness (tx : Transaction) : Transaction :=
  { tx with
      input := tx.input.map dropWitness
      input_fits := by simpa using tx.input_fits }

/-- The bytes under a txid determine the transaction up to its witnesses. -/
theorem encodeWithoutWitness_inj (h : tx.encodeWithoutWitness = tx'.encodeWithoutWitness) :
    withoutWitness tx = withoutWitness tx' := by
  simp only [Transaction.encodeWithoutWitness, append_assoc] at h
  obtain ⟨hversion, h⟩ := prefixCode_uint32 (Set.mem_univ _) (Set.mem_univ _) h
  obtain ⟨hin, hout, h⟩ := inputs_outputs_inj tx tx' h
  obtain ⟨hlock, -⟩ := prefixCode_uint32 (Set.mem_univ tx.lockTime) (Set.mem_univ tx'.lockTime)
    (r := []) (s := []) (by simpa using h)
  exact Transaction.ext hversion hlock hin hout

/-- Without a witness in sight, dropping the witnesses changes nothing. -/
theorem map_dropWitness_of_legacy (h : tx.usesSegwitSerialization = false) :
    tx.input.map dropWitness = tx.input := by
  have hempty : ∀ i ∈ tx.input, i.witness = [] := by
    simp only [Transaction.usesSegwitSerialization, Bool.or_eq_false_iff, any_eq_false] at h
    intro i hi
    simpa using h.1 i hi
  calc tx.input.map dropWitness = tx.input.map id :=
        map_congr_left fun i hi => TxIn.ext rfl rfl rfl (hempty i hi).symm
    _ = tx.input := map_id _

/-- The inputs are determined by the inputs without witnesses and the witnesses. -/
theorem inputs_eq_of_witnesses {l k : List TxIn} (hbase : l.map dropWitness = k.map dropWitness)
    (hwit : l.map TxIn.witness = k.map TxIn.witness) : l = k := by
  induction l generalizing k with
  | nil =>
    cases k with
    | nil => rfl
    | cons j k => simp at hbase
  | cons i l ih =>
    cases k with
    | nil => simp at hbase
    | cons j k =>
      simp only [map_cons, List.cons.injEq] at hbase hwit
      have hij : i = j := by
        have hb := hbase.1
        simp only [dropWitness, TxIn.mk.injEq] at hb
        exact TxIn.ext hb.1 hb.2.1 hb.2.2.1 hwit.1
      rw [hij, ih hbase.2 hwit.2]

/-- A legacy serialization and a segwit serialization differ at the byte after the version: a
positive number of inputs against the zero marker. -/
theorem legacy_ne_segwit (h : tx.usesSegwitSerialization = false)
    (h' : tx'.usesSegwitSerialization = true) : tx.consensusEncode ≠ tx'.consensusEncode := by
  intro heq
  simp only [Transaction.consensusEncode, h, h', Transaction.encodeWithoutWitness, if_true,
    Bool.false_eq_true, if_false, append_assoc] at heq
  obtain ⟨-, heq⟩ := prefixCode_uint32 (Set.mem_univ _) (Set.mem_univ _) heq
  have hne : tx.input.length ≠ 0 := by
    intro h0
    rw [length_eq_zero_iff] at h0
    simp [Transaction.usesSegwitSerialization, h0] at h
  -- the marker reads as the count of an empty list of inputs
  have hzero : ([0, 1] : List UInt8) = compactSize 0 ++ [1] := by decide
  rw [hzero, varList, append_assoc, append_assoc] at heq
  obtain ⟨hlen, -⟩ := prefixCode_compactSize tx.input_fits (by simp) heq
  exact hne hlen

/-- The bytes under a wtxid determine the transaction. -/
theorem consensusEncode_inj (h : tx.consensusEncode = tx'.consensusEncode) : tx = tx' := by
  cases hs : tx.usesSegwitSerialization with
  | false =>
    cases hs' : tx'.usesSegwitSerialization with
    | false =>
      simp only [Transaction.consensusEncode, hs, hs', Bool.false_eq_true, if_false] at h
      have hbase := encodeWithoutWitness_inj h
      simp only [withoutWitness, Transaction.mk.injEq, map_dropWitness_of_legacy hs,
        map_dropWitness_of_legacy hs'] at hbase
      exact Transaction.ext hbase.1 hbase.2.1 hbase.2.2.1 hbase.2.2.2
    | true => exact absurd h (legacy_ne_segwit hs hs')
  | true =>
    cases hs' : tx'.usesSegwitSerialization with
    | false => exact absurd h.symm (legacy_ne_segwit hs' hs)
    | true =>
      simp only [Transaction.consensusEncode, hs, hs', if_true, append_assoc] at h
      obtain ⟨hversion, h⟩ := prefixCode_uint32 (Set.mem_univ _) (Set.mem_univ _) h
      obtain ⟨hin, hout, h⟩ := inputs_outputs_inj tx tx' (append_cancel_left h)
      have hlen : (tx.input.map TxIn.witness).length = (tx'.input.map TxIn.witness).length := by
        simpa using congrArg List.length hin
      have fits : ∀ t : Transaction, ∀ w ∈ t.input.map TxIn.witness, w.length < 2 ^ 64 := by
        intro t w hw
        obtain ⟨i, -, rfl⟩ := mem_map.mp hw
        exact i.witness_fits
      have flat : ∀ t : Transaction, t.input.flatMap (fun i => encodeWitness i.witness)
          = (t.input.map TxIn.witness).flatMap encodeWitness := by
        intro t
        rw [flatMap_map]
      rw [flat, flat] at h
      obtain ⟨hwit, h⟩ := prefixCode_witness.flatMap_inj (fits tx) (fits tx') hlen h
      obtain ⟨hlock, -⟩ := prefixCode_uint32 (Set.mem_univ tx.lockTime)
        (Set.mem_univ tx'.lockTime) (r := []) (s := []) (by simpa using h)
      exact Transaction.ext hversion hlock (inputs_eq_of_witnesses hin hwit) hout

/-! ### What the Bitcoin tree commits to

`BitcoinMerkleTree::new` on a non-empty list is the relation `IsTree` (`new_eq_ok_iff`), which
has one constructor for the root and one for a level with a level above it.

SHA-256 is a parameter. It cannot be injective on all byte strings, so the results are relative
to a set `S` of byte strings that were hashed (`CollisionFree`): on `S` the double hash does not
collide and is never the zero value, which Bitcoin uses as the wtxid of a coinbase transaction.

* `IsTree.levels`: a tree is a tower of `PairUp` steps, when what it hashes is in `S`.
* `IsTree.drop`: each level of a tree is the leaf list of a tree with the same root.
* `IsTree.level_of_same_root`: two trees with the same root share their levels from some level
  up.
* `IsTree.exists_leftPath`: the path from the first leaf to the root, which is what
  `calculate_root_with_merkle_proof` climbs at index zero (`calculateRoot_zero`).
-/

/-- On the set `S` of hashed strings, double SHA-256 does not collide and is never zero. -/
structure CollisionFree (sha256 : Bytes → Bytes32) (S : Set Bytes) : Prop where
  injOn : Set.InjOn (calculateDoubleSha256 sha256) S
  ne_zero : ∀ s ∈ S, calculateDoubleSha256 sha256 s ≠ .zero

/-- The strings that are hashed to get from a level to the level above. -/
def levelPreimages (level : List Bytes32) : List Bytes :=
  (neighbours level).map fun p => nodePreimage p.1 p.2

/-- The strings that are hashed to build the levels of a tree: those of every level but the
root. -/
def treePreimages (nodes : List (List Bytes32)) : List Bytes :=
  nodes.dropLast.flatMap levelPreimages

/-- For a finite set it is enough that the hashes are pairwise distinct and not zero. -/
theorem CollisionFree.of_list {sha256 : Bytes → Bytes32} {l : List Bytes}
    (hnodup : (l.map (calculateDoubleSha256 sha256)).Nodup)
    (hzero : ∀ s ∈ l, calculateDoubleSha256 sha256 s ≠ .zero) :
    CollisionFree sha256 {s | s ∈ l} where
  injOn := fun _ ha _ hb h => inj_on_of_nodup_map hnodup ha hb h
  ne_zero := hzero

/-- A hash that can be evaluated, for concrete instances. -/
def rollingHash (input : Bytes) : Bytes32 :=
  ⟨leBytes 32 (input.foldl (fun acc x => (acc * 257 + x.toNat + 1) % 2 ^ 256) 7),
    length_leBytes 32 _⟩

/-- The pairs of nodes whose 64 bytes are in `S`. -/
def pairsIn (S : Set Bytes) : Set (Bytes32 × Bytes32) := {p | nodePreimage p.1 p.2 ∈ S}

variable {sha256 : Bytes → Bytes32} {S : Set Bytes} {l : List Bytes32}

/-- The 64 bytes of a pair determine the pair. -/
theorem nodePreimage_inj {a b c d : Bytes32} (h : nodePreimage a b = nodePreimage c d) :
    a = c ∧ b = d := by
  have hlen : a.data.length = c.data.length := by rw [a.length_eq, c.length_eq]
  obtain ⟨hl, hr⟩ := append_inj h hlen
  exact ⟨Bytes32.ext hl, Bytes32.ext hr⟩

theorem length_nodePreimage (a b : Bytes32) : (nodePreimage a b).length = 64 := by
  rw [nodePreimage, length_append, a.length_eq, b.length_eq]

/-- Nodes do not collide on the hashed pairs. -/
theorem node_injOn (hinj : Set.InjOn (calculateDoubleSha256 sha256) S) :
    Set.InjOn (fun p : Bytes32 × Bytes32 => combineNodes sha256 p.1 p.2) (pairsIn S) := by
  intro p hp q hq h
  obtain ⟨h1, h2⟩ := nodePreimage_inj (hinj hp hq h)
  exact Prod.ext h1 h2

/-! ### One level -/

/-- Building one level is one `PairUp` step. -/
theorem nextLevel_eq_ok_iff {ε : Type} {m : List Bytes32} :
    nextLevel sha256 l = (.ok m : Outcome ε (List Bytes32)) ↔
      PairUp (combineNodes sha256) Set.univ l m := by
  constructor
  · intro h
    induction l using neighbours.induct generalizing m with
    | case1 =>
      simp only [nextLevel, pure_eq_ok] at h
      rw [← h]
      exact .nil
    | case2 last =>
      simp only [nextLevel, pure_eq_ok] at h
      rw [← h]
      exact .single (Set.mem_univ _)
    | case3 l r rest ih =>
      simp only [nextLevel, bind_eq_ok, pure_eq_ok, assert_eq_ok] at h
      obtain ⟨-, hne, up, hup, rfl⟩ := h
      exact .pair hne (Set.mem_univ _) (ih hup)
  · intro h
    induction h with
    | nil => rfl
    | single _ => rfl
    | pair hne _ _ ih =>
      simp only [nextLevel, bind_eq_ok, pure_eq_ok, assert_eq_ok]
      exact ⟨(), hne, _, ih, rfl⟩

/-- The pairs of a level are hashed pairs when its strings are in `S`. -/
theorem mem_pairsIn_of_levelPreimages (h : ∀ s ∈ levelPreimages l, s ∈ S) :
    ∀ p ∈ neighbours l, p ∈ pairsIn S := by
  intro p hp
  exact h _ (mem_map.mpr ⟨p, hp, rfl⟩)

/-! ### Whole trees -/

/-- `IsTree sha256 l nodes`: the levels `nodes` are those of the tree over `l`. -/
inductive IsTree (sha256 : Bytes → Bytes32) : List Bytes32 → List (List Bytes32) → Prop where
  | root (r : Bytes32) : IsTree sha256 [r] [[r]]
  | level {l m : List Bytes32} {nodes : List (List Bytes32)} (hl : 2 ≤ l.length)
      (hm : PairUp (combineNodes sha256) Set.univ l m) (h : IsTree sha256 m nodes) :
      IsTree sha256 l (l :: nodes)

/-- The loop of `new` builds the tree when it has a turn for each leaf. -/
theorem buildLevels_eq_ok_iff {ε : Type} {fuel : Nat} {nodes : List (List Bytes32)} (hl : l ≠ [])
    (hfuel : l.length ≤ fuel) :
    buildLevels sha256 fuel l = (.ok nodes : Outcome ε (List (List Bytes32))) ↔
      IsTree sha256 l nodes := by
  induction fuel generalizing l nodes with
  | zero => exact absurd (length_eq_zero_iff.mp (by omega)) hl
  | succ fuel ih =>
    rw [buildLevels]
    by_cases hone : l.length ≤ 1
    · obtain ⟨r, rfl⟩ : ∃ r, l = [r] := by
        rw [← length_eq_one_iff]
        have := length_pos_iff.mpr hl
        omega
      rw [if_pos hone, pure_eq_ok]
      constructor
      · rintro rfl
        exact .root r
      · intro h
        cases h with
        | root => rfl
        | level hl _ _ => simp at hl
    · rw [if_neg hone]
      simp only [bind_eq_ok, pure_eq_ok, nextLevel_eq_ok_iff]
      -- the level above is shorter and not empty, so the induction hypothesis applies to it
      have hup : ∀ m, PairUp (combineNodes sha256) Set.univ l m → m ≠ [] ∧ m.length ≤ fuel := by
        intro m hm
        have hlen := hm.length_eq
        refine ⟨?_, by omega⟩
        rintro rfl
        simp only [length_nil] at hlen
        omega
      constructor
      · rintro ⟨m, hm, above, habove, rfl⟩
        exact .level (by omega) hm ((ih (hup m hm).1 (hup m hm).2).mp habove)
      · intro h
        cases h with
        | root => simp at hone
        | level _ hm h => exact ⟨_, hm, _, (ih (hup _ hm).1 (hup _ hm).2).mpr h, rfl⟩

/-- `BitcoinMerkleTree::new` on a non-empty list. -/
theorem new_eq_ok_iff {ε : Type} {tree : BitcoinMerkleTree} (hl : l ≠ []) :
    BitcoinMerkleTree.new sha256 l = (.ok tree : Outcome ε BitcoinMerkleTree) ↔
      IsTree sha256 l tree.nodes := by
  have hbuild : buildLevels sha256 l.length l = (.ok tree.nodes : Outcome ε _) ↔
      IsTree sha256 l tree.nodes := buildLevels_eq_ok_iff hl (by omega)
  rw [BitcoinMerkleTree.new]
  by_cases hone : l.length = 1
  · obtain ⟨r, rfl⟩ := length_eq_one_iff.mp hone
    rw [if_pos hone, pure_eq_ok]
    constructor
    · rintro rfl
      exact .root r
    · intro h
      generalize hn : tree.nodes = nodes at h
      cases h with
      | root => rw [← hn]
      | level hl _ _ => simp at hl
  · rw [if_neg hone, ← hbuild]
    simp only [bind_eq_ok, pure_eq_ok]
    constructor
    · rintro ⟨nodes, hnodes, rfl⟩
      exact hnodes
    · intro h
      exact ⟨tree.nodes, h, rfl⟩

namespace IsTree

variable {l l' m : List Bytes32} {nodes nodes' : List (List Bytes32)} {r : Bytes32} {k : Nat}

variable (h : IsTree sha256 l nodes)
include h

theorem ne_nil : nodes ≠ [] := by
  cases h <;> simp

theorem head_eq : nodes[0]? = some l := by
  cases h <;> rfl

/-- The last level is the root alone. -/
theorem exists_root : ∃ r, nodes.getLast? = some [r] := by
  induction h with
  | root r => exact ⟨r, rfl⟩
  | level _ _ h ih =>
    obtain ⟨r, hr⟩ := ih
    exact ⟨r, by rw [List.getLast?_cons_of_ne_nil h.ne_nil, hr]⟩

omit h in
/-- The strings of the tree are those of its leaves and those of the tree above. -/
theorem treePreimages_cons (h : nodes ≠ []) :
    treePreimages (l :: nodes) = levelPreimages l ++ treePreimages nodes := by
  rw [treePreimages, dropLast_cons_of_ne_nil h, flatMap_cons]
  rfl

/-- A tree is a tower of levels over its leaves, with the root on top. -/
theorem levels (hr : nodes.getLast? = some [r]) (hmem : ∀ s ∈ treePreimages nodes, s ∈ S) :
    Levels (combineNodes sha256) (pairsIn S) (nodes.length - 1) l [r] := by
  induction h with
  | root r' =>
    obtain rfl : r' = r := by simpa using hr
    exact .refl
  | @level l m nodes hl hm h ih =>
    have hpos := length_pos_iff.mpr h.ne_nil
    rw [treePreimages_cons h.ne_nil] at hmem
    rw [List.getLast?_cons_of_ne_nil h.ne_nil] at hr
    have hup : PairUp (combineNodes sha256) (pairsIn S) l m :=
      hm.restrict (mem_pairsIn_of_levelPreimages fun s hs =>
        hmem s (mem_append_left _ hs))
    have habove := ih hr fun s hs => hmem s (mem_append_right _ hs)
    rw [length_cons, Nat.add_sub_cancel, ← Nat.sub_add_cancel hpos]
    exact .step hup habove

/-- Each level of a tree is the leaf list of a tree: the rest of the levels. -/
theorem drop (hk : nodes[k]? = some m) : IsTree sha256 m (nodes.drop k) := by
  induction h generalizing k with
  | root r =>
    cases k with
    | zero =>
      obtain rfl : [r] = m := by simpa using hk
      exact .root r
    | succ k => simp at hk
  | @level l up nodes hl hm h ih =>
    cases k with
    | zero =>
      obtain rfl : l = m := by simpa using hk
      exact .level hl hm h
    | succ k => exact ih (by simpa using hk)

/-- No level is longer than the leaf list. -/
theorem length_le (hk : nodes[k]? = some m) : m.length ≤ l.length := by
  induction h generalizing k with
  | root r =>
    have hmem := mem_of_getElem? hk
    rw [mem_singleton] at hmem
    rw [hmem]
  | @level l up nodes hl hm h ih =>
    cases k with
    | zero =>
      obtain rfl : l = m := by simpa using hk
      omega
    | succ k =>
      have habove : m.length ≤ up.length := ih (by simpa using hk)
      have hup := hm.length_eq
      omega

omit h in
/-- The tree over a level hashes nothing that the whole tree does not hash. -/
theorem mem_treePreimages_of_drop {s : Bytes} (hs : s ∈ treePreimages (nodes.drop k)) :
    s ∈ treePreimages nodes := by
  simp only [treePreimages, mem_flatMap] at hs ⊢
  obtain ⟨level, hlevel, hs⟩ := hs
  rw [dropLast_drop_eq_drop_dropLast] at hlevel
  exact ⟨level, mem_of_mem_drop hlevel, hs⟩

/-- A level that is not the leaf list was built from the level below it. -/
theorem pairUp_of_getElem (hk : nodes[k + 1]? = some m) :
    ∃ below, nodes[k]? = some below ∧ PairUp (combineNodes sha256) Set.univ below m := by
  induction h generalizing k with
  | root r => simp at hk
  | @level l up nodes hl hm h ih =>
    rw [List.getElem?_cons_succ] at hk
    cases k with
    | zero =>
      rw [h.head_eq] at hk
      exact ⟨l, rfl, by rwa [← Option.some.inj hk]⟩
    | succ k => exact ih hk

/-- A list `k` levels above the leaves is the level with number `k`. -/
theorem getElem_of_levels {K : Set (Bytes32 × Bytes32)}
    (hk : k < nodes.length) (hlevels : Levels (combineNodes sha256) K k l m) :
    nodes[k]? = some m := by
  induction h generalizing k with
  | root r =>
    obtain rfl : k = 0 := by simpa using hk
    cases hlevels
    rfl
  | @level l up nodes hl hm h ih =>
    cases hlevels with
    | refl => rfl
    | step hup hs =>
      rw [List.getElem?_cons_succ]
      refine ih (by simpa using hk) ?_
      rw [hm.eq_map, ← hup.eq_map]
      exact hs

omit h

/-- Two trees with the same root: the leaves of the lower tree are a level of the other one. -/
theorem level_of_same_root (hS : CollisionFree sha256 S) (h : IsTree sha256 l nodes)
    (h' : IsTree sha256 l' nodes') (hr : nodes.getLast? = some [r])
    (hr' : nodes'.getLast? = some [r]) (hmem : ∀ s ∈ treePreimages nodes, s ∈ S)
    (hmem' : ∀ s ∈ treePreimages nodes', s ∈ S) (hle : nodes'.length ≤ nodes.length) :
    nodes[nodes.length - nodes'.length]? = some l' := by
  have hpos := length_pos_iff.mpr h'.ne_nil
  have hk : nodes'.length - 1 ≤ nodes.length - 1 := by omega
  have hlevels := Levels.of_same_top (node_injOn hS.injOn) hk (h'.levels hr' hmem')
    (h.levels hr hmem)
  have hsub : nodes.length - 1 - (nodes'.length - 1) = nodes.length - nodes'.length := by omega
  rw [hsub] at hlevels
  exact h.getElem_of_levels (by omega) hlevels

/-- The strings of a level below the root are strings of the tree. -/
theorem mem_treePreimages (hk : k + 1 < nodes.length) (hm : nodes[k]? = some m) {s : Bytes}
    (hs : s ∈ levelPreimages m) : s ∈ treePreimages nodes := by
  refine mem_flatMap.mpr ⟨m, mem_of_getElem? (i := k) ?_, hs⟩
  rw [List.getElem?_dropLast, if_pos (by omega), hm]

/-- A node above the leaves is a hash, so it is not zero. -/
theorem zero_not_mem (hS : CollisionFree sha256 S) (h : IsTree sha256 l nodes)
    (hk : nodes[k + 1]? = some m) (hmem : ∀ s ∈ treePreimages nodes, s ∈ S) : Bytes32.zero ∉ m := by
  intro hzero
  obtain ⟨below, hbelow, hup⟩ := h.pairUp_of_getElem hk
  rw [hup.eq_map] at hzero
  obtain ⟨p, hp, hzero⟩ := mem_map.mp hzero
  have hlt : k + 1 < nodes.length := (List.getElem?_eq_some_iff.mp hk).1
  have hs : nodePreimage p.1 p.2 ∈ treePreimages nodes :=
    mem_treePreimages hlt hbelow (mem_map.mpr ⟨p, hp, rfl⟩)
  exact hS.ne_zero _ (hmem _ hs) hzero

end IsTree

variable {l : List Bytes32}

/-! ### The path of the first leaf -/

/-- The depth of a tree over at most `2 ^ k` leaves. -/
theorem IsTree.length_le_of_le_two_pow {nodes : List (List Bytes32)} (h : IsTree sha256 l nodes)
    {k : Nat} (hk : l.length ≤ 2 ^ k) : nodes.length ≤ k + 1 := by
  induction h generalizing k with
  | root r => simp
  | @level l m nodes hl hm h ih =>
    cases k with
    | zero => simp at hk; omega
    | succ k =>
      have hup := hm.length_eq
      have habove : nodes.length ≤ k + 1 := ih (by rw [Nat.pow_succ] at hk; omega)
      rw [length_cons]
      omega

/-- The first leaf has a path to the root, of the depth of the tree, along strings that the
tree hashes. -/
theorem IsTree.exists_leftPath {nodes : List (List Bytes32)} {r a : Bytes32}
    (h : IsTree sha256 l nodes) (hr : nodes.getLast? = some [r]) (ha : l.head? = some a) :
    ∃ p : List Bytes32, p.length = nodes.length - 1 ∧ p.foldl (combineNodes sha256) a = r ∧
      ∀ x ∈ pathPairs (combineNodes sha256) a p, nodePreimage x.1 x.2 ∈ treePreimages nodes := by
  induction h generalizing a with
  | root r' =>
    obtain rfl : r' = a := by simpa using ha
    obtain rfl : r' = r := by simpa using hr
    exact ⟨[], rfl, rfl, by simp [pathPairs]⟩
  | @level l m nodes hl hm h ih =>
    rw [List.getLast?_cons_of_ne_nil h.ne_nil] at hr
    cases hm with
    | nil => simp at hl
    | single _ => simp at hl
    | @pair x y rest up hne _ hrest =>
      obtain rfl : x = a := by simpa using ha
      obtain ⟨p, hlen, hfold, hmem⟩ := ih hr rfl
      have hpos := length_pos_iff.mpr h.ne_nil
      refine ⟨y :: p, by simp only [length_cons]; omega, hfold, ?_⟩
      rw [treePreimages_cons h.ne_nil, pathPairs, forall_mem_cons]
      refine ⟨mem_append_left _ ?_, fun z hz => mem_append_right _ (hmem z hz)⟩
      exact mem_map.mpr ⟨(x, y), by simp [neighbours], rfl⟩

/-- At index zero every sibling is on the right. -/
theorem climb_zero {ε : Type} (a : Bytes32) (p : List Bytes32) :
    BitcoinMerkleTree.climb sha256 a 0 p =
      (.ok (p.foldl (combineNodes sha256) a, 0) : Outcome ε (Bytes32 × UInt32)) := by
  induction p generalizing a with
  | nil => rfl
  | cons x p ih =>
    rw [BitcoinMerkleTree.climb, if_pos (by decide), foldl_cons]
    exact ih _

theorem calculateRoot_zero {ε : Type} (a : Bytes32) (p : List Bytes32) :
    BitcoinMerkleTree.calculateRootWithMerkleProof sha256 a 0 p =
      (.ok ((p.take (p.length % 2 ^ 32)).foldl (combineNodes sha256) a) : Outcome ε Bytes32) := by
  rw [BitcoinMerkleTree.calculateRootWithMerkleProof, climb_zero]
  rfl

/-- The root of a built tree. -/
theorem root_eq_ok_iff {ε : Type} {tree : BitcoinMerkleTree} (h : IsTree sha256 l tree.nodes)
    {r : Bytes32} : tree.root = (.ok r : Outcome ε Bytes32) ↔ tree.nodes.getLast? = some [r] := by
  obtain ⟨r', hr'⟩ := h.exists_root
  rw [BitcoinMerkleTree.root, hr', expect_eq_ok]
  simp

end Citrea.Proofs.Bitcoin
