import Mathlib.Data.Nat.Log
import Citrea.Proofs.Bitcoin.Parsers
import Citrea.Proofs.Bitcoin.VerifyTransactions
import Citrea.Spec.Bitcoin.CoreRules
import Citrea.Spec.Bitcoin.Service

/-!
# `Citrea.Proofs.Bitcoin.Extraction`: what the node extracts, the verifier accepts

For a valid block and a prefix that is not all zeros, the node and the verifier agree on every
case: `extraction_verifies`.

The tree over the txids has no equal neighbours, by the rules of a block. The tree over the wtxids
is not checked for them, but a wtxid determines the transaction and so the txid, and this goes up
the levels: equal neighbours in the witness tree are equal neighbours in the txid tree
(`IsTree.of_determined`). A block without a witness commitment has no witness, so its wtxids are
its txids and no transaction parses as an inscription.
-/

namespace Citrea.Proofs.Bitcoin

open List Lib Spec.Bitcoin

section
variable {sha256 : Bytes → Bytes32} {l : List Bytes32} {r : Bytes32} {nodes : List (List Bytes32)}

/-! ### The trees -/

/-- A level without equal neighbours is a step of the tree. -/
theorem pairUp_of_not_equalPair (h : Core.equalPair l = false) :
    PairUp (combineNodes sha256) Set.univ l (levelUp (combineNodes sha256) l) := by
  induction l using neighbours.induct with
  | case1 => exact .nil
  | case2 x => exact .single (Set.mem_univ _)
  | case3 x y rest ih =>
    simp only [Core.equalPair, Bool.or_eq_false_iff, beq_eq_false_iff_ne] at h
    exact .pair h.1 (Set.mem_univ _) (ih h.2)

/-- A list that was not mutated has a tree, with the root that the rules compute. -/
theorem isTree_of_not_mutated {fuel : Nat} (hl : l ≠ []) (hfuel : l.length ≤ fuel)
    (h : Core.computeMerkleRoot sha256 fuel l = (r, false)) :
    ∃ nodes, IsTree sha256 l nodes ∧ nodes.getLast? = some [r] := by
  induction fuel generalizing l with
  | zero => exact absurd (length_eq_zero_iff.mp (by omega)) hl
  | succ fuel ih =>
    match l with
    | [x] =>
      obtain rfl : x = r := by simpa [Core.computeMerkleRoot] using h
      exact ⟨[[x]], .root x, rfl⟩
    | x :: y :: rest =>
      simp only [Core.computeMerkleRoot, Prod.mk.injEq, Bool.or_eq_false_iff] at h
      obtain ⟨hroot, habove, hpairs⟩ := h
      have hup := @pairUp_of_not_equalPair sha256 _ hpairs
      have hlen := hup.length_eq
      simp only [length_cons] at hlen hfuel
      have hne : levelUp (combineNodes sha256) (x :: y :: rest) ≠ [] := by
        simp [levelUp, neighbours]
      obtain ⟨nodes, htree, hlast⟩ := ih hne (by omega) (Prod.ext hroot habove)
      refine ⟨(x :: y :: rest) :: nodes, .level (by simp) hup htree, ?_⟩
      rw [List.getLast?_cons_of_ne_nil htree.ne_nil, hlast]

/-- The root of a tree is the root that the rules compute. -/
theorem IsTree.computeMerkleRoot_eq (h : IsTree sha256 l nodes) (hr : nodes.getLast? = some [r])
    {fuel : Nat} (hfuel : l.length ≤ fuel) : (Core.computeMerkleRoot sha256 fuel l).1 = r := by
  induction h generalizing fuel with
  | root r' =>
    obtain rfl : r' = r := by simpa using hr
    cases fuel <;> rfl
  | @level l m nodes hl hm h ih =>
    rw [List.getLast?_cons_of_ne_nil h.ne_nil] at hr
    have hlen := hm.length_eq
    match l, fuel with
    | x :: y :: rest, fuel + 1 =>
      simp only [length_cons] at hlen hfuel
      have habove := @ih hr fuel (by omega)
      rw [hm.eq_map] at habove
      exact habove
    | x :: y :: rest, 0 => simp at hfuel

/-- If the labels `g` determine the labels `f`, a tree over `f` gives a tree over `g`. -/
theorem IsTree.of_determined {S : Set Bytes} (hinj : Set.InjOn (calculateDoubleSha256 sha256) S)
    {leaves : List Bytes32} (h : IsTree sha256 leaves nodes) :
    ∀ {β : Type} (f g : β → Bytes32) (l : List β), leaves = l.map f →
      (∀ p ∈ l, ∀ q ∈ l, g p = g q → f p = f q) →
      (∀ p ∈ treePairs (combineNodes sha256) (Nat.clog 2 l.length) (l.map g), p ∈ pairsIn S) →
      ∃ nodes', IsTree sha256 (l.map g) nodes' := by
  induction h with
  | root r =>
    intro β f g l hl _ _
    obtain ⟨x, rfl⟩ : ∃ x, l = [x] := by
      rw [← length_eq_one_iff]
      simpa using (congrArg List.length hl).symm
    exact ⟨_, .root (g x)⟩
  | @level leaves m nodes hlen hm h ih =>
    rintro β f g l rfl hdet hmem
    rw [length_map] at hlen
    rw [Nat.clog_of_two_le (by decide) hlen] at hmem
    simp only [treePairs, mem_append] at hmem
    have hup := PairUp.of_determined (g := g) hdet hm fun p _ => Set.mem_univ p
    -- The nodes above are labelled by the pairs below, and the labels determine each other.
    have hpairs : ∀ p ∈ neighbours l, (g p.1, g p.2) ∈ pairsIn S := by
      intro p hp
      apply hmem _ (.inl _)
      rw [neighbours_map]
      exact mem_map_of_mem hp
    have hdet' : ∀ p ∈ neighbours l, ∀ q ∈ neighbours l,
        combineNodes sha256 (g p.1) (g p.2) = combineNodes sha256 (g q.1) (g q.2) →
        combineNodes sha256 (f p.1) (f p.2) = combineNodes sha256 (f q.1) (f q.2) := by
      intro p hp q hq heq
      have hpair : (g p.1, g p.2) = (g q.1, g q.2) :=
        node_injOn hinj (hpairs p hp) (hpairs q hq) heq
      obtain ⟨hp1, hp2⟩ := mem_of_mem_neighbours hp
      obtain ⟨hq1, hq2⟩ := mem_of_mem_neighbours hq
      rw [hdet _ hp1 _ hq1 (Prod.ext_iff.mp hpair).1, hdet _ hp2 _ hq2 (Prod.ext_iff.mp hpair).2]
    have hm' : m = (neighbours l).map fun p => combineNodes sha256 (f p.1) (f p.2) := by
      rw [hm.eq_map, neighbours_map, map_map]
      rfl
    have habove : levelUp (combineNodes sha256) (l.map g) =
        (neighbours l).map fun p => combineNodes sha256 (g p.1) (g p.2) := by
      rw [levelUp, neighbours_map, map_map]
      rfl
    rw [habove, show (l.length + 2 - 1) / 2 = (neighbours l).length from
      (length_neighbours l).symm] at hmem
    obtain ⟨nodes', htree⟩ := ih _ _ (neighbours l) hm' hdet' fun p hp => hmem p (.inr hp)
    rw [← habove] at htree
    exact ⟨_, .level (by simpa using hlen) hup htree⟩

/-- The path of the first leaf goes to the root. -/
theorem IsTree.idxPath_zero {a : Bytes32} (h : IsTree sha256 l nodes)
    (hr : nodes.getLast? = some [r]) (ha : l.head? = some a) :
    ∃ p, (∀ ε, BitcoinMerkleTree.idxPath nodes 0 = (.ok p : Outcome ε _)) ∧
      p.length = nodes.length - 1 ∧ p.foldl (combineNodes sha256) a = r := by
  induction h generalizing a with
  | root r' =>
    obtain rfl : r' = a := by simpa using ha
    obtain rfl : r' = r := by simpa using hr
    exact ⟨[], fun _ => rfl, rfl, rfl⟩
  | @level l m nodes hl hm h ih =>
    rw [List.getLast?_cons_of_ne_nil h.ne_nil] at hr
    cases hm with
    | nil => simp at hl
    | single _ => simp at hl
    | @pair x y rest up hne _ hrest =>
      obtain rfl : x = a := by simpa using ha
      obtain ⟨p, hpath, hlen, hfold⟩ := ih hr rfl
      cases nodes with
      | nil => exact absurd rfl h.ne_nil
      | cons level above =>
        refine ⟨y :: p, fun ε => ?_, by simp at hlen ⊢; omega, hfold⟩
        simp only [BitcoinMerkleTree.idxPath, bind_eq_ok, expect_eq_ok, pure_eq_ok]
        exact ⟨y, by simp, p, hpath ε, rfl⟩

/-! ### Transactions without a witness -/

theorem calculateWtxid_of_no_witness {tx : Transaction} (hinput : tx.input ≠ [])
    (h : ∀ i ∈ tx.input, i.witness = []) : calculateWtxid sha256 tx = calculateTxid sha256 tx := by
  have hlegacy : tx.usesSegwitSerialization = false := by
    simp only [Transaction.usesSegwitSerialization, Bool.or_eq_false_iff, any_eq_false]
    exact ⟨fun i hi => by simp [h i hi], by simpa using hinput⟩
  rw [calculateWtxid, calculateTxid, Transaction.consensusEncode, hlegacy]
  rfl

section
variable {verifyDigest : Bytes → Bytes32 → Bytes → Bool}

/-- The parser returns on a transaction with an input. -/
theorem parserReturns_of_input {tx : Transaction} (h : tx.input ≠ []) :
    ParserReturns (daEnv sha256 verifyDigest) tx := by
  obtain ⟨input, rest, hinput⟩ := exists_cons_of_ne_nil h
  have hhead : tx.input.head? = some input := by rw [hinput]; rfl
  have hscript : Outcome.NoPanic (getScript tx) := by
    refine Outcome.PanicsOnly.bind (Outcome.panicsOnly_expect_some hhead) fun found _ => ?_
    cases tapscript found.witness with
    | none => exact Outcome.panicsOnly_err
    | some script => exact Outcome.panicsOnly_ok
  intro message hpanic
  exact (hscript.bind fun script _ => noPanic_parseTransaction _) message hpanic

/-- A transaction without a witness is no inscription. -/
theorem parsedBlob_of_no_witness {tx : Transaction} (hinput : tx.input ≠ [])
    (h : ∀ i ∈ tx.input, i.witness = []) : parsedBlob (daEnv sha256 verifyDigest) tx = none := by
  obtain ⟨input, rest, heq⟩ := exists_cons_of_ne_nil hinput
  have hparse : parseRelevantTransaction tx = err .nonTapscriptWitness := by
    show (expect tx.input.head? _ >>= _) >>= _ = _
    rw [heq]
    dsimp only [expect, head?, bind, Except.bind]
    rw [h input (by rw [heq]; exact mem_cons_self)]
    rfl
  rw [parsedBlob, show (daEnv sha256 verifyDigest).parseRelevantTransaction tx = _ from hparse]
  rfl

theorem blobsOfTransactions_eq {txs : List Transaction}
    (h : ∀ tx ∈ txs, ParserReturns (daEnv sha256 verifyDigest) tx) :
    blobsOfTransactions (daEnv sha256 verifyDigest) txs =
      .ok (txs.filterMap (parsedBlob (daEnv sha256 verifyDigest))) := by
  induction txs with
  | nil => rfl
  | cons tx txs ih =>
    have h := forall_mem_cons.mp h
    simp only [blobsOfTransactions, bind_eq_ok, pure_eq_ok]
    refine ⟨_, blobOfTransaction_eq_ok_iff.mpr ⟨h.1, rfl⟩, _, ih h.2, ?_⟩
    cases hblob : parsedBlob (daEnv sha256 verifyDigest) tx <;> simp [hblob]

/-! ### The witness commitment -/

/-- The verifier and the rules look at the same output. -/
theorem witnessCommitment_eq (coinbase : Transaction) :
    Core.witnessCommitment coinbase = witnessCommitmentScript coinbase := by
  have htest : ∀ script : Bytes, (decide (38 ≤ script.length) &&
      script.take 6 == [0x6a, 0x24, 0xaa, 0x21, 0xa9, 0xed]) = isWitnessCommitment script := by
    intro script
    rw [isWitnessCommitment, minimumWitnessCommitmentSize, Bool.eq_iff_iff]
    simp only [Bool.and_eq_true, decide_eq_true_eq, beq_iff_eq, isPrefixOf_iff_prefix,
      prefix_iff_eq_take, and_congr_right_iff]
    intro _
    exact eq_comm
  rw [Core.witnessCommitment, witnessCommitmentScript]
  simp only [htest]
  rw [filter_map, List.getLast?_map, ← List.head?_reverse, ← filter_reverse,
    List.head?_filter]
  rfl

/-! ### Extraction and verification -/

/-- The strings that are hashed for the wtxids of a block and for their tree are in `S`. -/
structure WitnessHashesIn (sha256 : Bytes → Bytes32) (S : Set Bytes) (rest : List Transaction) :
    Prop where
  txs : ∀ tx ∈ rest, tx.consensusEncode ∈ S
  nodes : ∀ p ∈ treePairs (combineNodes sha256) (Nat.clog 2 (rest.length + 1))
    (blockWtxids sha256 rest), p ∈ pairsIn S

section
variable {header : BitcoinHeader} {coinbase : Transaction} {rest : List Transaction} {S : Set Bytes}
  {revealTxPrefix : Bytes}

/-- The leaf of a transaction in the witness tree, where the coinbase transaction has none of its
own. -/
def witnessLeaf (sha256 : Bytes → Bytes32) (tx : Option Transaction) : Bytes32 :=
  (tx.map (calculateWtxid sha256)).getD .zero

/-- The witness tree of a valid block has no equal neighbours, and its root is the witness root. -/
theorem exists_witnessTree (hS : CollisionFree sha256 S)
    (hblock : Core.ValidBlock sha256 header coinbase rest)
    (hhashes : WitnessHashesIn sha256 S rest) : ∃ tree : BitcoinMerkleTree,
      (∀ ε, BitcoinMerkleTree.new sha256 (blockWtxids sha256 rest) = (.ok tree : Outcome ε _)) ∧
      ∀ ε, tree.root = (.ok (Core.blockWitnessMerkleRoot sha256 rest) : Outcome ε _) := by
  obtain ⟨nodes, htree, -⟩ := isTree_of_not_mutated (by simp) (by simp) hblock.merkleRoot
  -- The leaves are labelled by the transactions; `none` stands for the coinbase transaction.
  have hdet : ∀ p ∈ none :: rest.map some, ∀ q ∈ none :: rest.map some,
      witnessLeaf sha256 p = witnessLeaf sha256 q →
      (p.map (calculateTxid sha256)).getD (calculateTxid sha256 coinbase) =
        (q.map (calculateTxid sha256)).getD (calculateTxid sha256 coinbase) := by
    have hnone : ∀ tx ∈ rest, calculateWtxid sha256 tx ≠ .zero := fun tx htx =>
      hS.ne_zero _ (hhashes.txs tx htx)
    intro p hp q hq heq
    rw [mem_cons, mem_map] at hp hq
    rcases hp with rfl | ⟨tx, htx, rfl⟩ <;> rcases hq with rfl | ⟨tx', htx', rfl⟩
    · rfl
    · exact absurd heq.symm (hnone tx' htx')
    · exact absurd heq (hnone tx htx)
    · rw [consensusEncode_inj (hS.injOn (hhashes.txs tx htx) (hhashes.txs tx' htx') heq)]
  have hleaves : blockWtxids sha256 rest = (none :: rest.map some).map (witnessLeaf sha256) := by
    simp [blockWtxids, witnessLeaf, Function.comp_def]
  obtain ⟨nodes', htree'⟩ := htree.of_determined hS.injOn _ (witnessLeaf sha256)
    (none :: rest.map some) (by simp [Function.comp_def]) hdet (by
      rw [← hleaves, length_cons, length_map]
      exact hhashes.nodes)
  rw [← hleaves] at htree'
  obtain ⟨r, hr⟩ := htree'.exists_root
  have hroot : Core.blockWitnessMerkleRoot sha256 rest = r :=
    htree'.computeMerkleRoot_eq hr (by simp [blockWtxids])
  exact ⟨⟨nodes'⟩, fun ε => (new_eq_ok_iff (by simp [blockWtxids])).mpr htree',
    fun ε => (root_eq_ok_iff htree').mpr (by rw [hroot]; exact hr)⟩

/-- The txid tree of a valid block has the merkle root of the header, and the path of the
coinbase transaction leads to it. -/
theorem exists_txidTree (hblock : Core.ValidBlock sha256 header coinbase rest) :
    ∃ (tree : BitcoinMerkleTree) (path : List Bytes32),
      (∀ ε, BitcoinMerkleTree.new sha256 ((coinbase :: rest).map (calculateTxid sha256)) =
        (.ok tree : Outcome ε _)) ∧ (∀ ε, tree.root = (.ok header.merkleRoot : Outcome ε _)) ∧
      (∀ ε, tree.getIdxPath 0 = (.ok path : Outcome ε _)) ∧
      ∀ ε, BitcoinMerkleTree.calculateRootWithMerkleProof sha256 (calculateTxid sha256 coinbase) 0
        path = (.ok header.merkleRoot : Outcome ε _) := by
  obtain ⟨nodes, htree, hlast⟩ := isTree_of_not_mutated (by simp) (by simp) hblock.merkleRoot
  have hfits : ((coinbase :: rest).map (calculateTxid sha256)).length < 2 ^ 32 := by
    simpa using hblock.fits
  obtain ⟨path, hpath, hlen, hfold⟩ := htree.idxPath_zero hlast rfl
  have hdepth := htree.length_le_of_le_two_pow (Nat.le_of_lt hfits)
  refine ⟨⟨nodes⟩, path, fun ε => (new_eq_ok_iff (by simp)).mpr htree,
    fun ε => (root_eq_ok_iff htree).mpr hlast, fun ε => ?_, fun ε => ?_⟩
  · simp only [BitcoinMerkleTree.getIdxPath, bind_eq_ok, expect_eq_ok, assert_eq_ok]
    refine ⟨_, by rw [List.head?_eq_getElem?]; exact htree.head_eq, (), ?_, hpath ε⟩
    rw [Nat.mod_eq_of_lt hfits]
    simp
  · rw [calculateRoot_zero, Nat.mod_eq_of_lt (by omega), take_length, hfold]

/-- The transactions with the prefix, without the coinbase transaction. -/
def relevantTxs (sha256 : Bytes → Bytes32) (revealTxPrefix : Bytes) (rest : List Transaction) :
    List Transaction :=
  rest.filter fun tx => startsWith revealTxPrefix (calculateWtxid sha256 tx)

/-- A prefix that is not all zeros is not the start of the zero wtxid. -/
theorem not_startsWith_zero (h : ∃ b ∈ revealTxPrefix, b ≠ 0) :
    startsWith revealTxPrefix .zero = false := by
  obtain ⟨b, hb, hne⟩ := h
  rw [startsWith, ← Bool.not_eq_true, isPrefixOf_iff_prefix]
  intro hstarts
  exact hne (eq_of_mem_replicate (hstarts.subset hb))

/-- The loops of the node and of the verifier give the same blobs. -/
theorem collectBlobs_relevant (hstarts : ∃ b ∈ revealTxPrefix, b ≠ 0)
    (hinputs : ∀ tx ∈ rest, tx.input ≠ []) : collectBlobs (daEnv sha256 verifyDigest)
        ((blockWtxids sha256 rest).filter (startsWith revealTxPrefix))
        (relevantTxs sha256 revealTxPrefix rest) =
      .ok ((relevantTxs sha256 revealTxPrefix rest).filterMap
        (parsedBlob (daEnv sha256 verifyDigest))) := by
  rw [collectBlobs_eq_ok_iff]
  refine ⟨?_, fun tx htx => parserReturns_of_input (hinputs tx (mem_of_mem_filter htx)), rfl⟩
  rw [blockWtxids, filter_cons_of_neg (by simp [not_startsWith_zero hstarts]), filter_map]
  rfl

/-- What the node returns for a valid block. -/
theorem extract_validBlock (hstarts : ∃ b ∈ revealTxPrefix, b ≠ 0)
    (hblock : Core.ValidBlock sha256 header coinbase rest) (wrapper : HeaderWrapper)
    (hwrapper : wrapper.header = header) :
    ∃ path, extractRelevantBlobsWithProof (daEnv sha256 verifyDigest) revealTxPrefix
        ⟨wrapper, coinbase :: rest⟩ = .ok ((relevantTxs sha256 revealTxPrefix rest).filterMap
          (parsedBlob (daEnv sha256 verifyDigest)),
        ⟨blockWtxids sha256 rest, coinbase, path⟩, relevantTxs sha256 revealTxPrefix rest) ∧
      BitcoinMerkleTree.calculateRootWithMerkleProof sha256 (calculateTxid sha256 coinbase) 0 path =
        (.ok header.merkleRoot : Outcome ValidationError _) := by
  obtain ⟨tree, path, htree, hroot, hpath, hclimb⟩ := exists_txidTree hblock
  have hzeros : revealTxPrefix.all (· == 0) = false := by
    obtain ⟨b, hb, hne⟩ := hstarts
    rw [all_eq_false]
    exact ⟨b, hb, by simpa using hne⟩
  refine ⟨path, ?_, hclimb _⟩
  simp only [extractRelevantBlobsWithProof, bind_eq_ok, expect_eq_ok,
    assert_eq_ok, pure_eq_ok, hzeros]
  refine ⟨coinbase, rfl, tree, htree _, header.merkleRoot, hroot _, (), ?_, path, hpath _, _,
    blobsOfTransactions_eq fun tx htx => ?_, rfl⟩
  · rw [HeaderWrapper.merkleRoot, hwrapper]
  · exact parserReturns_of_input
      (hblock.inputs tx (mem_cons_of_mem _ (mem_of_mem_filter htx)))

/-- The witness root that the node computes for a valid block: zero for a single transaction, the
merkle root of the header for a block without a witness commitment, else the witness root. -/
theorem calculateWitnessRoot_validBlock (hS : CollisionFree sha256 S)
    (hblock : Core.ValidBlock sha256 header coinbase rest)
    (hhashes : WitnessHashesIn sha256 S rest) :
    ∃ root, calculateWitnessRoot sha256 (coinbase :: rest) (rest.length + 1) =
        (.ok root : Outcome ValidationError _) ∧ (rest = [] → root = .zero) ∧
      (witnessCommitmentScript coinbase = none → rest ≠ [] → root = header.merkleRoot) ∧
      (∀ script, witnessCommitmentScript coinbase = some script →
        root = Core.blockWitnessMerkleRoot sha256 rest) := by
  by_cases hrest : rest = []
  · subst hrest
    exact ⟨.zero, rfl, fun _ => rfl, fun _ h => absurd rfl h, fun _ _ => rfl⟩
  · have hcount : ¬ rest.length + 1 = 1 := by
      have := length_pos_of_ne_nil hrest
      omega
    simp only [calculateWitnessRoot, if_neg hcount, witnessLeaves, coinbaseLeaf]
    cases hscript : witnessCommitmentScript coinbase with
    | none =>
      -- Without a witness the leaves are the txids, so the tree is the one of the header.
      have hwitness := hblock.witness
      rw [Core.WitnessCommitted, witnessCommitment_eq, hscript] at hwitness
      have hleaves : ∀ tx ∈ coinbase :: rest, calculateWtxid sha256 tx = calculateTxid sha256 tx :=
        fun tx htx => calculateWtxid_of_no_witness (hblock.inputs tx htx) (hwitness tx htx)
      obtain ⟨tree, path, htree, hroot, -, -⟩ := exists_txidTree hblock
      have hmap : calculateWtxid sha256 coinbase :: rest.map (calculateWtxid sha256) =
          (coinbase :: rest).map (calculateTxid sha256) := by
        rw [← map_cons]
        exact map_congr_left hleaves
      refine ⟨header.merkleRoot, ?_, fun h => absurd h hrest, fun _ _ => rfl, by simp⟩
      simp only [hmap, bind_eq_ok]
      exact ⟨tree, htree _, hroot _⟩
    | some script =>
      obtain ⟨tree, htree, hroot⟩ := exists_witnessTree hS hblock hhashes
      refine ⟨Core.blockWitnessMerkleRoot sha256 rest, ?_, fun h => absurd h hrest, by simp,
        fun _ _ => rfl⟩
      simp only [bind_eq_ok]
      exact ⟨tree, htree _, hroot _⟩

/-- The check of the witness commitment passes on the proofs of the node. -/
theorem checkTxsCommitment_validBlock (hS : CollisionFree sha256 S)
    (hblock : Core.ValidBlock sha256 header coinbase rest)
    (hhashes : WitnessHashesIn sha256 S rest) {wrapper : HeaderWrapper}
    (hwrapper : wrapper.header = header) (hcount : wrapper.txCount = UInt32.ofNat (rest.length + 1))
    (hroot : calculateWitnessRoot sha256 (coinbase :: rest) (rest.length + 1) = (.ok
      wrapper.txsCommitment : Outcome ValidationError _)) (path : List Bytes32) :
    checkTxsCommitment (daEnv sha256 verifyDigest) wrapper ⟨blockWtxids sha256 rest, coinbase, path⟩
      ((relevantTxs sha256 revealTxPrefix rest).filterMap
        (parsedBlob (daEnv sha256 verifyDigest))) = .ok () := by
  obtain ⟨root, hroot', hone, hnone, hsome⟩ := calculateWitnessRoot_validBlock hS hblock hhashes
  obtain rfl := ok_unique hroot hroot'
  have hwitness := hblock.witness
  rw [Core.WitnessCommitted, witnessCommitment_eq] at hwitness
  unfold checkTxsCommitment
  cases hscript : witnessCommitmentScript coinbase with
  | none =>
    rw [hscript] at hwitness
    -- No transaction has a witness, so there are no blobs.
    have hblobs : (relevantTxs sha256 revealTxPrefix rest).filterMap
        (parsedBlob (daEnv sha256 verifyDigest)) = [] := by
      rw [filterMap_eq_nil_iff]
      intro tx htx
      have hmem := mem_cons_of_mem coinbase (mem_of_mem_filter htx)
      exact parsedBlob_of_no_witness (hblock.inputs tx hmem) (hwitness tx hmem)
    simp only [bind_eq_ok, ensure_eq_ok]
    refine ⟨(), ?_, hblobs⟩
    rintro ⟨hmany, hne⟩
    have hrest : rest ≠ [] := by
      rintro rfl
      rw [hcount] at hmany
      exact absurd hmany (by decide)
    rw [HeaderWrapper.merkleRoot, hwrapper] at hne
    exact hne (hnone hscript hrest).symm
  | some script =>
    rw [hscript] at hwitness
    obtain ⟨input, reserved, hinput, hreserved, -, hcommitted⟩ := hwitness
    obtain ⟨tree, htree, htreeRoot⟩ := exists_witnessTree hS hblock hhashes
    dsimp only
    have hhead : input.witness.head? = some reserved := by rw [hreserved]; rfl
    rw [checkWitnessCommitment_eq_ok_iff hinput hhead, hsome script hscript]
    exact ⟨tree, htree _, htreeRoot _, hcommitted⟩

/-- The node's proofs for a valid block verify, and give the blobs that the node found. -/
theorem extraction_verifies {S : Set Bytes} (hS : CollisionFree sha256 S)
    (hblock : Core.ValidBlock sha256 header coinbase rest)
    (hhashes : WitnessHashesIn sha256 S rest) {revealTxPrefix : Bytes}
    (hstarts : ∃ b ∈ revealTxPrefix, b ≠ 0) (height : UInt64) :
    ∃ block blobs inclusionProof completenessProof,
      wrapBlock sha256 header height (coinbase :: rest) = (.ok block : Outcome ValidationError _) ∧
      extractRelevantBlobsWithProof (daEnv sha256 verifyDigest) revealTxPrefix block =
        .ok (blobs, inclusionProof, completenessProof) ∧
      verifyTransactions (daEnv sha256 verifyDigest) revealTxPrefix block.header inclusionProof
        completenessProof = .ok blobs := by
  obtain ⟨root, hroot, hone, -, -⟩ := calculateWitnessRoot_validBlock hS hblock hhashes
  let wrapper : HeaderWrapper :=
    ⟨header, UInt32.ofNat (rest.length + 1), height, root,
      calculateDoubleSha256 sha256 header.consensusEncode⟩
  have hwrap : wrapBlock sha256 header height (coinbase :: rest) =
      (.ok ⟨wrapper, coinbase :: rest⟩ : Outcome ValidationError _) := by
    simp only [wrapBlock, length_cons, bind_eq_ok, pure_eq_ok]
    exact ⟨root, hroot, rfl⟩
  obtain ⟨path, hextract, hclimb⟩ :=
    @extract_validBlock sha256 verifyDigest _ _ _ _ hstarts hblock wrapper rfl
  refine ⟨_, _, _, _, hwrap, hextract, ?_⟩
  have hcount : (UInt32.ofNat (rest.length + 1)).toNat = rest.length + 1 :=
    UInt32.toNat_ofNat_of_lt' hblock.fits
  simp only [verifyTransactions, bind_eq_ok, ensure_eq_ok, pure_eq_ok]
  refine ⟨(), ?_, _, collectBlobs_relevant hstarts fun tx htx =>
    hblock.inputs tx (mem_cons_of_mem _ htx), (), ?_, (),
    checkTxsCommitment_validBlock hS hblock hhashes rfl rfl hroot path, header.merkleRoot, hclimb,
    (), rfl, rfl⟩
  · show (UInt32.ofNat (rest.length + 1)).toNat = (blockWtxids sha256 rest).length
    rw [hcount, blockWtxids, length_cons, length_map]
  · -- A count of one means that there is no other transaction.
    rintro ⟨hsingle, hne⟩
    have hlen : rest.length + 1 = 1 := by
      rw [← hcount, show UInt32.ofNat (rest.length + 1) = 1 from hsingle]
      rfl
    exact hne (hone (length_eq_zero_iff.mp (by omega)))

end

end

end

/-! ### A block of three transactions -/

def threeTxRest : List Transaction := [plainTx 1, plainTx 2]

def threeTxCoinbase : Transaction :=
  committingCoinbase (Core.blockWitnessMerkleRoot rollingHash threeTxRest)

def threeTxHeader : BitcoinHeader :=
  ⟨0, .zero, (Core.blockMerkleRoot rollingHash (threeTxCoinbase :: threeTxRest)).1, 0, 0, 0⟩

theorem threeTx_valid : Core.ValidBlock rollingHash threeTxHeader threeTxCoinbase threeTxRest where
  merkleRoot := Prod.ext rfl (by decide +kernel)
  witness := by
    rw [Core.WitnessCommitted, witnessCommitment_eq, threeTxCoinbase,
      witnessCommitmentScript_committingCoinbase]
    refine ⟨coinbaseInput, reservedValue, rfl, rfl, by decide, ?_⟩
    have hmagic : witnessCommitmentMagic.length = 6 := rfl
    rw [commitmentScript, ← hmagic, drop_left, take_of_length_le]
    rw [Bytes32.length_eq]
  inputs := by decide
  fits := by decide

/-- The strings that are hashed for the witness tree of the block. -/
def threeTxStrings : List Bytes :=
  threeTxRest.map Transaction.consensusEncode ++
    (treePairs (combineNodes rollingHash) (Nat.clog 2 3) (blockWtxids rollingHash threeTxRest)).map
      fun p => nodePreimage p.1 p.2

theorem threeTx_extraction_verifies : ∃ block blobs inclusionProof completenessProof,
      wrapBlock rollingHash threeTxHeader 5 (threeTxCoinbase :: threeTxRest) =
        (.ok block : Outcome ValidationError _) ∧
      extractRelevantBlobsWithProof (daEnv rollingHash fun _ _ _ => true) [2, 2] block =
        .ok (blobs, inclusionProof, completenessProof) ∧
      verifyTransactions (daEnv rollingHash fun _ _ _ => true) [2, 2] block.header inclusionProof
        completenessProof = .ok blobs := by
  have hfree : CollisionFree rollingHash {s | s ∈ threeTxStrings} :=
    .of_list (by decide +kernel) (by decide +kernel)
  have hhashes : WitnessHashesIn rollingHash {s | s ∈ threeTxStrings} threeTxRest :=
    { txs := fun tx htx => mem_append_left _ (mem_map_of_mem htx)
      nodes := fun p hp => mem_append_right _ (mem_map_of_mem hp) }
  exact extraction_verifies hfree threeTx_valid hhashes ⟨2, by decide, by decide⟩ 5

end Citrea.Proofs.Bitcoin
