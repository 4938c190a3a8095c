import Citrea.Proofs.BatchProof.Circuit

/-!
# `Citrea.Proofs.BatchProof.Sequencing`: when commitments of a batch proof are in sequence

The circuit compares the first index with the previous commitment, and each start height with
the previous end height. It does not compare the indices inside the list with each other, and
the end heights are sums that can wrap.

`sequencing_iff` says that these are the only two obstacles. In a run that returns, the indices,
the range, the state roots and the end heights are in sequence if and only if the indices of the
input list are consecutive and the heights do not wrap.
-/

namespace Citrea.Proofs.BatchProof

open UInt64 Option List Lib Spec.BatchProof

variable {H Tx Wit Log Key : Type}

/-- The commitments of the input and of the output are in sequence. -/
structure Sequenced (input : CircuitInput H Tx Wit) (out : ApplySequencerCommitmentsOutput H Log) :
    Prop where
  index : ∀ first ∈ input.sequencerCommitments.head?, ∀ (i : Nat) (c : SequencerCommitment H),
    input.sequencerCommitments[i]? = some c → c.index.toNat = first.index.toNat + i
  range : ∀ first ∈ input.sequencerCommitments.head?,
    out.sequencerCommitmentIndexRange.1 = first.index ∧
    out.sequencerCommitmentIndexRange.2.toNat + 1 =
      first.index.toNat + out.sequencerCommitmentHashes.length
  stateRoots : out.stateRoots.length = out.sequencerCommitmentHashes.length + 1
  first_le_last : out.sequencerCommitmentIndexRange.1 ≤ out.sequencerCommitmentIndexRange.2
  endHeights : List.IsChain (· < ·)
    ((input.previousSequencerCommitment.toList ++ input.sequencerCommitments).map
      SequencerCommitment.l2EndBlockNumber)

/-- Each index of the list is one more than the index before it, without wrapping. -/
def ConsecutiveIndices (input : CircuitInput H Tx Wit) : Prop :=
  List.IsChain (fun a b => b.index.toNat = a.index.toNat + 1) input.sequencerCommitments

/-- The number of blocks that the host sends for each commitment. -/
def inputBlockCounts (input : CircuitInput H Tx Wit) : List Nat :=
  blockCounts input.sequencerCommitments.length input.host.tail

/-- The previous end height and the blocks of the input stay below `2 ^ 64`. Without a previous
commitment, the first commitment takes its place. -/
def HeightsFit (input : CircuitInput H Tx Wit) : Prop :=
  match input.previousSequencerCommitment with
  | some previous => previous.l2EndBlockNumber.toNat + (inputBlockCounts input).sum < 2 ^ 64
  | none => ∀ first ∈ input.sequencerCommitments.head?,
      first.l2EndBlockNumber.toNat + (inputBlockCounts input).tail.sum < 2 ^ 64

/-- Consecutive indices, element by element. -/
theorem isChain_index_iff (first : SequencerCommitment H) (cs : List (SequencerCommitment H)) :
    List.IsChain (fun a b => b.index.toNat = a.index.toNat + 1) (first :: cs) ↔
      ∀ (i : Nat) (c : SequencerCommitment H), (first :: cs)[i]? = some c →
        c.index.toNat = first.index.toNat + i := by
  induction cs generalizing first with
  | nil =>
    simp only [isChain_singleton, true_iff]
    intro i c hc
    cases i with
    | zero => simp_all
    | succ i => simp at hc
  | cons second cs ih =>
    rw [isChain_cons_cons, ih]
    constructor
    · rintro ⟨hnext, hrest⟩ i c hc
      cases i with
      | zero => simp_all
      | succ i =>
        have := hrest i c (by simpa using hc)
        omega
    · intro h
      have hnext := h 1 second rfl
      refine ⟨hnext, fun i c hc => ?_⟩
      have := h (i + 1) c (by simpa using hc)
      omega

/-- An end height is larger than the one before exactly when the sum does not wrap. -/
theorem lt_add_ofNat_iff (a : UInt64) {n : Nat} (hpos : 0 < n) (hn : n < 2 ^ 32) :
    a < a + UInt64.ofNat n ↔ a.toNat + n < 2 ^ 64 := by
  have ha := a.toNat_lt
  rw [UInt64.lt_iff_toNat_lt, UInt64.toNat_add, UInt64.toNat_ofNat',
    Nat.mod_eq_of_lt (show n < 2 ^ 64 by omega)]
  omega

theorem toNat_add_ofNat (a : UInt64) {n : Nat} (h : a.toNat + n < 2 ^ 64) :
    (a + UInt64.ofNat n).toNat = a.toNat + n := by
  rw [UInt64.toNat_add, UInt64.toNat_ofNat', Nat.mod_eq_of_lt (show n < 2 ^ 64 by omega),
    Nat.mod_eq_of_lt h]

variable {env : StfEnv H Tx Wit Log Key} {prevEnd : UInt64} {roots : List H}
  {blocks : List (List (L2Block H Tx))} {cs : List (SequencerCommitment H)}

/-- The end heights above `prevEnd` increase if and only if the number of blocks fits. -/
theorem ProvesAll.endHeights_iff (h : ProvesAll env prevEnd cs roots blocks) :
    List.IsChain (· < ·) (prevEnd :: cs.map SequencerCommitment.l2EndBlockNumber) ↔
      prevEnd.toNat + (blocks.map List.length).sum < 2 ^ 64 := by
  induction h with
  | nil =>
    simp only [map_nil, isChain_singleton, sum_nil, true_iff]
    exact toNat_lt _
  | @cons prevEnd c cs root roots bs rest h hs ih =>
    have hpos : 0 < bs.length := length_pos_iff.mpr h.ne_nil
    rw [map_cons, isChain_cons_cons, ih, map_cons, sum_cons, h.endHeight,
      lt_add_ofNat_iff prevEnd hpos h.fits]
    constructor
    · rintro ⟨hfirst, hrest⟩
      rw [toNat_add_ofNat prevEnd hfirst] at hrest
      omega
    · intro htotal
      have hfirst : prevEnd.toNat + bs.length < 2 ^ 64 := by omega
      rw [toNat_add_ofNat prevEnd hfirst]
      exact ⟨hfirst, by omega⟩

theorem ProvesAll.length_roots (h : ProvesAll env prevEnd cs roots blocks) :
    roots.length = cs.length := by
  induction h with
  | nil => rfl
  | cons _ _ ih => rw [length_cons, length_cons, ih]

/-- In a run, the end heights increase if and only if the heights fit. -/
theorem CircuitRun.endHeights_iff {input : CircuitInput H Tx Wit}
    {out : ApplySequencerCommitmentsOutput H Log} {first last : SequencerCommitment H}
    (h : CircuitRun env input out first last prevEnd roots blocks) : List.IsChain (· < ·)
        ((input.previousSequencerCommitment.toList ++ input.sequencerCommitments).map
          SequencerCommitment.l2EndBlockNumber) ↔ HeightsFit input := by
  have hproves := h.proves
  cases hprev : input.previousSequencerCommitment with
  | some previous =>
    obtain ⟨-, hend, -, -⟩ := h.previous previous hprev
    rw [hend] at hproves
    simp only [HeightsFit, hprev, inputBlockCounts, h.counts]
    exact hproves.endHeights_iff
  | none =>
    -- the first commitment has no predecessor, so the chain starts at its end height
    simp only [HeightsFit, hprev, inputBlockCounts, h.counts, h.head_eq]
    have hcons : ∃ rest, input.sequencerCommitments = first :: rest :=
      List.head?_eq_some_iff.mp h.head_eq
    obtain ⟨rest, hcs⟩ := hcons
    rw [hcs] at hproves ⊢
    cases hproves with
    | cons _ hs =>
      simp only [toList_none, nil_append, map_cons, tail_cons,
        mem_some_iff, forall_eq']
      exact hs.endHeights_iff

variable [DecidableEq H]

/-- In a run that returns, everything is in sequence if and only if the indices of the list are
consecutive and the heights fit. -/
theorem sequencing_iff (env : StfEnv H Tx Wit Log Key) (hempty : EmptyHasNoRoot env)
    (input : CircuitInput H Tx Wit) (out : ApplySequencerCommitmentsOutput H Log)
    (hok : applyL2BlocksFromSequencerCommitments env input = .ok out) :
    Sequenced input out ↔ ConsecutiveIndices input ∧ HeightsFit input := by
  obtain ⟨first, last, prevEnd, roots, blocks, hrun⟩ := circuit_ok hempty hok
  obtain ⟨rest, hcs⟩ := List.head?_eq_some_iff.mp hrun.head_eq
  have hlen : out.sequencerCommitmentHashes.length = rest.length + 1 := by
    rw [hrun.hashes, length_map, hcs, length_cons]
  constructor
  · intro hseq
    refine ⟨?_, hrun.endHeights_iff.mp hseq.endHeights⟩
    have hindex := hseq.index first hrun.head_eq
    rw [ConsecutiveIndices, hcs]
    rw [hcs] at hindex
    exact (isChain_index_iff first rest).mpr hindex
  · rintro ⟨hindices, hheights⟩
    rw [ConsecutiveIndices, hcs] at hindices
    have hindex := (isChain_index_iff first rest).mp hindices
    -- the last index is the first index plus the number of the others
    have hlast : last.index.toNat = first.index.toNat + rest.length := by
      refine hindex rest.length last ?_
      have hget := hrun.getLast_eq
      rwa [hcs, List.getLast?_eq_getElem?, length_cons, Nat.add_sub_cancel] at hget
    refine ⟨?_, ?_, ?_, ?_, hrun.endHeights_iff.mpr hheights⟩
    · intro f hf i c hc
      obtain rfl := some_unique hrun.head_eq hf
      rw [hcs] at hc
      exact hindex i c hc
    · intro f hf
      obtain rfl := some_unique hrun.head_eq hf
      rw [hrun.indexRange, hlen]
      exact ⟨rfl, by rw [hlast]; omega⟩
    · rw [hrun.stateRoots, length_cons, hrun.proves.length_roots, hcs, hlen, length_cons]
    · rw [hrun.indexRange, UInt32.le_iff_toNat_le, hlast]
      exact Nat.le_add_right _ _

/-! ### Two commitments of one block each -/

/-- The headers of two blocks after genesis. -/
def firstHeader : L2Header (List Nat) := sampleHeader 1 [] [7]
def secondHeader : L2Header (List Nat) := sampleHeader 2 (firstHeader.computeDigest listHash) [8]

/-- The first batch proof, over two commitments of one block each. The second commitment has the
index `index`. -/
def twoCommitments (index : UInt32) : CircuitInput (List Nat) Unit Unit where
  sequencerPublicKey := []
  initialPrevL2BlockHash := none
  initialStateRoot := [6]
  previousSequencerCommitment := none
  prevHashProof := none
  sequencerCommitments :=
    [⟨firstHeader.computeDigest listHash, 1, 1⟩, ⟨secondHeader.computeDigest listHash, index, 2⟩]
  cachePruneL2Heights := []
  forks := [⟨.tangerine, 0⟩]
  host := .u32 2 :: (oneBlock firstHeader ++ oneBlock secondHeader)

/-- Its output. -/
def twoCommitmentsOutput (index : UInt32) : ApplySequencerCommitmentsOutput (List Nat) Unit where
  stateRoots := [[6], [7], [8]]
  stateDiff := []
  lastL2Height := 2
  finalL2BlockHash := secondHeader.computeDigest listHash
  sequencerCommitmentHashes := (twoCommitments index).sequencerCommitments.map
    (·.serializeAndCalculateSha256 listHash)
  sequencerCommitmentIndexRange := (1, index)
  cumulativeStateLog := ()
  previousCommitmentIndex := none
  previousCommitmentHash := none

/-- The theorem applied to indices 1 and 2. -/
theorem sequencing_two_commitments : Sequenced (twoCommitments 2) (twoCommitmentsOutput 2) := by
  refine (sequencing_iff sampleEnv rfl (twoCommitments 2) (twoCommitmentsOutput 2)
    (by decide +kernel)).mpr ⟨?_, ?_⟩
  · show List.IsChain _ [_, _]
    rw [isChain_cons_cons]
    exact ⟨rfl, isChain_singleton _⟩
  · intro first hfirst
    obtain rfl := some.inj hfirst
    decide

/-- The circuit returns for the indices 1 and 5. The second commitment is out of sequence, and
the range `(1, 5)` does not fit the two hashes. -/
theorem sequencing_gap : applyL2BlocksFromSequencerCommitments sampleEnv (twoCommitments 5) =
      .ok (twoCommitmentsOutput 5) ∧ ¬ Sequenced (twoCommitments 5) (twoCommitmentsOutput 5) := by
  refine ⟨by decide +kernel, fun hseq => ?_⟩
  have hindex := hseq.index _ rfl 1 _ rfl
  exact absurd hindex (by decide)

/-! ### What a batch proof says about neighbouring commitments

A commitment is the merkle root over the hashes of its blocks, and the header of its last block
carries the state root after it. So the commitment alone fixes that state root
(`EndsIn.unique`). The circuit shows this root in two ways: it executes the blocks of a
commitment (`ProvesCommitment.endsIn`), or it checks a merkle proof for the last header of the
previous commitment, with a number of leaves that the prover chooses (`FollowsPrevious.endsIn`).

`CircuitRun.position` collects what a run says about one commitment of its list and the
commitment before it.
-/

variable {H Tx Wit Log Key : Type}

/-- The documented behaviour of `rs_merkle`: a tree whose odd last node moves up unchanged, and a
proof that recomputes the root along the path of its leaf. -/
structure RsMerkle (env : StfEnv H Tx Wit Log Key) : Prop where
  root : ∀ leaves, env.merkleRoot leaves = carryRoot (fun l r => env.sha256 (.node l r)) leaves
  verify : ∀ proof root index leaf count, env.merkleVerify proof root index leaf count = true →
    carryProofRoot (fun l r => env.sha256 (.node l r)) proof index count leaf = some root

theorem RsMerkle.emptyHasNoRoot {env : StfEnv H Tx Wit Log Key} (h : RsMerkle env) :
    EmptyHasNoRoot env := h.root []

/-- The header of the last block of the commitment `c` carries the state root `root`. -/
def EndsIn (sha256 : HashInput H → H) (c : SequencerCommitment H) (root : H) : Prop :=
  ∃ header siblings, header.stateRoot = root ∧
    c.merkleRoot = rightEdge (fun l r => sha256 (.node l r)) (sha256 (.header header)) siblings

/-- A commitment fixes the state root after it. -/
theorem EndsIn.unique {sha256 : HashInput H → H} (hinj : Function.Injective sha256)
    {c : SequencerCommitment H} {root root' : H} (h : EndsIn sha256 c root)
    (h' : EndsIn sha256 c root') : root = root' := by
  obtain ⟨header, siblings, hroot, hedge⟩ := h
  obtain ⟨header', siblings', hroot', hedge'⟩ := h'
  have hnode : ∀ a b c d : H, sha256 (.node a b) = sha256 (.node c d) → a = c ∧ b = d := by
    intro a b c d heq
    exact HashInput.node.inj (hinj heq)
  have hleaf : ∀ (h : L2Header H) (a b : H), sha256 (.header h) ≠ sha256 (.node a b) := by
    intro h a b heq
    exact absurd (hinj heq) (by simp)
  have hheader := rightEdge_inj hnode (hleaf header) (hleaf header') (hedge.symm.trans hedge')
  rw [← hroot, ← hroot', HashInput.header.inj (hinj hheader)]

variable {env : StfEnv H Tx Wit Log Key} {prevEnd : UInt64} {c first : SequencerCommitment H}
  {input : CircuitInput H Tx Wit} {roots : List H} {blocks : List (List (L2Block H Tx))}

/-- The executed blocks of a commitment end in its state root. -/
theorem ProvesCommitment.endsIn (hmerkle : RsMerkle env) {root : H} {blocks : List (L2Block H Tx)}
    (h : ProvesCommitment env prevEnd c root blocks) : EndsIn env.sha256 c root := by
  have hroot := h.merkleRoot
  rw [hmerkle.root] at hroot
  obtain ⟨leaf, siblings, hleaf, hedge⟩ := carryRoot_rightEdge hroot
  rw [List.getLast?_map, map_eq_some_iff] at hleaf
  obtain ⟨last, hlast, rfl⟩ := hleaf
  have hhash := h.hashes last (mem_of_getLast? hlast)
  rw [hhash] at hedge
  exact ⟨last.header.inner, siblings, (h.stateRoot last hlast).symm, hedge⟩

/-- The checked header of the previous commitment carries the initial state root. -/
theorem FollowsPrevious.endsIn (hmerkle : RsMerkle env) {previous : SequencerCommitment H}
    (h : FollowsPrevious env input first previous) :
    EndsIn env.sha256 previous input.initialStateRoot := by
  obtain ⟨header, proof, index, hroot, hverify⟩ := h.lastHeader
  obtain ⟨siblings, hedge⟩ := carryProofRoot_last (hmerkle.verify _ _ _ _ _ hverify)
  exact ⟨header, siblings, hroot, hedge⟩

/-- Every commitment of a proved list ends in its state root. -/
theorem ProvesAll.endsIn (hmerkle : RsMerkle env) {cs : List (SequencerCommitment H)}
    (h : ProvesAll env prevEnd cs roots blocks) :
    ∀ (idx : Nat) (c : SequencerCommitment H), cs[idx]? = some c →
      ∃ root, roots[idx]? = some root ∧ EndsIn env.sha256 c root := by
  induction h with
  | nil =>
    intro idx c hc
    simp at hc
  | @cons prevEnd d cs root roots bs rest hd hs ih =>
    intro idx c hc
    cases idx with
    | zero =>
      obtain rfl : d = c := by simpa using hc
      exact ⟨root, rfl, hd.endsIn hmerkle⟩
    | succ idx => exact ih idx c (by simpa using hc)

/-- The commitment `p` stands before position `idx` of an output: it is the one before in the
list, or the previous commitment at position 0. -/
def PredecessorAt (sha256 : HashInput H → H) (out : BatchProofCircuitOutput H) (idx : Nat)
    (p : SequencerCommitment H) : Prop :=
  (∃ j, idx = j + 1 ∧
      out.sequencerCommitmentHashes[j]? = some (p.serializeAndCalculateSha256 sha256)) ∨
    (idx = 0 ∧ out.previousCommitmentIndex = some p.index ∧
      out.previousCommitmentHash = some (p.serializeAndCalculateSha256 sha256) ∧
      p.index + 1 = out.sequencerCommitmentIndexRange.1)

/-- What an output says about the commitment `c` at position `idx`: the state root before it and
after it, and the commitment before it. Only the first commitment of all has none. -/
structure PositionIn (sha256 : HashInput H → H) (fits : Prop) (out : BatchProofCircuitOutput H)
    (idx : Nat) (c : SequencerCommitment H) (before after : H) : Prop where
  before_eq : out.stateRoots[idx]? = some before
  after_eq : out.stateRoots[idx + 1]? = some after
  endsIn : EndsIn sha256 c after
  predecessor : (idx = 0 ∧ out.sequencerCommitmentIndexRange.1 = 1) ∨
    ∃ p, PredecessorAt sha256 out idx p ∧ EndsIn sha256 p before ∧
      (fits → p.l2EndBlockNumber < c.l2EndBlockNumber)

/-- Neighbours in a chain. -/
theorem isChain_getElem? {α : Type} {R : α → α → Prop} {l : List α} (h : List.IsChain R l) {j : Nat}
    {a b : α} (ha : l[j]? = some a) (hb : l[j + 1]? = some b) : R a b := by
  obtain ⟨hj, rfl⟩ := List.getElem?_eq_some_iff.mp ha
  obtain ⟨hj', rfl⟩ := List.getElem?_eq_some_iff.mp hb
  exact isChain_iff_getElem.mp h j hj'

/-- A run says this about every commitment of its list. -/
theorem CircuitRun.position (hmerkle : RsMerkle env) {out : ApplySequencerCommitmentsOutput H Log}
    {last : SequencerCommitment H} (h : CircuitRun env input out first last prevEnd roots blocks)
    (lastL1Hash : H) {idx : Nat} (hc : input.sequencerCommitments[idx]? = some c) :
    ∃ before after, PositionIn env.sha256 (HeightsFit input) (out.toCircuitOutput lastL1Hash) idx
      c before after := by
  have hends := h.proves.endsIn hmerkle
  obtain ⟨after, hafter, hendsAfter⟩ := hends idx c hc
  have hafter' : out.stateRoots[idx + 1]? = some after := by
    rw [h.stateRoots, List.getElem?_cons_succ]
    exact hafter
  -- the end heights of the previous commitment and of the list increase
  have hchain := h.endHeights_iff.mpr
  cases idx with
  | succ j =>
    obtain ⟨p, hp⟩ : ∃ p, input.sequencerCommitments[j]? = some p := by
      have hlt : j + 1 < input.sequencerCommitments.length :=
        (List.getElem?_eq_some_iff.mp hc).1
      exact ⟨_, List.getElem?_eq_getElem (by omega)⟩
    obtain ⟨before, hbefore, hendsBefore⟩ := hends j p hp
    refine ⟨before, after, ?_, hafter', hendsAfter, .inr ⟨p, .inl ⟨j, rfl, ?_⟩, hendsBefore, ?_⟩⟩
    · show out.stateRoots[j + 1]? = some before
      rw [h.stateRoots, List.getElem?_cons_succ]
      exact hbefore
    · show out.sequencerCommitmentHashes[j]? = _
      rw [h.hashes, List.getElem?_map, hp]
      rfl
    · intro hfit
      have hlist := hchain hfit
      rw [map_append, isChain_append] at hlist
      exact isChain_getElem? hlist.2.1 (by rw [List.getElem?_map, hp]; rfl)
        (by rw [List.getElem?_map, hc]; rfl)
  | zero =>
    have hfirst : first = c := by
      have hhead := h.head_eq
      rw [List.head?_eq_getElem?, hc] at hhead
      exact (some_inj.mp hhead).symm
    have hbefore : out.stateRoots[0]? = some input.initialStateRoot := by
      rw [h.stateRoots]
      rfl
    refine ⟨input.initialStateRoot, after, hbefore, hafter', hendsAfter, ?_⟩
    cases hprev : input.previousSequencerCommitment with
    | none =>
      obtain ⟨hone, -, -⟩ := h.noPrevious hprev
      refine .inl ⟨rfl, ?_⟩
      show out.sequencerCommitmentIndexRange.1 = 1
      rw [h.indexRange]
      exact hone
    | some p =>
      obtain ⟨hfollows, -, hindex, hhash⟩ := h.previous p hprev
      refine .inr ⟨p, .inr ⟨rfl, hindex, hhash, ?_⟩, hfollows.endsIn hmerkle, ?_⟩
      · show p.index + 1 = out.sequencerCommitmentIndexRange.1
        rw [h.indexRange]
        exact hfollows.index_eq
      · intro hfit
        have hlist := hchain hfit
        rw [hprev] at hlist
        refine isChain_getElem? hlist (j := 0) rfl ?_
        show (input.sequencerCommitments.map SequencerCommitment.l2EndBlockNumber)[0]? = _
        rw [List.getElem?_map, hc]
        rfl

end Citrea.Proofs.BatchProof
