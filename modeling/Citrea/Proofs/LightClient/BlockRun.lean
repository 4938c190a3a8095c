import Citrea.Spec.LightClient.Circuit

/-!
# `Citrea.Proofs.LightClient.BlockRun`: what one L1 block can do

Each step of `run_l1_block` gets one lemma that says what the step has checked and what it has
written: `storeTransition_ok`, `processCompleteProof_ok`, `processBlob_ok`, `chainTransitions_ok`
and `runL1Block_ok`. The invariants over whole runs use these lemmas and never unfold the circuit
again.

`BlobStep` lists the five things that a blob can do to the working set. `WorkingSet.Extends`
says that the block hashes, the commitments and the transitions of one working set are still in
another one.
-/

set_option linter.unusedSectionVars false

namespace Citrea.Proofs.LightClient

open List Lib Spec.BatchProof Spec.LightClient
open VerifiedTransitionAccessor renaming get → transitionAt

variable {H : Type}

/-! ### Index ranges -/

/-- The items of `(first..=last).enumerate()`. -/
theorem mem_zipIdx_indexRange {first last i : UInt32} {idx : Nat} :
    (i, idx) ∈ (indexRange first last).zipIdx ↔
      i.toNat = first.toNat + idx ∧ i.toNat ≤ last.toNat := by
  have hlast := last.toNat_lt
  have hi := i.toNat_lt
  rw [mem_zipIdx_iff_getElem?, indexRange, List.getElem?_map]
  show Option.map UInt32.ofNat (List.range' first.toNat (last.toNat + 1 - first.toNat))[idx]? =
    some i ↔ _
  by_cases hidx : idx < last.toNat + 1 - first.toNat
  · rw [List.getElem?_eq_getElem (by rwa [length_range']), getElem_range']
    have hlt : first.toNat + 1 * idx < 2 ^ 32 := by omega
    rw [Option.map_some, Option.some_inj, ← UInt32.toNat_inj, UInt32.toNat_ofNat',
      Nat.mod_eq_of_lt hlt]
    omega
  · rw [List.getElem?_eq_none (by rw [length_range']; omega)]
    simp only [Option.map_none, reduceCtorEq, false_iff]
    omega

section
variable [DecidableEq H] {ws ws' : WorkingSet H} {roots : List H} {last : UInt32}
  {item : UInt32 × Nat} {items : List (UInt32 × Nat)}

/-! ### Working sets -/

theorem WorkingSet.set_self (ws : WorkingSet H) (k : Key H) (v : k.Value H) :
    ws.set k v k = some v := Function.update_self k _ ws

theorem WorkingSet.set_of_ne {k k' : Key H} {v : k.Value H} (h : k' ≠ k) :
    ws.set k v k' = ws k' := Function.update_of_ne h _ ws

/-- The keys whose values never change once they are written. -/
def Key.WriteOnce : Key H → Prop
  | .blockHash _ => True
  | .chunk _ => False
  | .sequencerCommitment _ => True
  | .verifiedTransition _ => True
  | .batchProofMethodIds => False

/-- `ws'` has every write-once value of `ws`. -/
def WorkingSet.Extends (ws ws' : WorkingSet H) : Prop :=
  ∀ k, Key.WriteOnce k → ∀ v, ws k = some v → ws' k = some v

theorem WorkingSet.Extends.refl (ws : WorkingSet H) : WorkingSet.Extends ws ws :=
  fun _ _ _ h => h

theorem WorkingSet.Extends.trans {a b c : WorkingSet H} (hab : WorkingSet.Extends a b)
    (hbc : WorkingSet.Extends b c) : WorkingSet.Extends a c :=
  fun k hk v h => hbc k hk v (hab k hk v h)

/-- A write keeps the write-once values, if its key is not write-once or had no other value. -/
theorem WorkingSet.Extends.set {k : Key H} {v : k.Value H}
    (h : Key.WriteOnce k → ∀ w, ws k = some w → w = v) : WorkingSet.Extends ws (ws.set k v) := by
  intro k' hk' w hw
  by_cases hkk : k' = k
  · subst hkk
    rw [WorkingSet.set_self, h hk' w hw]
  · rwa [WorkingSet.set_of_ne hkk]

/-! ### The transitions of a proof -/

/-- The transition that a proof with the state roots `roots` gives to a commitment index and its
position in the range. -/
structure TransitionOf (roots : List H) (ws : WorkingSet H) (item : UInt32 × Nat)
    (info : VerifiedStateTransition H) : Prop where
  initial : roots[item.2]? = some info.initialStateRoot
  final : roots[item.2 + 1]? = some info.finalStateRoot
  commitment : ∃ c, SequencerCommitmentAccessor.get item.1 ws = some c ∧
    info.lastL2Height = c.l2EndBlockNumber

/-- One turn of the storing loop writes nothing, or the transition of a fresh index. -/
theorem storeTransition_ok (h : storeTransition roots last ws item = .ok ws') :
    ws' = ws ∨ ∃ info, last < item.1 ∧ transitionAt item.1 ws = none ∧
      TransitionOf roots ws item info ∧ ws' = VerifiedTransitionAccessor.insert item.1 info ws := by
  rw [storeTransition] at h
  split at h
  · rw [pure_eq_ok] at h
    exact .inl h.symm
  · next hskip =>
    rw [not_or, UInt32.not_le, Bool.not_eq_true, Option.isSome_eq_false_iff,
      Option.isNone_iff_eq_none] at hskip
    simp only [bind_eq_ok, expect_eq_ok, pure_eq_ok] at h
    obtain ⟨c, hc, r, hr, r', hr', rfl⟩ := h
    exact .inr ⟨⟨r, r', c.l2EndBlockNumber⟩, hskip.1, hskip.2, ⟨hr, hr', c, hc, rfl⟩, rfl⟩

/-- The working set after the storing loop: other data is as before, and each index has its old
transition or, if it had none, the one of the proof. -/
structure StoresFrom (roots : List H) (last : UInt32) (items : List (UInt32 × Nat))
    (ws ws' : WorkingSet H) : Prop where
  frame : ∀ k, (∀ i, k ≠ .verifiedTransition i) → ws' k = ws k
  written : ∀ i, transitionAt i ws' = transitionAt i ws ∨
    (transitionAt i ws = none ∧ last < i ∧ ∃ idx info, (i, idx) ∈ items ∧
      TransitionOf roots ws (i, idx) info ∧ transitionAt i ws' = some info)

theorem TransitionOf.of_frame {info : VerifiedStateTransition H}
    (h : TransitionOf roots ws' item info)
    (hframe : ∀ k, (∀ i, k ≠ .verifiedTransition i) → ws' k = ws k) :
    TransitionOf roots ws item info := by
  refine ⟨h.initial, h.final, ?_⟩
  rw [SequencerCommitmentAccessor.get, ← hframe _ (by simp)]
  exact h.commitment

/-- One more turn of the storing loop. -/
theorem StoresFrom.next {m : WorkingSet H} (hm : StoresFrom roots last items ws m)
    (hstep : storeTransition roots last m item = .ok ws') :
    StoresFrom roots last (items ++ [item]) ws ws' := by
  rcases storeTransition_ok hstep with rfl | ⟨info, hlast, hnone, hinfo, rfl⟩
  · refine ⟨hm.frame, fun i => (hm.written i).imp_right ?_⟩
    rintro ⟨hi, hlt, idx, info, hmem, rest⟩
    exact ⟨hi, hlt, idx, info, mem_append_left _ hmem, rest⟩
  · refine ⟨fun k hk => ?_, fun i => ?_⟩
    · exact (WorkingSet.set_of_ne (hk item.1)).trans (hm.frame k hk)
    by_cases hi : i = item.1
    · -- the index of this turn had no transition in `m`, so it had none at the start
      subst hi
      have hws : transitionAt item.1 ws = none := by
        rcases hm.written item.1 with heq | ⟨hws, -⟩
        · rw [← heq, hnone]
        · exact hws
      exact .inr ⟨hws, hlast, item.2, info, by simp, hinfo.of_frame hm.frame,
        WorkingSet.set_self m (.verifiedTransition item.1) info⟩
    · have hget : transitionAt i (VerifiedTransitionAccessor.insert item.1 info m)
          = transitionAt i m :=
        WorkingSet.set_of_ne (by simpa using hi)
      rw [hget]
      refine (hm.written i).imp_right ?_
      rintro ⟨hws, hlt, idx, info, hmem, rest⟩
      exact ⟨hws, hlt, idx, info, mem_append_left _ hmem, rest⟩

/-- The storing loop as a whole. -/
theorem storeTransitions_ok (h : items.foldlM (storeTransition roots last) ws = .ok ws') :
    StoresFrom roots last items ws ws' :=
  foldlM_induction (P := fun items m => StoresFrom roots last items ws m)
    ⟨fun _ _ => rfl, fun _ => .inl rfl⟩ items
    (fun _ _ _ _ _ _ _ hm hstep => hm.next hstep) ws' h

theorem StoresFrom.extends (h : StoresFrom roots last items ws ws') :
    WorkingSet.Extends ws ws' := by
  intro k _ v hv
  cases k with
  | verifiedTransition i =>
    rcases h.written i with heq | ⟨hnone, -⟩
    · exact heq.trans hv
    · exact absurd (hnone.symm.trans hv) (by simp)
  | blockHash _ | chunk _ | sequencerCommitment _ | batchProofMethodIds =>
    rw [h.frame _ (by simp)]
    exact hv

/-! ### Proofs and blobs -/

variable (env : LightClientEnv H) (cfg : LightClientConfig H) {output : BatchProofCircuitOutput H}

/-- The checks that a blob has passed when the transitions of its proof are stored. `ws` is the
working set before the blob. -/
structure AcceptedProof (lastL2Height : UInt64) (lastIndex : UInt32) (ws : WorkingSet H)
    (blob : Blob H) (data : DataOnDa H) (proof : Bytes) (methodIds : BatchProofMethodIds)
    (methodId : MethodId) (output : BatchProofCircuitOutput H) : Prop where
  parsed : env.dataOnDaTryFromSlice blob.fullData = some data
  kind : (∃ body, data = .complete body) ∨ ∃ txids wtxids, data = .aggregate txids wtxids
  sender : blob.sender = cfg.batchProverDaPublicKey
  proof_eq : proofOfBlob env ws data = some proof
  output_eq : extractOutput env proof = .ok output
  l1Hash : BlockHashAccessor.existsHash output.lastL1HashOnBitcoinLightClientContract ws = true
  height : lastL2Height = 0 ∨ lastL2Height < output.lastL2Height
  methodIds_eq : BatchProofMethodIdAccessor.get ws = some methodIds
  inForce : methodIdInForce methodIds output.lastL2Height = .ok methodId
  verified : env.zkVerify proof methodId (networkToDevMode cfg.network) = true
  relation : verifyBatchProofSeqCommRelation env output ws = true
  index : lastIndex < output.sequencerCommitmentIndexRange.2

/-- The items of the storing loop for an output. -/
def outputItems (output : BatchProofCircuitOutput H) : List (UInt32 × Nat) :=
  (indexRange output.sequencerCommitmentIndexRange.1 output.sequencerCommitmentIndexRange.2).zipIdx

/-- The previous commitment of an output is the stored one, or there is none and the range starts
at index 1. -/
def PreviousStored (output : BatchProofCircuitOutput H) (ws : WorkingSet H) : Prop :=
  (∃ index hash c, output.previousCommitmentIndex = some index ∧
      output.previousCommitmentHash = some hash ∧
      SequencerCommitmentAccessor.get index ws = some c ∧
      c.serializeAndCalculateSha256 env.sha256 = hash) ∨
    ((output.previousCommitmentIndex = none ∨ output.previousCommitmentHash = none) ∧
      output.sequencerCommitmentIndexRange.1 = 1)

/-- What `verify_batch_proof_seq_comm_relation` establishes. -/
structure Related (output : BatchProofCircuitOutput H) (ws : WorkingSet H) : Prop where
  previous : PreviousStored env output ws
  length_eq : (output.sequencerCommitmentIndexRange.2 - output.sequencerCommitmentIndexRange.1
    + 1).toNat = output.sequencerCommitmentHashes.length
  stored : ∀ i idx hash, (i, idx) ∈ outputItems output →
    output.sequencerCommitmentHashes[idx]? = some hash →
    ∃ c, SequencerCommitmentAccessor.get i ws = some c ∧
      c.serializeAndCalculateSha256 env.sha256 = hash

theorem related_of_verify {ws : WorkingSet H}
    (h : verifyBatchProofSeqCommRelation env output ws = true) : Related env output ws := by
  simp only [verifyBatchProofSeqCommRelation, Bool.and_eq_true, beq_iff_eq] at h
  obtain ⟨⟨hprevious, hlength⟩, hmatch⟩ := h
  refine ⟨?_, hlength, ?_⟩
  · split at hprevious
    · next index hash hindex hhash =>
      split at hprevious
      · simp at hprevious
      · next c hc => exact .inl ⟨index, hash, c, hindex, hhash, hc, beq_iff_eq.mp hprevious⟩
    · next hnone =>
      refine .inr ⟨?_, beq_iff_eq.mp hprevious⟩
      cases hindex : output.previousCommitmentIndex with
      | none => exact .inl rfl
      | some index =>
        cases hhash : output.previousCommitmentHash with
        | none => exact .inr rfl
        | some hash => exact (hnone index hash hindex hhash).elim
  · intro i idx hash hmem hhash
    rw [outputItems, mem_zipIdx_iff_getElem?] at hmem
    rw [commitmentsMatch, all_eq_true] at hmatch
    have hitem := hmatch ((i, hash), idx) (by
      rw [mem_zipIdx_iff_getElem?, List.getElem?_zip_eq_some]
      exact ⟨hmem, hhash⟩)
    simp only at hitem
    split at hitem
    · simp at hitem
    · next c hc =>
      rw [Bool.and_eq_true, beq_iff_eq] at hitem
      exact ⟨c, hc, hitem.2⟩

/-- An output that has a hash at all has one for every index of its range. -/
theorem exists_hash_of_mem_items {i : UInt32} {idx : Nat}
    (hlength : (output.sequencerCommitmentIndexRange.2 - output.sequencerCommitmentIndexRange.1 +
      1).toNat = output.sequencerCommitmentHashes.length)
    (hne : output.sequencerCommitmentHashes ≠ []) (hmem : (i, idx) ∈ outputItems output) :
    ∃ hash, output.sequencerCommitmentHashes[idx]? = some hash := by
  obtain ⟨hi, hle⟩ := mem_zipIdx_indexRange.mp hmem
  have hpos := length_pos_iff.mpr hne
  suffices hidx : idx < output.sequencerCommitmentHashes.length from
    ⟨_, List.getElem?_eq_getElem hidx⟩
  rw [UInt32.toNat_add, UInt32.toNat_sub_of_le _ _ (UInt32.le_iff_toNat_le.mpr (by omega))]
    at hlength
  -- the only range whose length wraps to zero has no hash
  have hone : (1 : UInt32).toNat = 1 := rfl
  rw [hone] at hlength
  have hlast := output.sequencerCommitmentIndexRange.2.toNat_lt
  omega

/-- What a blob can do to the working set. -/
inductive BlobStep (lastL2Height : UInt64) (lastIndex : UInt32) (blob : Blob H)
    (ws : WorkingSet H) : WorkingSet H → Prop
  | skip : BlobStep lastL2Height lastIndex blob ws ws
  | chunk (body : Bytes) (parsed : env.dataOnDaTryFromSlice blob.fullData = some (.chunk body)) :
      BlobStep lastL2Height lastIndex blob ws (ChunkAccessor.insert blob.wtxid body ws)
  | proof (data : DataOnDa H) (proof : Bytes) (methodIds : BatchProofMethodIds)
      (methodId : MethodId) (output : BatchProofCircuitOutput H) (ws' : WorkingSet H)
      (accepted : AcceptedProof env cfg lastL2Height lastIndex ws blob data proof methodIds
        methodId output)
      (stores : StoresFrom output.stateRoots lastIndex (outputItems output) ws ws') :
      BlobStep lastL2Height lastIndex blob ws ws'
  | methodId (m : BatchProofMethodId) (methodIds : BatchProofMethodIds)
      (last : UInt64 × MethodId)
      (parsed : env.dataOnDaTryFromSlice blob.fullData = some (.batchProofMethodId m))
      (methodIds_eq : BatchProofMethodIdAccessor.get ws = some methodIds)
      (last_eq : methodIds.getLast? = some last)
      (later : last.1 < m.body.activationL2Height)
      (chainId : citreaNetworkToChainId cfg.network = m.body.chainId)
      (council : verifyMethodIdSecurityCouncil env cfg (env.serializeBody m.body)
        m.signaturesWithIndex = .ok true) :
      BlobStep lastL2Height lastIndex blob ws
        (BatchProofMethodIdAccessor.insert m.body.activationL2Height m.body.methodId ws)
  | commitment (c : SequencerCommitment H)
      (parsed : env.dataOnDaTryFromSlice blob.fullData = some (.sequencerCommitment c))
      (sender : blob.sender = cfg.sequencerDaPublicKey)
      (fresh : SequencerCommitmentAccessor.get c.index ws = none) :
      BlobStep lastL2Height lastIndex blob ws (SequencerCommitmentAccessor.insert c.index c ws)

variable {env cfg} {lastL2Height : UInt64} {lastIndex : UInt32} {ws ws' : WorkingSet H}
  {blob : Blob H} {storage : WorkingSet H} {hash : H}
  {previous : Option (LightClientCircuitOutput H)} {s s' : LightClientState H} {block : L1Block H}

/-- What a proof has passed when `process_complete_proof` returns `Ok`, and what it stores. -/
theorem processCompleteProof_ok {proof : Bytes}
    (h : processCompleteProof env cfg proof lastL2Height lastIndex ws = .ok ws') :
    ∃ output methodIds methodId, extractOutput env proof = .ok output ∧
      BlockHashAccessor.existsHash output.lastL1HashOnBitcoinLightClientContract ws = true ∧
      (lastL2Height = 0 ∨ lastL2Height < output.lastL2Height) ∧
      BatchProofMethodIdAccessor.get ws = some methodIds ∧
      methodIdInForce methodIds output.lastL2Height = .ok methodId ∧
      env.zkVerify proof methodId (networkToDevMode cfg.network) = true ∧
      verifyBatchProofSeqCommRelation env output ws = true ∧
      lastIndex < output.sequencerCommitmentIndexRange.2 ∧
      StoresFrom output.stateRoots lastIndex (outputItems output) ws ws' := by
  simp only [processCompleteProof, bind_eq_ok, ensure_eq_ok, expect_eq_ok] at h
  obtain ⟨output, output_eq, -, l1Hash, -, height, methodIds, methodIds_eq, methodId, inForce, -,
    verified, -, relation, -, index, hstore⟩ := h
  rw [not_and_or, UInt64.not_le, not_not] at height
  exact ⟨output, methodIds, methodId, output_eq, l1Hash, height.symm, methodIds_eq, inForce,
    verified, relation, index, storeTransitions_ok hstore⟩

/-- A blob with a proof is skipped, or the proof has passed every check. -/
theorem processProofBlob_ok {data : DataOnDa H}
    (parsed : env.dataOnDaTryFromSlice blob.fullData = some data)
    (kind : (∃ body, data = .complete body) ∨ ∃ txids wtxids, data = .aggregate txids wtxids)
    (h : processProofBlob env cfg lastL2Height lastIndex blob data ws = .ok ws') :
    BlobStep env cfg lastL2Height lastIndex blob ws ws' := by
  rw [processProofBlob] at h
  split at h
  · rw [pure_eq_ok] at h
    exact h ▸ .skip
  next sender =>
  split at h
  · rw [pure_eq_ok] at h
    exact h ▸ .skip
  next proof proof_eq =>
  rcases Outcome.okOr_eq_ok h with h | rfl
  · obtain ⟨output, methodIds, methodId, output_eq, l1Hash, height, methodIds_eq, inForce, verified,
      relation, index, stores⟩ := processCompleteProof_ok h
    exact .proof data proof methodIds methodId output ws'
      ⟨parsed, kind, not_not.mp sender, proof_eq, output_eq, l1Hash, height, methodIds_eq, inForce,
        verified, relation, index⟩ stores
  · exact .skip

/-- A blob with a method id is skipped, or the council has signed a later activation. -/
theorem processMethodId_ok {m : BatchProofMethodId}
    (parsed : env.dataOnDaTryFromSlice blob.fullData = some (.batchProofMethodId m))
    (h : processMethodId env cfg m ws = .ok ws') :
    BlobStep env cfg lastL2Height lastIndex blob ws ws' := by
  simp only [processMethodId, bind_eq_ok, expect_eq_ok] at h
  obtain ⟨methodIds, methodIds_eq, last, last_eq, h⟩ := h
  split at h
  · rw [pure_eq_ok] at h
    exact h ▸ .skip
  next later =>
  split at h
  · rw [pure_eq_ok] at h
    exact h ▸ .skip
  next chainId =>
  rw [bind_eq_ok] at h
  obtain ⟨valid, council, h⟩ := h
  cases valid with
  | false =>
    rw [if_neg (by decide), pure_eq_ok] at h
    exact h ▸ .skip
  | true =>
    rw [if_pos rfl, pure_eq_ok] at h
    exact h ▸ .methodId m methodIds last parsed methodIds_eq last_eq (UInt64.not_le.mp later)
      (not_not.mp chainId) council

/-- Every blob is one of the five steps. -/
theorem processBlob_ok (h : processBlob env cfg lastL2Height lastIndex ws blob = .ok ws') :
    BlobStep env cfg lastL2Height lastIndex blob ws ws' := by
  rw [processBlob] at h
  split at h
  · rw [pure_eq_ok] at h
    exact h ▸ .skip
  · next body parsed =>
    rw [pure_eq_ok] at h
    exact h ▸ .chunk body parsed
  · next body parsed => exact processProofBlob_ok parsed (.inl ⟨body, rfl⟩) h
  · next txids wtxids parsed => exact processProofBlob_ok parsed (.inr ⟨txids, wtxids, rfl⟩) h
  · next parsed => exact processMethodId_ok parsed h
  · next c parsed =>
    rw [pure_eq_ok, processCommitment] at h
    split at h
    · exact h ▸ .skip
    next sender =>
    split at h
    · exact h ▸ .skip
    next fresh =>
    rw [Option.not_isSome_iff_eq_none] at fresh
    exact h ▸ .commitment c parsed (not_not.mp sender) fresh

/-- No blob removes or replaces a block hash, a commitment or a transition. -/
theorem BlobStep.extends (h : BlobStep env cfg lastL2Height lastIndex blob ws ws') :
    WorkingSet.Extends ws ws' := by
  cases h with
  | skip => exact .refl ws
  | chunk body parsed => exact .set fun hk => hk.elim
  | proof data proof methodIds methodId output ws' accepted stores => exact stores.extends
  | methodId m methodIds last parsed methodIds_eq last_eq later chainId council =>
    exact .set fun hk => hk.elim
  | commitment c parsed sender fresh =>
    refine .set fun _ w hw => ?_
    exact absurd (fresh.symm.trans hw) (by simp)

/-- The blobs of a block keep every block hash, commitment and transition. -/
theorem processBlobs_extends {blobs : List (Blob H)}
    (h : processBlobs env cfg lastL2Height lastIndex blobs ws = .ok ws') :
    WorkingSet.Extends ws ws' :=
  foldlM_rel WorkingSet.Extends.refl WorkingSet.Extends.trans
    (fun _ _ _ hstep => (processBlob_ok hstep).extends) h

/-- Before the blobs, only the hash of the block and the method ids are written. -/
theorem startBlock_frame (h : startBlock cfg storage hash previous = .ok ws) (k : Key H)
    (hhash : k ≠ .blockHash hash) (hids : k ≠ .batchProofMethodIds) : ws k = storage k := by
  cases previous with
  | none =>
    simp only [startBlock, BatchProofMethodIdAccessor.initializeIds, bind_eq_ok,
      assert_eq_ok, pure_eq_ok] at h
    obtain ⟨-, -, rfl⟩ := h
    exact (WorkingSet.set_of_ne hids).trans (WorkingSet.set_of_ne hhash)
  | some output =>
    rw [startBlock, pure_eq_ok] at h
    subst h
    exact WorkingSet.set_of_ne hhash

theorem startBlock_extends (h : startBlock cfg storage hash previous = .ok ws) :
    WorkingSet.Extends storage ws := by
  have hinsert : WorkingSet.Extends storage (BlockHashAccessor.insert hash storage) :=
    .set fun _ _ _ => rfl
  cases previous with
  | none =>
    simp only [startBlock, BatchProofMethodIdAccessor.initializeIds, bind_eq_ok,
      assert_eq_ok, pure_eq_ok] at h
    obtain ⟨-, -, rfl⟩ := h
    exact hinsert.trans (.set fun hk => hk.elim)
  | some output =>
    rw [startBlock, pure_eq_ok] at h
    exact h ▸ hinsert

/-! ### The chaining loop -/

/-- The progress that a stored transition gives. -/
def ReachedBy (ws : WorkingSet H) (p : Progress H) : Prop :=
  ∃ info, transitionAt p.lastSequencerCommitmentIndex ws = some info ∧
    p.l2StateRoot = info.finalStateRoot ∧ p.lastL2Height = info.lastL2Height

/-- One turn of the chaining loop ends the loop when the next index has no transition, and else
moves to the progress of that transition. -/
theorem chainTransition_ok {p : Progress H} {next : Option (Progress H)}
    (h : chainTransition ws p = .ok next) : (next = none ∧
      transitionAt (p.lastSequencerCommitmentIndex + 1) ws = none) ∨
    ∃ p', next = some p' ∧
      p'.lastSequencerCommitmentIndex = p.lastSequencerCommitmentIndex + 1 ∧ ReachedBy ws p' := by
  rw [chainTransition] at h
  split at h
  · next hnone =>
    rw [pure_eq_ok] at h
    exact .inl ⟨h.symm, hnone⟩
  · next info hinfo =>
    split at h
    · rw [pure_eq_ok] at h
      exact .inr ⟨_, h.symm, rfl, info, hinfo, rfl, rfl⟩
    · simp at h

/-- With enough fuel the chaining loop ends at an index without a successor. The loop never
passes the greatest index, since no transition is stored for index 0. -/
theorem chainTransitions_ok (hzero : transitionAt 0 ws = none) (fuel : Nat) :
    ∀ p p' : Progress H, 2 ^ 32 ≤ p.lastSequencerCommitmentIndex.toNat + fuel →
      chainTransitions ws fuel p = .ok p' →
      p.lastSequencerCommitmentIndex ≤ p'.lastSequencerCommitmentIndex ∧
        transitionAt (p'.lastSequencerCommitmentIndex + 1) ws = none ∧
        (p' = p ∨ ReachedBy ws p') := by
  induction fuel with
  | zero =>
    intro p p' hfuel _
    have hlt := p.lastSequencerCommitmentIndex.toNat_lt
    omega
  | succ fuel ih =>
    intro p p' hfuel h
    rw [chainTransitions, bind_eq_ok] at h
    obtain ⟨next, hturn, h⟩ := h
    rcases chainTransition_ok hturn with ⟨rfl, hnone⟩ | ⟨q, rfl, hindex, hq⟩
    · rw [pure_eq_ok] at h
      subst h
      exact ⟨UInt32.le_refl _, hnone, .inl rfl⟩
    · -- the next index is not 0, so the addition has not wrapped
      have hnext : q.lastSequencerCommitmentIndex.toNat =
          p.lastSequencerCommitmentIndex.toNat + 1 := by
        have hne : q.lastSequencerCommitmentIndex.toNat ≠ 0 := by
          intro hwrap
          rw [← UInt32.toNat_zero, UInt32.toNat_inj] at hwrap
          obtain ⟨info, hinfo, -⟩ := hq
          rw [hwrap, hzero] at hinfo
          simp at hinfo
        have hlt := p.lastSequencerCommitmentIndex.toNat_lt
        have hone : (1 : UInt32).toNat = 1 := rfl
        rw [hindex, UInt32.toNat_add, hone] at hne ⊢
        omega
      obtain ⟨hle, hstop, hreached⟩ := ih q p' (by omega) h
      refine ⟨?_, hstop, .inr ?_⟩
      · rw [UInt32.le_iff_toNat_le] at hle ⊢
        omega
      · rcases hreached with rfl | hreached
        · exact hq
        · exact hreached

/-! ### One block -/

/-- One block of the light client, step by step. -/
structure BlockRun (env : LightClientEnv H) (cfg : LightClientConfig H) (s : LightClientState H)
    (block : L1Block H) (ws : WorkingSet H) (s' : LightClientState H) : Prop where
  start : startBlock cfg s.storage block.hash s.output = .ok ws
  blobs : processBlobs env cfg (initialProgress cfg s.output).lastL2Height
    (initialProgress cfg s.output).lastSequencerCommitmentIndex block.blobs ws = .ok s'.storage
  chain : ∃ p, chainTransitions s'.storage (2 ^ 32) (initialProgress cfg s.output) = .ok p ∧
    s'.output = some ⟨p.l2StateRoot, env.jmtRoot s'.storage, p.lastL2Height,
      p.lastSequencerCommitmentIndex⟩

theorem stepL1Block_ok (h : stepL1Block env cfg s block = .ok s') :
    ∃ ws, BlockRun env cfg s block ws s' := by
  simp only [stepL1Block, runL1Block, bind_eq_ok, assert_eq_ok, pure_eq_ok] at h
  obtain ⟨result, ⟨ws, hstart, ws', hblobs, p, hchain, -, -, rfl⟩, rfl⟩ := h
  exact ⟨ws, hstart, hblobs, p, hchain, rfl⟩

theorem BlockRun.extends (h : BlockRun env cfg s block ws s') :
    WorkingSet.Extends s.storage s'.storage :=
  (startBlock_extends h.start).trans (processBlobs_extends h.blobs)

end

end Citrea.Proofs.LightClient
