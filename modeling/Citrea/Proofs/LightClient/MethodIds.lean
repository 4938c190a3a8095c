import Citrea.Proofs.LightClient.BlockRun

/-!
# `Citrea.Proofs.LightClient.MethodIds`: the schedule of method ids

The light client stores activation heights with method ids. Neither `initialize` nor `insert`
checks their order: the blob branch of `run_l1_block` does, by comparing a new activation height
with the last one. `Schedule` is the order that every reachable list has, and it is what the
binary search of `process_complete_proof` needs.

`blobStep_methodIds` says what one blob does to the list, and `Grown` is the relation that a run
keeps: the list only grows at the end, by entries that three members of the council have signed.
-/

namespace Citrea.Proofs.LightClient

open Option List Lib Spec.BatchProof Spec.LightClient

variable {H : Type} {env : LightClientEnv H} {cfg : LightClientConfig H} {ids : BatchProofMethodIds}
  {blobs more : List (Blob H)}

/-! ### The security council -/

/-- The signature over `prehash` is valid for the public key. -/
def ValidSignature (env : LightClientEnv H) (prehash signature pubkey : Bytes) : Prop :=
  ∃ verifyingKey parsed, env.verifyingKeyFromSec1 pubkey = some verifyingKey ∧
    env.signatureFromBytes signature = some parsed ∧
    env.verifyPrehash verifyingKey prehash parsed = true

/-- The method id is for this network, and three members of the council have signed its body. The
three keys stand in the list of the council at three different positions. -/
structure CouncilSigned (env : LightClientEnv H) (cfg : LightClientConfig H)
    (m : BatchProofMethodId) : Prop where
  chainId : m.body.chainId = citreaNetworkToChainId cfg.network
  signed : ∃ keys : List Bytes, keys.length = 3 ∧
    keys.Sublist cfg.methodIdUpgradeAuthorityDaPublicKeys.toList ∧
    (cfg.methodIdUpgradeAuthorityDaPublicKeys.toList.Nodup → keys.Nodup) ∧
    List.Forall₂ (ValidSignature env (env.eip191HashMessage (env.serializeBody m.body)))
      (m.signaturesWithIndex.toList.map Prod.fst) keys

/-- Elements at ascending positions are a sublist. -/
theorem sublist_drop_of_ascending {α : Type} {l : List α} {positions : List Nat} {picked : List α}
    (hpicked : List.Forall₂ (fun i a => l[i]? = some a) positions picked) :
    ∀ n, (∀ i ∈ positions, n ≤ i) → positions.Pairwise (· < ·) → picked.Sublist (l.drop n) := by
  induction hpicked with
  | nil => intro n _ _; exact nil_sublist _
  | @cons i a positions picked hi hrest ih =>
    intro n hge hasc
    obtain ⟨hlater, hasc⟩ := pairwise_cons.mp hasc
    have htail := ih (i + 1) (fun j hj => hlater j hj) hasc
    obtain ⟨hlt, hget⟩ := List.getElem?_eq_some_iff.mp hi
    have hdrop : l.drop i = a :: l.drop (i + 1) := by
      rw [← hget]
      exact drop_eq_getElem_cons hlt
    have hcons : (a :: picked).Sublist (l.drop i) := by
      rw [hdrop]
      exact htail.cons_cons a
    exact hcons.trans (drop_sublist_drop_left l (hge i (by simp)))

/-- The loop over the signatures returns true only if each is valid for the key at its index. -/
theorem verifyCouncilSignatures_true {prehash : Bytes} {signatures : List (Bytes × UInt8)}
    (h : verifyCouncilSignatures env cfg prehash signatures = .ok true) :
    ∃ keys, List.Forall₂
      (fun i key => cfg.methodIdUpgradeAuthorityDaPublicKeys.toList[i]? = some key)
        (signatures.map fun s => s.2.toNat) keys ∧
      List.Forall₂ (ValidSignature env prehash) (signatures.map Prod.fst) keys := by
  induction signatures with
  | nil => exact ⟨[], .nil, .nil⟩
  | cons s rest ih =>
    rw [verifyCouncilSignatures, bind_eq_ok] at h
    obtain ⟨valid, hvalid, h⟩ := h
    cases valid with
    | false => simp [pure_eq_ok] at h
    | true =>
      obtain ⟨keys, hkeys, hrest⟩ := ih h
      simp only [verifyCouncilSignature, bind_eq_ok, expect_eq_ok] at hvalid
      obtain ⟨key, hkey, verifyingKey, hparse, hvalid⟩ := hvalid
      cases hsig : env.signatureFromBytes s.1 with
      | none => simp [hsig, pure_eq_ok] at hvalid
      | some parsed =>
        rw [hsig] at hvalid
        have hverify := pure_eq_ok.mp hvalid
        exact ⟨key :: keys, .cons hkey hkeys,
          .cons ⟨verifyingKey, parsed, hparse, hsig, hverify⟩ hrest⟩

/-- What `verify_method_id_security_council` has checked. -/
theorem councilSigned_of_verify {m : BatchProofMethodId}
    (hchain : citreaNetworkToChainId cfg.network = m.body.chainId)
    (h : verifyMethodIdSecurityCouncil env cfg (env.serializeBody m.body) m.signaturesWithIndex =
      .ok true) : CouncilSigned env cfg m := by
  refine ⟨hchain.symm, ?_⟩
  have hlength : m.signaturesWithIndex.toList.length = 3 := by simp
  rw [verifyMethodIdSecurityCouncil] at h
  generalize m.signaturesWithIndex.toList = signatures at h hlength ⊢
  obtain ⟨a, b, c, rfl⟩ := length_eq_three.mp hlength
  split at h
  · simp [pure_eq_ok] at h
  split at h
  · simp [pure_eq_ok] at h
  next hasc =>
  -- The indices ascend, so they are three different ones.
  simp only [map_cons, map_nil, tail_cons, zip_cons_cons, zip_nil_right,
    any_cons, any_nil, Bool.or_false, Bool.or_eq_true, decide_eq_true_eq, not_or,
    UInt8.not_le] at hasc
  obtain ⟨hab, hbc⟩ := hasc
  have hascending : ([a, b, c].map fun s : Bytes × UInt8 => s.2.toNat).Pairwise (· < ·) := by
    have hab' := UInt8.lt_iff_toNat_lt.mp hab
    have hbc' := UInt8.lt_iff_toNat_lt.mp hbc
    simp only [map_cons, map_nil, pairwise_cons, mem_cons, not_mem_nil,
      or_false, forall_eq_or_imp, forall_eq]
    refine ⟨⟨hab', by omega⟩, hbc', by simp⟩
  obtain ⟨keys, hkeys, hvalid⟩ := verifyCouncilSignatures_true h
  have hsub := sublist_drop_of_ascending hkeys 0 (fun _ _ => Nat.zero_le _) hascending
  rw [drop_zero] at hsub
  exact ⟨keys, by simpa using hvalid.length_eq.symm, hsub,
    fun hnodup => hnodup.sublist hsub, hvalid⟩

/-! ### The list of method ids -/

/-- A list of method ids that is in order: there is one, and the activation heights increase. -/
structure Schedule (ids : BatchProofMethodIds) : Prop where
  ne_nil : ids ≠ []
  increasing : ids.Pairwise fun a b => a.1 < b.1

/-- The method id in force at an L2 height: that of the entry with the greatest activation height
up to it, or the first one when there is no such entry. -/
def Scheduled (ids : BatchProofMethodIds) (l2Height : UInt64) (m : MethodId) : Prop :=
  (∃ activation, (activation, m) ∈ ids ∧ activation ≤ l2Height ∧
    ∀ e ∈ ids, e.1 ≤ l2Height → e.1 ≤ activation) ∨
  ((∀ e ∈ ids, l2Height < e.1) ∧ ∃ activation, ids.head? = some (activation, m))

/-- Entries of a schedule with the same activation height are the same. -/
theorem Schedule.eq_of_activation (h : Schedule ids) {a b : UInt64 × MethodId} (ha : a ∈ ids)
    (hb : b ∈ ids) (heq : a.1 = b.1) : a = b := by
  obtain ⟨i, hi, rfl⟩ := mem_iff_getElem.mp ha
  obtain ⟨j, hj, rfl⟩ := mem_iff_getElem.mp hb
  have hordered := pairwise_iff_getElem.mp h.increasing
  rcases Nat.lt_trichotomy i j with hij | rfl | hij
  · exact absurd heq (UInt64.ne_of_lt (hordered i j hi hj hij))
  · rfl
  · exact absurd heq.symm (UInt64.ne_of_lt (hordered j i hj hi hij))

theorem Schedule.scheduled_unique (h : Schedule ids) {l2Height : UInt64} {m m' : MethodId}
    (hm : Scheduled ids l2Height m) (hm' : Scheduled ids l2Height m') : m = m' := by
  rcases hm with ⟨a, ha, hle, hmax⟩ | ⟨hall, a, ha⟩ <;>
    rcases hm' with ⟨a', ha', hle', hmax'⟩ | ⟨hall', a', ha'⟩
  · have heq : a = a' := UInt64.le_antisymm (hmax' _ ha hle) (hmax _ ha' hle')
    exact congrArg Prod.snd (h.eq_of_activation ha ha' heq)
  · exact absurd hle (UInt64.not_le.mpr (hall' _ ha))
  · exact absurd hle' (UInt64.not_le.mpr (hall _ ha'))
  · exact congrArg Prod.snd (some_unique ha ha')

/-- The binary search of `process_complete_proof` finds the method id in force. -/
theorem Schedule.methodIdInForce_iff (h : Schedule ids) (l2Height : UInt64) (m : MethodId) :
    methodIdInForce ids l2Height = .ok m ↔ Scheduled ids l2Height m := by
  have hsound : ∀ m, methodIdInForce ids l2Height = .ok m → Scheduled ids l2Height m := by
    intro m hm
    rw [methodIdInForce] at hm
    split at hm
    · next hone =>
      -- With one entry there is no search.
      obtain ⟨e, rfl⟩ := length_eq_one_iff.mp hone
      obtain rfl : e.2 = m := by simpa [expect_eq_ok] using hm
      by_cases hle : e.1 ≤ l2Height
      · exact .inl ⟨e.1, by simp, hle, by simp⟩
      · exact .inr ⟨by simpa using hle, e.1, rfl⟩
    · rw [expect_eq_ok, map_eq_some_iff] at hm
      obtain ⟨e, he, rfl⟩ := hm
      rcases orPrevious_spec h.increasing he with ⟨hle, hmax⟩ | ⟨hall, hhead⟩
      · exact .inl ⟨e.1, mem_of_getElem? he, hle, hmax⟩
      · exact .inr ⟨hall, e.1, hhead⟩
  refine ⟨hsound m, fun hm => ?_⟩
  -- The search returns, and there is only one method id in force.
  have hreturns : ∃ m', methodIdInForce ids l2Height = .ok m' := by
    rw [methodIdInForce]
    split
    · next hone =>
      obtain ⟨e, rfl⟩ := length_eq_one_iff.mp hone
      exact ⟨e.2, rfl⟩
    · have hlt : (binarySearchByKey Prod.fst l2Height ids).orPrevious < ids.length :=
        orPrevious_lt h.ne_nil
      exact ⟨_, expect_eq_ok.mpr (by rw [List.getElem?_eq_getElem hlt]; rfl)⟩
  obtain ⟨m', hm'⟩ := hreturns
  rw [hm', h.scheduled_unique hm (hsound m' hm')]

/-- One of the blobs has brought the entry, with its signatures. -/
def Approved (env : LightClientEnv H) (cfg : LightClientConfig H) (blobs : List (Blob H))
    (entry : UInt64 × MethodId) : Prop :=
  ∃ blob ∈ blobs, ∃ m, env.dataOnDaTryFromSlice blob.fullData = some (.batchProofMethodId m) ∧
    entry = (m.body.activationL2Height, m.body.methodId) ∧ CouncilSigned env cfg m

/-- The blobs have taken the first list to the second: it is in order, and what it has more stands
at the end and is approved. -/
structure Grown (env : LightClientEnv H) (cfg : LightClientConfig H) (blobs : List (Blob H))
    (ids ids' : BatchProofMethodIds) : Prop where
  schedule : Schedule ids'
  appended : ∃ new, ids' = ids ++ new ∧ ∀ e ∈ new, Approved env cfg blobs e

theorem Grown.refl (h : Schedule ids) : Grown env cfg [] ids ids :=
  ⟨h, [], (append_nil ids).symm, by simp⟩

theorem Approved.mono (hsub : blobs ⊆ more) {e : UInt64 × MethodId} (h : Approved env cfg blobs e) :
    Approved env cfg more e := by
  obtain ⟨blob, hblob, rest⟩ := h
  exact ⟨blob, hsub hblob, rest⟩

theorem Grown.trans {a b c : BatchProofMethodIds} (hab : Grown env cfg blobs a b)
    (hbc : Grown env cfg more b c) : Grown env cfg (blobs ++ more) a c := by
  obtain ⟨new, rfl, hnew⟩ := hab.appended
  obtain ⟨new', rfl, hnew'⟩ := hbc.appended
  refine ⟨hbc.schedule, new ++ new', append_assoc a new new', fun e he => ?_⟩
  rcases mem_append.mp he with he | he
  · exact (hnew e he).mono (subset_append_left _ _)
  · exact (hnew' e he).mono (subset_append_right _ _)

variable [DecidableEq H] {ws : WorkingSet H} {s : LightClientState H} {height : UInt64}
  {index : UInt32} {ws' : WorkingSet H} {s' : LightClientState H}

theorem methodIds_set {k : Key H} {v : k.Value H} (h : k ≠ .batchProofMethodIds) :
    BatchProofMethodIdAccessor.get (ws.set k v) = BatchProofMethodIdAccessor.get ws :=
  WorkingSet.set_of_ne h.symm

/-- What one blob does to the list: nothing, or one approved entry at the end whose activation
height is the greatest. -/
theorem blobStep_methodIds {blob : Blob H} (h : BlobStep env cfg height index blob ws ws')
    {ids : BatchProofMethodIds} (hids : BatchProofMethodIdAccessor.get ws = some ids)
    (hschedule : Schedule ids) :
    ∃ ids', BatchProofMethodIdAccessor.get ws' = some ids' ∧ Grown env cfg [blob] ids ids' := by
  have hsame : Grown env cfg [blob] ids ids :=
    ⟨hschedule, [], (append_nil ids).symm, by simp⟩
  cases h with
  | skip => exact ⟨ids, hids, hsame⟩
  | chunk body parsed =>
    exact ⟨ids, by rw [ChunkAccessor.insert, methodIds_set (by simp), hids], hsame⟩
  | proof data proof methodIds methodId output ws' accepted stores =>
    exact ⟨ids, (stores.frame _ (by simp)).trans hids, hsame⟩
  | commitment c parsed sender fresh =>
    exact ⟨ids, by rw [SequencerCommitmentAccessor.insert, methodIds_set (by simp), hids], hsame⟩
  | methodId m methodIds last parsed methodIds_eq last_eq later chainId council =>
    obtain rfl := some_unique methodIds_eq hids
    refine ⟨methodIds ++ [(m.body.activationL2Height, m.body.methodId)], ?_, ?_, ?_⟩
    · rw [BatchProofMethodIdAccessor.insert, hids]
      exact WorkingSet.set_self ws .batchProofMethodIds _
    · refine ⟨by simp, pairwise_append.mpr ⟨hschedule.increasing, by simp, ?_⟩⟩
      -- The last entry has the greatest activation height so far.
      intro a ha b hb
      obtain rfl := mem_singleton.mp hb
      obtain ⟨front, hfront⟩ := List.getLast?_eq_some_iff.mp last_eq
      rw [hfront, mem_append, mem_singleton] at ha
      rcases ha with ha | rfl
      · have hincreasing := hschedule.increasing
        rw [hfront, pairwise_append] at hincreasing
        exact UInt64.lt_trans (hincreasing.2.2 a ha last (by simp)) later
      · exact later
    · refine ⟨_, rfl, fun e he => ?_⟩
      obtain rfl := mem_singleton.mp he
      exact ⟨blob, by simp, m, parsed, rfl, councilSigned_of_verify chainId council⟩

/-- The blobs of a block, or the first ones of them. -/
theorem processBlobs_methodIds {blobs : List (Blob H)}
    (h : processBlobs env cfg height index blobs ws = .ok ws') {ids : BatchProofMethodIds}
    (hids : BatchProofMethodIdAccessor.get ws = some ids) (hschedule : Schedule ids) :
    ∃ ids', BatchProofMethodIdAccessor.get ws' = some ids' ∧ Grown env cfg blobs ids ids' := by
  refine foldlM_induction (P := fun blobs m => ∃ ids',
    BatchProofMethodIdAccessor.get m = some ids' ∧ Grown env cfg blobs ids ids')
    ⟨ids, hids, .refl hschedule⟩ blobs ?_ ws' h
  rintro pre blob post m t - - ⟨mid, hmid, hgrown⟩ hstep
  obtain ⟨ids', hids', hgrown'⟩ := blobStep_methodIds (processBlob_ok hstep) hmid hgrown.schedule
  exact ⟨ids', hids', hgrown.trans hgrown'⟩

/-! ### Whole runs -/

/-- The method ids between two blocks. Before the first block these are the initial ones, which
`initialize` is about to store. -/
def methodIdsOf (cfg : LightClientConfig H) (s : LightClientState H) : BatchProofMethodIds :=
  (BatchProofMethodIdAccessor.get s.storage).getD cfg.initialBatchProofMethodIds

/-- The light client has no method ids before its first output, and has them after it. -/
def HasMethodIds (s : LightClientState H) : Prop :=
  (BatchProofMethodIdAccessor.get s.storage).isSome = s.output.isSome

omit [DecidableEq H] in
theorem hasMethodIds_initial : HasMethodIds (LightClientState.initial : LightClientState H) := rfl

/-- At the start of a block the list is stored. -/
theorem startBlock_methodIds (hs : HasMethodIds s) {hash : H}
    (h : startBlock cfg s.storage hash s.output = .ok ws) :
    BatchProofMethodIdAccessor.get ws = some (methodIdsOf cfg s) := by
  rw [HasMethodIds] at hs
  rw [methodIdsOf]
  cases hout : s.output with
  | none =>
    rw [hout, isSome_none, isSome_eq_false_iff, isNone_iff_eq_none] at hs
    rw [hout] at h
    simp only [startBlock, BatchProofMethodIdAccessor.initializeIds, bind_eq_ok,
      assert_eq_ok, pure_eq_ok] at h
    obtain ⟨-, -, rfl⟩ := h
    rw [hs]
    exact WorkingSet.set_self _ .batchProofMethodIds _
  | some output =>
    rw [hout, isSome_some, isSome_iff_exists] at hs
    obtain ⟨ids, hids⟩ := hs
    rw [hout, startBlock, pure_eq_ok] at h
    rw [← h, BlockHashAccessor.insert, methodIds_set (by simp), hids]
    rfl

/-- One block. -/
theorem stepL1Block_methodIds {block : L1Block H} (hs : HasMethodIds s)
    (hschedule : Schedule (methodIdsOf cfg s)) (h : stepL1Block env cfg s block = .ok s') :
    HasMethodIds s' ∧ Grown env cfg block.blobs (methodIdsOf cfg s) (methodIdsOf cfg s') := by
  obtain ⟨ws, run⟩ := stepL1Block_ok h
  obtain ⟨ids', hids', hgrown⟩ :=
    processBlobs_methodIds run.blobs (startBlock_methodIds hs run.start) hschedule
  obtain ⟨p, -, hout⟩ := run.chain
  refine ⟨by rw [HasMethodIds, hids', hout]; rfl, ?_⟩
  rw [show methodIdsOf cfg s' = ids' by rw [methodIdsOf, hids']; rfl]
  exact hgrown

/-- A run over blocks. -/
theorem runL1Blocks_methodIds {blocks : List (L1Block H)} (hs : HasMethodIds s)
    (hschedule : Schedule (methodIdsOf cfg s)) (h : runL1Blocks env cfg s blocks = .ok s') :
    HasMethodIds s' ∧
      Grown env cfg (blocks.flatMap (·.blobs)) (methodIdsOf cfg s) (methodIdsOf cfg s') := by
  refine foldlM_induction (P := fun blocks (m : LightClientState H) => HasMethodIds m ∧
      Grown env cfg (blocks.flatMap (·.blobs)) (methodIdsOf cfg s) (methodIdsOf cfg m))
    ⟨hs, .refl hschedule⟩ blocks ?_ s' h
  rintro pre block post m t - - ⟨hm, hgrown⟩ hstep
  obtain ⟨ht, hgrown'⟩ := stepL1Block_methodIds hm hgrown.schedule hstep
  refine ⟨ht, ?_⟩
  rw [flatMap_append, flatMap_singleton]
  exact hgrown.trans hgrown'

/-- The schedule of method ids. Between any two points of a run the list grows at its end only, by
approved entries, and stays in order. Inside a block, after any number of blobs, this holds as
well, and a proof is verified with the method id in force at its last L2 height. -/
theorem methodIds_schedule (hinitial : cfg.initialBatchProofMethodIds ≠ [])
    (hincreasing : cfg.initialBatchProofMethodIds.Pairwise fun a b => a.1 < b.1)
    {before after : List (L1Block H)} {s t : LightClientState H}
    (hbefore : runL1Blocks env cfg LightClientState.initial before = .ok s)
    (hafter : runL1Blocks env cfg s after = .ok t) :
    Grown env cfg (after.flatMap (·.blobs)) (methodIdsOf cfg s) (methodIdsOf cfg t) ∧
    ∀ (hash : H) (blobs : List (Blob H)) (ws₀ ws : WorkingSet H),
      startBlock cfg t.storage hash t.output = .ok ws₀ →
      processBlobs env cfg (initialProgress cfg t.output).lastL2Height
        (initialProgress cfg t.output).lastSequencerCommitmentIndex blobs ws₀ = .ok ws →
      ∃ ids, BatchProofMethodIdAccessor.get ws = some ids ∧
        Grown env cfg blobs (methodIdsOf cfg t) ids ∧
        (∀ l2Height m, methodIdInForce ids l2Height = .ok m ↔ Scheduled ids l2Height m) ∧
        ∀ (proof : Bytes) (lastL2Height : UInt64) (lastIndex : UInt32) (ws' : WorkingSet H),
          processCompleteProof env cfg proof lastL2Height lastIndex ws = .ok ws' →
          ∃ output m, extractOutput env proof = .ok output ∧ Scheduled ids output.lastL2Height m ∧
            env.zkVerify proof m (networkToDevMode cfg.network) = true := by
  have hstart : Schedule (methodIdsOf cfg LightClientState.initial) := ⟨hinitial, hincreasing⟩
  obtain ⟨hs, hgrown⟩ := runL1Blocks_methodIds hasMethodIds_initial hstart hbefore
  obtain ⟨ht, hgrown'⟩ := runL1Blocks_methodIds hs hgrown.schedule hafter
  refine ⟨hgrown', fun hash blobs ws₀ ws hws₀ hws => ?_⟩
  obtain ⟨ids, hids, hblobs⟩ :=
    processBlobs_methodIds hws (startBlock_methodIds ht hws₀) hgrown'.schedule
  refine ⟨ids, hids, hblobs, hblobs.schedule.methodIdInForce_iff, ?_⟩
  intro proof lastL2Height lastIndex ws' hproof
  obtain ⟨output, methodIds, m, hout, -, -, hget, hforce, hverify, -⟩ :=
    processCompleteProof_ok hproof
  obtain rfl := some_unique hget hids
  exact ⟨output, m, hout, (hblobs.schedule.methodIdInForce_iff _ m).mp hforce, hverify⟩

/-! ### Two upgrades and a replay -/

/-- A method id with the activation height `10 * n`, signed by the first, third and fifth member. -/
def sampleUpgrade (n : UInt8) : BatchProofMethodId where
  body := ⟨Vector.replicate 8 n.toUInt32, 10 * n.toUInt64, 5665⟩
  signaturesWithIndex := #v[([1], 0), ([3], 2), ([5], 4)]

/-- A light client whose blobs `[n]` are upgrades. A signature is the key itself. -/
def upgradeClient : LightClientEnv (List Nat) where
  sha256 := fun _ => []
  extractRawOutput := fun _ => none
  deserializeOutput := fun _ => none
  zkVerify := fun _ _ _ => true
  dataOnDaTryFromSlice := fun bytes => bytes.head?.map fun n =>
    .batchProofMethodId (sampleUpgrade n)
  decompressChunks := some
  serializeBody := fun _ => []
  eip191HashMessage := id
  verifyingKeyFromSec1 := some
  signatureFromBytes := some
  verifyPrehash := fun key _ signature => key == signature
  jmtRoot := fun _ => []

/-- A network with five different keys in the council. -/
def upgradeConfig : LightClientConfig (List Nat) where
  network := .nightly
  l2GenesisRoot := []
  lcpJmtGenesisRoot := []
  initialBatchProofMethodIds := [(0, Vector.replicate 8 0)]
  batchProverDaPublicKey := [2]
  sequencerDaPublicKey := [3]
  methodIdUpgradeAuthorityDaPublicKeys := #v[[1], [2], [3], [4], [5]]

/-- A block with two upgrades, and the first one again. -/
def upgradeBlock : L1Block (List Nat) := ⟨[9], [⟨[1], [], []⟩, ⟨[2], [], []⟩, ⟨[1], [], []⟩]⟩

/-- The two upgrades are in the list, in order, and the replay is not. -/
theorem upgradeBlock_schedule :
    ∃ s, runL1Blocks upgradeClient upgradeConfig LightClientState.initial [upgradeBlock] = .ok s ∧
      methodIdsOf upgradeConfig s =
        [(0, Vector.replicate 8 0), (10, Vector.replicate 8 1), (20, Vector.replicate 8 2)] ∧
      Grown upgradeClient upgradeConfig upgradeBlock.blobs [(0, Vector.replicate 8 0)]
        (methodIdsOf upgradeConfig s) := by
  have hrun : (runL1Blocks upgradeClient upgradeConfig LightClientState.initial
      [upgradeBlock]).map (methodIdsOf upgradeConfig) =
      .ok [(0, Vector.replicate 8 0), (10, Vector.replicate 8 1), (20, Vector.replicate 8 2)] := by
    decide +kernel
  obtain ⟨s, hs, hids⟩ := map_eq_ok.mp hrun
  refine ⟨s, hs, hids, ?_⟩
  have hnone : runL1Blocks upgradeClient upgradeConfig LightClientState.initial [] =
    .ok LightClientState.initial := rfl
  have hgrown := (methodIds_schedule (by decide) (by decide) hnone hs).1
  rw [flatMap_singleton] at hgrown
  exact hgrown

end Citrea.Proofs.LightClient
