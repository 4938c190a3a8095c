import Citrea.Proofs.LightClient.Linking
import Mathlib.Data.List.Perm.Basic

/-!
# `Citrea.Proofs.LightClient.OrderIndependence`: proofs in another order

Take a state of the light client and a list of blobs with proofs. The blobs may come in any order,
and in any number of L1 blocks. `OfferedFor` says which transition the stored ones and the blobs
together have for an index. The light client ends at the last index of an unbroken chain of offered
transitions (`BlockTracked.end_of_all`), so the order does not matter.

Two checks look at the progress: a proof whose last height or last index is not above the progress
is rejected. A rejected proof is not read again. `Tracked` is the invariant of a run: an index of a
proof that was read is reached, or it has its transition, or an index before it is not offered by
anyone. The last case is the one of a rejected proof, and here the argument needs that the end
heights of the commitments increase (`HeightsIncrease`).
-/

set_option linter.unusedSectionVars false

namespace Citrea.Proofs.LightClient

open List Lib Spec.BatchProof Spec.LightClient Proofs.BatchProof
open VerifiedTransitionAccessor renaming get → transitionAt
open SequencerCommitmentAccessor renaming get → commitmentAt
open Relation (ReflTransGen)

variable {H : Type} [DecidableEq H] {env : LightClientEnv H} {cfg : LightClientConfig H}
  {methodIds : BatchProofMethodIds} {ws : WorkingSet H} {proof : Bytes} {methodId : MethodId}
  {blob : Blob H}

/-! ### One proof -/

variable (env) in
/-- The proof system accepts only outputs with a commitment hash, and with one state root more than
commitment hashes. -/
def VerifiedHaveRoots : Prop :=
  ∀ proof methodId devMode output, env.zkVerify proof methodId devMode = true →
    extractOutput env proof = .ok output → output.sequencerCommitmentHashes ≠ [] ∧
      output.stateRoots.length = output.sequencerCommitmentHashes.length + 1

theorem VerifiedHaveRoots.haveHashes (h : VerifiedHaveRoots env) : VerifiedHaveHashes env :=
  fun proof methodId devMode output hverify hout =>
    (h proof methodId devMode output hverify hout).1

/-- The storing loop returns, and it leaves no index of its range above the progress without a
transition. -/
theorem storeTransitions_total {roots : List H} (last : UInt32) (items : List (UInt32 × Nat)) :
    ∀ {ws : WorkingSet H}, (∀ item ∈ items,
      (∃ c, commitmentAt item.1 ws = some c) ∧ item.2 + 1 < roots.length) →
    ∃ ws', items.foldlM (storeTransition roots last) ws = .ok ws' ∧
      ∀ item ∈ items, item.1 ≤ last ∨ transitionAt item.1 ws' ≠ none := by
  induction items with
  | nil => exact fun _ => ⟨_, rfl, by simp⟩
  | cons item rest ih =>
    intro ws hitems
    rw [forall_mem_cons] at hitems
    obtain ⟨⟨⟨c, hc⟩, hlength⟩, hrest⟩ := hitems
    -- the first turn
    have hfirst : ∃ m, storeTransition roots last ws item = .ok m ∧
        (item.1 ≤ last ∨ transitionAt item.1 m ≠ none) := by
      rw [storeTransition]
      split
      · next hskip =>
        refine ⟨ws, rfl, hskip.imp_right fun hsome => ?_⟩
        exact Option.isSome_iff_ne_none.mp hsome
      · rw [hc, List.getElem?_eq_getElem (by omega), List.getElem?_eq_getElem hlength]
        refine ⟨_, rfl, .inr ?_⟩
        rw [transitionAt, VerifiedTransitionAccessor.insert, WorkingSet.set_self]
        exact Option.some_ne_none _
    obtain ⟨m, hm, hstored⟩ := hfirst
    have hstores : StoresFrom roots last ([] ++ [item]) ws m :=
      StoresFrom.next ⟨fun _ _ => rfl, fun _ => .inl rfl⟩ hm
    have hrest' : ∀ item' ∈ rest, (∃ c, commitmentAt item'.1 m = some c) ∧
        item'.2 + 1 < roots.length := by
      intro item' hitem'
      obtain ⟨⟨c', hc'⟩, hlength'⟩ := hrest item' hitem'
      exact ⟨⟨c', (hstores.frame _ (by simp)).trans hc'⟩, hlength'⟩
    obtain ⟨ws', hws', hall⟩ := ih hrest'
    refine ⟨ws', by rw [foldlM_cons, hm]; exact hws', ?_⟩
    rw [forall_mem_cons]
    refine ⟨hstored.imp_right fun hne => ?_, hall⟩
    obtain ⟨info, hinfo⟩ := Option.ne_none_iff_exists'.mp hne
    have hkept := (storeTransitions_ok hws').extends (.verifiedTransition item.1) trivial info hinfo
    exact Option.ne_none_iff_exists'.mpr ⟨info, hkept⟩

theorem extractOutput_noPanic (proof : Bytes) : Outcome.NoPanic (extractOutput env proof) := by
  rw [extractOutput]
  split
  · exact Outcome.panicsOnly_err
  · split
    · exact Outcome.panicsOnly_err
    · exact Outcome.panicsOnly_ok

theorem methodIdInForce_noPanic (h : methodIds ≠ []) (l2Height : UInt64) :
    Outcome.NoPanic (methodIdInForce methodIds l2Height) := by
  rw [methodIdInForce]
  split
  · next hone =>
    exact Outcome.panicsOnly_expect_some
      (by rw [List.getElem?_eq_getElem (by omega), Option.map_some])
  · have hlt : (binarySearchByKey Prod.fst l2Height methodIds).orPrevious < methodIds.length :=
      orPrevious_lt h
    exact Outcome.panicsOnly_expect_some (by rw [List.getElem?_eq_getElem hlt, Option.map_some])

/-- The commitments and the roots that the storing loop needs. -/
theorem items_of_related (hroots : VerifiedHaveRoots env) {devMode : Bool}
    {output : BatchProofCircuitOutput H} (hverify : env.zkVerify proof methodId devMode = true)
    (hout : extractOutput env proof = .ok output)
    (hrelation : verifyBatchProofSeqCommRelation env output ws = true) :
    ∀ item ∈ outputItems output, (∃ c, commitmentAt item.1 ws = some c) ∧
      item.2 + 1 < output.stateRoots.length := by
  rintro ⟨i, idx⟩ hitem
  obtain ⟨hne, hlength⟩ := hroots proof methodId devMode output hverify hout
  have hrelated := related_of_verify env hrelation
  obtain ⟨hash, hhash⟩ := exists_hash_of_mem_items hrelated.length_eq hne hitem
  obtain ⟨c, hc, -⟩ := hrelated.stored i idx hash hitem hhash
  have hlt := (List.getElem?_eq_some_iff.mp hhash).1
  exact ⟨⟨c, hc⟩, by dsimp only; omega⟩

variable (cfg) in
theorem processCompleteProof_noPanic (hroots : VerifiedHaveRoots env)
    (hids : BatchProofMethodIdAccessor.get ws = some methodIds) (hne : methodIds ≠ [])
    (proof : Bytes) (lastL2Height : UInt64) (lastIndex : UInt32) :
    Outcome.NoPanic (processCompleteProof env cfg proof lastL2Height lastIndex ws) := by
  refine (extractOutput_noPanic proof).bind fun output hout => ?_
  refine Outcome.panicsOnly_ensure.bind fun _ _ => ?_
  refine Outcome.panicsOnly_ensure.bind fun _ _ => ?_
  refine (Outcome.panicsOnly_expect_some hids).bind fun methodIds' hids' => ?_
  rw [hids, expect_eq_ok, Option.some_inj] at hids'
  subst hids'
  refine (methodIdInForce_noPanic hne _).bind fun methodId _ => ?_
  refine Outcome.panicsOnly_ensure.bind fun _ hverify => ?_
  refine Outcome.panicsOnly_ensure.bind fun _ hrelation => ?_
  refine Outcome.panicsOnly_ensure.bind fun _ _ => ?_
  rw [ensure_eq_ok] at hverify hrelation
  obtain ⟨ws', hws', -⟩ := storeTransitions_total lastIndex _
    (items_of_related hroots hverify hout hrelation)
  show Outcome.NoPanic ((outputItems output).foldlM _ ws)
  rw [hws']
  exact Outcome.panicsOnly_ok

/-- A proof that passes the checks is stored, and every index of it above the progress then has a
transition. -/
theorem processCompleteProof_of_accepted (hroots : VerifiedHaveRoots env) {lastL2Height : UInt64}
    {lastIndex : UInt32} {data : DataOnDa H} {output : BatchProofCircuitOutput H}
    (h : AcceptedProof env cfg lastL2Height lastIndex ws blob data proof methodIds methodId
      output) : ∃ ws', processCompleteProof env cfg proof lastL2Height lastIndex ws = .ok ws' ∧
      ∀ item ∈ outputItems output, item.1 ≤ lastIndex ∨
        transitionAt item.1 ws' ≠ none := by
  obtain ⟨ws', hws', hall⟩ := storeTransitions_total lastIndex _
    (items_of_related hroots h.verified h.output_eq h.relation)
  refine ⟨ws', ?_, hall⟩
  have hheight : ¬ (output.lastL2Height ≤ lastL2Height ∧ lastL2Height ≠ 0) := by
    rw [not_and_or, UInt64.not_le, not_not]
    exact h.height.symm
  simp only [processCompleteProof, bind_eq_ok, ensure_eq_ok, expect_eq_ok]
  exact ⟨output, h.output_eq, (), h.l1Hash, (), hheight, methodIds, h.methodIds_eq, methodId,
    h.inForce, (), h.verified, (), h.relation, (), h.index, hws'⟩

/-! ### One blob -/

variable (env) in
/-- The blob carries a complete or an aggregate proof. -/
def IsProofBlob (blob : Blob H) : Prop :=
  ∃ data, env.dataOnDaTryFromSlice blob.fullData = some data ∧
    ((∃ body, data = .complete body) ∨ ∃ txids wtxids, data = .aggregate txids wtxids)

variable (env cfg) in
/-- The blob passes every check that does not look at the progress. A light client at the start
accepts it. -/
def VerifiedBlob (ws : WorkingSet H) (blob : Blob H) (output : BatchProofCircuitOutput H) : Prop :=
  ∃ data proof methodIds methodId,
    AcceptedProof env cfg 0 0 ws blob data proof methodIds methodId output

/-- The two checks that look at the progress. -/
def ReplayRejected (p : Progress H) (output : BatchProofCircuitOutput H) : Prop :=
  (output.lastL2Height ≤ p.lastL2Height ∧ p.lastL2Height ≠ 0) ∨
    output.sequencerCommitmentIndexRange.2 ≤ p.lastSequencerCommitmentIndex

variable (cfg) in
/-- What a blob with a proof does: nothing, if it is not verified or if it is rejected, and else it
stores its transitions. -/
theorem processBlob_proof (hroots : VerifiedHaveRoots env)
    (hids : BatchProofMethodIdAccessor.get ws = some methodIds) (hne : methodIds ≠ [])
    (hblob : IsProofBlob env blob) (p : Progress H) :
    (processBlob env cfg p.lastL2Height p.lastSequencerCommitmentIndex ws blob = .ok ws ∧
      ∀ output, VerifiedBlob env cfg ws blob output → ReplayRejected p output) ∨
    ∃ output ws', processBlob env cfg p.lastL2Height p.lastSequencerCommitmentIndex ws blob =
        .ok ws' ∧ VerifiedBlob env cfg ws blob output ∧
      (∀ output', VerifiedBlob env cfg ws blob output' → output' = output) ∧
      StoresFrom output.stateRoots p.lastSequencerCommitmentIndex (outputItems output) ws ws' ∧
      ∀ item ∈ outputItems output, item.1 ≤ p.lastSequencerCommitmentIndex ∨
        transitionAt item.1 ws' ≠ none := by
  obtain ⟨data, hdata, hkind⟩ := hblob
  have hprocess : processBlob env cfg p.lastL2Height p.lastSequencerCommitmentIndex ws blob =
      processProofBlob env cfg p.lastL2Height p.lastSequencerCommitmentIndex blob data ws := by
    rw [processBlob, hdata]
    rcases hkind with ⟨body, rfl⟩ | ⟨txids, wtxids, rfl⟩
    · rfl
    · rfl
  rw [hprocess, processProofBlob]
  split
  · next hsender =>
    refine .inl ⟨rfl, ?_⟩
    rintro output ⟨_, _, _, _, haccepted⟩
    exact absurd haccepted.sender hsender
  next hsender =>
  rw [not_not] at hsender
  split
  · next hproof =>
    refine .inl ⟨rfl, ?_⟩
    rintro output ⟨data', proof, _, _, haccepted⟩
    obtain rfl := some_unique hdata haccepted.parsed
    simpa [hproof] using haccepted.proof_eq
  next proof hproof =>
  -- the output of a verified blob is the one of this proof
  have hverified : ∀ {output}, VerifiedBlob env cfg ws blob output → ∃ methodIds methodId,
      AcceptedProof env cfg 0 0 ws blob data proof methodIds methodId output := by
    rintro output ⟨data', proof', methodIds', methodId, haccepted⟩
    obtain rfl := some_unique hdata haccepted.parsed
    obtain rfl := some_unique hproof haccepted.proof_eq
    exact ⟨methodIds', methodId, haccepted⟩
  rcases (processCompleteProof_noPanic cfg hroots hids hne proof p.lastL2Height
    p.lastSequencerCommitmentIndex).cases with ⟨e, herr⟩ | ⟨ws', hok⟩
  · refine .inl ⟨by rw [herr]; rfl, fun output houtput => ?_⟩
    by_contra hrejected
    rw [ReplayRejected, not_or, not_and_or, UInt64.not_le, not_not, UInt32.not_le] at hrejected
    obtain ⟨methodIds', methodId, haccepted⟩ := hverified houtput
    obtain ⟨ws', hok, -⟩ := processCompleteProof_of_accepted hroots
      { haccepted with height := hrejected.1.symm, index := hrejected.2 }
    exact err_ne_ok (herr.symm.trans hok)
  · obtain ⟨output, methodIds', methodId, houtput, hhash, hheight, hids', hforce, hzk, hrelation,
      hindex, hstores⟩ := processCompleteProof_ok hok
    have hpos : (0 : UInt32) < output.sequencerCommitmentIndexRange.2 := by
      rw [UInt32.lt_iff_toNat_lt] at hindex ⊢
      exact lt_of_le_of_lt (Nat.zero_le _) hindex
    have haccepted : AcceptedProof env cfg p.lastL2Height p.lastSequencerCommitmentIndex ws blob
        data proof methodIds' methodId output :=
      ⟨hdata, hkind, hsender, hproof, houtput, hhash, hheight, hids', hforce, hzk, hrelation,
        hindex⟩
    refine .inr ⟨output, ws', by rw [hok]; rfl, ⟨data, proof, methodIds', methodId,
      { haccepted with height := .inl rfl, index := hpos }⟩, ?_, hstores, ?_⟩
    · intro output' houtput'
      obtain ⟨_, _, haccepted'⟩ := hverified houtput'
      exact ok_unique haccepted'.output_eq houtput
    · obtain ⟨ws'', hok', hall⟩ := processCompleteProof_of_accepted hroots haccepted
      obtain rfl := ok_unique hok hok'
      exact hall

/-! ### What is offered -/

variable (env cfg) in
/-- The transition that the stored ones and the blobs together have for an index. A stored
transition is never replaced, and no transition is stored for index 0. -/
def OfferedFor (ws₀ : WorkingSet H) (blobs : List (Blob H)) (i : UInt32)
    (info : VerifiedStateTransition H) : Prop :=
  transitionAt i ws₀ = some info ∨
    (transitionAt i ws₀ = none ∧ i ≠ 0 ∧ ∃ blob ∈ blobs, ∃ output idx,
      VerifiedBlob env cfg ws₀ blob output ∧ (i, idx) ∈ outputItems output ∧
      TransitionOf output.stateRoots ws₀ (i, idx) info)

variable (env cfg) in
/-- The verified transitions of the blobs agree on every common index. -/
def TransitionsAgree (ws₀ : WorkingSet H) (blobs : List (Blob H)) : Prop :=
  ∀ blob ∈ blobs, ∀ blob' ∈ blobs, ∀ output output' i idx idx' info info',
    VerifiedBlob env cfg ws₀ blob output → VerifiedBlob env cfg ws₀ blob' output' →
    (i, idx) ∈ outputItems output → (i, idx') ∈ outputItems output' →
    TransitionOf output.stateRoots ws₀ (i, idx) info →
    TransitionOf output'.stateRoots ws₀ (i, idx') info' → info = info'

variable (env cfg) in
/-- The blobs carry proofs whose verified transitions agree, and the method ids and the L1 hashes
that they need are stored. -/
structure ProofsReady (ws₀ : WorkingSet H) (blobs : List (Blob H)) : Prop where
  methodIds : ∃ methodIds, BatchProofMethodIdAccessor.get ws₀ = some methodIds ∧ methodIds ≠ []
  kinds : ∀ blob ∈ blobs, IsProofBlob env blob
  l1Hashes : ∀ blob ∈ blobs, ∀ data proof output,
    env.dataOnDaTryFromSlice blob.fullData = some data → proofOfBlob env ws₀ data = some proof →
    extractOutput env proof = .ok output →
    BlockHashAccessor.existsHash output.lastL1HashOnBitcoinLightClientContract ws₀ = true
  agree : TransitionsAgree env cfg ws₀ blobs

variable (env cfg) in
/-- A commitment ends above the commitment of the index before it, where the index has a
transition, stored or from a blob. -/
def HeightsIncrease (ws₀ : WorkingSet H) (blobs : List (Blob H)) : Prop :=
  ∀ k info c d, k ≠ 0 → OfferedFor env cfg ws₀ blobs (k + 1) info →
    commitmentAt k ws₀ = some c →
    commitmentAt (k + 1) ws₀ = some d →
    c.l2EndBlockNumber < d.l2EndBlockNumber

variable (env cfg) in
/-- One step along the offered transitions. -/
def Next (ws₀ : WorkingSet H) (blobs : List (Blob H)) (p q : Progress H) : Prop :=
  ∃ info, OfferedFor env cfg ws₀ blobs (p.lastSequencerCommitmentIndex + 1) info ∧
    info.initialStateRoot = p.l2StateRoot ∧
    q = ⟨info.finalStateRoot, info.lastL2Height, p.lastSequencerCommitmentIndex + 1⟩

variable (env cfg) in
/-- The offered transitions do not lead on from `p`. -/
def IsLast (ws₀ : WorkingSet H) (blobs : List (Blob H)) (p : Progress H) : Prop :=
  ∀ info, ¬ OfferedFor env cfg ws₀ blobs (p.lastSequencerCommitmentIndex + 1) info

variable (env cfg) in
/-- An index above `p` and up to `i` is not offered. -/
def GapBefore (ws₀ : WorkingSet H) (blobs : List (Blob H)) (p : Progress H) (i : UInt32) : Prop :=
  ∃ j, p.lastSequencerCommitmentIndex < j ∧ j ≤ i ∧ ∀ info, ¬ OfferedFor env cfg ws₀ blobs j info

/-- The stored transitions carry the end heights of their commitments, and index 0 has none. -/
structure StoredHeights (ws₀ : WorkingSet H) : Prop where
  zero : transitionAt 0 ws₀ = none
  height : ∀ i info, transitionAt i ws₀ = some info →
    ∃ c, commitmentAt i ws₀ = some c ∧ info.lastL2Height = c.l2EndBlockNumber

/-- The height of a progress is the end height of its commitment, and 0 at index 0. -/
def AtCommitment (ws₀ : WorkingSet H) (p : Progress H) : Prop :=
  (p.lastSequencerCommitmentIndex = 0 → p.lastL2Height = 0) ∧
    (p.lastSequencerCommitmentIndex ≠ 0 → ∃ c,
      commitmentAt p.lastSequencerCommitmentIndex ws₀ = some c ∧
        p.lastL2Height = c.l2EndBlockNumber)

section Offered
variable {ws₀ : WorkingSet H} {blobs : List (Blob H)} {i : UInt32}
  {info : VerifiedStateTransition H} {output : BatchProofCircuitOutput H} {item : UInt32 × Nat}
  {p : Progress H} {blob : Blob H} {q : Progress H}

theorem OfferedFor.unique (hagree : TransitionsAgree env cfg ws₀ blobs)
    {info' : VerifiedStateTransition H} (h : OfferedFor env cfg ws₀ blobs i info)
    (h' : OfferedFor env cfg ws₀ blobs i info') : info = info' := by
  rcases h with h | ⟨hnone, -, blob, hblob, output, idx, hverified, hmem, hof⟩
  · rcases h' with h' | ⟨hnone, -⟩
    · exact some_unique h h'
    · simp [hnone] at h
  · rcases h' with h' | ⟨-, -, blob', hblob', output', idx', hverified', hmem', hof'⟩
    · simp [hnone] at h'
    · exact hagree blob hblob blob' hblob' output output' i idx idx' info info' hverified hverified'
        hmem hmem' hof hof'

theorem OfferedFor.ne_zero (hstored : StoredHeights ws₀) (h : OfferedFor env cfg ws₀ blobs i info) :
    i ≠ 0 := by
  rcases h with h | ⟨-, hne, -⟩
  · rintro rfl
    simp [hstored.zero] at h
  · exact hne

theorem OfferedFor.height (hstored : StoredHeights ws₀) (h : OfferedFor env cfg ws₀ blobs i info) :
    ∃ c, commitmentAt i ws₀ = some c ∧
      info.lastL2Height = c.l2EndBlockNumber := by
  rcases h with h | ⟨-, -, _, -, _, _, -, -, hof⟩
  · exact hstored.height i info h
  · exact hof.commitment

/-- The index after one with an offered transition does not wrap. -/
theorem toNat_add_one (h : i + 1 ≠ 0) : (i + 1).toNat = i.toNat + 1 := by
  have hne : (i + 1).toNat ≠ 0 := fun hzero => h (UInt32.toNat_inj.mp hzero)
  have hlt := i.toNat_lt
  have hone : (1 : UInt32).toNat = 1 := rfl
  rw [UInt32.toNat_add, hone] at hne ⊢
  omega

/-- Every index of a verified blob is offered. -/
theorem offered_of_item (hroots : VerifiedHaveRoots env) (hblob : blob ∈ blobs)
    (hverified : VerifiedBlob env cfg ws₀ blob output) (hitem : item ∈ outputItems output)
    (hne : item.1 ≠ 0) : ∃ info, OfferedFor env cfg ws₀ blobs item.1 info := by
  cases hstored : transitionAt item.1 ws₀ with
  | some info => exact ⟨info, .inl hstored⟩
  | none =>
    have hverified' := hverified
    obtain ⟨data, proof, methodIds, methodId, haccepted⟩ := hverified
    obtain ⟨⟨c, hc⟩, hlength⟩ := items_of_related hroots haccepted.verified haccepted.output_eq
      haccepted.relation item hitem
    refine ⟨⟨output.stateRoots[item.2], output.stateRoots[item.2 + 1], c.l2EndBlockNumber⟩,
      .inr ⟨hstored, hne, blob, hblob, output, item.2, hverified', hitem, ?_⟩⟩
    exact ⟨List.getElem?_eq_getElem _, List.getElem?_eq_getElem _, c, hc, rfl⟩

theorem Next.rightUnique (hagree : TransitionsAgree env cfg ws₀ blobs) :
    Relator.RightUnique (Next env cfg ws₀ blobs) := by
  rintro p q q' ⟨info, hinfo, -, rfl⟩ ⟨info', hinfo', -, rfl⟩
  rw [hinfo.unique hagree hinfo']

/-- Every index that the steps have passed is offered. -/
theorem offered_of_reaches (hstored : StoredHeights ws₀)
    (h : ReflTransGen (Next env cfg ws₀ blobs) p q) :
    ∀ j, p.lastSequencerCommitmentIndex < j → j ≤ q.lastSequencerCommitmentIndex →
      ∃ info, OfferedFor env cfg ws₀ blobs j info := by
  induction h with
  | refl => exact fun j hlt hle => absurd hle (UInt32.not_le.mpr hlt)
  | @tail m q _ hnext ih =>
    intro j hlt hle
    obtain ⟨info, hinfo, -, rfl⟩ := hnext
    have hne := hinfo.ne_zero hstored
    by_cases hj : j = m.lastSequencerCommitmentIndex + 1
    · exact ⟨info, hj ▸ hinfo⟩
    · exact ih j hlt (by grind)

/-- Every progress on the way is before the last one. -/
theorem reaches_last (hagree : TransitionsAgree env cfg ws₀ blobs) {last : Progress H}
    (hq : ReflTransGen (Next env cfg ws₀ blobs) p q)
    (hlast : ReflTransGen (Next env cfg ws₀ blobs) p last) (hend : IsLast env cfg ws₀ blobs last) :
    ReflTransGen (Next env cfg ws₀ blobs) q last := by
  rcases ReflTransGen.total_of_right_unique (Next.rightUnique hagree) hq hlast with h | h
  · exact h
  · rcases h.cases_head with rfl | ⟨_, ⟨info, hinfo, -⟩, -⟩
    · exact .refl
    · exact absurd hinfo (hend info)

theorem atCommitment_of_reaches (hstored : StoredHeights ws₀)
    (h : ReflTransGen (Next env cfg ws₀ blobs) p q) (hp : AtCommitment ws₀ p) :
    AtCommitment ws₀ q := by
  cases h with
  | refl => exact hp
  | tail _ hnext =>
    obtain ⟨info, hinfo, -, rfl⟩ := hnext
    exact ⟨fun hzero => absurd hzero (hinfo.ne_zero hstored), fun _ => hinfo.height hstored⟩

/-- The end heights increase over a stretch of offered indices. -/
theorem end_lt_of_offered (hstored : StoredHeights ws₀)
    (hheights : HeightsIncrease env cfg ws₀ blobs) {k j : UInt32} (hk : k ≠ 0)
    {c d : SequencerCommitment H} (hc : commitmentAt k ws₀ = some c) (hlt : k < j)
    (hoffered : ∀ i, k < i → i ≤ j → ∃ info, OfferedFor env cfg ws₀ blobs i info)
    (hd : commitmentAt j ws₀ = some d) : c.l2EndBlockNumber < d.l2EndBlockNumber := by
  obtain ⟨info', hinfo'⟩ := hoffered j hlt (UInt32.le_refl _)
  by_cases hj : j = k + 1
  · subst hj
    exact hheights k info' c d hk hinfo' hc hd
  · -- the commitment of the index before `j` lies between the two
    obtain ⟨info, hinfo⟩ := hoffered (j - 1) (by grind) (by grind)
    obtain ⟨e, he, -⟩ := hinfo.height hstored
    have hbelow := end_lt_of_offered hstored hheights hk hc (j := j - 1) (by grind)
      (fun i hi hle => hoffered i hi (by grind)) he
    rw [← UInt32.sub_add_cancel j 1] at hinfo' hd
    exact UInt64.lt_trans hbelow
      (hheights (j - 1) info' e d (hinfo.ne_zero hstored) hinfo' he hd)
termination_by j.toNat
decreasing_by exact UInt32.lt_iff_toNat_lt.mp (by grind)

/-- The last index of a range that has an item is an item. -/
theorem last_mem_items (h : item ∈ outputItems output) :
    ∃ idx, (output.sequencerCommitmentIndexRange.2, idx) ∈ outputItems output ∧
      UInt32.ofNat idx = output.sequencerCommitmentIndexRange.2 -
        output.sequencerCommitmentIndexRange.1 := by
  obtain ⟨hitem, hle⟩ := mem_zipIdx_indexRange.mp h
  refine ⟨output.sequencerCommitmentIndexRange.2.toNat -
    output.sequencerCommitmentIndexRange.1.toNat, mem_zipIdx_indexRange.mpr (by omega), ?_⟩
  have hlt := output.sequencerCommitmentIndexRange.2.toNat_lt
  rw [← UInt32.toNat_inj, UInt32.toNat_sub_of_le _ _ (UInt32.le_iff_toNat_le.mpr (by omega)),
    UInt32.toNat_ofNat', Nat.mod_eq_of_lt (by omega)]

/-- The last commitment of a verified output ends at the height of the output. -/
theorem end_of_verify {ws : WorkingSet H} (h : verifyBatchProofSeqCommRelation env output ws = true)
    (hne : output.sequencerCommitmentHashes ≠ []) (hitem : item ∈ outputItems output) :
    ∃ c, commitmentAt output.sequencerCommitmentIndexRange.2 ws = some c ∧
      c.l2EndBlockNumber = output.lastL2Height := by
  obtain ⟨idx, hmem, hidx⟩ := last_mem_items hitem
  obtain ⟨hash, hhash⟩ := exists_hash_of_mem_items (related_of_verify env h).length_eq hne hmem
  simp only [verifyBatchProofSeqCommRelation, Bool.and_eq_true] at h
  have hmatch := h.2
  rw [commitmentsMatch, all_eq_true] at hmatch
  rw [outputItems, mem_zipIdx_iff_getElem?] at hmem
  have hlast := hmatch ((output.sequencerCommitmentIndexRange.2, hash), idx) (by
    rw [mem_zipIdx_iff_getElem?, List.getElem?_zip_eq_some]
    exact ⟨hmem, hhash⟩)
  simp only [hidx] at hlast
  split at hlast
  · simp at hlast
  · next c hc => exact ⟨c, hc, by simpa using (Bool.and_eq_true_iff.mp hlast).1⟩

/-- A verified proof that the replay checks reject has no index that is still needed: each is
reached already, or an index up to it is not offered. -/
theorem item_of_rejected (hroots : VerifiedHaveRoots env) (hstored : StoredHeights ws₀)
    (hheights : HeightsIncrease env cfg ws₀ blobs) (hp : AtCommitment ws₀ p)
    (hblob : blob ∈ blobs) (hverified : VerifiedBlob env cfg ws₀ blob output)
    (hrejected : ReplayRejected p output) (hitem : item ∈ outputItems output) :
    item.1 ≤ p.lastSequencerCommitmentIndex ∨ GapBefore env cfg ws₀ blobs p item.1 := by
  obtain ⟨hfirst, hlast⟩ := mem_zipIdx_indexRange.mp hitem
  rcases hrejected with ⟨hheight, hne⟩ | hindex
  · by_contra hneeded
    rw [not_or, UInt32.not_le] at hneeded
    obtain ⟨hlt, hgap⟩ := hneeded
    -- every index from the progress to the end of the proof is offered
    have hoffered : ∀ i, p.lastSequencerCommitmentIndex < i →
        i ≤ output.sequencerCommitmentIndexRange.2 →
        ∃ info, OfferedFor env cfg ws₀ blobs i info := by
      intro i hi hle
      by_cases hbefore : i ≤ item.1
      · by_contra hnone
        exact hgap ⟨i, hi, hbefore, not_exists.mp hnone⟩
      · have hne : i ≠ 0 := by grind
        rw [UInt32.not_le, UInt32.lt_iff_toNat_lt] at hbefore
        rw [UInt32.le_iff_toNat_le] at hle
        have hmem : (i, i.toNat - output.sequencerCommitmentIndexRange.1.toNat) ∈
            outputItems output := mem_zipIdx_indexRange.mpr (by omega)
        exact offered_of_item hroots hblob hverified hmem hne
    have hp0 : p.lastSequencerCommitmentIndex ≠ 0 := fun hzero => hne (hp.1 hzero)
    obtain ⟨c, hc, hpc⟩ := hp.2 hp0
    obtain ⟨data, proof, methodIds, methodId, haccepted⟩ := hverified
    obtain ⟨d, hd, hend⟩ := end_of_verify haccepted.relation
      (hroots.haveHashes proof methodId _ output haccepted.verified haccepted.output_eq) hitem
    have hends := end_lt_of_offered hstored hheights hp0 hc
      (UInt32.lt_of_lt_of_le hlt (UInt32.le_iff_toNat_le.mpr hlast)) hoffered hd
    rw [hend, ← hpc, ← UInt64.not_le] at hends
    exact hends hheight
  · rw [UInt32.le_iff_toNat_le] at hindex
    exact .inl (UInt32.le_iff_toNat_le.mpr (by omega))

end Offered

/-! ### The data that proofs read -/

/-- `ws'` has the chunks, the commitments and the method ids of `ws`, and its block hashes. -/
structure SameInputs (ws ws' : WorkingSet H) : Prop where
  chunks : ∀ wtxid, ChunkAccessor.get wtxid ws' = ChunkAccessor.get wtxid ws
  commitments : ∀ i, commitmentAt i ws' = commitmentAt i ws
  methodIds : BatchProofMethodIdAccessor.get ws' = BatchProofMethodIdAccessor.get ws
  hashes : ∀ hash, BlockHashAccessor.existsHash hash ws = true →
    BlockHashAccessor.existsHash hash ws' = true

section Same
variable {ws ws' : WorkingSet H}

variable (h : SameInputs ws ws')
include h

theorem collectChunks_congr (wtxids : List H) :
    ∀ body, collectChunks ws' wtxids body = collectChunks ws wtxids body := by
  induction wtxids with
  | nil => exact fun _ => rfl
  | cons wtxid rest ih =>
    intro body
    simp [collectChunks, h.chunks, ih]

theorem proofOfBlob_congr (data : DataOnDa H) :
    proofOfBlob env ws' data = proofOfBlob env ws data := by
  cases data with
  | aggregate txids wtxids => simp [proofOfBlob, collectChunks_congr h]
  | complete _ | chunk _ | batchProofMethodId _ | sequencerCommitment _ => rfl

theorem verifyRelation_congr (output : BatchProofCircuitOutput H) :
    verifyBatchProofSeqCommRelation env output ws' =
      verifyBatchProofSeqCommRelation env output ws := by
  simp [verifyBatchProofSeqCommRelation, commitmentsMatch, h.commitments]

theorem transitionOf_congr {roots : List H} {item : UInt32 × Nat}
    {info : VerifiedStateTransition H} :
    TransitionOf roots ws' item info ↔ TransitionOf roots ws item info := by
  have hc := h.commitments item.1
  exact ⟨fun ht => ⟨ht.initial, ht.final, hc ▸ ht.commitment⟩,
    fun ht => ⟨ht.initial, ht.final, hc.symm ▸ ht.commitment⟩⟩

/-- A blob is verified with the same data, if its L1 hash is known. -/
theorem verifiedBlob_congr {blobs : List (Blob H)}
    (hready : ProofsReady env cfg ws blobs) {blob : Blob H} (hblob : blob ∈ blobs)
    {output : BatchProofCircuitOutput H} :
    VerifiedBlob env cfg ws' blob output ↔ VerifiedBlob env cfg ws blob output := by
  constructor
  · rintro ⟨data, proof, methodIds, methodId, ha⟩
    have hproof := (proofOfBlob_congr h data).symm.trans ha.proof_eq
    exact ⟨data, proof, methodIds, methodId, { ha with
      proof_eq := hproof
      l1Hash := hready.l1Hashes blob hblob data proof output ha.parsed hproof ha.output_eq
      methodIds_eq := h.methodIds.symm.trans ha.methodIds_eq
      relation := (verifyRelation_congr h output).symm.trans ha.relation }⟩
  · rintro ⟨data, proof, methodIds, methodId, ha⟩
    exact ⟨data, proof, methodIds, methodId, { ha with
      proof_eq := (proofOfBlob_congr h data).trans ha.proof_eq
      l1Hash := h.hashes _ ha.l1Hash
      methodIds_eq := h.methodIds.trans ha.methodIds_eq
      relation := (verifyRelation_congr h output).trans ha.relation }⟩

theorem SameInputs.trans {ws'' : WorkingSet H} (h' : SameInputs ws' ws'') : SameInputs ws ws'' :=
  ⟨fun w => (h'.chunks w).trans (h.chunks w), fun i => (h'.commitments i).trans (h.commitments i),
    h'.methodIds.trans h.methodIds, fun hash hh => h'.hashes hash (h.hashes hash hh)⟩

omit h

theorem StoresFrom.sameInputs {roots : List H} {last : UInt32} {items : List (UInt32 × Nat)}
    (h : StoresFrom roots last items ws ws') : SameInputs ws ws' := by
  refine ⟨fun w => h.frame _ (by simp), fun i => h.frame _ (by simp), h.frame _ (by simp), ?_⟩
  intro hash hhash
  rwa [BlockHashAccessor.existsHash, h.frame _ (by simp)]

theorem insertHash_frame {hash : H} {ws : WorkingSet H} (k : Key H) (h : k ≠ .blockHash hash) :
    BlockHashAccessor.insert hash ws k = ws k := WorkingSet.set_of_ne h

theorem sameInputs_insertHash (hash : H) (ws : WorkingSet H) :
    SameInputs ws (BlockHashAccessor.insert hash ws) := by
  refine ⟨fun w => insertHash_frame _ (by simp), fun i => insertHash_frame _ (by simp),
    insertHash_frame _ (by simp), fun other hother => ?_⟩
  obtain ⟨u, hu⟩ := Option.isSome_iff_exists.mp hother
  have hext : WorkingSet.Extends ws (BlockHashAccessor.insert hash ws) := .set fun _ _ _ => rfl
  rw [BlockHashAccessor.existsHash, hext (.blockHash other) trivial u hu]
  rfl

end Same

/-! ### The invariant of a run -/

variable (env cfg) in
/-- What the comparison of two orders rests on. -/
structure OrderSetting (ws₀ : WorkingSet H) (blobs : List (Blob H)) : Prop where
  roots : VerifiedHaveRoots env
  stored : StoredHeights ws₀
  ready : ProofsReady env cfg ws₀ blobs
  heights : HeightsIncrease env cfg ws₀ blobs

variable (env cfg) in
/-- The blobs `done` were read, and `p` is the progress at the start of the block. -/
structure Tracked (ws₀ : WorkingSet H) (blobs done : List (Blob H)) (p : Progress H)
    (ws : WorkingSet H) : Prop where
  inputs : SameInputs ws₀ ws
  kept : ∀ i info, transitionAt i ws₀ = some info →
    transitionAt i ws = some info
  offered : ∀ i info, transitionAt i ws = some info →
    OfferedFor env cfg ws₀ blobs i info
  covered : ∀ blob ∈ done, ∀ output, VerifiedBlob env cfg ws₀ blob output →
    ∀ item ∈ outputItems output, item.1 ≤ p.lastSequencerCommitmentIndex ∨
      transitionAt item.1 ws ≠ none ∨ GapBefore env cfg ws₀ blobs p item.1

section Tracking
variable {ws₀ ws : WorkingSet H} {blobs done : List (Blob H)} {p : Progress H}

/-- One more blob. It always returns. -/
theorem Tracked.processBlob (hset : OrderSetting env cfg ws₀ blobs)
    (hp : AtCommitment ws₀ p) (h : Tracked env cfg ws₀ blobs done p ws) {blob : Blob H}
    (hblob : blob ∈ blobs) :
    ∃ ws', Spec.LightClient.processBlob env cfg p.lastL2Height p.lastSequencerCommitmentIndex ws
        blob = .ok ws' ∧ Tracked env cfg ws₀ blobs (done ++ [blob]) p ws' := by
  obtain ⟨methodIds, hids, hne⟩ := hset.ready.methodIds
  have hsame : ∀ {output}, VerifiedBlob env cfg ws blob output ↔
      VerifiedBlob env cfg ws₀ blob output := verifiedBlob_congr h.inputs hset.ready hblob
  rcases processBlob_proof cfg hset.roots (h.inputs.methodIds.trans hids) hne
    (hset.ready.kinds blob hblob) p with ⟨hok, hrejected⟩ |
      ⟨output, ws', hok, hverified, hunique, hstores, hall⟩
  · refine ⟨ws, hok, h.inputs, h.kept, h.offered, ?_⟩
    intro blob' hblob' output' hverified' item hitem
    rcases mem_append.mp hblob' with hdone | hlast
    · exact h.covered blob' hdone output' hverified' item hitem
    · obtain rfl := mem_singleton.mp hlast
      exact (item_of_rejected hset.roots hset.stored hset.heights hp hblob hverified'
        (hrejected output' (hsame.mpr hverified')) hitem).imp_right .inr
  · have hext := hstores.extends
    refine ⟨ws', hok, h.inputs.trans hstores.sameInputs, ?_, ?_, ?_⟩
    · exact fun i info hinfo => hext (.verifiedTransition i) trivial info (h.kept i info hinfo)
    · intro i info hinfo
      rcases hstores.written i with heq | ⟨hnone, hlt, idx, written, hmem, hof, hget⟩
      · exact h.offered i info (heq.symm.trans hinfo)
      · obtain rfl := some_unique hget hinfo
        refine .inr ⟨?_, ?_, blob, hblob, output, idx, hsame.mp hverified, hmem,
          (transitionOf_congr h.inputs).mp hof⟩
        · rw [Option.eq_none_iff_forall_ne_some]
          intro old hold
          simpa [hnone] using h.kept i old hold
        · rintro rfl
          simp at hlt
    · intro blob' hblob' output' hverified' item hitem
      rcases mem_append.mp hblob' with hdone | hlast
      · refine (h.covered blob' hdone output' hverified' item hitem).imp_right (Or.imp_left ?_)
        intro hsome
        obtain ⟨info, hinfo⟩ := Option.ne_none_iff_exists'.mp hsome
        exact Option.ne_none_iff_exists'.mpr
          ⟨info, hext (.verifiedTransition item.1) trivial info hinfo⟩
      · obtain rfl := mem_singleton.mp hlast
        obtain rfl := hunique output' (hsame.mpr hverified')
        exact (hall item hitem).imp_right .inl

/-- The blobs of a block. -/
theorem Tracked.processBlobs (hset : OrderSetting env cfg ws₀ blobs)
    (hp : AtCommitment ws₀ p) (h : Tracked env cfg ws₀ blobs done p ws) {more : List (Blob H)}
    (hmore : ∀ blob ∈ more, blob ∈ blobs) :
    ∃ ws', Spec.LightClient.processBlobs env cfg p.lastL2Height p.lastSequencerCommitmentIndex more
        ws = .ok ws' ∧ Tracked env cfg ws₀ blobs (done ++ more) p ws' := by
  refine foldlM_returns (P := fun read ws' => Tracked env cfg ws₀ blobs (done ++ read) p ws')
    (by rwa [append_nil]) more ?_
  intro pre blob post m hsplit hm
  rw [← append_assoc]
  refine hm.processBlob hset hp (hmore blob ?_)
  rw [hsplit]
  exact mem_append_right _ mem_cons_self

/-- A later progress along the offered transitions. -/
theorem Tracked.advance (hstored : StoredHeights ws₀) (h : Tracked env cfg ws₀ blobs done p ws)
    {q : Progress H} (hreach : ReflTransGen (Next env cfg ws₀ blobs) p q)
    (hle : p.lastSequencerCommitmentIndex ≤ q.lastSequencerCommitmentIndex) :
    Tracked env cfg ws₀ blobs done q ws := by
  refine { h with covered := fun blob hblob output hverified item hitem => ?_ }
  rcases h.covered blob hblob output hverified item hitem with hold | hsome | ⟨j, hlt, hji, hgap⟩
  · exact .inl (UInt32.le_trans hold hle)
  · exact .inr (.inl hsome)
  · -- the steps have not passed the missing index
    refine .inr (.inr ⟨j, ?_, hji, hgap⟩)
    rw [← UInt32.not_le]
    intro hjq
    obtain ⟨info, hinfo⟩ := offered_of_reaches hstored hreach j hlt hjq
    exact hgap info hinfo

/-- The chaining loop goes along the offered transitions. -/
theorem chainTransitions_reaches (h : Tracked env cfg ws₀ blobs done p ws) (fuel : Nat) :
    ∀ q q', chainTransitions ws fuel q = .ok q' → ReflTransGen (Next env cfg ws₀ blobs) q q' := by
  induction fuel with
  | zero =>
    intro q q' hq
    rw [chainTransitions, pure_eq_ok] at hq
    exact hq ▸ .refl
  | succ fuel ih =>
    intro q q' hq
    rw [chainTransitions, bind_eq_ok] at hq
    obtain ⟨next, hturn, hq⟩ := hq
    cases next with
    | none =>
      rw [pure_eq_ok] at hq
      exact hq ▸ .refl
    | some next =>
      refine .head ?_ (ih next q' hq)
      rw [chainTransition] at hturn
      split at hturn
      · simp at hturn
      · next info hinfo =>
        split at hturn
        · next hroot =>
          rw [pure_eq_ok, Option.some_inj] at hturn
          exact ⟨info, h.offered _ info hinfo, hroot, hturn.symm⟩
        · simp at hturn

/-- The chaining loop returns, if the offered transitions lead to an end. -/
theorem chainTransitions_returns (hagree : TransitionsAgree env cfg ws₀ blobs)
    (h : Tracked env cfg ws₀ blobs done p ws) {p₀ last : Progress H}
    (hlast : ReflTransGen (Next env cfg ws₀ blobs) p₀ last)
    (hend : IsLast env cfg ws₀ blobs last) (fuel : Nat) :
    ∀ q, ReflTransGen (Next env cfg ws₀ blobs) p₀ q →
      ∃ q', chainTransitions ws fuel q = .ok q' := by
  induction fuel with
  | zero => exact fun q _ => ⟨q, rfl⟩
  | succ fuel ih =>
    intro q hq
    -- the stored transition after `q` is the one that leads on to the end
    have hroot : ∀ info, transitionAt (q.lastSequencerCommitmentIndex + 1) ws =
        some info → info.initialStateRoot = q.l2StateRoot := by
      intro info hinfo
      have hoffered := h.offered _ info hinfo
      rcases (reaches_last hagree hq hlast hend).cases_head with
        rfl | ⟨next, ⟨info', hinfo', hroot, -⟩, -⟩
      · exact absurd hoffered (hend info)
      · rwa [hoffered.unique hagree hinfo']
    obtain ⟨next, hturn⟩ := chainTransition_returns hroot
    simp only [chainTransitions, bind_eq_ok]
    cases next with
    | none => exact ⟨q, none, hturn, rfl⟩
    | some next =>
      have hone : chainTransitions ws 1 q = .ok next := by
        rw [chainTransitions, bind_eq_ok]
        exact ⟨some next, hturn, rfl⟩
      obtain ⟨q', hq'⟩ := ih next (hq.trans (chainTransitions_reaches h 1 q next hone))
      exact ⟨q', some next, hturn, hq'⟩

end Tracking

/-! ### Runs -/

variable (env cfg) in
/-- The state between two blocks. `p₀` is the progress at the start. -/
structure BlockTracked (ws₀ : WorkingSet H) (blobs done : List (Blob H)) (p₀ : Progress H)
    (s : LightClientState H) : Prop where
  tracked : Tracked env cfg ws₀ blobs done (initialProgress cfg s.output) s.storage
  reaches : ReflTransGen (Next env cfg ws₀ blobs) p₀ (initialProgress cfg s.output)
  stop : transitionAt
    ((initialProgress cfg s.output).lastSequencerCommitmentIndex + 1) s.storage = none
  output : ∃ output, s.output = some output ∧ env.jmtRoot s.storage = output.lcpStateRoot

section Blocks
variable {ws₀ : WorkingSet H} {blobs done : List (Blob H)} {p₀ : Progress H}
  {s s' : LightClientState H} {block : L1Block H} {last : Progress H} {blocks : List (L1Block H)}

/-- The hash of a block before its blobs. -/
theorem Tracked.insertHash {p : Progress H} {ws : WorkingSet H}
    (h : Tracked env cfg ws₀ blobs done p ws) (hash : H) :
    Tracked env cfg ws₀ blobs done p (BlockHashAccessor.insert hash ws) := by
  have hframe : ∀ i, transitionAt i (BlockHashAccessor.insert hash ws) =
      transitionAt i ws := fun i => insertHash_frame _ (by simp)
  refine ⟨h.inputs.trans (sameInputs_insertHash hash ws), ?_, ?_, ?_⟩
  · exact fun i info hinfo => (hframe i).trans (h.kept i info hinfo)
  · exact fun i info hinfo => h.offered i info ((hframe i).symm.trans hinfo)
  · intro blob hblob output hverified item hitem
    rw [hframe]
    exact h.covered blob hblob output hverified item hitem

variable (hset : OrderSetting env cfg ws₀ blobs) (hp₀ : AtCommitment ws₀ p₀)
include hset hp₀

/-- The blobs of a block return in every tracked state. -/
theorem BlockTracked.processBlobs (h : BlockTracked env cfg ws₀ blobs done p₀ s)
    (hblobs : ∀ blob ∈ block.blobs, blob ∈ blobs) : startBlock cfg s.storage block.hash s.output =
        .ok (BlockHashAccessor.insert block.hash s.storage) ∧
      ∃ ws', Spec.LightClient.processBlobs env cfg (initialProgress cfg s.output).lastL2Height
          (initialProgress cfg s.output).lastSequencerCommitmentIndex block.blobs
          (BlockHashAccessor.insert block.hash s.storage) = .ok ws' ∧
        Tracked env cfg ws₀ blobs (done ++ block.blobs) (initialProgress cfg s.output) ws' := by
  obtain ⟨output, houtput, -⟩ := h.output
  refine ⟨by rw [houtput]; rfl, ?_⟩
  exact (h.tracked.insertHash block.hash).processBlobs hset
    (atCommitment_of_reaches hset.stored h.reaches hp₀) hblobs

/-- A block that returns keeps the invariant. -/
theorem BlockTracked.stepL1Block (h : BlockTracked env cfg ws₀ blobs done p₀ s)
    (hblobs : ∀ blob ∈ block.blobs, blob ∈ blobs)
    (hstep : Spec.LightClient.stepL1Block env cfg s block = .ok s') :
    BlockTracked env cfg ws₀ blobs (done ++ block.blobs) p₀ s' := by
  obtain ⟨ws, run⟩ := stepL1Block_ok hstep
  obtain ⟨hstart, ws', hws', htracked⟩ :=
    h.processBlobs hset hp₀ hblobs
  obtain rfl := ok_unique hstart run.start
  obtain rfl := ok_unique hws' run.blobs
  obtain ⟨p, hchain, houtput⟩ := run.chain
  have hprogress : initialProgress cfg s'.output = p := by
    rw [houtput]
    rfl
  have hzero : transitionAt 0 s'.storage = none := by
    rw [Option.eq_none_iff_forall_ne_some]
    intro info hinfo
    exact (htracked.offered 0 info hinfo).ne_zero hset.stored rfl
  obtain ⟨hle, hstop, -⟩ := chainTransitions_ok hzero (2 ^ 32) _ p (by omega) hchain
  have hreaches := chainTransitions_reaches htracked (2 ^ 32) _ p hchain
  refine ⟨?_, ?_, ?_, ⟨_, houtput, rfl⟩⟩
  · rw [hprogress]
    exact htracked.advance hset.stored hreaches hle
  · rw [hprogress]
    exact h.reaches.trans hreaches
  · rw [hprogress]
    exact hstop

/-- A block returns, if the offered transitions lead to an end. -/
theorem BlockTracked.returns
    (h : BlockTracked env cfg ws₀ blobs done p₀ s) (hblobs : ∀ blob ∈ block.blobs, blob ∈ blobs)
    (hlast : ReflTransGen (Next env cfg ws₀ blobs) p₀ last)
    (hend : IsLast env cfg ws₀ blobs last) :
    ∃ s', Spec.LightClient.stepL1Block env cfg s block = .ok s' := by
  obtain ⟨hstart, ws', hws', htracked⟩ :=
    h.processBlobs hset hp₀ hblobs
  obtain ⟨p, hp⟩ :=
    chainTransitions_returns hset.ready.agree htracked hlast hend (2 ^ 32) _ h.reaches
  obtain ⟨output, houtput, hroot⟩ := h.output
  simp only [Spec.LightClient.stepL1Block, runL1Block, bind_eq_ok, assert_eq_ok, pure_eq_ok]
  refine ⟨_, _, ⟨_, hstart, ws', hws', p, hp, (), ?_, rfl⟩, rfl⟩
  rw [houtput]
  exact hroot

omit hset hp₀ in
/-- After all blobs, the progress is the end of the offered transitions. -/
theorem BlockTracked.end_of_all (hstored : StoredHeights ws₀)
    (h : BlockTracked env cfg ws₀ blobs done p₀ s) (hall : ∀ blob ∈ blobs, blob ∈ done) :
    IsLast env cfg ws₀ blobs (initialProgress cfg s.output) := by
  intro info hoffered
  have hne := hoffered.ne_zero hstored
  have hoffered' := hoffered
  rcases hoffered with hinfo | ⟨-, -, blob, hblob, output, idx, hverified, hitem, -⟩
  · simpa [h.stop] using h.tracked.kept _ info hinfo
  · rcases h.tracked.covered blob (hall blob hblob) output hverified _ hitem with
      hle | hsome | ⟨j, hlt, hle, hgap⟩
    · dsimp only at hle
      grind
    · exact hsome h.stop
    · -- the missing index would be the next one
      dsimp only at hle
      obtain rfl : j = (initialProgress cfg s.output).lastSequencerCommitmentIndex + 1 := by grind
      exact hgap info hoffered'

/-- A run that returns keeps the invariant. -/
theorem BlockTracked.runL1Blocks (h : BlockTracked env cfg ws₀ blobs [] p₀ s)
    (hblobs : ∀ block ∈ blocks, ∀ blob ∈ block.blobs, blob ∈ blobs)
    (hrun : Spec.LightClient.runL1Blocks env cfg s blocks = .ok s') :
    BlockTracked env cfg ws₀ blobs (blocks.flatMap (·.blobs)) p₀ s' := by
  refine foldlM_induction (P := fun done m =>
    BlockTracked env cfg ws₀ blobs (done.flatMap (·.blobs)) p₀ m) h blocks ?_ s' hrun
  intro pre block post m t hsplit _ hm hstep
  rw [flatMap_append, flatMap_singleton]
  exact hm.stepL1Block hset hp₀ (hblobs block (by simp [hsplit])) hstep

/-- A run returns, if the offered transitions lead to an end. -/
theorem BlockTracked.run_returns (h : BlockTracked env cfg ws₀ blobs [] p₀ s)
    (hblobs : ∀ block ∈ blocks, ∀ blob ∈ block.blobs, blob ∈ blobs)
    (hlast : ReflTransGen (Next env cfg ws₀ blobs) p₀ last)
    (hend : IsLast env cfg ws₀ blobs last) :
    ∃ s', Spec.LightClient.runL1Blocks env cfg s blocks = .ok s' ∧
      BlockTracked env cfg ws₀ blobs (blocks.flatMap (·.blobs)) p₀ s' := by
  refine foldlM_returns (P := fun done m =>
    BlockTracked env cfg ws₀ blobs (done.flatMap (·.blobs)) p₀ m) h blocks ?_
  intro pre block post m hsplit hm
  have hblock := hblobs block (by simp [hsplit])
  obtain ⟨t, hstep⟩ := hm.returns hset hp₀ hblock hlast hend
  refine ⟨t, hstep, ?_⟩
  rw [flatMap_append, flatMap_singleton]
  exact hm.stepL1Block hset hp₀ hblock hstep

end Blocks

variable {before : List (L1Block H)} {s : LightClientState H} {n : UInt64}

/-- The states of runs: their transitions carry the heights of their commitments. -/
theorem storedHeights_of_run (hverify : VerifiedHaveHashes env)
    (h : runL1Blocks env cfg .initial before = .ok s) : StoredHeights s.storage := by
  have hcons := consistent_of_run hverify h
  refine ⟨hcons.transitions.zero, fun i info hinfo => ?_⟩
  obtain ⟨c, hc, start, ws, ws', blob, -, -, -, -, data, proof, methodIds, methodId, output, -, idx,
    -, hof, hstored, -⟩ := hcons.transitions.justified i info hinfo
  obtain ⟨c', hc', hheight⟩ := hof.commitment
  obtain rfl := some_unique hstored hc'
  exact ⟨c, hc, hheight⟩

/-- A run ends before the first block, or with an output for its tree. -/
theorem output_of_run (h : runL1Blocks env cfg .initial before = .ok s) : s = .initial ∨
      ∃ output, s.output = some output ∧ env.jmtRoot s.storage = output.lcpStateRoot := by
  refine foldlM_invariant (P := fun s => s = .initial ∨
    ∃ output, s.output = some output ∧ env.jmtRoot s.storage = output.lcpStateRoot) ?_ h
    (.inl rfl)
  intro block m t _ hstep
  obtain ⟨ws, run⟩ := stepL1Block_ok hstep
  obtain ⟨p, -, houtput⟩ := run.chain
  exact .inr ⟨_, houtput, rfl⟩

/-- The start of the comparison. -/
theorem blockTracked_start (hverify : VerifiedHaveHashes env)
    (h : runL1Blocks env cfg .initial before = .ok s) {blobs : List (Blob H)}
    (hready : ProofsReady env cfg s.storage blobs) :
    AtCommitment s.storage (initialProgress cfg s.output) ∧
      BlockTracked env cfg s.storage blobs [] (initialProgress cfg s.output) s := by
  have hcons := consistent_of_run hverify h
  have hstored := storedHeights_of_run hverify h
  constructor
  · refine ⟨fun hzero => (hcons.atProgress.1 hzero).2, fun hne => ?_⟩
    obtain ⟨info, hinfo, -, hheight⟩ := hcons.atProgress.2 hne
    rw [hheight]
    exact hstored.height _ info hinfo
  · have houtput : ∃ output, s.output = some output ∧
        env.jmtRoot s.storage = output.lcpStateRoot := by
      rcases output_of_run h with rfl | houtput
      · obtain ⟨methodIds, hids, -⟩ := hready.methodIds
        exact absurd hids (by simp [BatchProofMethodIdAccessor.get, LightClientState.initial,
          WorkingSet.empty])
      · exact houtput
    obtain ⟨output, hsome, hroot⟩ := houtput
    refine ⟨⟨⟨fun _ => rfl, fun _ => rfl, rfl, fun _ hh => hh⟩, fun _ _ hinfo => hinfo,
      fun _ _ hinfo => .inl hinfo, fun _ hblob => absurd hblob (by simp)⟩, .refl, ?_,
      output, hsome, hroot⟩
    have hlast := hcons.last output hsome
    rw [hsome]
    exact hlast

/-- Order independence. Take a state of a run, and blobs with proofs whose verified transitions
agree. If the end heights of the commitments increase where there are transitions, then any two
distributions of the blobs over L1 blocks end with the same root, height and index: if one of the
runs returns, the other one does. A verified proof that the replay checks reject in a run only has
indices that are reached already, or that no distribution reaches. -/
theorem proofs_order_independent (hroots : VerifiedHaveRoots env) (before : List (L1Block H))
    (s : LightClientState H)
    (hreach : runL1Blocks env cfg LightClientState.initial before = .ok s) (blobs : List (Blob H))
    (hready : ProofsReady env cfg s.storage blobs)
    (hheights : HeightsIncrease env cfg s.storage blobs) (blocks₁ blocks₂ : List (L1Block H))
    (hperm₁ : (blocks₁.flatMap (·.blobs)).Perm blobs)
    (hperm₂ : (blocks₂.flatMap (·.blobs)).Perm blobs) (s₁ : LightClientState H)
    (hrun₁ : runL1Blocks env cfg s blocks₁ = .ok s₁) :
    ∃ s₂, runL1Blocks env cfg s blocks₂ = .ok s₂ ∧
      initialProgress cfg s₂.output = initialProgress cfg s₁.output ∧
      ∀ pre block post m blob output, blocks₂ = pre ++ block :: post →
        runL1Blocks env cfg s pre = .ok m → blob ∈ block.blobs →
        VerifiedBlob env cfg s.storage blob output →
        ReplayRejected (initialProgress cfg m.output) output → ∀ item ∈ outputItems output,
          item.1 ≤ (initialProgress cfg m.output).lastSequencerCommitmentIndex ∨
          (initialProgress cfg s₁.output).lastSequencerCommitmentIndex < item.1 := by
  have hstored := storedHeights_of_run hroots.haveHashes hreach
  have hset : OrderSetting env cfg s.storage blobs := ⟨hroots, hstored, hready, hheights⟩
  obtain ⟨hp₀, hstart⟩ := blockTracked_start hroots.haveHashes hreach hready
  have hmem : ∀ {blocks : List (L1Block H)}, (blocks.flatMap (·.blobs)).Perm blobs →
      ∀ block ∈ blocks, ∀ blob ∈ block.blobs, blob ∈ blobs :=
    fun hperm block hblock blob hblob =>
      hperm.mem_iff.mp (mem_flatMap.mpr ⟨block, hblock, hblob⟩)
  have hend₁ :=
    hstart.runL1Blocks hset hp₀ (hmem hperm₁) hrun₁
  have hlast := hend₁.end_of_all hstored fun blob hblob => hperm₁.mem_iff.mpr hblob
  obtain ⟨s₂, hrun₂, hend₂⟩ :=
    hstart.run_returns hset hp₀ (hmem hperm₂) hend₁.reaches hlast
  have hlast₂ := hend₂.end_of_all hstored fun blob hblob => hperm₂.mem_iff.mpr hblob
  refine ⟨s₂, hrun₂, ?_, ?_⟩
  · rcases (reaches_last hready.agree hend₂.reaches hend₁.reaches hlast).cases_head with
      heq | ⟨_, ⟨info, hinfo, -⟩, -⟩
    · exact heq
    · exact absurd hinfo (hlast₂ info)
  · intro pre block post m blob output hsplit hm hblob hverified hrejected item hitem
    subst hsplit
    have hpre := hstart.runL1Blocks hset hp₀
      (fun b hb => hmem hperm₂ b (mem_append_left _ hb)) hm
    rcases item_of_rejected hroots hstored hheights
      (atCommitment_of_reaches hstored hpre.reaches hp₀)
      (hmem hperm₂ block (by simp) blob hblob) hverified hrejected hitem with
      hle | ⟨j, hlt, hle, hgap⟩
    · exact .inl hle
    · -- the end is before the missing index
      right
      rw [← UInt32.not_le]
      intro hreached
      obtain ⟨info, hinfo⟩ := offered_of_reaches hstored
        (reaches_last hready.agree hpre.reaches hend₁.reaches hlast) j hlt
        (UInt32.le_trans hle hreached)
      exact hgap info hinfo

/-! ### Two orders -/

/-- The headers of three blocks from the height `n` on. -/
def orderHeader1 (n : UInt64) : L2Header (List Nat) := sampleHeader n [] [7]
def orderHeader2 (n : UInt64) : L2Header (List Nat) :=
  sampleHeader (n + 1) ((orderHeader1 n).computeDigest listHash) [8]
def orderHeader3 (n : UInt64) : L2Header (List Nat) :=
  sampleHeader (n + 2) ((orderHeader2 n).computeDigest listHash) [9]

/-- The first batch proof, over the first two blocks. -/
def firstTwoInput (n : UInt64) : CircuitInput (List Nat) Unit Unit :=
  { twoCommitments 2 with
    sequencerCommitments :=
      [oneBlockCommitment (orderHeader1 n) 1, oneBlockCommitment (orderHeader2 n) 2]
    forks := [⟨.tangerine, n⟩]
    host := .u32 2 :: (oneBlock (orderHeader1 n) ++ oneBlock (orderHeader2 n)) }

/-- Its output. -/
def firstTwoOutput (n : UInt64) : ApplySequencerCommitmentsOutput (List Nat) Unit :=
  { twoCommitmentsOutput 2 with
    lastL2Height := n + 1
    finalL2BlockHash := (orderHeader2 n).computeDigest listHash
    sequencerCommitmentHashes := (firstTwoInput n).sequencerCommitments.map
      (·.serializeAndCalculateSha256 listHash) }

/-- The outputs over the indices 1 and 2, over index 3, and over index 2 alone. -/
def orderOutputs (n : UInt64) : List (BatchProofCircuitOutput (List Nat)) :=
  [(firstTwoOutput n).toCircuitOutput [9],
    (oneBlockOutput (orderHeader2 n) (orderHeader3 n) 2).toCircuitOutput [9],
    (oneBlockOutput (orderHeader1 n) (orderHeader2 n) 1).toCircuitOutput [9]]

/-- The light client for the three commitments and the three proofs. -/
def orderClient (n : UInt64) : LightClientEnv (List Nat) :=
  sampleLightClient
    [oneBlockCommitment (orderHeader1 n) 1, oneBlockCommitment (orderHeader2 n) 2,
      oneBlockCommitment (orderHeader3 n) 3] (orderOutputs n)

/-- The block with the three commitments. -/
def storedBlock : L1Block (List Nat) :=
  ⟨[9], [commitmentBlob 0, commitmentBlob 1, commitmentBlob 2]⟩

/-- The three proofs. -/
def orderBlobs : List (Blob (List Nat)) := [proofBlob 0, proofBlob 1, proofBlob 2]

theorem orderClient_haveRoots (n : UInt64) : VerifiedHaveRoots (orderClient n) := by
  intro proof methodId devMode output _ hout
  have hmem := mem_of_extractOutput hout
  simp only [orderOutputs, mem_cons, not_mem_nil, or_false] at hmem
  rcases hmem with rfl | rfl | rfl
  all_goals exact ⟨cons_ne_nil _ _, rfl⟩

/-- All transitions of the sample lie on one list of roots. -/
theorem roots_of_item {output : BatchProofCircuitOutput (List Nat)}
    (houtput : output ∈ orderOutputs n) {ws : WorkingSet (List Nat)} {i : UInt32} {idx : Nat}
    (hitem : (i, idx) ∈ outputItems output) {info : VerifiedStateTransition (List Nat)}
    (hof : TransitionOf output.stateRoots ws (i, idx) info) :
    1 ≤ i.toNat ∧ i.toNat ≤ 3 ∧ [[6], [7], [8], [9]][i.toNat - 1]? = some info.initialStateRoot ∧
      [[6], [7], [8], [9]][i.toNat]? = some info.finalStateRoot := by
  simp only [orderOutputs, mem_cons, not_mem_nil, or_false] at houtput
  obtain ⟨hi, hle⟩ := mem_zipIdx_indexRange.mp hitem
  have hinitial := hof.initial
  have hfinal := hof.final
  rcases houtput with rfl | rfl | rfl
  · have hi' : i.toNat = 1 + idx := hi
    have hle' : i.toNat ≤ 2 := hle
    rw [hi', Nat.add_sub_cancel_left, Nat.add_comm]
    obtain rfl | rfl : idx = 0 ∨ idx = 1 := by omega
    all_goals exact ⟨by omega, by omega, hinitial, hfinal⟩
  · have hi' : i.toNat = 3 + idx := hi
    have hle' : i.toNat ≤ 3 := hle
    obtain rfl : idx = 0 := by omega
    rw [hi']
    exact ⟨by omega, by omega, hinitial, hfinal⟩
  · have hi' : i.toNat = 2 + idx := hi
    have hle' : i.toNat ≤ 2 := hle
    obtain rfl : idx = 0 := by omega
    rw [hi']
    exact ⟨by omega, by omega, hinitial, hfinal⟩

/-- The state after the block with the commitments. -/
theorem exists_orderState (n : UInt64) (hn : n = 1 ∨ n = 2 ^ 64 - 2) :
    ∃ s, runL1Blocks (orderClient n) sampleConfig .initial [storedBlock] = .ok s ∧
      BlockHashAccessor.existsHash [9] s.storage = true ∧
      BatchProofMethodIdAccessor.get s.storage = some [(0, Vector.replicate 8 0)] ∧
      commitmentAt 1 s.storage = some (oneBlockCommitment (orderHeader1 n) 1) ∧
      commitmentAt 2 s.storage = some (oneBlockCommitment (orderHeader2 n) 2) ∧
      commitmentAt 3 s.storage = some (oneBlockCommitment (orderHeader3 n) 3) := by
  rcases hn with rfl | rfl
  all_goals decide +kernel

/-- The sample proofs are ready where the hash `[9]` and the method ids are stored. -/
theorem proofsReady_order {ws : WorkingSet (List Nat)}
    (hhash : BlockHashAccessor.existsHash [9] ws = true)
    (hids : BatchProofMethodIdAccessor.get ws = some [(0, Vector.replicate 8 0)]) :
    ProofsReady (orderClient n) sampleConfig ws orderBlobs := by
  refine ⟨⟨_, hids, cons_ne_nil _ _⟩, ?_, ?_, ?_⟩
  · intro blob hblob
    simp only [orderBlobs, mem_cons, not_mem_nil, or_false] at hblob
    rcases hblob with rfl | rfl | rfl
    all_goals exact ⟨_, rfl, .inl ⟨_, rfl⟩⟩
  · intro blob _ data proof output _ _ hout
    have hmem := mem_of_extractOutput hout
    simp only [orderOutputs, mem_cons, not_mem_nil, or_false] at hmem
    rcases hmem with rfl | rfl | rfl
    all_goals exact hhash
  · intro blob _ blob' _ output output' i idx idx' info info' hverified hverified' hitem hitem' hof
      hof'
    obtain ⟨_, _, _, _, ha⟩ := hverified
    obtain ⟨_, _, _, _, ha'⟩ := hverified'
    obtain ⟨-, -, hinitial, hfinal⟩ := roots_of_item (mem_of_extractOutput ha.output_eq) hitem hof
    obtain ⟨-, -, hinitial', hfinal'⟩ :=
      roots_of_item (mem_of_extractOutput ha'.output_eq) hitem' hof'
    obtain ⟨c, hc, hheight⟩ := hof.commitment
    obtain ⟨c', hc', hheight'⟩ := hof'.commitment
    obtain rfl := some_unique hc hc'
    exact VerifiedStateTransition.ext (some_unique hinitial hinitial')
      (some_unique hfinal hfinal') (hheight.trans hheight'.symm)

/-- The block with the commitments stores no transition. -/
theorem no_transition_of_stored {s : LightClientState (List Nat)}
    (h : runL1Blocks (orderClient n) sampleConfig .initial [storedBlock] = .ok s)
    (i : UInt32) : transitionAt i s.storage = none := by
  rw [Option.eq_none_iff_forall_ne_some]
  intro info hinfo
  obtain ⟨c, -, start, ws, ws', blob, hat, -, -, -, data, _, _, _, _, haccepted, -⟩ :=
    (consistent_of_run (orderClient_haveRoots n).haveHashes h).transitions.justified i info hinfo
  -- the blob is one of the three commitments
  obtain ⟨before, block, after, pre, post, _, _, hblocks, hblobs, -⟩ := hat
  have hblock : block ∈ [storedBlock] := by simp [hblocks]
  obtain rfl := mem_singleton.mp hblock
  have hmem : blob ∈ storedBlock.blobs := by simp [hblobs]
  simp only [storedBlock, mem_cons, not_mem_nil, or_false] at hmem
  have hparsed := haccepted.parsed
  rcases hmem with rfl | rfl | rfl
  all_goals
    obtain rfl := Option.some_inj.mp hparsed
    simpa using haccepted.kind

/-- A run over more blocks goes on from the state after the block with the commitments. -/
theorem run_after_stored {s t : LightClientState (List Nat)} {blocks : List (L1Block (List Nat))}
    (hs : runL1Blocks (orderClient n) sampleConfig .initial [storedBlock] = .ok s)
    (ht : runL1Blocks (orderClient n) sampleConfig .initial (storedBlock ::
      blocks) = .ok t) : runL1Blocks (orderClient n) sampleConfig s blocks = .ok t := by
  have happend : storedBlock :: blocks = [storedBlock] ++ blocks := rfl
  rw [happend, runL1Blocks, foldlM_append, bind_eq_ok] at ht
  obtain ⟨m, hm, ht⟩ := ht
  obtain rfl := ok_unique hs hm
  exact ht

/-- The theorem applied to the three proofs at the heights 1, 2 and 3. In one block they end at
index 3. One by one in the opposite order they end there as well: the transitions of the indices 2
and 3 wait until the last proof brings index 1. -/
theorem order_independent_of_three :
    ∃ s s₁ s₂, runL1Blocks (orderClient 1) sampleConfig LightClientState.initial [storedBlock] =
        .ok s ∧ runL1Blocks (orderClient 1) sampleConfig s [⟨[10], orderBlobs⟩] = .ok s₁ ∧
      initialProgress sampleConfig s₁.output = ⟨[9], 3, 3⟩ ∧
      runL1Blocks (orderClient 1) sampleConfig s
        [⟨[10], [proofBlob 2]⟩, ⟨[11], [proofBlob 1]⟩, ⟨[12], [proofBlob 0]⟩] = .ok s₂ ∧
      initialProgress sampleConfig s₂.output = ⟨[9], 3, 3⟩ := by
  obtain ⟨s, hs, hhash, hids, hone, htwo, hthree⟩ := exists_orderState 1 (.inl rfl)
  obtain ⟨s₁, hs₁, hprogress⟩ : ∃ s₁, runL1Blocks (orderClient 1) sampleConfig .initial
      [storedBlock, ⟨[10], orderBlobs⟩] = .ok s₁ ∧
      initialProgress sampleConfig s₁.output = ⟨[9], 3, 3⟩ := by decide +kernel
  have hs₁' := run_after_stored hs hs₁
  have hheights : HeightsIncrease (orderClient 1) sampleConfig s.storage orderBlobs := by
    intro k info c d hk hoffered hc hd
    rcases hoffered with hold | ⟨-, hne, blob, -, output, idx, ⟨_, _, _, _, ha⟩, hitem, hof⟩
    · simp [no_transition_of_stored hs _] at hold
    · obtain ⟨-, hle, -⟩ := roots_of_item (mem_of_extractOutput ha.output_eq) hitem hof
      rw [toNat_add_one hne] at hle
      have hk' : k.toNat ≠ 0 := fun hzero => hk (UInt32.toNat_inj.mp hzero)
      obtain rfl | rfl : k = 1 ∨ k = 2 := by
        rw [← UInt32.toNat_inj, ← UInt32.toNat_inj]
        show k.toNat = 1 ∨ k.toNat = 2
        omega
      · obtain rfl := some_unique hone hc
        obtain rfl := some_unique htwo hd
        decide
      · obtain rfl := some_unique htwo hc
        obtain rfl := some_unique hthree hd
        decide
  obtain ⟨s₂, hs₂, heq, -⟩ := proofs_order_independent (orderClient_haveRoots 1) [storedBlock] s hs
    orderBlobs (proofsReady_order hhash hids) hheights [⟨[10], orderBlobs⟩]
    [⟨[10], [proofBlob 2]⟩, ⟨[11], [proofBlob 1]⟩, ⟨[12], [proofBlob 0]⟩]
    (List.Perm.refl _) (reverse_perm orderBlobs) s₁ hs₁'
  exact ⟨s, s₁, s₂, hs, hs₁', hprogress, hs₂, heq.trans hprogress⟩

/-- Three blocks at the heights `2 ^ 64 - 2`, `2 ^ 64 - 1` and 0. All proofs are outputs of the
circuit, and their transitions agree. With the proofs in one block, the light client ends at index
3. With one block for the first proof and one for the others, the progress after the first block
has the greatest height, so the proof of index 3 is rejected by the height check. The light client
stays at index 2. -/
theorem order_matters_at_wrap :
    AcceptsOnlyCircuitOutputs Unit Unit Unit Unit (orderClient (2 ^ 64 - 2)) ∧
    ∃ s s₁ s₂, runL1Blocks (orderClient (2 ^ 64 - 2)) sampleConfig LightClientState.initial
        [storedBlock] = .ok s ∧
      ProofsReady (orderClient (2 ^ 64 - 2)) sampleConfig s.storage orderBlobs ∧
      runL1Blocks (orderClient (2 ^ 64 - 2)) sampleConfig s [⟨[10], orderBlobs⟩] = .ok s₁ ∧
      initialProgress sampleConfig s₁.output = ⟨[9], 0, 3⟩ ∧
      runL1Blocks (orderClient (2 ^ 64 - 2)) sampleConfig s
        [⟨[10], [proofBlob 0]⟩, ⟨[11], [proofBlob 1, proofBlob 2]⟩] = .ok s₂ ∧
      initialProgress sampleConfig s₂.output = ⟨[8], 2 ^ 64 - 1, 2⟩ := by
  constructor
  · refine sampleLightClient_sound fun output hmem => ?_
    simp only [orderOutputs, mem_cons, not_mem_nil, or_false] at hmem
    rcases hmem with rfl | rfl | rfl
    · exact ⟨sampleEnv, firstTwoInput (2 ^ 64 - 2), _, [9], rfl, rsMerkle_sampleEnv,
        by decide +kernel, rfl, trivial⟩
    · exact ⟨sampleEnv, oneBlockInput (orderHeader2 (2 ^ 64 - 2)) (orderHeader3 (2 ^ 64 - 2)) 2, _,
        [9], rfl, rsMerkle_sampleEnv, by decide +kernel, rfl, trivial⟩
    · exact ⟨sampleEnv, oneBlockInput (orderHeader1 (2 ^ 64 - 2)) (orderHeader2 (2 ^ 64 - 2)) 1, _,
        [9], rfl, rsMerkle_sampleEnv, by decide +kernel, rfl, trivial⟩
  · obtain ⟨s, hs, hhash, hids, -⟩ := exists_orderState (2 ^ 64 - 2) (.inr rfl)
    obtain ⟨s₁, hs₁, hprogress₁⟩ :
      ∃ s₁, runL1Blocks (orderClient (2 ^ 64 - 2)) sampleConfig .initial
        [storedBlock, ⟨[10], orderBlobs⟩] = .ok s₁ ∧
        initialProgress sampleConfig s₁.output = ⟨[9], 0, 3⟩ := by decide +kernel
    obtain ⟨s₂, hs₂, hprogress₂⟩ :
      ∃ s₂, runL1Blocks (orderClient (2 ^ 64 - 2)) sampleConfig .initial
        [storedBlock, ⟨[10], [proofBlob 0]⟩, ⟨[11], [proofBlob 1, proofBlob 2]⟩] = .ok s₂ ∧
        initialProgress sampleConfig s₂.output = ⟨[8], 2 ^ 64 - 1, 2⟩ := by decide +kernel
    exact ⟨s, s₁, s₂, hs, proofsReady_order hhash hids, run_after_stored hs hs₁, hprogress₁,
      run_after_stored hs hs₂, hprogress₂⟩

end Citrea.Proofs.LightClient
