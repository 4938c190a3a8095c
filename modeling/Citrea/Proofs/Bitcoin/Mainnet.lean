import Citrea.Proofs.Bitcoin.HeaderChain

/-!
# `Citrea.Proofs.Bitcoin.Mainnet`: the header rules of mainnet

`mainnet_step` compares `verify_header_chain_mainnet` on one header with the rules of Bitcoin Core,
and `mainnet_agrees` on every list of headers.

`Meets` is what a header must meet. The main part is `forward`: the last block of an epoch must not
be before the first one. If it is, the difference of the times wraps around, and the light client
computes the target for four epochs where Bitcoin Core takes a quarter of an epoch. Nothing excludes
such headers, because only the median of eleven blocks moves forward. `timespan_wraps` is an
example. The other parts are about targets near zero and numbers near the end of their type.
-/

namespace Citrea.Proofs.Bitcoin

open List Lib Spec.Bitcoin

variable {sha256 : Bytes → Bytes32} {chain : Core.Chain} {st st' : LatestDaState}
  {header : HeaderWrapper}

/-- The state summarises the chain. -/
structure Summarises (chain : Core.Chain) (st : LatestDaState) : Prop extends SameTip chain st where
  bits : st.currentTargetBits = Core.getNextWorkRequired chain
  work : fromBeBytes st.totalWork = chain.work

/-- What the next header must meet. -/
structure Meets (chain : Core.Chain) (header : HeaderWrapper) : Prop where
  height : chain.tip + 1 < 2 ^ 64
  forward : (chain.tip + 1) % blocksPerEpoch = blocksPerEpoch - 1 →
    (chain.block (chain.tip + 1 - (blocksPerEpoch - 1))).time ≤ header.header.time
  target : (chain.tip + 1) % blocksPerEpoch = blocksPerEpoch - 1 →
    2 ^ 15 ≤ newTarget header.header.bits
      (chain.block (chain.tip + 1 - (blocksPerEpoch - 1))).time header.header.time
  notOne : Core.setCompact header.header.bits ≠ 1
  work : chain.work + Core.getBlockProof header.header.bits < 2 ^ 256

/-- `target_to_work`, apart from the two targets that count as the maximum. -/
theorem targetToWork_of_ne {target : Bytes32} (hzero : fromBeBytes target ≠ 0)
    (hone : fromBeBytes target ≠ 1) : targetToWork target =
      (2 ^ 256 - 1 - fromBeBytes target) / (fromBeBytes target + 1) + 1 := by
  rw [targetToWork]
  generalize fromBeBytes target = t at *
  have hfits : (2 ^ 256 - 1 - t) / (t + 1) + 1 < 2 ^ 256 := by
    have hle := Nat.div_le_self (2 ^ 256 - 1 - t) (t + 1)
    omega
  rw [if_neg hzero, if_neg hone, Nat.mod_eq_of_lt hfits]
  split_ifs with hmax
  · rw [hmax, Nat.sub_self, Nat.zero_div]
  · rfl

/-- The work of a block. -/
theorem targetToWork_eq {bits : UInt32} (hvalid : Core.ValidBits bits)
    (hone : Core.setCompact bits ≠ 1) :
    targetToWork (bitsToTarget bits) = Core.getBlockProof bits := by
  have hread := fromBeBytes_bitsToTarget hvalid.1 hvalid.2.2
  have hpos := hvalid.2.1
  rw [targetToWork_of_ne (by rw [hread]; omega) (by rwa [hread]), hread, Core.getBlockProof]

variable (sha256) in
/-- The checks of the light client are the rules of Bitcoin Core. -/
theorem common_iff_accepts (hsum : Summarises chain st) (hvalid : Core.ValidBits header.header.bits)
    (hfits : chain.tip + 1 < 2 ^ 64) :
    verifyHeaderChainCommon sha256 header st (bitsToTarget st.currentTargetBits)
      st.currentTargetBits = .ok () ↔ Core.Accepts sha256 chain header := by
  simp only [verifyHeaderChainCommon, bind_eq_ok, ensure_eq_ok, exists_const]
  rw [hsum.nextHeight hfits, hsum.hash, hsum.median, verifyTargetHash_iff, HeaderWrapper.verifyHash,
    beq_iff_eq]
  constructor
  · rintro ⟨hhash, hheight, hprev, hbits, hwork, htime⟩
    rw [← hbits, fromBeBytes_bitsToTarget hvalid.1 hvalid.2.2] at hwork
    exact ⟨hhash, hheight, hprev, hbits.trans hsum.bits, hwork, htime⟩
  · intro h
    have hbits : header.header.bits = st.currentTargetBits := h.bits.trans hsum.bits.symm
    refine ⟨h.hash, h.height, h.prev, hbits, ?_, h.time⟩
    rw [← hbits, fromBeBytes_bitsToTarget hvalid.1 hvalid.2.2]
    exact h.work

/-- The bits that the light client computes one block early. -/
theorem nextBits_eq (hsum : Summarises chain st) (hvalid : Core.ValidBits header.header.bits)
    (hmeets : Meets chain header) (hheight : header.height.toNat = chain.tip + 1) :
    (nextTargetBits header (epochStartOf st header) header.header.bits
      mainnetConstants.maxTarget : Outcome HeaderError UInt32) =
      .ok (Core.getNextWorkRequired (chain.extend header)) := by
  have htip : (chain.extend header).tip = chain.tip + 1 := rfl
  rw [nextTargetBits, hheight, Core.getNextWorkRequired, htip, block_extend_tip]
  by_cases hlast : (chain.tip + 1) % blocksPerEpoch = blocksPerEpoch - 1
  · obtain ⟨hnext, hnotFirst, hfirst⟩ := epoch_last hlast
    have hstart : epochStartOf st header =
        (chain.block (chain.tip + 1 - (blocksPerEpoch - 1))).time := by
      rw [epochStartOf, if_neg (by rwa [hheight]), hsum.epochStart, hfirst]
    rw [if_pos hlast, if_pos hnext, hstart,
      retarget_eq hvalid.1 hvalid.2.2 (hmeets.forward hlast) (hmeets.target hlast),
      block_extend_of_le (by rw [hfirst]; exact Nat.sub_le ..)]
  · rw [if_neg hlast, if_neg (epoch_notLast hlast)]
    rfl

variable (sha256) in
/-- One header of mainnet. It is accepted exactly by the rules of Bitcoin Core, and the state after
it summarises the longer chain. -/
theorem mainnet_step (hsum : Summarises chain st) (hvalid : Core.ValidBits header.header.bits)
    (hmeets : Meets chain header) : ((∃ st', verifyHeaderChainMainnet sha256 st header = .ok st') ↔
      Core.Accepts sha256 chain header) ∧
    ∀ st', verifyHeaderChainMainnet sha256 st header = .ok st' →
      Summarises (chain.extend header) st' := by
  have hcommon := common_iff_accepts sha256 hsum hvalid hmeets.height
  -- what the function returns for a header that passes the checks
  have hreturns : ∀ h : Core.Accepts sha256 chain header, ∃ st',
      verifyHeaderChainMainnet sha256 st header = .ok st' ∧
        Summarises (chain.extend header) st' := by
    intro h
    have hbits : header.header.bits = st.currentTargetBits := h.bits.trans hsum.bits.symm
    refine ⟨nextDaState st header (targetToWork (bitsToTarget st.currentTargetBits))
      (epochStartOf st header) (Core.getNextWorkRequired (chain.extend header)), ?_, ?_⟩
    · simp only [verifyHeaderChainMainnet, bind_eq_ok, pure_eq_ok]
      exact ⟨(), hcommon.mpr h, _, nextBits_eq hsum hvalid hmeets h.height, rfl⟩
    · refine ⟨hsum.toSameTip.next h.height _ _, rfl, ?_⟩
      have hwork := hmeets.work
      show fromBeBytes (toBeBytes (min (fromBeBytes st.totalWork +
        targetToWork (bitsToTarget st.currentTargetBits)) (2 ^ 256 - 1))) =
          chain.work + Core.getBlockProof header.header.bits
      rw [← hbits, targetToWork_eq hvalid hmeets.notOne, hsum.work,
        fromBeBytes_toBeBytes (by omega), min_eq_left (by omega)]
  have haccepts : ∀ st', verifyHeaderChainMainnet sha256 st header = .ok st' →
      Core.Accepts sha256 chain header := by
    intro st' h
    simp only [verifyHeaderChainMainnet, bind_eq_ok] at h
    obtain ⟨_, hchecks, -⟩ := h
    exact hcommon.mp hchecks
  refine ⟨⟨fun h => h.elim haccepts, fun h => ?_⟩, ?_⟩
  · obtain ⟨st', hst', -⟩ := hreturns h
    exact ⟨st', hst'⟩
  · intro st' h
    obtain ⟨other, hother, hsum'⟩ := hreturns (haccepts st' h)
    obtain rfl := ok_unique h hother
    exact hsum'

/-! ### A list of headers -/

/-- Bitcoin Core accepts the headers one after the other. -/
def AcceptsAll (sha256 : Bytes → Bytes32) : Core.Chain → List HeaderWrapper → Prop
  | _, [] => True
  | chain, header :: rest =>
    Core.Accepts sha256 chain header ∧ AcceptsAll sha256 (chain.extend header) rest

/-- Every header has valid bits and meets the conditions. -/
def MeetsAll : Core.Chain → List HeaderWrapper → Prop
  | _, [] => True
  | chain, header :: rest =>
    Core.ValidBits header.header.bits ∧ Meets chain header ∧ MeetsAll (chain.extend header) rest

/-- Mainnet and Bitcoin Core. From a state that summarises a chain, the light client accepts a list
of headers exactly if Bitcoin Core does, and then its state summarises the longer chain. No product
in the computation of a target wraps. Every header of the list must meet `Meets`. -/
theorem mainnet_agrees (hsum : Summarises chain st) (headers : List HeaderWrapper)
    (hmeets : MeetsAll chain headers) :
    ((∃ st', headers.foldlM (verifyHeaderChainMainnet sha256) st = .ok st') ↔
      AcceptsAll sha256 chain headers) ∧
    (∀ st', headers.foldlM (verifyHeaderChainMainnet sha256) st = .ok st' →
      Summarises (headers.foldl Core.Chain.extend chain) st') ∧
    ∀ header ∈ headers, ∀ first, fromBeBytes (bitsToTarget header.header.bits) *
      (actualTimespan first header.header.time expectedEpochTimespan).toNat < 2 ^ 256 := by
  induction headers generalizing chain st with
  | nil =>
    refine ⟨⟨fun _ => trivial, fun _ => ⟨st, rfl⟩⟩, ?_, by simp⟩
    intro st' h
    obtain rfl := pure_eq_ok.mp h
    exact hsum
  | cons header rest ih =>
    obtain ⟨hvalid, hfirst, hrest⟩ := hmeets
    obtain ⟨hiff, hnext⟩ := mainnet_step sha256 hsum hvalid hfirst
    -- the rest starts from the state after the first header
    have htail : ∀ st₁, verifyHeaderChainMainnet sha256 st header = .ok st₁ → _ :=
      fun st₁ h₁ => ih (hnext st₁ h₁) hrest
    refine ⟨⟨?_, ?_⟩, ?_, ?_⟩
    · rintro ⟨st', h⟩
      rw [foldlM_cons, bind_eq_ok] at h
      obtain ⟨st₁, h₁, h₂⟩ := h
      exact ⟨hiff.mp ⟨st₁, h₁⟩, (htail st₁ h₁).1.mp ⟨st', h₂⟩⟩
    · rintro ⟨haccepts, hall⟩
      obtain ⟨st₁, h₁⟩ := hiff.mpr haccepts
      obtain ⟨st', h₂⟩ := (htail st₁ h₁).1.mpr hall
      refine ⟨st', ?_⟩
      rw [foldlM_cons, bind_eq_ok]
      exact ⟨st₁, h₁, h₂⟩
    · intro st' h
      rw [foldlM_cons, bind_eq_ok] at h
      obtain ⟨st₁, h₁, h₂⟩ := h
      exact (htail st₁ h₁).2.1 st' h₂
    · intro other hother first
      rcases mem_cons.mp hother with rfl | hother
      · exact no_overflow hvalid.1 hvalid.2.2 first _
      · -- valid bits are enough here, so the headers behind a rejected one are covered too
        have hbits : ∀ (chain : Core.Chain) (l : List HeaderWrapper), MeetsAll chain l → other ∈ l →
            Core.ValidBits other.header.bits := by
          intro chain l
          induction l generalizing chain with
          | nil => exact fun _ h => nomatch h
          | cons h t iht =>
            intro hall hmem
            rcases mem_cons.mp hmem with rfl | hmem
            · exact hall.1
            · exact iht _ hall.2.2 hmem
        have hvalid' := hbits _ rest hrest hother
        exact no_overflow hvalid'.1 hvalid'.2.2 first _

/-! ### The last block of an epoch -/

/-- A chain of 4031 blocks. The epoch of the last one began with the block 2016. -/
def sampleChain (start : UInt32) : Core.Chain where
  tip := 4030
  block := fun height =>
    ⟨.zero, if height = 2016 then start else UInt32.ofNat (1000000 + height), 0x1b0404cb⟩
  work := 5

/-- Its state. The block 4030 is at the place 4 of the ring. -/
def sampleDaState (start : UInt32) : LatestDaState where
  blockHash := .zero
  blockHeight := 4030
  totalWork := toBeBytes 5
  currentTargetBits := 0x1b0404cb
  epochStartTime := start
  prev11Timestamps := fun i => UInt32.ofNat (1004030 - (15 - i.val) % 11)

/-- The last block of the epoch. -/
def sampleHeader : HeaderWrapper where
  header := ⟨1, .zero, .zero, 1004031, 0x1b0404cb, 7⟩
  txCount := 1
  height := 4031
  txsCommitment := .zero
  precomputedHash := .zero

theorem sample_sameTip (start : UInt32) : SameTip (sampleChain start) (sampleDaState start) where
  long := by
    show 10 ≤ 4030
    decide
  hash := rfl
  height := rfl
  epochStart := by simp [sampleChain, sampleDaState, blocksPerEpoch]
  timestamps := by
    intro k
    have htime : (if 4030 - k.val = 2016 then start else UInt32.ofNat (1000000 + (4030 - k.val))) =
        UInt32.ofNat (1000000 + (4030 - k.val)) := if_neg (by omega)
    show UInt32.ofNat (1004030 - (15 - (4030 - k.val) % 11) % 11) = _
    refine Eq.trans ?_ htime.symm
    congr 1
    omega

theorem sample_summarises (start : UInt32) : Summarises (sampleChain start)
    (sampleDaState start) where
  toSameTip := sample_sameTip start
  bits := (if_neg (by show ¬ (4030 + 1) % blocksPerEpoch = 0; decide)).symm
  work := by
    show fromBeBytes (toBeBytes 5) = 5
    decide +kernel

theorem sample_accepts (start : UInt32) :
    Core.Accepts (fun _ => .zero) (sampleChain start) sampleHeader where
  hash := rfl
  height := rfl
  prev := rfl
  bits := (sample_summarises start).bits
  work := by decide +kernel
  time := by
    have hmedian := (sample_sameTip start).median sampleHeader.header.time
    refine hmedian.mp ?_
    show verifyTimestamp 1004031 (fun i => UInt32.ofNat (1004030 - (15 - i.val) % 11)) = true
    decide +kernel

/-- The theorem applied to the last block of an epoch of the usual length. -/
theorem epoch_end_agrees :
    ∃ st', [sampleHeader].foldlM (verifyHeaderChainMainnet fun _ => .zero) (sampleDaState 1002016) =
        .ok st' ∧ Summarises ((sampleChain 1002016).extend sampleHeader) st' := by
  have hmeets : MeetsAll (sampleChain 1002016) [sampleHeader] := by
    refine ⟨by decide +kernel, ⟨by decide, fun _ => by decide, fun _ => by decide +kernel,
      by decide +kernel, by decide +kernel⟩, trivial⟩
  obtain ⟨hiff, hsum, -⟩ := mainnet_agrees (sample_summarises 1002016) [sampleHeader] hmeets
  obtain ⟨st', hst'⟩ := hiff.mpr ⟨sample_accepts 1002016, trivial⟩
  exact ⟨st', hst', hsum st' hst'⟩

/-- The first block of the epoch has a time far ahead, so the last one is before it. Both accept the
last block, and then they expect different bits. -/
theorem timespan_wraps : Summarises (sampleChain 2000000000) (sampleDaState 2000000000) ∧
    Core.ValidBits sampleHeader.header.bits ∧
    Core.Accepts (fun _ => .zero) (sampleChain 2000000000) sampleHeader ∧
    ∃ st', verifyHeaderChainMainnet (fun _ => .zero) (sampleDaState 2000000000) sampleHeader =
        .ok st' ∧ st'.currentTargetBits = 0x1b10132c ∧
      Core.getNextWorkRequired ((sampleChain 2000000000).extend sampleHeader) = 0x1b010132 ∧
      ¬ Summarises ((sampleChain 2000000000).extend sampleHeader) st' := by
  refine ⟨sample_summarises _, by decide +kernel, sample_accepts _, ?_⟩
  have hrun : (verifyHeaderChainMainnet (fun _ => .zero) (sampleDaState 2000000000)
      sampleHeader).map LatestDaState.currentTargetBits = .ok 0x1b10132c := by decide +kernel
  obtain ⟨st', hst', hbits⟩ := map_eq_ok.mp hrun
  have hcore : Core.getNextWorkRequired ((sampleChain 2000000000).extend sampleHeader) =
      0x1b010132 := by decide +kernel
  refine ⟨st', hst', hbits, hcore, fun hsum => ?_⟩
  have heq := hsum.bits
  rw [hbits, hcore] at heq
  exact absurd heq (by decide)

/-! ### Compact targets, new targets and work

`compact_targets` is about the numbers of the three networks. The compact form keeps the first 16 to
23 bits of a target, so reading it back loses less than one part in `2 ^ 15`, and from a target of
`2 ^ 17` or more the next one has its digits inside of the 32 bytes.

`totalWork_eq_sum` is about runs: each accepted header adds the work of the target it was checked
against. `target_to_work` takes the work of the target 1 to be `2 ^ 256 - 1`, which is about twice
the quotient, so no header may be checked against that target (`totalWork_targetOne`).
-/

variable {n : Nat}

/-! ### Reading a compact form back -/

/-- The last byte of the digits is the unit of the compact form, and the digits have 16 bits. -/
theorem unit_le {q : Nat} (hq : bitLength n / 8 = q) (hlow : 2 ^ 15 ≤ n) :
    2 ^ (8 * (q - 2)) * 2 ^ 15 ≤ n := by
  have hlen : 15 < bitLength n := lt_bitLength hlow
  rw [← Nat.pow_add]
  exact le_trans (Nat.pow_le_pow_right (by omega) (by omega)) (bitLength_bounds (by omega)).1

/-- The compact form of what a compact form stands for is the same. -/
theorem getCompact_setCompact_getCompact (hlow : 2 ^ 15 ≤ n) (hhigh : n < 2 ^ 255) :
    2 ^ 15 ≤ Core.setCompact (Core.getCompact n) ∧
      (n - Core.setCompact (Core.getCompact n)) * 2 ^ 15 < n ∧
      Core.getCompact (Core.setCompact (Core.getCompact n)) = Core.getCompact n := by
  obtain ⟨q, hq⟩ : ∃ q, bitLength n / 8 = q := ⟨_, rfl⟩
  have hlen : 15 < bitLength n := lt_bitLength hlow
  obtain ⟨hcompact, hdigits⟩ := compactDigits_eq hq hlow
  obtain ⟨-, hread⟩ := setCompact_getCompact_eq hq hlow hhigh
  have hunit := unit_le hq hlow
  have hdecoded : 2 ^ 15 ≤ n / 2 ^ (8 * (q - 2)) := by
    rw [Nat.le_div_iff_mul_le (Nat.two_pow_pos _), Nat.mul_comm]
    exact hunit
  have hpos : 0 < 2 ^ (8 * (q - 2)) := Nat.two_pow_pos _
  have hsplit := Nat.div_add_mod' n (2 ^ (8 * (q - 2)))
  have hrest := Nat.mod_lt n hpos
  rw [hread]
  -- the number read back has as many bits, up to those of its first byte
  have hsame : bitLength (n / 2 ^ (8 * (q - 2)) * 2 ^ (8 * (q - 2))) / 8 = q := by
    have hge : 8 * q - 1 < bitLength (n / 2 ^ (8 * (q - 2)) * 2 ^ (8 * (q - 2))) := by
      refine lt_bitLength (le_trans (le_of_eq ?_) (Nat.mul_le_mul_right _ hdecoded))
      rw [← Nat.pow_add]
      congr 1
      omega
    have hle : bitLength (n / 2 ^ (8 * (q - 2)) * 2 ^ (8 * (q - 2))) ≤ 8 * q + 7 := by
      refine bitLength_le (lt_of_lt_of_eq (Nat.mul_lt_mul_of_pos_right hdigits hpos) ?_)
      rw [← Nat.pow_add]
      congr 1
      omega
    omega
  have hlow' : 2 ^ 15 ≤ n / 2 ^ (8 * (q - 2)) * 2 ^ (8 * (q - 2)) :=
    le_trans hdecoded (Nat.le_mul_of_pos_right _ hpos)
  obtain ⟨hcompact', -⟩ := compactDigits_eq hsame hlow'
  refine ⟨hlow', ?_, ?_⟩
  · generalize 2 ^ (8 * (q - 2)) = unit at *
    omega
  · rw [Core.getCompact, hcompact', Nat.mul_div_cancel _ hpos, Core.getCompact, hcompact]

/-- The compact targets of the light client. For a target of at least 16 and at most 255 bits,
`target_to_bits` is the compact form of Bitcoin Core, reading it back loses less than one part in
`2 ^ 15`, and what is read back has the same compact form. From bits with a target between `2 ^ 17`
and the limit of the network, the target of the next epoch is again of that size, whatever the times
are: the product does not wrap, and `target_to_bits` returns. -/
theorem compact_targets : (∀ n, 2 ^ 15 ≤ n → n < 2 ^ 255 →
      (targetToBits (toBeBytes n) : Outcome HeaderError UInt32) = .ok (Core.getCompact n) ∧
      fromBeBytes (bitsToTarget (Core.getCompact n)) ≤ n ∧
      (n - fromBeBytes (bitsToTarget (Core.getCompact n))) * 2 ^ 15 < n ∧
      (targetToBits (bitsToTarget (Core.getCompact n)) : Outcome HeaderError UInt32) =
        .ok (Core.getCompact n)) ∧ ∀ (network : BitcoinNetwork) (first last bits : UInt32),
      2 ^ 17 ≤ fromBeBytes (bitsToTarget bits) →
      fromBeBytes (bitsToTarget bits) ≤ (getNetworkConstants network).maxTarget →
      fromBeBytes (bitsToTarget bits) *
          (actualTimespan first last (epochTimespan network)).toNat < 2 ^ 256 ∧
        ∃ target, calculateNewDifficulty first last bits (getNetworkConstants network).maxTarget
            (epochTimespan network) = toBeBytes target ∧ 2 ^ 15 ≤ target ∧ target < 2 ^ 255 ∧
          (targetToBits (toBeBytes target) : Outcome HeaderError UInt32) =
            .ok (Core.getCompact target) := by
  constructor
  · intro n hlow hhigh
    obtain ⟨hpositive, hle⟩ := setCompact_getCompact_le hhigh
    obtain ⟨hlow', herror, hsame⟩ := getCompact_setCompact_getCompact hlow hhigh
    have hhigh' := lt_of_le_of_lt hle hhigh
    rw [bitsToTarget_eq hpositive (lt_trans hhigh' (by norm_num)),
      fromBeBytes_toBeBytes (lt_trans hhigh' (by norm_num))]
    exact ⟨targetToBits_eq hlow hhigh, hle, herror, (targetToBits_eq hlow' hhigh').trans
      (congrArg _ hsame)⟩
  · intro network first last bits hlow hhigh
    obtain ⟨hquarter, hfour⟩ := actualTimespan_bounds network first last
    obtain ⟨hmin, hmax, hbits, hpos⟩ : 2 ^ 15 ≤ (getNetworkConstants network).maxTarget ∧
        (getNetworkConstants network).maxTarget * (4 * (epochTimespan network).toNat) < 2 ^ 256 ∧
        (getNetworkConstants network).maxTarget < 2 ^ 255 ∧ 0 < (epochTimespan network).toNat := by
      cases network <;> decide
    rw [calculateNewDifficulty]
    generalize fromBeBytes (bitsToTarget bits) = old at *
    generalize (actualTimespan first last (epochTimespan network)).toNat = actual at *
    have hproduct : old * actual < 2 ^ 256 := lt_of_le_of_lt (Nat.mul_le_mul hhigh hfour) hmax
    -- a quarter of `2 ^ 17` is still a target of 16 bits
    have hnew : 2 ^ 15 ≤ old * actual / (epochTimespan network).toNat := by
      rw [Nat.le_div_iff_mul_le hpos]
      calc 2 ^ 15 * (epochTimespan network).toNat
          ≤ 2 ^ 15 * (4 * actual) := Nat.mul_le_mul_left _ hquarter
        _ = 2 ^ 17 * actual := by omega
        _ ≤ old * actual := Nat.mul_le_mul_right _ hlow
    rw [Nat.mod_eq_of_lt hproduct]
    refine ⟨hproduct, _, rfl, ?_⟩
    split_ifs with hlimit
    · exact ⟨hmin, hbits, targetToBits_eq hmin hbits⟩
    · have hlt := lt_of_le_of_lt (not_lt.mp hlimit) hbits
      exact ⟨hnew, hlt, targetToBits_eq hnew hlt⟩

/-- The theorem applied to a target of 33 bits, and to an epoch of signet at its limit. -/
theorem compact_targets_signet : Core.getCompact 0x123456789 = 0x05012345 ∧
    (0x123456789 - fromBeBytes (bitsToTarget 0x05012345)) * 2 ^ 15 < 0x123456789 ∧
    ∃ target, calculateNewDifficulty 5 4 0x1E0377AE signetConstants.maxTarget
      expectedEpochTimespanSignet = toBeBytes target ∧ 2 ^ 15 ≤ target := by
  have hcompact : Core.getCompact 0x123456789 = 0x05012345 := by decide +kernel
  obtain ⟨hform, hnew⟩ := compact_targets
  obtain ⟨-, -, herror, -⟩ := hform 0x123456789 (by norm_num) (by norm_num)
  obtain ⟨-, target, htarget, hge, -⟩ := hnew .signet 5 4 0x1E0377AE (by decide +kernel)
    (by decide +kernel)
  exact ⟨hcompact, hcompact ▸ herror, target, htarget, hge⟩

/-! ### Work -/

/-- The target that a header is checked against. -/
def checkedTarget : BitcoinNetwork → LatestDaState → HeaderWrapper → Bytes32
  | .testnet4, st, header => (expectedTestnet4 st header).1
  | _, st, _ => bitsToTarget st.currentTargetBits

/-- The targets that the headers are checked against, one after the other. -/
def checkedTargets (sha256 : Bytes → Bytes32) (network : BitcoinNetwork) :
    LatestDaState → List HeaderWrapper → List Nat
  | _, [] => []
  | st, header :: rest => fromBeBytes (checkedTarget network st header) ::
      match verifyHeaderChain sha256 network st header with
      | .ok st' => checkedTargets sha256 network st' rest
      | .error _ => []

/-- The work of a target is the quotient, although `2 ^ 256` does not fit. -/
theorem targetToWork_eq_div {target : Bytes32} (hzero : fromBeBytes target ≠ 0)
    (hone : fromBeBytes target ≠ 1) : targetToWork target = 2 ^ 256 / (fromBeBytes target + 1) := by
  have hlt : fromBeBytes target < 2 ^ 256 := by
    have hbound := beNat_lt target.data
    rw [target.length_eq] at hbound
    exact lt_of_lt_of_eq hbound (by norm_num)
  rw [targetToWork_of_ne hzero hone, ← Nat.add_div_right _ (Nat.succ_pos _)]
  congr 1
  omega

variable {sha256 : Bytes → Bytes32} {network : BitcoinNetwork} {st st' : LatestDaState}
  {header : HeaderWrapper}

/-- An accepted header adds the work of the target that it was checked against. -/
theorem totalWork_step (h : verifyHeaderChain sha256 network st header = .ok st') :
    st'.totalWork = toBeBytes (min (fromBeBytes st.totalWork +
      targetToWork (checkedTarget network st header)) (2 ^ 256 - 1)) := by
  cases network <;>
    simp only [verifyHeaderChain, verifyHeaderChainMainnet, verifyHeaderChainTestnet4,
      verifyHeaderChainSignet, bind_eq_ok, pure_eq_ok] at h <;>
    obtain ⟨_, -, _, -, rfl⟩ := h <;> rfl

/-- The total work. `target_to_work` is the quotient of `2 ^ 256` and one more than the target, for
every target from 2 on. After a list of accepted headers, the total work has grown by the sum of the
quotients of the targets that they were checked against, if it fits and none of them is 1. -/
theorem totalWork_eq_sum :
    (∀ t, 2 ≤ t → t < 2 ^ 256 → targetToWork (toBeBytes t) = 2 ^ 256 / (t + 1)) ∧
    ∀ (sha256 : Bytes → Bytes32) (network : BitcoinNetwork) (headers : List HeaderWrapper)
      (st final : LatestDaState), headers.foldlM (verifyHeaderChain sha256 network) st = .ok final →
      (∀ t ∈ checkedTargets sha256 network st headers, t ≠ 1) →
      fromBeBytes st.totalWork + ((checkedTargets sha256 network st headers).map
        fun t => 2 ^ 256 / (t + 1)).sum < 2 ^ 256 →
      fromBeBytes final.totalWork = fromBeBytes st.totalWork +
        ((checkedTargets sha256 network st headers).map fun t => 2 ^ 256 / (t + 1)).sum := by
  constructor
  · intro t hlow hhigh
    rw [targetToWork_eq_div] <;> rw [fromBeBytes_toBeBytes hhigh] <;> omega
  · intro sha256 network headers
    induction headers with
    | nil =>
      intro st final h _ _
      obtain rfl := pure_eq_ok.mp h
      rfl
    | cons header rest ih =>
      intro st final h hone hfits
      rw [foldlM_cons, bind_eq_ok] at h
      obtain ⟨st', hstep, hrest⟩ := h
      rw [checkedTargets, hstep] at hone hfits ⊢
      simp only [map_cons, sum_cons, forall_mem_cons] at hone hfits ⊢
      -- the quotient of the target 0 does not fit
      have hzero : fromBeBytes (checkedTarget network st header) ≠ 0 := by
        intro hzero
        rw [hzero] at hfits
        omega
      have hwork : fromBeBytes st'.totalWork = fromBeBytes st.totalWork +
          2 ^ 256 / (fromBeBytes (checkedTarget network st header) + 1) := by
        rw [totalWork_step hstep, targetToWork_eq_div hzero hone.1, min_eq_left (by omega),
          fromBeBytes_toBeBytes (by omega)]
      rw [ih st' final hrest hone.2 (by omega), hwork, Nat.add_assoc]

/-- A state and the header after it, inside of an epoch and with the given bits. -/
def workState (bits : UInt32) : LatestDaState :=
  { sampleDaState 0 with blockHeight := 4029, currentTargetBits := bits }

def workHeader (bits : UInt32) : HeaderWrapper :=
  { sampleHeader with header := ⟨1, .zero, .zero, 1004031, bits, 7⟩, height := 4030 }

/-- The theorem applied to a header with the target 2. -/
theorem totalWork_targetTwo :
    ∃ final, [workHeader 0x01020000].foldlM (verifyHeaderChain (fun _ => .zero) .mainnet)
        (workState 0x01020000) = .ok final ∧ fromBeBytes final.totalWork = 5 + 2 ^ 256 / 3 := by
  have hrun : ([workHeader 0x01020000].foldlM (verifyHeaderChain (fun _ => .zero) .mainnet)
      (workState 0x01020000)).map LatestDaState.blockHeight = .ok 4030 := by decide +kernel
  obtain ⟨final, hfinal, -⟩ := map_eq_ok.mp hrun
  have htargets : checkedTargets (fun _ => .zero) .mainnet (workState 0x01020000)
      [workHeader 0x01020000] = [2] := by decide +kernel
  have hstart : fromBeBytes (workState 0x01020000).totalWork = 5 := by decide +kernel
  have hsum := totalWork_eq_sum.2 _ _ _ _ _ hfinal (by rw [htargets]; decide)
    (by rw [htargets, hstart]; decide)
  rw [htargets, hstart] at hsum
  exact ⟨final, hfinal, hsum⟩

/-- A header with the target 1 adds `2 ^ 256 - 1` and not the quotient, and the sum is cut off. -/
theorem totalWork_targetOne :
    checkedTargets (fun _ => .zero) .mainnet (workState 0x01010000) [workHeader 0x01010000] = [1] ∧
    fromBeBytes (workState 0x01010000).totalWork + 2 ^ 256 / (1 + 1) < 2 ^ 256 ∧
    ∃ final, [workHeader 0x01010000].foldlM (verifyHeaderChain (fun _ => .zero) .mainnet)
        (workState 0x01010000) = .ok final ∧ fromBeBytes final.totalWork ≠
        fromBeBytes (workState 0x01010000).totalWork + 2 ^ 256 / (1 + 1) := by
  have hrun : ([workHeader 0x01010000].foldlM (verifyHeaderChain (fun _ => .zero) .mainnet)
      (workState 0x01010000)).map (fun st => fromBeBytes st.totalWork) = .ok (2 ^ 256 - 1) := by
    decide +kernel
  obtain ⟨final, hfinal, hwork⟩ := map_eq_ok.mp hrun
  refine ⟨by decide +kernel, by decide +kernel, final, hfinal, ?_⟩
  rw [hwork]
  decide +kernel

end Citrea.Proofs.Bitcoin
