import Citrea.Proofs.Bitcoin.Mainnet

/-!
# `Citrea.Proofs.Bitcoin.Testnet4`: the difficulty rule of testnet4

A block that comes more than 20 minutes after the one before it may have the lowest difficulty.
Bitcoin Core then finds the real difficulty by looking back to the last block with other bits, or to
the first block of the epoch. The light client has one field for it.

The invariant is `EpochBits`: every block of the current epoch has the bits of its first block, or
the lowest bits. The first block is never under the exception. So Bitcoin Core always comes back to
the bits of the first block (`EpochBits.lastRealBits_eq`), and the field has these bits
(`RealDifficulty`). `testnet4_bits` is the result for every list of accepted headers.
-/

namespace Citrea.Proofs.Bitcoin

open Lib Spec.Bitcoin

variable {sha256 : Bytes → Bytes32} {chain : Core.Chain} {st st' : LatestDaState}
  {header : HeaderWrapper}

/-- The height of the first block of the epoch of a block. -/
abbrev epochFirst (height : Nat) : Nat := height - height % blocksPerEpoch

/-- The lowest bits are the same in the light client and in Bitcoin Core. -/
theorem getCompact_powLimit : Core.getCompact Core.powLimit = testnet4Constants.maxBits := by
  decide +kernel

/-! ### Looking back -/

/-- Each block of an epoch up to the tip has the bits of the first one, or the lowest ones. -/
def EpochBits (chain : Core.Chain) : Prop :=
  ∀ height, epochFirst chain.tip ≤ height → height ≤ chain.tip →
    (chain.block height).bits = (chain.block (epochFirst chain.tip)).bits ∨
      (chain.block height).bits = Core.getCompact Core.powLimit

/-- Looking back from a block of the epoch ends at the bits of the first one. -/
theorem lastRealBits_of_epoch {block : Nat → Core.BlockIndex} {first : Nat}
    (hfirst : first % blocksPerEpoch = 0) (n : Nat) (hn : n < blocksPerEpoch)
    (hbits : ∀ height, first ≤ height → height ≤ first + n →
      (block height).bits = (block first).bits ∨
        (block height).bits = Core.getCompact Core.powLimit) :
    Core.lastRealBits block (first + n) = (block first).bits := by
  induction n with
  | zero =>
    cases first with
    | zero => rfl
    | succ first => rw [Nat.add_zero, Core.lastRealBits, if_neg (by rw [hfirst]; simp)]
  | succ n ih =>
    have hprev := ih (by omega) fun height h1 h2 => hbits height h1 (by omega)
    show Core.lastRealBits block (first + n + 1) = _
    rw [Core.lastRealBits]
    split_ifs with hmin
    · exact hprev
    · -- the block is not under the exception, because it does not start an epoch
      have hinside : (first + n + 1) % blocksPerEpoch ≠ 0 := by
        simp only [blocksPerEpoch] at hfirst hn ⊢
        omega
      rcases hbits (first + n + 1) (by omega) (by omega) with hreal | hlow
      · exact hreal
      · exact absurd ⟨hinside, hlow⟩ hmin

theorem EpochBits.lastRealBits_eq (h : EpochBits chain) :
    Core.lastRealBits chain.block chain.tip = (chain.block (epochFirst chain.tip)).bits := by
  have hsplit : epochFirst chain.tip + chain.tip % blocksPerEpoch = chain.tip :=
    Nat.sub_add_cancel (Nat.mod_le ..)
  have hmod : epochFirst chain.tip % blocksPerEpoch = 0 := by
    simp only [epochFirst, blocksPerEpoch]
    omega
  have hlast :
      Core.lastRealBits chain.block (epochFirst chain.tip + chain.tip % blocksPerEpoch) = _ :=
    lastRealBits_of_epoch hmod (chain.tip % blocksPerEpoch)
      (Nat.mod_lt _ (by decide)) fun height h1 h2 => h height h1 (by omega)
  rwa [hsplit] at hlast

/-! ### The invariant -/

/-- The chain up to a height. -/
def upTo (chain : Core.Chain) (height : Nat) : Core.Chain := { chain with tip := height }

/-- The blocks of the current epoch behind its first one follow the rule of Bitcoin Core, and the
first one has a target within the limit. -/
structure FollowsRule (chain : Core.Chain) : Prop where
  first : (chain.block (epochFirst chain.tip)).bits.toNat / 2 ^ 23 % 2 = 0 ∧
    Core.setCompact (chain.block (epochFirst chain.tip)).bits ≤ Core.powLimit
  rule : ∀ height, epochFirst chain.tip ≤ height → height < chain.tip →
    (chain.block (height + 1)).bits =
      Core.getNextWorkRequiredTestnet4 (upTo chain height) (chain.block (height + 1)).time

/-- What Bitcoin Core requires of a block inside an epoch. -/
theorem EpochBits.required (h : EpochBits chain) (hinside : (chain.tip + 1) % blocksPerEpoch ≠ 0)
    (time : UInt32) : Core.getNextWorkRequiredTestnet4 chain time =
      if (chain.block chain.tip).time.toNat + 1200 < time.toNat then Core.getCompact Core.powLimit
      else (chain.block (epochFirst chain.tip)).bits := by
  rw [Core.getNextWorkRequiredTestnet4, if_neg hinside, h.lastRealBits_eq]

/-- A chain that follows the rule has the bits of the first block of the epoch, or the lowest ones.
By induction from the first block on. -/
theorem FollowsRule.epochBits (h : FollowsRule chain) : EpochBits chain := by
  have hmod : chain.tip % blocksPerEpoch < blocksPerEpoch := Nat.mod_lt _ (by decide)
  have hupTo : ∀ n, epochFirst chain.tip + n ≤ chain.tip →
      EpochBits (upTo chain (epochFirst chain.tip + n)) := by
    intro n
    induction n with
    | zero =>
      intro _ height h1 h2
      have hfirst : epochFirst (epochFirst chain.tip + 0) = epochFirst chain.tip := by
        simp only [epochFirst, blocksPerEpoch]
        omega
      have heq : height = epochFirst chain.tip := by
        simp only [upTo, hfirst] at h1 h2
        omega
      show (chain.block height).bits =
        (chain.block (epochFirst (epochFirst chain.tip + 0))).bits ∨ _
      exact .inl (by rw [hfirst, heq])
    | succ n ih =>
      intro hle height h1 h2
      have hprev := ih (by omega)
      have hsame : epochFirst (epochFirst chain.tip + (n + 1)) =
          epochFirst (epochFirst chain.tip + n) := by
        simp only [epochFirst, blocksPerEpoch] at hle hmod ⊢
        omega
      simp only [upTo, hsame] at h1 h2 ⊢
      by_cases hlast : height ≤ epochFirst chain.tip + n
      · exact hprev height h1 hlast
      · -- the last block has the bits that the rule requires
        obtain rfl : height = epochFirst chain.tip + n + 1 := by omega
        have hinside : (epochFirst chain.tip + n + 1) % blocksPerEpoch ≠ 0 := by
          simp only [epochFirst, blocksPerEpoch] at hle hmod ⊢
          omega
        rw [h.rule (epochFirst chain.tip + n) (by omega) (by omega),
          EpochBits.required hprev hinside]
        split_ifs
        · exact .inr rfl
        · exact .inl rfl
  have htip : epochFirst chain.tip + chain.tip % blocksPerEpoch = chain.tip :=
    Nat.sub_add_cancel (Nat.mod_le ..)
  have hall := hupTo (chain.tip % blocksPerEpoch) (by omega)
  rw [htip] at hall
  exact hall

/-- The field of the light client: what Bitcoin Core requires of a block that is not slow. -/
def RealDifficulty (chain : Core.Chain) (st : LatestDaState) : Prop :=
  st.currentTargetBits = Core.getNextWorkRequiredTestnet4 chain (chain.block chain.tip).time

/-- The state summarises the chain. -/
structure SummarisesTestnet4 (chain : Core.Chain) (st : LatestDaState) : Prop
    extends SameTip chain st where
  follows : FollowsRule chain
  bits : RealDifficulty chain st

/-- Inside an epoch the field has the bits of its first block. -/
theorem SummarisesTestnet4.inside (h : SummarisesTestnet4 chain st)
    (hinside : (chain.tip + 1) % blocksPerEpoch ≠ 0) :
    st.currentTargetBits = (chain.block (epochFirst chain.tip)).bits := by
  have hbits := h.bits
  rw [RealDifficulty, h.follows.epochBits.required hinside, if_neg (by omega)] at hbits
  exact hbits

/-- The bits that the light client requires of the next header are those of Bitcoin Core. -/
theorem expected_eq_required (h : SummarisesTestnet4 chain st)
    (hheight : header.height.toNat = chain.tip + 1)
    (htime : (chain.block chain.tip).time.toNat < 2 ^ 32 - 1200) : (expectedTestnet4 st header).2 =
      Core.getNextWorkRequiredTestnet4 chain header.header.time := by
  have hadd : ((chain.block chain.tip).time + 1200).toNat =
      (chain.block chain.tip).time.toNat + 1200 :=
    by rw [UInt32.toNat_add]; exact Nat.mod_eq_of_lt (by simp only [UInt32.reduceToNat]; omega)
  simp only [expectedTestnet4, hheight, h.tipTime, UInt32.lt_iff_toNat_lt, hadd]
  by_cases hinside : (chain.tip + 1) % blocksPerEpoch = 0
  · -- the first block of an epoch has no exception
    rw [if_neg (by simp [hinside])]
    have hbits := h.bits
    rw [RealDifficulty, Core.getNextWorkRequiredTestnet4, if_pos hinside] at hbits
    rw [Core.getNextWorkRequiredTestnet4, if_pos hinside]
    exact hbits
  · rw [h.follows.epochBits.required hinside, getCompact_powLimit]
    split_ifs with hslow hslow' hslow'
    · rfl
    · exact absurd hslow.2 hslow'
    · exact absurd ⟨hinside, hslow'⟩ hslow
    · exact h.inside hinside

/-! ### A header -/

/-- What the assumptions say about the next header: its time is not near the end of its type, and
the last block of an epoch is not before the first one. -/
structure InTime (chain : Core.Chain) (header : HeaderWrapper) : Prop where
  height : chain.tip + 1 < 2 ^ 64
  range : header.header.time.toNat < 2 ^ 32 - 1200
  forward : (chain.tip + 1) % blocksPerEpoch = blocksPerEpoch - 1 →
    (chain.block (chain.tip + 1 - (blocksPerEpoch - 1))).time ≤ header.header.time

/-- The rule looks at the blocks up to the tip only. -/
theorem required_congr {chain chain' : Core.Chain} (htip : chain.tip = chain'.tip)
    (hblock : ∀ k, k ≤ chain.tip → chain.block k = chain'.block k) (time : UInt32) :
    Core.getNextWorkRequiredTestnet4 chain time = Core.getNextWorkRequiredTestnet4 chain' time := by
  have hreal : ∀ k, k ≤ chain.tip →
      Core.lastRealBits chain.block k = Core.lastRealBits chain'.block k := by
    intro k
    induction k with
    | zero => exact fun hk => congrArg Core.BlockIndex.bits (hblock 0 hk)
    | succ k ih =>
      intro hk
      rw [Core.lastRealBits, Core.lastRealBits, hblock _ hk, ih (by omega)]
  rw [Core.getNextWorkRequiredTestnet4, Core.getNextWorkRequiredTestnet4, ← htip,
    hreal _ le_rfl, hblock _ le_rfl, hblock _ (by omega)]

theorem required_upTo_extend {height : Nat} (h : height ≤ chain.tip) (time : UInt32) :
    Core.getNextWorkRequiredTestnet4 (upTo (chain.extend header) height) time =
      Core.getNextWorkRequiredTestnet4 (upTo chain height) time := by
  apply required_congr
  · rfl
  · exact fun k hk => block_extend_of_le (le_trans hk h)

/-- The rule along a longer chain. The first block of a new epoch has a target within the limit,
because it is one that the rule computed. -/
theorem FollowsRule.extend (h : FollowsRule chain)
    (hbits : header.header.bits = Core.getNextWorkRequiredTestnet4 chain header.header.time) :
    FollowsRule (chain.extend header) where
  first := by
    show ((chain.extend header).block (epochFirst (chain.tip + 1))).bits.toNat / 2 ^ 23 % 2 = 0 ∧
      Core.setCompact ((chain.extend header).block (epochFirst (chain.tip + 1))).bits ≤
        Core.powLimit
    by_cases hstart : (chain.tip + 1) % blocksPerEpoch = 0
    · rw [epochFirst, hstart, Nat.sub_zero, block_extend_tip, hbits,
        Core.getNextWorkRequiredTestnet4, if_pos hstart, Core.calculateNextWorkRequired]
      have hcompact := fun n : Nat => setCompact_getCompact_le (n := min n Core.powLimit)
        (lt_of_le_of_lt (min_le_right ..) (by decide))
      exact ⟨(hcompact _).1, le_trans (hcompact _).2 (min_le_right ..)⟩
    · rw [epochFirst, epoch_same hstart, block_extend_of_le (Nat.sub_le ..)]
      exact h.first
  rule := by
    intro height hfirst hlt
    have htip : (chain.extend header).tip = chain.tip + 1 := rfl
    rw [htip] at hfirst hlt
    by_cases hlast : height = chain.tip
    · rw [required_upTo_extend (by omega), hlast, block_extend_tip]
      exact hbits
    · -- an older block, so the epoch did not just begin
      have hinside : (chain.tip + 1) % blocksPerEpoch ≠ 0 := by
        intro hstart
        rw [epochFirst, hstart] at hfirst
        omega
      rw [epochFirst, epoch_same hinside] at hfirst
      rw [required_upTo_extend (by omega), block_extend_of_le (by omega)]
      exact h.rule height hfirst (by omega)

/-- A header that the light client accepts. -/
theorem testnet4_step (h : SummarisesTestnet4 chain st) (hintime : InTime chain header)
    (htime : (chain.block chain.tip).time.toNat < 2 ^ 32 - 1200)
    (hok : verifyHeaderChainTestnet4 sha256 st header = .ok st') :
    SummarisesTestnet4 (chain.extend header) st' := by
  simp only [verifyHeaderChainTestnet4, verifyHeaderChainCommon, bind_eq_ok,
    ensure_eq_ok, exists_const, pure_eq_ok] at hok
  obtain ⟨⟨-, hheight, -, hexpected, -, -⟩, next, hnext, rfl⟩ := hok
  rw [h.nextHeight hintime.height] at hheight
  have hbits := hexpected.trans (expected_eq_required h hheight htime)
  have hfollows := h.follows.extend hbits
  refine ⟨h.toSameTip.next hheight _ _, hfollows, ?_⟩
  have hblock : (chain.extend header).block (chain.tip + 1) = _ := block_extend_tip
  show next = Core.getNextWorkRequiredTestnet4 (chain.extend header)
    ((chain.extend header).block (chain.tip + 1)).time
  rw [nextTargetBits, hheight] at hnext
  by_cases hlast : (chain.tip + 1) % blocksPerEpoch = blocksPerEpoch - 1
  · -- the last block of the epoch: the target of the first block is adjusted
    obtain ⟨hstart, hinside, hfirst⟩ := epoch_last hlast
    have hepoch : epochStartOf st header =
        (chain.block (chain.tip + 1 - (blocksPerEpoch - 1))).time := by
      rw [epochStartOf, if_neg (by rwa [hheight]), h.epochStart, hfirst]
    have hforward := hintime.forward hlast
    rw [if_pos hlast, h.inside hinside, hepoch, testnet4_maxTarget] at hnext
    have hretarget := retarget_ok h.follows.first.1 h.follows.first.2 hforward hnext
    have htip : (chain.extend header).tip = chain.tip + 1 := rfl
    rw [hretarget, Core.getNextWorkRequiredTestnet4, htip, if_pos hstart, hblock, hfirst,
      block_extend_of_le (by omega)]
  · rw [if_neg hlast, pure_eq_ok] at hnext
    have hinside := epoch_notLast hlast
    rw [← hnext, hfollows.epochBits.required hinside]
    show st.currentTargetBits = if ((chain.extend header).block (chain.tip + 1)).time.toNat + 1200 <
        ((chain.extend header).block (chain.tip + 1)).time.toNat then _ else
      ((chain.extend header).block (epochFirst (chain.tip + 1))).bits
    rw [if_neg (by omega)]
    by_cases hstart : (chain.tip + 1) % blocksPerEpoch = 0
    · -- the first block of an epoch has the bits of the field
      rw [epochFirst, hstart, Nat.sub_zero, hblock, hbits, Core.getNextWorkRequiredTestnet4,
        if_pos hstart]
      have hreal := h.bits
      rw [RealDifficulty, Core.getNextWorkRequiredTestnet4, if_pos hstart] at hreal
      exact hreal
    · rw [epochFirst, epoch_same hstart, block_extend_of_le (Nat.sub_le ..)]
      exact h.inside hstart

/-! ### A list of headers -/

/-- Every header is in time. -/
def AllInTime : Core.Chain → List HeaderWrapper → Prop
  | _, [] => True
  | chain, header :: rest => InTime chain header ∧ AllInTime (chain.extend header) rest

theorem testnet4_run (h : SummarisesTestnet4 chain st) (headers : List HeaderWrapper)
    (htime : (chain.block chain.tip).time.toNat < 2 ^ 32 - 1200) (hintime : AllInTime chain headers)
    (hok : headers.foldlM (verifyHeaderChainTestnet4 sha256) st = .ok st') :
    let chain' := headers.foldl Core.Chain.extend chain
    SummarisesTestnet4 chain' st' ∧ (chain'.block chain'.tip).time.toNat < 2 ^ 32 - 1200 := by
  induction headers generalizing chain st with
  | nil =>
    obtain rfl := pure_eq_ok.mp hok
    exact ⟨h, htime⟩
  | cons header rest ih =>
    rw [List.foldlM_cons, bind_eq_ok] at hok
    obtain ⟨st₁, hfirst, hrest⟩ := hok
    refine ih (testnet4_step h hintime.1 htime hfirst) ?_ hintime.2 hrest
    show ((chain.extend header).block (chain.tip + 1)).time.toNat < 2 ^ 32 - 1200
    rw [block_extend_tip]
    exact hintime.1.range

/-- Testnet4 and Bitcoin Core. Take a state that summarises a chain, and headers that the light
client accepts. The bits that it then requires of the next header are those of Bitcoin Core for the
longer chain, and it accepts no header with other bits. -/
theorem testnet4_bits (h : SummarisesTestnet4 chain st) (headers : List HeaderWrapper)
    (htime : (chain.block chain.tip).time.toNat < 2 ^ 32 - 1200) (hintime : AllInTime chain headers)
    (hok : headers.foldlM (verifyHeaderChainTestnet4 sha256) st = .ok st') (next : HeaderWrapper)
    (hheight : next.height.toNat = (headers.foldl Core.Chain.extend chain).tip + 1) :
    (expectedTestnet4 st' next).2 = Core.getNextWorkRequiredTestnet4
      (headers.foldl Core.Chain.extend chain) next.header.time ∧
    ∀ st'', verifyHeaderChainTestnet4 sha256 st' next = .ok st'' →
      next.header.bits = Core.getNextWorkRequiredTestnet4
        (headers.foldl Core.Chain.extend chain) next.header.time := by
  obtain ⟨hsum, hlast⟩ := testnet4_run h headers htime hintime hok
  have hexpected := expected_eq_required hsum hheight hlast
  refine ⟨hexpected, fun st'' hnext => ?_⟩
  simp only [verifyHeaderChainTestnet4, verifyHeaderChainCommon, bind_eq_ok,
    ensure_eq_ok, exists_const] at hnext
  obtain ⟨⟨-, -, -, hbits, -, -⟩, -⟩ := hnext
  exact hbits.trans hexpected

/-- The chain of `epoch_end_agrees` also follows the rules of testnet4. All its blocks have the same
bits and none is slow. -/
theorem sample_followsRule : FollowsRule (sampleChain 1002016) where
  first := by decide +kernel
  rule := by
    intro height hfirst hlt
    have hlt' : height < 4030 := hlt
    have hepoch : EpochBits (upTo (sampleChain 1002016) height) := fun _ _ _ => .inl rfl
    have htime : ∀ k, k ≤ 4030 → ((sampleChain 1002016).block k).time.toNat = 1000000 + k := by
      intro k hk
      show (if k = 2016 then (1002016 : UInt32) else UInt32.ofNat (1000000 + k)).toNat = _
      split_ifs with hstart
      · rw [hstart]
        rfl
      · exact Nat.mod_eq_of_lt (by omega)
    have hinside : (height + 1) % blocksPerEpoch ≠ 0 := by
      have hfirst' : 4030 - 4030 % blocksPerEpoch ≤ height := hfirst
      simp only [blocksPerEpoch] at hfirst' ⊢
      omega
    rw [EpochBits.required hepoch hinside, if_neg]
    · rfl
    · show ¬ ((sampleChain 1002016).block height).time.toNat + 1200 < _
      rw [htime height (by omega), htime (height + 1) (by omega)]
      omega

theorem sample_summarisesTestnet4 :
    SummarisesTestnet4 (sampleChain 1002016) (sampleDaState 1002016) where
  toSameTip := sample_sameTip 1002016
  follows := sample_followsRule
  bits := by
    have hinside : ((sampleChain 1002016).tip + 1) % blocksPerEpoch ≠ 0 := by decide
    rw [RealDifficulty, sample_followsRule.epochBits.required hinside, if_neg (by omega)]
    rfl

/-- The first block of the next epoch. -/
def sampleNext : HeaderWrapper :=
  { sampleHeader with header := ⟨1, .zero, .zero, 1004100, 0x1b010132, 7⟩, height := 4032 }

/-- The theorem applied to the last block of an epoch, and then to the first block of the next. -/
theorem new_epoch_bits :
    ∃ st', [sampleHeader].foldlM (verifyHeaderChainTestnet4 fun _ => .zero)
        (sampleDaState 1002016) =
        .ok st' ∧ (expectedTestnet4 st' sampleNext).2 = Core.getNextWorkRequiredTestnet4
        ((sampleChain 1002016).extend sampleHeader) sampleNext.header.time := by
  have hrun : ([sampleHeader].foldlM (verifyHeaderChainTestnet4 fun _ => .zero)
      (sampleDaState 1002016)).map LatestDaState.currentTargetBits = .ok 0x1b010132 := by
    decide +kernel
  obtain ⟨st', hst', -⟩ := map_eq_ok.mp hrun
  have hintime : AllInTime (sampleChain 1002016) [sampleHeader] :=
    ⟨⟨by decide, by decide, fun _ => by decide⟩, trivial⟩
  have hbits := testnet4_bits sample_summarisesTestnet4 [sampleHeader] (by decide) hintime hst'
    sampleNext rfl
  exact ⟨st', hst', hbits.1⟩

end Citrea.Proofs.Bitcoin
