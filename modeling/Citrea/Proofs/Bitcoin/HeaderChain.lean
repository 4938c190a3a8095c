import Citrea.Spec.Bitcoin.CoreRules
import Mathlib.Data.Fintype.EquivFin
import Mathlib.Data.List.FinRange

/-!
# `Citrea.Proofs.Bitcoin.HeaderChain`: targets in bytes and in compact form

The light client computes with the 32 bytes of a target, and Bitcoin Core with numbers. The lemmas
here say that the two agree: comparing bytes from the front is comparing numbers
(`verifyTargetHash_iff`), and the bytes around the first one that is not zero are the digits of the
compact form (`targetToBits_eq`). A target below `2 ^ 15` has its digits too close to the end of the
32 bytes, and `target_to_bits` panics.
-/

namespace Citrea.Proofs.Bitcoin

open UInt64 List Lib Spec.Bitcoin

variable {n : Nat}

/-! ### Bytes -/

theorem fromBeBytes_toBeBytes (h : n < 2 ^ 256) : fromBeBytes (toBeBytes n) = n := by
  show ofLeBytes (leBytes 32 n).reverse.reverse = n
  rw [reverse_reverse]
  exact ofLeBytes_leBytes (by simpa using h)

/-- Comparing from the front is comparing the numbers, by the first byte that differs. -/
theorem compareBytes_iff {hash target : List UInt8} (h : hash.length = target.length) :
    compareBytes hash target = true ↔ beNat hash ≤ beNat target := by
  induction hash generalizing target with
  | nil =>
    cases target with
    | nil => simp [compareBytes]
    | cons t target => exact nomatch h
  | cons a hash ih =>
    cases target with
    | nil => exact nomatch h
    | cons t target =>
      have hlength : hash.length = target.length := Nat.succ.inj h
      have hlow := beNat_lt hash
      have hhigh := beNat_lt target
      rw [compareBytes, beNat_cons, beNat_cons, hlength]
      rw [hlength] at hlow
      generalize 256 ^ target.length = unit at hlow hhigh ⊢
      split_ifs with hlt hgt
      · -- the first byte is smaller, so the rest does not matter
        have hlt' : a.toNat + 1 ≤ t.toNat := UInt8.lt_iff_toNat_lt.mp hlt
        have hmul := Nat.mul_le_mul_right unit hlt'
        rw [Nat.add_mul] at hmul
        simp only [true_iff]
        omega
      · have hgt' : t.toNat + 1 ≤ a.toNat := UInt8.lt_iff_toNat_lt.mp hgt
        have hmul := Nat.mul_le_mul_right unit hgt'
        rw [Nat.add_mul] at hmul
        simp only [false_iff]
        omega
      · obtain rfl : a = t := UInt8.le_antisymm (UInt8.not_lt.mp hgt) (UInt8.not_lt.mp hlt)
        rw [ih hlength]
        omega

theorem verifyTargetHash_iff (hash target : Bytes32) :
    verifyTargetHash hash target = true ↔ ofLeBytes hash.data ≤ fromBeBytes target := by
  rw [verifyTargetHash, compareBytes_iff (by rw [length_reverse, hash.length_eq, target.length_eq]),
    beNat, reverse_reverse]
  rfl

/-! ### The compact form -/

theorem bitLength_eq (h : n ≠ 0) : bitLength n = n.log2 + 1 := if_neg h

/-- A number between two powers of two. -/
theorem bitLength_bounds (h : n ≠ 0) : 2 ^ (bitLength n - 1) ≤ n ∧ n < 2 ^ bitLength n := by
  rw [bitLength_eq h]
  exact ⟨Nat.log2_self_le h, Nat.lt_log2_self⟩

theorem bitLength_le {k : Nat} (h : n < 2 ^ k) : bitLength n ≤ k := by
  by_cases hn : n = 0
  · simp [bitLength, hn]
  · rw [bitLength_eq hn]
    exact (Nat.log2_lt hn).mpr h

theorem lt_bitLength {k : Nat} (h : 2 ^ k ≤ n) : k < bitLength n := by
  have hn : n ≠ 0 := by
    have := Nat.two_pow_pos k
    omega
  rw [bitLength_eq hn]
  exact Nat.lt_succ_of_le ((Nat.le_log2 hn).mpr h)

/-- The digits of the compact form: what is left of the number after all but three bytes. -/
theorem compactDigits_eq {q : Nat} (hq : bitLength n / 8 = q) (hlow : 2 ^ 15 ≤ n) :
    Core.compactDigits n = (q + 1, n / 2 ^ (8 * (q - 2))) ∧ n / 2 ^ (8 * (q - 2)) < 2 ^ 23 := by
  have hn : n ≠ 0 := by omega
  obtain ⟨hge, hlt⟩ := bitLength_bounds hn
  have hlen : 15 < bitLength n := lt_bitLength hlow
  generalize hb : bitLength n = b at *
  -- the digits are below `2 ^ 23` because `b` is at most `8 * q + 7`
  have hdigits : n / 2 ^ (8 * (q - 2)) < 2 ^ 23 := by
    rw [Nat.div_lt_iff_lt_mul (Nat.two_pow_pos _), ← Nat.pow_add]
    exact lt_of_lt_of_le hlt (Nat.pow_le_pow_right (by omega) (by omega))
  refine ⟨?_, hdigits⟩
  rw [Core.compactDigits, hb]
  by_cases hfull : b % 8 = 0
  · -- the top byte is full, so the sign bit would be set
    have hsize : (b + 7) / 8 = q := by omega
    have hshift : (if q ≤ 3 then n * 2 ^ (8 * (3 - q)) else n / 2 ^ (8 * (q - 3))) / 2 ^ 23 = 1 ∧
        (if q ≤ 3 then n * 2 ^ (8 * (3 - q)) else n / 2 ^ (8 * (q - 3))) / 2 ^ 8 =
          n / 2 ^ (8 * (q - 2)) := by
      have hcase : q = 2 ∨ q = 3 ∨ 3 < q := by omega
      rcases hcase with rfl | rfl | hbig
      · obtain rfl : b = 16 := by omega
        norm_num at hge hlt ⊢
        omega
      · obtain rfl : b = 24 := by omega
        norm_num at hge hlt ⊢
        omega
      · rw [if_neg (by omega), Nat.div_div_eq_div_mul, ← Nat.pow_add, Nat.div_div_eq_div_mul,
          ← Nat.pow_add]
        have hexp : 8 * (q - 3) + 23 = b - 1 := by omega
        have hexp' : 8 * (q - 3) + 8 = 8 * (q - 2) := by omega
        rw [hexp, hexp']
        refine ⟨?_, rfl⟩
        have hdouble : 2 ^ b = 2 * 2 ^ (b - 1) := by
          rw [← Nat.pow_succ']
          congr 1
          omega
        exact Nat.div_eq_of_lt_le (by omega) (by omega)
    simp only [hsize]
    rw [if_pos (by rw [hshift.1]), hshift.2]
  · have hsize : (b + 7) / 8 = q + 1 := by omega
    have hshift : (if q + 1 ≤ 3 then n * 2 ^ (8 * (3 - (q + 1))) else
        n / 2 ^ (8 * (q + 1 - 3))) = n / 2 ^ (8 * (q - 2)) := by
      split_ifs with hsmall
      · obtain rfl : q = 2 := by omega
        norm_num
      · rfl
    simp only [hsize]
    rw [hshift, if_neg (by rw [Nat.div_eq_of_lt hdigits]; omega)]

/-- `target_to_bits` is the compact form, for a target whose digits are in the 32 bytes. -/
theorem targetToBits_eq {ε : Type} (hlow : 2 ^ 15 ≤ n) (hhigh : n < 2 ^ 255) :
    (targetToBits (toBeBytes n) : Outcome ε UInt32) = .ok (Core.getCompact n) := by
  have hlen : 15 < bitLength n := lt_bitLength hlow
  have hmax : bitLength n ≤ 255 := bitLength_le hhigh
  obtain ⟨q, hq⟩ : ∃ q, bitLength n / 8 = q := ⟨_, rfl⟩
  obtain ⟨hcompact, hdigits⟩ := compactDigits_eq hq hlow
  have hsize : (263 - bitLength n) / 8 = 32 - q := by omega
  have hbyte : ∀ i, i < 32 → (toBeBytes n).data[i]? = some (UInt8.ofNat (n / 256 ^ (31 - i))) :=
    fun i hi => getElem?_beBytes hi
  simp only [targetToBits, bind_eq_ok, expect_eq_ok, pure_eq_ok]
  rw [fromBeBytes_toBeBytes (lt_trans hhigh (by norm_num)), hsize, if_neg (by omega),
    hbyte _ (by omega), hbyte _ (by omega), hbyte _ (by omega)]
  refine ⟨_, rfl, _, rfl, _, rfl, ?_⟩
  -- the three bytes are the digits of `n` after `q - 2` bytes
  have hpow : 2 ^ (8 * (q - 2)) = 256 ^ (q - 2) := by rw [Nat.pow_mul]
  have hfirst : 31 - (32 - q - 1) = q - 2 + 2 := by omega
  have hsecond : 31 - (32 - q) = q - 2 + 1 := by omega
  have hthird : 31 - (32 - q + 1) = q - 2 := by omega
  rw [hpow] at hdigits hcompact
  rw [Core.getCompact, hcompact, hfirst, hsecond, hthird, Nat.pow_add, Nat.pow_add,
    ← Nat.div_div_eq_div_mul, ← Nat.div_div_eq_div_mul]
  generalize n / 256 ^ (q - 2) = digits at hdigits ⊢
  simp only [UInt8.toNat_ofNat']
  refine congrArg UInt32.ofNat ?_
  show (33 - (32 - q)) * 2 ^ 24 + digits / (256 ^ 2) % 2 ^ 8 * 2 ^ 16 +
    digits / (256 ^ 1) % 2 ^ 8 * 2 ^ 8 + digits % 2 ^ 8 = (q + 1) * 2 ^ 24 + digits
  omega

/-- `target_to_bits` does not return for a smaller target. -/
theorem targetToBits_small {ε : Type} (h : n < 2 ^ 15) (bits : UInt32) :
    (targetToBits (toBeBytes n) : Outcome ε UInt32) ≠ .ok bits := by
  intro hok
  have hlen : bitLength n ≤ 15 := bitLength_le h
  simp only [targetToBits, bind_eq_ok, expect_eq_ok] at hok
  obtain ⟨first, -, second, -, third, hthird, -⟩ := hok
  rw [fromBeBytes_toBeBytes (lt_trans h (by norm_num))] at hthird
  have hindex := (List.getElem?_eq_some_iff.mp hthird).1
  rw [(toBeBytes n).length_eq] at hindex
  omega

/-- The bytes of a target are the number that Bitcoin Core reads. -/
theorem bitsToTarget_eq {bits : UInt32} (hpositive : bits.toNat / 2 ^ 23 % 2 = 0)
    (hfits : Core.setCompact bits < 2 ^ 256) :
    bitsToTarget bits = toBeBytes (Core.setCompact bits) := by
  have hmantissa : bits.toNat % 2 ^ 24 = bits.toNat % 2 ^ 23 := by omega
  rw [Core.setCompact] at hfits ⊢
  rw [bitsToTarget, hmantissa, if_neg (by omega)]
  split_ifs at hfits ⊢
  · rfl
  · rw [Nat.mod_eq_of_lt hfits]

theorem fromBeBytes_bitsToTarget {bits : UInt32} (hpositive : bits.toNat / 2 ^ 23 % 2 = 0)
    (hle : Core.setCompact bits ≤ Core.powLimit) :
    fromBeBytes (bitsToTarget bits) = Core.setCompact bits := by
  have hfits : Core.setCompact bits < 2 ^ 256 :=
    lt_of_le_of_lt hle (by norm_num [Core.powLimit])
  rw [bitsToTarget_eq hpositive hfits, fromBeBytes_toBeBytes hfits]

/-- What a compact form with a size and digits stands for. -/
theorem setCompact_of_digits {size digits : Nat} (h : Core.compactDigits n = (size, digits))
    (hsize : size < 256) (hdigits : digits < 2 ^ 23) :
    (Core.getCompact n).toNat / 2 ^ 23 % 2 = 0 ∧ Core.setCompact (Core.getCompact n) =
      if size ≤ 3 then digits / 2 ^ (8 * (3 - size)) else digits * 2 ^ (8 * (size - 3)) := by
  have hnat : (Core.getCompact n).toNat = size * 2 ^ 24 + digits := by
    rw [Core.getCompact, h]
    exact UInt32.toNat_ofNat_of_lt' (by norm_num; omega)
  have hword : (size * 2 ^ 24 + digits) % 2 ^ 23 = digits := by omega
  have hbytes : (size * 2 ^ 24 + digits) / 2 ^ 24 = size := by omega
  refine ⟨by omega, ?_⟩
  rw [Core.setCompact, hnat, hword, hbytes]

theorem setCompact_getCompact_eq {q : Nat} (hq : bitLength n / 8 = q) (hlow : 2 ^ 15 ≤ n)
    (hhigh : n < 2 ^ 255) : (Core.getCompact n).toNat / 2 ^ 23 % 2 = 0 ∧
      Core.setCompact (Core.getCompact n) = n / 2 ^ (8 * (q - 2)) * 2 ^ (8 * (q - 2)) := by
  obtain ⟨hcompact, hdigits⟩ := compactDigits_eq hq hlow
  have hlen : 15 < bitLength n := lt_bitLength hlow
  have hmax : bitLength n ≤ 255 := bitLength_le hhigh
  obtain ⟨hpositive, hread⟩ := setCompact_of_digits hcompact (by omega) hdigits
  refine ⟨hpositive, hread.trans ?_⟩
  split_ifs with hsmall
  · obtain rfl : q = 2 := by omega
    simp
  · have hexp : q + 1 - 3 = q - 2 := by omega
    rw [hexp]

/-- A compact number stands for a number that is not larger, and has a positive sign. -/
theorem setCompact_getCompact_le (hhigh : n < 2 ^ 255) :
    (Core.getCompact n).toNat / 2 ^ 23 % 2 = 0 ∧ Core.setCompact (Core.getCompact n) ≤ n := by
  by_cases hlow : 2 ^ 15 ≤ n
  · obtain ⟨hpositive, hread⟩ := setCompact_getCompact_eq rfl hlow hhigh
    exact ⟨hpositive, hread ▸ Nat.div_mul_le_self ..⟩
  · -- a number of at most two bytes fits into the digits
    have hlen : bitLength n ≤ 15 := bitLength_le (not_le.mp hlow)
    have hread : ∀ size, size ≤ 3 →
        Core.compactDigits n = (size, n * 2 ^ (8 * (3 - size))) →
        n * 2 ^ (8 * (3 - size)) < 2 ^ 23 →
        (Core.getCompact n).toNat / 2 ^ 23 % 2 = 0 ∧
          Core.setCompact (Core.getCompact n) ≤ n := by
      intro size hsize hdigits hlt
      obtain ⟨hpositive, hread⟩ := setCompact_of_digits hdigits (by omega) hlt
      rw [if_pos hsize, Nat.mul_div_cancel _ (Nat.two_pow_pos _)] at hread
      exact ⟨hpositive, hread.le⟩
    have hform : ∀ size, (bitLength n + 7) / 8 = size → size ≤ 3 → Core.compactDigits n =
        if n * 2 ^ (8 * (3 - size)) / 2 ^ 23 % 2 = 1 then
          (size + 1, n * 2 ^ (8 * (3 - size)) / 2 ^ 8)
        else (size, n * 2 ^ (8 * (3 - size))) := by
      intro size hsize hle
      simp [Core.compactDigits, hsize, hle]
    by_cases hzero : n = 0
    · subst hzero
      exact ⟨by decide, by decide⟩
    have hbound := (bitLength_bounds hzero).2
    have hpos : 0 < bitLength n := by rw [bitLength_eq hzero]; omega
    by_cases hone : bitLength n ≤ 8
    · have hbyte : n < 2 ^ 8 := lt_of_lt_of_le hbound (Nat.pow_le_pow_right (by omega) hone)
      have hdigits := hform 1 (by omega) (by omega)
      -- a byte with its top bit set would set the sign
      by_cases hsign : n < 2 ^ 7
      · exact hread 1 (by omega) (hdigits.trans (if_neg (by omega))) (by omega)
      · refine hread 2 (by omega) (hdigits.trans ((if_pos (by omega)).trans ?_)) (by omega)
        congr 1
        omega
    · exact hread 2 (by omega) ((hform 2 (by omega) (by omega)).trans (if_neg (by omega)))
        (by omega)

/-! ### The header chain and the rules of Bitcoin Core

`SameTip` says that a `LatestDaState` has the tip of a chain: its hash and height, the start time of
its epoch, and the times of its last eleven blocks, each in the ring at its height modulo eleven.
`SameTip.next` keeps it, and `SameTip.median` reads the median off the ring.

`retarget_eq` compares the bits for the next epoch. The light client subtracts the times of an epoch
without a sign, so the comparison needs that the last block of the epoch is not before the first
one.
-/

variable {tip : Nat}

/-! ### The median -/

/-- Sorting forgets the order. -/
theorem insertionSort_eq_of_perm {l₁ l₂ : List UInt32} (h : l₁.Perm l₂) :
    l₁.insertionSort (· ≤ ·) = l₂.insertionSort (· ≤ ·) := by
  refine List.Perm.eq_of_pairwise ?_ (pairwise_insertionSort _ l₁)
    (pairwise_insertionSort _ l₂) ?_
  · intro a b _ _ hab hba
    exact UInt32.le_antisymm hab hba
  · exact (perm_insertionSort ..).trans (h.trans (perm_insertionSort ..).symm)

/-- The heights of the last eleven blocks have different places in the ring. -/
def ringPlace (tip : Nat) (k : Fin 11) : Fin 11 := ⟨(tip - k.val) % 11, Nat.mod_lt _ (by decide)⟩

theorem ringPlace_bijective (h : 10 ≤ tip) : Function.Bijective (ringPlace tip) := by
  rw [← Finite.injective_iff_bijective]
  intro a b hab
  have hmod : (tip - a.val) % 11 = (tip - b.val) % 11 := congrArg Fin.val hab
  apply Fin.ext
  omega

/-! ### Epochs -/

/-- The epoch of its last block began 2015 blocks before, and the next block starts a new one. -/
theorem epoch_last (h : (tip + 1) % blocksPerEpoch = blocksPerEpoch - 1) :
    (tip + 1 + 1) % blocksPerEpoch = 0 ∧ (tip + 1) % blocksPerEpoch ≠ 0 ∧
      tip + 1 - (blocksPerEpoch - 1) = tip - tip % blocksPerEpoch := by
  simp only [blocksPerEpoch] at h ⊢
  omega

theorem epoch_notLast (h : (tip + 1) % blocksPerEpoch ≠ blocksPerEpoch - 1) :
    (tip + 1 + 1) % blocksPerEpoch ≠ 0 := by
  simp only [blocksPerEpoch] at h ⊢
  omega

/-- Two blocks of one epoch have the same first block. -/
theorem epoch_same (h : (tip + 1) % blocksPerEpoch ≠ 0) :
    tip + 1 - (tip + 1) % blocksPerEpoch = tip - tip % blocksPerEpoch := by
  simp only [blocksPerEpoch] at h ⊢
  omega

/-! ### The tip -/

/-- The state has the tip of the chain. -/
structure SameTip (chain : Core.Chain) (st : LatestDaState) : Prop where
  long : 10 ≤ chain.tip
  hash : st.blockHash = (chain.block chain.tip).hash
  height : st.blockHeight.toNat = chain.tip
  epochStart : st.epochStartTime = (chain.block (chain.tip - chain.tip % blocksPerEpoch)).time
  timestamps : ∀ k : Fin 11, st.prev11Timestamps (ringPlace chain.tip k) =
    (chain.block (chain.tip - k.val)).time

variable {sha256 : Bytes → Bytes32} {chain : Core.Chain} {st st' : LatestDaState}
  {header : HeaderWrapper} {first last bits : UInt32}

theorem block_extend_tip : (chain.extend header).block (chain.tip + 1) =
    ⟨header.precomputedHash, header.header.time, header.header.bits⟩ := Function.update_self ..

theorem block_extend_of_le {height : Nat} (h : height ≤ chain.tip) :
    (chain.extend header).block height = chain.block height :=
  Function.update_of_ne (by omega) ..

/-- The ring holds the times of the last eleven blocks, in another order. -/
theorem SameTip.median (h : SameTip chain st) (time : UInt32) :
    verifyTimestamp time st.prev11Timestamps = true ↔ chain.medianTimePast < time := by
  have htimes : (List.range 11).map (fun k => (chain.block (chain.tip - k)).time) =
      List.ofFn (st.prev11Timestamps ∘ ringPlace chain.tip) := by
    rw [← (funext h.timestamps : (st.prev11Timestamps ∘ ringPlace chain.tip) = _).symm]
    rfl
  have hperm := Equiv.Perm.ofFn_comp_perm
    (Equiv.ofBijective (ringPlace chain.tip) (ringPlace_bijective h.long)) st.prev11Timestamps
  rw [Equiv.coe_ofBijective, ← htimes] at hperm
  rw [verifyTimestamp, decide_eq_true_iff, Core.Chain.medianTimePast,
    insertionSort_eq_of_perm hperm]

/-- The time of the tip. -/
theorem SameTip.tipTime (h : SameTip chain st) :
    st.prev11Timestamps (ringIndex st.blockHeight) = (chain.block chain.tip).time := by
  have hplace : ringIndex st.blockHeight = ringPlace chain.tip 0 := by
    apply Fin.ext
    show st.blockHeight.toNat % 11 = (chain.tip - 0) % 11
    rw [h.height, Nat.sub_zero]
  rw [hplace, h.timestamps 0]
  rfl

/-- The heights of two headers in a row. -/
theorem SameTip.nextHeight (h : SameTip chain st) (hfits : chain.tip + 1 < 2 ^ 64) :
    header.height - 1 = st.blockHeight ↔ header.height.toNat = chain.tip + 1 := by
  have hst := h.height
  rw [← UInt64.toNat_inj, UInt64.toNat_sub, hst]
  have hlt := header.height.toNat_lt
  simp only [toNat_one]
  omega

/-- The state after a header has the tip of the longer chain. -/
theorem SameTip.next (h : SameTip chain st) (hheight : header.height.toNat = chain.tip + 1)
    (work : Nat) (bits : UInt32) :
    SameTip (chain.extend header) (nextDaState st header work (epochStartOf st header) bits) where
  long := Nat.le_succ_of_le h.long
  hash := by
    show header.precomputedHash = ((chain.extend header).block (chain.tip + 1)).hash
    rw [block_extend_tip]
  height := hheight
  epochStart := by
    show epochStartOf st header =
      ((chain.extend header).block (chain.tip + 1 - (chain.tip + 1) % blocksPerEpoch)).time
    rw [epochStartOf, hheight]
    split_ifs with hstart
    · rw [hstart, Nat.sub_zero, block_extend_tip]
    · rw [epoch_same hstart, block_extend_of_le (Nat.sub_le ..), h.epochStart]
  timestamps := by
    intro k
    show Function.update st.prev11Timestamps (ringIndex header.height) header.header.time
        (ringPlace (chain.tip + 1) k) = ((chain.extend header).block (chain.tip + 1 - k.val)).time
    have hlong := h.long
    have hk := k.isLt
    by_cases hzero : k.val = 0
    · have hplace : ringPlace (chain.tip + 1) k = ringIndex header.height := by
        apply Fin.ext
        show (chain.tip + 1 - k.val) % 11 = header.height.toNat % 11
        rw [hheight, hzero, Nat.sub_zero]
      rw [hplace, Function.update_self, hzero, Nat.sub_zero, block_extend_tip]
    · -- the block was in the ring before, one place nearer to the tip
      have hplace : ringPlace (chain.tip + 1) k = ringPlace chain.tip ⟨k.val - 1, by omega⟩ := by
        apply Fin.ext
        show (chain.tip + 1 - k.val) % 11 = (chain.tip - (k.val - 1)) % 11
        congr 1
        omega
      have hother : ringPlace (chain.tip + 1) k ≠ ringIndex header.height := by
        intro heq
        have hmod : (chain.tip + 1 - k.val) % 11 = header.height.toNat % 11 := congrArg Fin.val heq
        omega
      rw [Function.update_of_ne hother, hplace, h.timestamps, block_extend_of_le (by omega)]
      congr 2
      show chain.tip - (k.val - 1) = chain.tip + 1 - k.val
      omega

/-! ### The retarget -/

/-- The light client and Bitcoin Core have the same timespan, if it is not negative. -/
theorem toNat_actualTimespan (h : first ≤ last) :
    ((actualTimespan first last expectedEpochTimespan).toNat : Int) =
      Core.clampedTimespan first last := by
  have hsub := UInt32.toNat_sub_of_le last first h
  have hle : first.toNat ≤ last.toNat := UInt32.le_iff_toNat_le.mp h
  have hquarter : (expectedEpochTimespan / 4).toNat = 302400 := by decide
  have hfour : (expectedEpochTimespan * 4).toNat = 4838400 := by decide
  simp only [actualTimespan, Core.clampedTimespan, Core.targetTimespan, UInt32.lt_iff_toNat_lt,
    hquarter, hfour, hsub]
  split_ifs <;> omega

/-- The timespan is at least a quarter of an epoch and at most four, whatever the times are. -/
theorem actualTimespan_bounds (network : BitcoinNetwork) (first last : UInt32) :
    (epochTimespan network).toNat ≤ 4 * (actualTimespan first last (epochTimespan network)).toNat ∧
      (actualTimespan first last (epochTimespan network)).toNat ≤
        4 * (epochTimespan network).toNat := by
  have hquarter : 4 * (epochTimespan network / 4).toNat = (epochTimespan network).toNat := by
    cases network <;> decide
  have hfour : (epochTimespan network * 4).toNat = 4 * (epochTimespan network).toNat := by
    cases network <;> decide
  simp only [actualTimespan, UInt32.lt_iff_toNat_lt]
  split_ifs <;> omega

/-- The product in `calculate_new_difficulty` does not wrap. -/
theorem no_overflow (hpositive : bits.toNat / 2 ^ 23 % 2 = 0)
    (hle : Core.setCompact bits ≤ Core.powLimit) (first last : UInt32) :
    fromBeBytes (bitsToTarget bits) *
      (actualTimespan first last expectedEpochTimespan).toNat < 2 ^ 256 := by
  rw [fromBeBytes_bitsToTarget hpositive hle]
  calc Core.setCompact bits * (actualTimespan first last expectedEpochTimespan).toNat
      ≤ Core.powLimit * 4838400 := Nat.mul_le_mul hle (actualTimespan_bounds .mainnet first last).2
    _ < 2 ^ 256 := by norm_num [Core.powLimit]

/-- The new target before it is cut off at the limit. -/
def newTarget (bits first last : UInt32) : Nat :=
  (Core.setCompact bits * Core.clampedTimespan first last / Core.targetTimespan).toNat

/-- The limits of the light client and of Bitcoin Core have the same compact form. -/
theorem getCompact_min (n : Nat) :
    Core.getCompact (min n mainnetConstants.maxTarget) = Core.getCompact (min n Core.powLimit) := by
  by_cases hle : n ≤ mainnetConstants.maxTarget
  · have hlimit : n ≤ Core.powLimit := le_trans hle (by decide)
    rw [min_eq_left hle, min_eq_left hlimit]
  · have hcompact : ∀ m, mainnetConstants.maxTarget ≤ m → m ≤ Core.powLimit →
        Core.getCompact m = 0x1D00FFFF := by
      intro m hlow hhigh
      have hlow' : 0xFFFF * 2 ^ 208 ≤ m := le_trans (by decide) hlow
      have hhigh' : m < 2 ^ 224 := lt_of_le_of_lt hhigh (by decide)
      have hlen : bitLength m = 224 := by
        have h1 : 223 < bitLength m := lt_bitLength (le_trans (by norm_num) hlow')
        have h2 : bitLength m ≤ 224 := bitLength_le hhigh'
        omega
      obtain ⟨hdigits, -⟩ := compactDigits_eq (q := 28) (by omega) (le_trans (by norm_num) hlow')
      have hffff : m / 2 ^ (8 * (28 - 2)) = 0xFFFF :=
        Nat.div_eq_of_lt_le (by norm_num at hlow' ⊢; omega) (by norm_num at hhigh' ⊢; omega)
      rw [Core.getCompact, hdigits, hffff]
      rfl
    rw [min_eq_right (by omega), hcompact _ le_rfl (by decide),
      hcompact _ (le_min (by omega) (by decide)) (min_le_right ..)]

theorem testnet4_maxTarget : testnet4Constants.maxTarget = mainnetConstants.maxTarget := rfl

/-- The new difficulty of the light client is the new target of Bitcoin Core. -/
theorem calculateNewDifficulty_eq (hpositive : bits.toNat / 2 ^ 23 % 2 = 0)
    (hle : Core.setCompact bits ≤ Core.powLimit) (hforward : first ≤ last) :
    calculateNewDifficulty first last bits mainnetConstants.maxTarget expectedEpochTimespan =
      toBeBytes (min (newTarget bits first last) mainnetConstants.maxTarget) := by
  have hproduct := no_overflow hpositive hle first last
  have hspan := toNat_actualTimespan hforward
  have hvalue : fromBeBytes (bitsToTarget bits) *
      (actualTimespan first last expectedEpochTimespan).toNat % 2 ^ 256 /
        expectedEpochTimespan.toNat = newTarget bits first last := by
    rw [Nat.mod_eq_of_lt hproduct, fromBeBytes_bitsToTarget hpositive hle, newTarget, ← hspan,
      ← Int.natCast_mul]
    rfl
  simp only [calculateNewDifficulty, hvalue]
  congr 1
  split_ifs with hlimit
  · exact (min_eq_right (by omega)).symm
  · exact (min_eq_left (not_lt.mp hlimit)).symm

/-- The bits after an epoch. -/
theorem retarget_eq {ε : Type} (hpositive : bits.toNat / 2 ^ 23 % 2 = 0)
    (hle : Core.setCompact bits ≤ Core.powLimit) (hforward : first ≤ last)
    (hlow : 2 ^ 15 ≤ newTarget bits first last) :
    (targetToBits (calculateNewDifficulty first last bits mainnetConstants.maxTarget
      expectedEpochTimespan) : Outcome ε UInt32) =
      .ok (Core.calculateNextWorkRequired bits first last) := by
  rw [calculateNewDifficulty_eq hpositive hle hforward, targetToBits_eq, getCompact_min]
  · rfl
  · exact le_min hlow (by decide)
  · exact lt_of_le_of_lt (min_le_right ..) (by decide)

/-- If the light client has bits for the next epoch, they are those of Bitcoin Core. -/
theorem retarget_ok {ε : Type} {next : UInt32} (hpositive : bits.toNat / 2 ^ 23 % 2 = 0)
    (hle : Core.setCompact bits ≤ Core.powLimit) (hforward : first ≤ last)
    (h : (targetToBits (calculateNewDifficulty first last bits mainnetConstants.maxTarget
      expectedEpochTimespan) : Outcome ε UInt32) = .ok next) :
    next = Core.calculateNextWorkRequired bits first last := by
  by_cases hlow : 2 ^ 15 ≤ newTarget bits first last
  · exact ok_unique h (retarget_eq hpositive hle hforward hlow)
  · rw [calculateNewDifficulty_eq hpositive hle hforward] at h
    exact absurd h (targetToBits_small (by omega) _)

end Citrea.Proofs.Bitcoin
