import Mathlib.Data.List.Basic
import Mathlib.Data.Set.Basic
import Mathlib.Tactic.NormNum

/-!
# `Citrea.Lib.PrefixCode`: self-delimiting byte encodings

A wire format writes its fields one after the other. The bytes determine the fields when each
field encoding is a prefix code: if `enc x` followed by anything equals `enc y` followed by
anything, then `x = y` and the rests agree. Prefix codes compose, so the injectivity of a
record is a chain of `PrefixCodeOn` facts, one for each field, in the order in which the
fields are written.

The encodings here are the ones of Bitcoin's consensus format: little-endian integers of a
fixed width (`leBytes`), the variable-width count (`compactSize`), byte strings with their
length in front (`varBytes`), and lists with their length in front (`varList`).
-/

namespace Citrea.Lib

open List

variable {α : Type} {P : Set α} {enc : α → List UInt8} {n : Nat}

/-- On the values in `P`, `enc` is injective and no encoding is a proper prefix of another,
whatever follows it. -/
def PrefixCodeOn (P : Set α) (enc : α → List UInt8) : Prop :=
  ∀ ⦃x⦄, x ∈ P → ∀ ⦃y⦄, y ∈ P → ∀ ⦃r s : List UInt8⦄, enc x ++ r = enc y ++ s → x = y ∧ r = s

/-- An injective encoding of one fixed length is a prefix code. -/
theorem PrefixCodeOn.of_length (width : Nat) (hlen : ∀ x ∈ P, (enc x).length = width)
    (hinj : ∀ x ∈ P, ∀ y ∈ P, enc x = enc y → x = y) : PrefixCodeOn P enc := by
  intro x hx y hy r s h
  obtain ⟨henc, hrest⟩ := append_inj h (by rw [hlen x hx, hlen y hy])
  exact ⟨hinj x hx y hy henc, hrest⟩

/-! ### Integers of a fixed width -/

/-- The `width` low bytes of `n`, least significant byte first. -/
def leBytes : (width n : Nat) → List UInt8
  | 0, _ => []
  | width + 1, n => UInt8.ofNat n :: leBytes width (n / 256)

@[simp]
theorem length_leBytes (width n : Nat) : (leBytes width n).length = width := by
  induction width generalizing n with
  | zero => rfl
  | succ width ih => simp [leBytes, ih]

/-- The number that the bytes stand for, least significant byte first. -/
def ofLeBytes : List UInt8 → Nat
  | [] => 0
  | b :: rest => b.toNat + 256 * ofLeBytes rest

theorem ofLeBytes_lt (l : List UInt8) : ofLeBytes l < 256 ^ l.length := by
  induction l with
  | nil => simp [ofLeBytes]
  | cons b rest ih =>
    have hb : b.toNat < 256 := b.toNat_lt
    simp only [ofLeBytes, length_cons, Nat.pow_succ]
    omega

/-- The bytes of the number are the bytes. -/
theorem leBytes_ofLeBytes (l : List UInt8) : leBytes l.length (ofLeBytes l) = l := by
  induction l with
  | nil => rfl
  | cons b rest ih =>
    have hb : b.toNat < 256 := b.toNat_lt
    have hdiv : (b.toNat + 256 * ofLeBytes rest) / 256 = ofLeBytes rest := by omega
    have hlow : UInt8.ofNat (b.toNat + 256 * ofLeBytes rest) = b := by
      apply UInt8.toNat_inj.mp
      simp only [UInt8.toNat_ofNat']
      omega
    simp [ofLeBytes, leBytes, hdiv, hlow, ih]

/-- The number of the bytes is the number, if it fits. -/
theorem ofLeBytes_leBytes {width : Nat} (h : n < 256 ^ width) :
    ofLeBytes (leBytes width n) = n := by
  induction width generalizing n with
  | zero => simp only [Nat.pow_zero] at h; simp only [leBytes, ofLeBytes]; omega
  | succ width ih =>
    have hdiv : n / 256 < 256 ^ width := by
      rw [Nat.div_lt_iff_lt_mul (by omega)]
      exact h
    simp only [leBytes, ofLeBytes, ih hdiv, UInt8.toNat_ofNat']
    omega

/-- Two numbers that fit the width and have the same bytes are equal. -/
theorem leBytes_inj {width m : Nat} (hm : m < 256 ^ width) (hn : n < 256 ^ width)
    (h : leBytes width m = leBytes width n) : m = n := by
  induction width generalizing m n with
  | zero => simp at hm hn; omega
  | succ width ih =>
    simp only [leBytes, List.cons.injEq] at h
    have hlow : m % 256 = n % 256 := by
      have := congrArg UInt8.toNat h.1
      simpa using this
    have hhigh : m / 256 = n / 256 :=
      ih (Nat.div_lt_of_lt_mul (by rwa [Nat.pow_succ'] at hm))
        (Nat.div_lt_of_lt_mul (by rwa [Nat.pow_succ'] at hn)) h.2
    omega

theorem prefixCode_leBytes (width : Nat) : PrefixCodeOn {n | n < 256 ^ width} (leBytes width) :=
  .of_length width (fun n _ => length_leBytes width n) fun _ hm _ hn h => leBytes_inj hm hn h

/-! ### The variable-width count -/

/-- Bitcoin's `CompactSize`: one byte below `0xfd`, else a marker byte and two, four or eight
bytes. -/
def compactSize (n : Nat) : List UInt8 :=
  if n < 0xfd then leBytes 1 n
  else if n ≤ 0xffff then 0xfd :: leBytes 2 n
  else if n ≤ 0xffffffff then 0xfe :: leBytes 4 n
  else 0xff :: leBytes 8 n

/-- The first byte of a one-byte count is the count itself, so it is not one of the three
markers. -/
theorem leBytes_one_of_lt (h : n < 0xfd) :
    ∃ b : UInt8, leBytes 1 n = [b] ∧ b ≠ 0xfd ∧ b ≠ 0xfe ∧ b ≠ 0xff := by
  have hb : (UInt8.ofNat n).toNat = n := by simp; omega
  refine ⟨UInt8.ofNat n, rfl, ?_, ?_, ?_⟩ <;>
    (intro heq; rw [heq] at hb; simp at hb; omega)

/-- `CompactSize` is a prefix code on the counts that fit eight bytes. The first byte tells
the four widths apart, and within one width the bytes determine the number. -/
theorem prefixCode_compactSize : PrefixCodeOn {n | n < 2 ^ 64} compactSize := by
  intro m hm n hn r s h
  change m < 2 ^ 64 at hm
  change n < 2 ^ 64 at hn
  -- the marker-free width against the others: the first byte differs
  have small : ∀ {a b : Nat} {t u : List UInt8}, a < 0xfd → ¬ b < 0xfd →
      compactSize a ++ t ≠ compactSize b ++ u := by
    intro a b t u ha hb heq
    obtain ⟨byte, hbyte, h1, h2, h3⟩ := leBytes_one_of_lt ha
    simp only [compactSize, if_pos ha, if_neg hb, hbyte] at heq
    split at heq <;> [skip; split at heq] <;> simp_all
  by_cases hm1 : m < 0xfd
  · by_cases hn1 : n < 0xfd
    · simp only [compactSize, if_pos hm1, if_pos hn1] at h
      exact prefixCode_leBytes 1 (by simp; omega) (by simp; omega) h
    · exact absurd h (small hm1 hn1)
  · by_cases hn1 : n < 0xfd
    · exact absurd h.symm (small hn1 hm1)
    · simp only [compactSize, if_neg hm1, if_neg hn1] at h
      by_cases hm2 : m ≤ 0xffff <;> by_cases hn2 : n ≤ 0xffff <;>
        simp only [hm2, hn2, if_true, if_false] at h
      · exact prefixCode_leBytes 2 (by simp; omega) (by simp; omega) (List.cons.inj h).2
      · split at h <;> simp at h
      · split at h <;> simp at h
      · by_cases hm3 : m ≤ 0xffffffff <;> by_cases hn3 : n ≤ 0xffffffff <;>
          simp only [hm3, hn3, if_true, if_false] at h
        · exact prefixCode_leBytes 4 (by simp; omega) (by simp; omega) (List.cons.inj h).2
        · simp at h
        · simp at h
        · exact prefixCode_leBytes 8 (by simp; omega) (by simp; omega) (List.cons.inj h).2

/-! ### Byte strings and lists with their length in front -/

/-- A byte string: its length, then its bytes. -/
def varBytes (b : List UInt8) : List UInt8 := compactSize b.length ++ b

/-- A list: its length, then its elements. -/
def varList (enc : α → List UInt8) (l : List α) : List UInt8 :=
  compactSize l.length ++ l.flatMap enc

theorem prefixCode_varBytes : PrefixCodeOn {b : List UInt8 | b.length < 2 ^ 64} varBytes := by
  intro b hb c hc r s h
  simp only [varBytes, append_assoc] at h
  obtain ⟨hlen, h⟩ := prefixCode_compactSize hb hc h
  exact append_inj h hlen

/-- Two concatenations of equally many encoded elements have equal elements and equal
rests. -/
theorem PrefixCodeOn.flatMap_inj (hcode : PrefixCodeOn P enc) {l k : List α} (hl : ∀ x ∈ l, x ∈ P)
    (hk : ∀ x ∈ k, x ∈ P) (hlen : l.length = k.length) {r s : List UInt8}
    (h : l.flatMap enc ++ r = k.flatMap enc ++ s) : l = k ∧ r = s := by
  induction l generalizing k with
  | nil =>
    obtain rfl : k = [] := length_eq_zero_iff.mp hlen.symm
    exact ⟨rfl, by simpa using h⟩
  | cons x l ih =>
    cases k with
    | nil => simp at hlen
    | cons y k =>
      simp only [flatMap_cons, append_assoc] at h
      obtain ⟨rfl, htail⟩ := hcode (hl x (by simp)) (hk y (by simp)) h
      obtain ⟨rfl, hrest⟩ := ih (fun z hz => hl z (mem_cons_of_mem _ hz))
        (fun z hz => hk z (mem_cons_of_mem _ hz)) (by simpa using hlen) htail
      exact ⟨rfl, hrest⟩

theorem PrefixCodeOn.varList (hcode : PrefixCodeOn P enc) :
    PrefixCodeOn {l : List α | l.length < 2 ^ 64 ∧ ∀ x ∈ l, x ∈ P} (varList enc) := by
  intro l hl k hk r s h
  simp only [Lib.varList, append_assoc] at h
  obtain ⟨hlen, h⟩ := prefixCode_compactSize hl.1 hk.1 h
  exact hcode.flatMap_inj hl.2 hk.2 hlen h

/-! ### Bytes with the most significant one first

The bytes of `leBytes` in the opposite order. `beNat_cons` is the rule by which lists of bytes are
compared from the front, and `getElem?_beBytes` reads one byte as a digit of the number.
-/

/-- The number that the bytes stand for, most significant byte first. -/
def beNat (l : List UInt8) : Nat := ofLeBytes l.reverse

theorem ofLeBytes_append (l r : List UInt8) :
    ofLeBytes (l ++ r) = ofLeBytes l + 256 ^ l.length * ofLeBytes r := by
  induction l with
  | nil => simp [ofLeBytes]
  | cons b rest ih =>
    simp only [cons_append, ofLeBytes, ih, length_cons, Nat.pow_succ']
    rw [Nat.mul_add, Nat.mul_assoc, Nat.add_assoc]

theorem beNat_cons (b : UInt8) (rest : List UInt8) :
    beNat (b :: rest) = b.toNat * 256 ^ rest.length + beNat rest := by
  rw [beNat, reverse_cons, ofLeBytes_append, length_reverse]
  simp only [ofLeBytes, Nat.mul_zero, Nat.add_zero]
  rw [beNat, Nat.add_comm, Nat.mul_comm]

theorem beNat_lt (l : List UInt8) : beNat l < 256 ^ l.length := by
  have hlt := ofLeBytes_lt l.reverse
  rwa [length_reverse] at hlt

theorem getElem?_leBytes {width n i : Nat} (h : i < width) :
    (leBytes width n)[i]? = some (UInt8.ofNat (n / 256 ^ i)) := by
  induction width generalizing n i with
  | zero => omega
  | succ width ih =>
    cases i with
    | zero => simp [leBytes]
    | succ i =>
      rw [leBytes, List.getElem?_cons_succ, ih (by omega), Nat.div_div_eq_div_mul, Nat.pow_succ']

/-- One byte of a number. -/
theorem getElem?_beBytes {width n i : Nat} (h : i < width) :
    (leBytes width n).reverse[i]? = some (UInt8.ofNat (n / 256 ^ (width - 1 - i))) := by
  rw [List.getElem?_reverse (by rwa [length_leBytes]), length_leBytes, getElem?_leBytes (by omega)]

/-! ### A list cut into pieces of one size

`chunks n l` cuts `l` into pieces of `n` elements, and the last piece has what is left. The
pieces put together give the list back, no piece is empty, and none has more than `n` elements.
A list has a single piece exactly when it is not empty and fits into one.
-/

variable {α : Type} {n : Nat} {l : List α}

/-- The pieces of `l`, at most `fuel` of them. -/
def chunksFrom (n : Nat) : (fuel : Nat) → List α → List (List α)
  | 0, _ => []
  | _ + 1, [] => []
  | fuel + 1, a :: l => (a :: l).take n :: chunksFrom n fuel ((a :: l).drop n)

/-- The pieces of `l`. A list has no more pieces than elements. -/
def chunks (n : Nat) (l : List α) : List (List α) := chunksFrom n l.length l

/-- More fuel than elements changes nothing. -/
theorem chunksFrom_eq {fuel : Nat} (hn : 0 < n) (h : l.length ≤ fuel) :
    chunksFrom n fuel l = chunks n l := by
  unfold chunks
  -- The induction is on the fuel: each piece takes at least one element with it.
  induction fuel using Nat.strongRecOn generalizing l with
  | _ fuel ih =>
    cases l with
    | nil => cases fuel <;> rfl
    | cons a l =>
      obtain ⟨fuel, rfl⟩ : ∃ k, fuel = k + 1 := ⟨fuel - 1, by simp at h; omega⟩
      have hdrop : ((a :: l).drop n).length ≤ l.length := by simp; omega
      simp only [length_cons] at h
      show _ :: chunksFrom n fuel _ = _ :: chunksFrom n l.length _
      rw [ih fuel (by omega) (by omega)]
      by_cases hfuel : l.length = fuel
      · rw [hfuel, ih fuel (by omega) (by omega)]
      · rw [ih l.length (by omega) hdrop]

@[simp]
theorem chunks_nil : chunks n ([] : List α) = [] := rfl

/-- The first piece, and the pieces of the rest. -/
theorem chunks_of_ne_nil (hn : 0 < n) (h : l ≠ []) :
    chunks n l = l.take n :: chunks n (l.drop n) := by
  cases l with
  | nil => exact absurd rfl h
  | cons a l =>
    show _ :: chunksFrom n l.length _ = _
    rw [chunksFrom_eq hn (by simp; omega)]

/-- What holds of the empty list, and of a list when it holds of what is left after its first
piece, holds of every list. -/
theorem chunks_induction (hn : 0 < n) {P : List α → Prop} (nil : P [])
    (step : ∀ l, l ≠ [] → P (l.drop n) → P l) (l : List α) : P l := by
  induction hlen : l.length using Nat.strongRecOn generalizing l with
  | _ length ih =>
    by_cases h : l = []
    · rw [h]
      exact nil
    · have hpos : 0 < l.length := length_pos_of_ne_nil h
      exact step l h (ih (l.drop n).length (by simp; omega) (l.drop n) rfl)

/-- The pieces put together are the list. -/
@[simp]
theorem flatten_chunks (hn : 0 < n) (l : List α) : (chunks n l).flatten = l := by
  induction l using chunks_induction hn with
  | nil => rfl
  | step l h ih => rw [chunks_of_ne_nil hn h, flatten_cons, ih, take_append_drop]

/-- A piece is not empty and has at most `n` elements. -/
theorem chunks_sizes (hn : 0 < n) (l : List α) : ∀ c ∈ chunks n l, c ≠ [] ∧ c.length ≤ n := by
  induction l using chunks_induction hn with
  | nil => simp
  | step l h ih =>
    intro c hc
    rw [chunks_of_ne_nil hn h, mem_cons] at hc
    rcases hc with rfl | hc
    · exact ⟨by simp [h]; omega, length_take_le n l⟩
    · exact ih c hc

/-- There is a single piece exactly when the list is not empty and fits into one. -/
theorem chunks_eq_singleton_iff (hn : 0 < n) {c : List α} :
    chunks n l = [c] ↔ c = l ∧ l ≠ [] ∧ l.length ≤ n := by
  constructor
  · intro h
    have hflat := flatten_chunks hn l
    have hsizes := chunks_sizes hn l c (by rw [h]; simp)
    rw [h, flatten_cons, flatten_nil, append_nil] at hflat
    rw [← hflat]
    exact ⟨rfl, hsizes⟩
  · rintro ⟨rfl, hne, hle⟩
    rw [chunks_of_ne_nil hn hne, take_of_length_le hle, drop_of_length_le hle, chunks_nil]

end Citrea.Lib
