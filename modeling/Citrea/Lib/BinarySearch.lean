import Mathlib.Logic.Basic

/-!
# `Citrea.Lib.BinarySearch`: the documented result of a binary search

`slice::binary_search_by_key` on a slice that is sorted by the key: the position of an element
with the key, or else the position where such an element could be inserted.
-/

namespace Citrea.Lib

open List

/-- The result of a binary search for the key `x`: `found i`, or `insertAt i`. -/
inductive SearchResult where
  | found (i : Nat)
  | insertAt (i : Nat)
deriving DecidableEq, Repr

/-- `l.binary_search_by_key(&x, key)` for a list that is sorted by `key`. -/
def binarySearchByKey {α : Type} (key : α → UInt64) (x : UInt64) (l : List α) : SearchResult :=
  match l.findIdx? (fun a => key a == x) with
  | some i => .found i
  | none => .insertAt (l.countP fun a => key a < x)

/-- `match search { Ok(i) => i, Err(i) => i.saturating_sub(1) }`. -/
def SearchResult.orPrevious : SearchResult → Nat
  | found i => i
  | insertAt i => i - 1

/-- In a list that is not empty there is an element at this position. -/
theorem orPrevious_lt {α : Type} {key : α → UInt64} {x : UInt64} {l : List α} (h : l ≠ []) :
    (binarySearchByKey key x l).orPrevious < l.length := by
  have hpos := length_pos_iff.mpr h
  rw [binarySearchByKey]
  split
  · next i hi =>
    obtain ⟨hlt, -⟩ := List.findIdx?_eq_some_iff_getElem.mp hi
    exact hlt
  · have hle := countP_le_length (p := fun a => decide (key a < x)) (l := l)
    show l.countP (fun a => decide (key a < x)) - 1 < l.length
    omega

section
variable {α : Type} {key : α → UInt64} {x : UInt64} {l : List α}
  (hsorted : l.Pairwise fun a b => key a < key b)
include hsorted

/-- In a list that is sorted by the key, the elements with keys up to `x` come first. -/
theorem key_le_iff_lt_countP {j : Nat} {a : α} (ha : l[j]? = some a) :
    key a ≤ x ↔ j < l.countP fun b => key b ≤ x := by
  induction l generalizing j with
  | nil => simp at ha
  | cons b rest ih =>
    obtain ⟨hhead, hrest⟩ := pairwise_cons.mp hsorted
    by_cases hb : key b ≤ x
    · rw [countP_cons_of_pos (by simpa using hb)]
      cases j with
      | zero =>
        obtain rfl : b = a := by simpa using ha
        simpa using hb
      | succ j => rw [ih hrest (by simpa using ha), Nat.succ_lt_succ_iff]
    · -- The first key is larger, and the others are larger still.
      have hall : ∀ c ∈ b :: rest, ¬ key c ≤ x := by
        intro c hc
        rcases mem_cons.mp hc with rfl | hc
        · exact hb
        · exact fun hle => hb (UInt64.le_trans (UInt64.le_of_lt (hhead c hc)) hle)
      have hzero : (b :: rest).countP (fun c => decide (key c ≤ x)) = 0 := by
        rw [countP_eq_zero]
        intro c hc
        simpa using hall c hc
      rw [hzero]
      simpa using hall a (mem_of_getElem? ha)

/-- The position is the last one with a key up to `x`, or the first one. -/
theorem orPrevious_eq :
    (binarySearchByKey key x l).orPrevious = l.countP (fun a => key a ≤ x) - 1 := by
  rw [binarySearchByKey]
  split
  · next i hi =>
    obtain ⟨hlt, hkey, -⟩ := List.findIdx?_eq_some_iff_getElem.mp hi
    have heq : key l[i] = x := by simpa using hkey
    have hin := (key_le_iff_lt_countP hsorted (List.getElem?_eq_getElem hlt)).mp
      (UInt64.le_of_eq heq)
    -- the next key is above `x`
    have hout : ¬ i + 1 < l.countP fun a => key a ≤ x := by
      intro hcount
      have hnext : i + 1 < l.length := Nat.lt_of_lt_of_le hcount countP_le_length
      have hle := (key_le_iff_lt_countP hsorted (List.getElem?_eq_getElem hnext)).mpr hcount
      have hordered := pairwise_iff_getElem.mp hsorted i (i + 1) hlt hnext (Nat.lt_succ_self i)
      rw [heq] at hordered
      exact UInt64.lt_irrefl _ (UInt64.lt_of_lt_of_le hordered hle)
    show i = _
    omega
  · next hnone =>
    have hne := List.findIdx?_eq_none_iff.mp hnone
    show l.countP _ - 1 = _
    congr 1
    refine countP_congr fun a ha => ?_
    have hnea : key a ≠ x := by simpa using hne a ha
    simp only [decide_eq_true_eq]
    exact ⟨UInt64.le_of_lt, fun hle => UInt64.lt_of_le_of_ne hle hnea⟩

/-- The element at the position has the largest key up to `x`, or it is the first one and all keys
are larger. -/
theorem orPrevious_spec {a : α} (ha : l[(binarySearchByKey key x l).orPrevious]? = some a) :
    (key a ≤ x ∧ ∀ b ∈ l, key b ≤ x → key b ≤ key a) ∨
      ((∀ b ∈ l, x < key b) ∧ l.head? = some a) := by
  rw [orPrevious_eq hsorted] at ha
  have hpos := @key_le_iff_lt_countP _ _ x _ hsorted
  generalize hcount : l.countP (fun b => decide (key b ≤ x)) = count at ha hpos
  cases count with
  | zero =>
    refine .inr ⟨fun b hb => ?_, by rw [List.head?_eq_getElem?]; exact ha⟩
    rw [← UInt64.not_le]
    simpa using countP_eq_zero.mp hcount b hb
  | succ n =>
    have hn : l[n]? = some a := ha
    refine .inl ⟨(hpos hn).mpr (by omega), fun b hb hle => ?_⟩
    obtain ⟨j, hj⟩ := mem_iff_getElem?.mp hb
    rcases Nat.lt_succ_iff_lt_or_eq.mp ((hpos hj).mp hle) with hlt | rfl
    · obtain ⟨hjl, rfl⟩ := List.getElem?_eq_some_iff.mp hj
      obtain ⟨hnl, rfl⟩ := List.getElem?_eq_some_iff.mp hn
      exact UInt64.le_of_lt (pairwise_iff_getElem.mp hsorted j n hjl hnl hlt)
    · obtain rfl : b = a := Option.some.inj (hj.symm.trans hn)
      exact UInt64.le_refl _

end

end Citrea.Lib
