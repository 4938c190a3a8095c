import Mathlib.Data.List.Basic

/-!
# `Citrea.Lib.GreedyCuts`: a sequence that is cut as soon as a range is full

The positions from `first` on are taken one after the other. A range is cut before a position that
would make it too large (`tooBig`), and after a position that gives it `limit` positions. `cuts n`
is the state after the position `n`: the ranges so far, and where the open range starts.

The first kind of cut leaves its position in the open range without another check, and a range is
never cut before its own first position. So a range of one position can be of any size. The ranges
tile the positions (`cuts_tiles`), and each has at most `limit` of them (`cuts_range`).

`cuts_reopen` is about a restart that forgets all but the ranges. It starts again at the open range,
which is the state before the position that opened it, or the state after it.
-/

namespace Citrea.Lib

open List

variable {lo hi : Nat} {ranges : List (Nat × Nat)}

/-- The ranges so far, and the start of the open range. -/
structure Cuts where
  start : Nat
  ranges : List (Nat × Nat)
deriving DecidableEq

/-- The ranges are not empty, and they cover `lo` up to but not including `hi`. -/
def Tiles : Nat → List (Nat × Nat) → Nat → Prop
  | lo, [], hi => lo = hi
  | lo, r :: rest, hi => r.1 = lo ∧ r.1 ≤ r.2 ∧ Tiles (r.2 + 1) rest hi

theorem Tiles.concat {stop : Nat} (h : Tiles lo ranges hi) (hle : hi ≤ stop) :
    Tiles lo (ranges ++ [(hi, stop)]) (stop + 1) := by
  induction ranges generalizing lo with
  | nil =>
    obtain rfl : lo = hi := h
    exact ⟨rfl, hle, rfl⟩
  | cons r rest ih =>
    obtain ⟨hstart, hne, hrest⟩ := h
    exact ⟨hstart, hne, ih hrest⟩

/-- A range starts where the one before it ends. -/
theorem Tiles.start_eq (h : Tiles lo ranges hi) (i : Nat) (r : Nat × Nat)
    (hr : ranges[i]? = some r) :
    r.1 ≤ r.2 ∧ ((i = 0 ∧ r.1 = lo) ∨ ∃ j p, i = j + 1 ∧ ranges[j]? = some p ∧ r.1 = p.2 + 1) := by
  induction ranges generalizing lo i with
  | nil => simp at hr
  | cons q rest ih =>
    obtain ⟨hstart, hne, hrest⟩ := h
    cases i with
    | zero =>
      obtain rfl : q = r := by simpa using hr
      exact ⟨hne, .inl ⟨rfl, hstart⟩⟩
    | succ i =>
      obtain ⟨hle, hprev⟩ := ih hrest i (by simpa using hr)
      refine ⟨hle, .inr ?_⟩
      rcases hprev with ⟨rfl, hfirst⟩ | ⟨j, p, rfl, hp, hr1⟩
      · exact ⟨0, q, rfl, rfl, hfirst⟩
      · exact ⟨j + 1, p, rfl, by simpa using hp, hr1⟩

/-- Each range before a position takes at least one place. -/
theorem Tiles.index_le (h : Tiles lo ranges hi) (i : Nat) (r : Nat × Nat)
    (hr : ranges[i]? = some r) : lo + i ≤ r.2 := by
  induction ranges generalizing lo i with
  | nil => simp at hr
  | cons q rest ih =>
    obtain ⟨hstart, hne, hrest⟩ := h
    cases i with
    | zero =>
      obtain rfl : q = r := by simpa using hr
      omega
    | succ i =>
      have hle := ih hrest i (by simpa using hr)
      omega

/-- What lies in a tiled range is not before its start. -/
theorem Tiles.le_start (h : Tiles lo ranges hi) : lo ≤ hi ∧ ∀ r ∈ ranges, lo ≤ r.1 := by
  induction ranges generalizing lo with
  | nil =>
    obtain rfl : lo = hi := h
    simp
  | cons q rest ih =>
    obtain ⟨rfl, hne, hrest⟩ := h
    obtain ⟨hle, hall⟩ := ih hrest
    refine ⟨by omega, fun r hr => ?_⟩
    rcases mem_cons.mp hr with rfl | hr
    · omega
    · have := hall r hr
      omega

/-- The ranges end before `hi`. -/
theorem Tiles.stop_lt (h : Tiles lo ranges hi) : ∀ r ∈ ranges, lo ≤ r.2 ∧ r.2 < hi := by
  induction ranges generalizing lo with
  | nil => simp
  | cons q rest ih =>
    obtain ⟨rfl, hne, hrest⟩ := h
    intro r hr
    rcases mem_cons.mp hr with rfl | hr
    · have hle := hrest.le_start.1
      omega
    · have hbounds := ih hrest r hr
      omega

theorem Tiles.eq_nil (h : Tiles lo ranges lo) : ranges = [] := by
  cases ranges with
  | nil => rfl
  | cons r rest =>
    obtain ⟨hstart, hne, hrest⟩ := h
    have hle := hrest.le_start.1
    omega

theorem Tiles.pairwise (h : Tiles lo ranges hi) : ranges.Pairwise fun a b => a.2 < b.1 := by
  induction ranges generalizing lo with
  | nil => exact .nil
  | cons q rest ih =>
    obtain ⟨-, -, hrest⟩ := h
    refine pairwise_cons.mpr ⟨fun r hr => ?_, ih hrest⟩
    have := hrest.le_start.2 r hr
    omega

/-- The end of the last range. -/
theorem Tiles.hi_eq (h : Tiles lo ranges hi) : hi = match ranges.getLast? with
      | some r => r.2 + 1
      | none => lo := by
  induction ranges generalizing lo with
  | nil => exact Eq.symm h
  | cons q rest ih =>
    obtain ⟨-, -, hrest⟩ := h
    rw [ih hrest, List.getLast?_cons]
    cases rest.getLast? with
    | none => rfl
    | some r => rfl

section
variable (tooBig : Nat → Nat → Bool) (limit first : Nat)

/-- The position `n` is taken. -/
def cutStep (c : Cuts) (n : Nat) : Cuts :=
  if c.start < n ∧ tooBig c.start n then ⟨n, c.ranges ++ [(c.start, n - 1)]⟩
  else if n + 1 - c.start < limit then c
  else ⟨n + 1, c.ranges ++ [(c.start, n)]⟩

/-- The state after the position `n`. -/
def cuts : Nat → Cuts
  | 0 => ⟨first, []⟩
  | n + 1 => if n + 1 < first then ⟨first, []⟩ else cutStep tooBig limit (cuts n) (n + 1)

variable {tooBig limit first} {n : Nat}

theorem cuts_of_lt (h : n < first) : cuts tooBig limit first n = ⟨first, []⟩ := by
  cases n with
  | zero => rfl
  | succ n => rw [cuts, if_pos h]

theorem cuts_succ (h : first ≤ n + 1) :
    cuts tooBig limit first (n + 1) = cutStep tooBig limit (cuts tooBig limit first n) (n + 1) := by
  rw [cuts, if_neg (by omega)]

/-- The open range after the position `n` has fewer positions than `limit`. -/
structure OpenRange (limit first : Nat) (c : Cuts) (n : Nat) : Prop where
  first_le : first ≤ c.start
  start_le : c.start ≤ n + 1
  short : n + 1 - c.start < limit

theorem OpenRange.step {c : Cuts} (h : OpenRange limit first c n) :
    OpenRange limit first (cutStep tooBig limit c (n + 1)) (n + 1) := by
  obtain ⟨hfirst, hle, hshort⟩ := h
  rw [cutStep]
  split
  · next hover =>
    -- The range has another position than this one, so `limit` is at least 2.
    have hlt := hover.1
    refine ⟨?_, ?_, ?_⟩
    · show first ≤ n + 1
      omega
    · show n + 1 ≤ n + 1 + 1
      omega
    · show n + 1 + 1 - (n + 1) < limit
      omega
  · split
    · next hlen => exact ⟨hfirst, by omega, hlen⟩
    · refine ⟨?_, ?_, ?_⟩
      · show first ≤ n + 1 + 1
        omega
      · exact Nat.le_refl _
      · show n + 1 + 1 - (n + 1 + 1) < limit
        omega

/-- Just before the first position, where the inductions start. -/
theorem openRange_before (hlimit : 0 < limit) (hn : n + 1 = first) :
    OpenRange limit first (cuts tooBig limit first n) n := by
  rw [cuts_of_lt (by omega)]
  exact ⟨Nat.le_refl _, by show first ≤ n + 1; omega, by show n + 1 - first < limit; omega⟩

theorem cuts_open (hlimit : 0 < limit) (hfirst : 0 < first) (hn : first ≤ n + 1) :
    OpenRange limit first (cuts tooBig limit first n) n := by
  induction n with
  | zero => exact openRange_before hlimit (by omega)
  | succ n ih =>
    by_cases hlt : n + 1 < first
    · exact openRange_before hlimit (by omega)
    · rw [cuts_succ (by omega)]
      exact (ih (by omega)).step

/-- The ranges tile the positions before the open range. -/
theorem cuts_tiles (hlimit : 0 < limit) (hfirst : 0 < first) (n : Nat) :
    Tiles first (cuts tooBig limit first n).ranges (cuts tooBig limit first n).start := by
  induction n with
  | zero => rfl
  | succ n ih =>
    by_cases hlt : n + 1 < first
    · rw [cuts_of_lt hlt]
      rfl
    have hopen : OpenRange limit first (cuts tooBig limit first n) n :=
      cuts_open hlimit hfirst (by omega)
    have hle := hopen.start_le
    rw [cuts_succ (by omega), cutStep]
    split
    · next hover =>
      have hne := hover.1
      exact ih.concat (by omega)
    · split
      · exact ih
      · exact ih.concat hle

/-- No range has more than `limit` positions. -/
theorem cuts_range (hlimit : 0 < limit) (hfirst : 0 < first) (n : Nat) :
    ∀ r ∈ (cuts tooBig limit first n).ranges, r.2 + 1 - r.1 ≤ limit := by
  induction n with
  | zero => simp [cuts]
  | succ n ih =>
    by_cases hlt : n + 1 < first
    · rw [cuts_of_lt hlt]
      simp
    have hopen : OpenRange limit first (cuts tooBig limit first n) n :=
      cuts_open hlimit hfirst (by omega)
    have hshort := hopen.short
    -- A new range is the open one, with or without this position.
    have hnew : ∀ stop, stop ≤ n + 1 →
        ∀ r ∈ (cuts tooBig limit first n).ranges ++ [((cuts tooBig limit first n).start, stop)],
          r.2 + 1 - r.1 ≤ limit := by
      intro stop hstop r hr
      rcases mem_append.mp hr with hr | hr
      · exact ih r hr
      · obtain rfl := mem_singleton.mp hr
        show stop + 1 - _ ≤ limit
        omega
    rw [cuts_succ (by omega), cutStep]
    split
    · exact hnew _ (by omega)
    · split
      · exact ih
      · exact hnew _ (Nat.le_refl _)

/-- Ranges are only added. -/
theorem cuts_mono {m : Nat} (h : m ≤ n) :
    (cuts tooBig limit first m).ranges <+: (cuts tooBig limit first n).ranges := by
  induction n with
  | zero =>
    obtain rfl : m = 0 := by omega
    exact prefix_refl _
  | succ n ih =>
    rcases Nat.lt_or_eq_of_le h with hlt | rfl
    · refine (ih (by omega)).trans ?_
      by_cases hn : n + 1 < first
      · have hsame : cuts tooBig limit first (n + 1) = cuts tooBig limit first n :=
          (cuts_of_lt hn).trans (cuts_of_lt (by omega)).symm
        exact hsame ▸ prefix_refl _
      rw [cuts_succ (by omega), cutStep]
      split
      · exact prefix_append _ _
      · split
        · exact prefix_refl _
        · exact prefix_append _ _
    · exact prefix_refl _

/-- The open range of a state was opened by the cut after the position before it, or by the cut
before its first position. -/
theorem cuts_reopen (hfirst : 0 < first) (hn : first ≤ n + 1) :
    cuts tooBig limit first ((cuts tooBig limit first n).start - 1) = cuts tooBig limit first n ∨
      ((cuts tooBig limit first n).start ≤ n ∧
        cuts tooBig limit first (cuts tooBig limit first n).start = cuts tooBig limit first n) := by
  have hstart : ∀ n, n + 1 = first →
      cuts tooBig limit first ((cuts tooBig limit first n).start - 1) =
          cuts tooBig limit first n := by
    intro n hn
    have hcuts : cuts tooBig limit first n = ⟨first, []⟩ := cuts_of_lt (by omega)
    rw [hcuts]
    exact cuts_of_lt (by show first - 1 < first; omega)
  induction n with
  | zero => exact .inl (hstart 0 (by omega))
  | succ n ih =>
    by_cases hlt : n + 1 < first
    · exact .inl (hstart (n + 1) (by omega))
    have hstep : cuts tooBig limit first (n + 1) =
      cutStep tooBig limit (cuts tooBig limit first n) (n + 1) := cuts_succ (by omega)
    by_cases hover : (cuts tooBig limit first n).start < n + 1 ∧
        tooBig (cuts tooBig limit first n).start (n + 1)
    · refine .inr ?_
      have hs : (cuts tooBig limit first (n + 1)).start = n + 1 := by
        rw [hstep, cutStep, if_pos hover]
      rw [hs]
      exact ⟨Nat.le_refl _, rfl⟩
    · by_cases hlen : n + 1 + 1 - (cuts tooBig limit first n).start < limit
      · have hsame : cuts tooBig limit first (n + 1) = cuts tooBig limit first n := by
          rw [hstep, cutStep, if_neg hover, if_pos hlen]
        rw [hsame]
        rcases ih (by omega) with hopen | ⟨hle, hopen⟩
        · exact .inl hopen
        · exact .inr ⟨by omega, hopen⟩
      · refine .inl ?_
        have hs : (cuts tooBig limit first (n + 1)).start = n + 1 + 1 := by
          rw [hstep, cutStep, if_neg hover, if_neg hlen]
        rw [hs]
        rfl

/-- The state depends on the positions up to it only. -/
theorem cuts_congr {tooBig' : Nat → Nat → Bool}
    (h : ∀ a b, first ≤ b → b ≤ n → tooBig a b = tooBig' a b) :
    cuts tooBig limit first n = cuts tooBig' limit first n := by
  induction n with
  | zero => rfl
  | succ n ih =>
    rw [cuts, cuts]
    split
    · rfl
    · rw [ih fun a b hb hbn => h a b hb (by omega)]
      simp [cutStep, h _ (n + 1) (by omega) (by omega)]

end

end Citrea.Lib
