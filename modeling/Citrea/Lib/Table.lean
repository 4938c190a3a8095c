import Mathlib.Data.List.Nodup
import Mathlib.Data.List.Pairwise
import Mathlib.Data.UInt
import Mathlib.Logic.Basic
import Mathlib.Tactic.Tauto

/-!
# `Citrea.Lib.Table`: tables in the order of their keys

A table of an ordered key-value store. The store compares the bytes of the keys. A key of fixed
width in big-endian order compares like the number it stands for, and `TableKey.code` is this
number. The entries of a table are in increasing order, and a table carries the proof of it.

`mem_put` and `mem_delete` say what a write changes, and `mem_entries` connects the entries with
the lookup.
-/

namespace Citrea.Lib

open Option List

/-- Keys that a table orders by a number. -/
class TableKey (K : Type) where
  code : K → Nat
  code_injective : Function.Injective code

instance : TableKey UInt32 where
  code := UInt32.toNat
  code_injective := fun _ _ => UInt32.toNat_inj.mp

instance : TableKey UInt64 where
  code := UInt64.toNat
  code_injective := fun _ _ => UInt64.toNat_inj.mp

/-- A pair is ordered by its first component first. -/
instance : TableKey (UInt32 × UInt32) where
  code := fun k => k.1.toNat * 2 ^ 32 + k.2.toNat
  code_injective := by
    intro a b h
    have ha := a.2.toNat_lt
    have hb := b.2.toNat_lt
    dsimp only at h
    refine Prod.ext (UInt32.toNat_inj.mp ?_) (UInt32.toNat_inj.mp ?_)
    · omega
    · omega

/-- Lists in strict order of a key are equal if they have the same members. -/
theorem eq_of_pairwise_lt {α : Type} {key : α → Nat} {l l' : List α}
    (hl : l.Pairwise fun a b => key a < key b) (hl' : l'.Pairwise fun a b => key a < key b)
    (hmem : ∀ a, a ∈ l ↔ a ∈ l') : l = l' := by
  have hperm : l.Perm l' := by
    refine (perm_ext_iff_of_nodup ?_ ?_).mpr hmem
    · exact hl.imp fun hlt heq => absurd (heq ▸ hlt) (by omega)
    · exact hl'.imp fun hlt heq => absurd (heq ▸ hlt) (by omega)
  exact hperm.eq_of_pairwise
    (fun _ _ _ _ hlt hgt => absurd (by omega) (by omega)) hl hl'

/-- A table with its entries in increasing order of the keys. -/
structure Table (K V : Type) [TableKey K] where
  entries : List (K × V)
  sorted : entries.Pairwise fun a b => TableKey.code a.1 < TableKey.code b.1

namespace Table

open TableKey (code code_injective)

variable {K V : Type} [TableKey K] {t : Table K V} {k k' : K} {v : V} {e : K × V}

def empty : Table K V := ⟨[], .nil⟩

/-- The value under a key. -/
def get (t : Table K V) (k : K) : Option V :=
  (t.entries.find? fun e => code e.1 == code k).map Prod.snd

/-- A write. It replaces the value under the key. -/
def put (t : Table K V) (k : K) (v : V) : Table K V where
  entries := t.entries.filter (fun e => code e.1 < code k) ++
    (k, v) :: t.entries.filter (fun e => code k < code e.1)
  sorted := by
    rw [pairwise_append, pairwise_cons]
    refine ⟨t.sorted.filter _, ⟨?_, t.sorted.filter _⟩, ?_⟩
    · intro e he
      simpa using (mem_filter.mp he).2
    · intro e he e' he'
      have hlt : code e.1 < code k := by simpa using (mem_filter.mp he).2
      rcases mem_cons.mp he' with rfl | he'
      · exact hlt
      · have hgt : code k < code e'.1 := by simpa using (mem_filter.mp he').2
        omega

/-- The removal of a key. -/
def delete (t : Table K V) (k : K) : Table K V :=
  ⟨t.entries.filter fun e => code e.1 ≠ code k, t.sorted.filter _⟩

/-- The last entry. -/
def last? (t : Table K V) : Option (K × V) := t.entries.getLast?

/-- The last entry whose key is at most `k`. -/
def seekForPrev (t : Table K V) (k : K) : Option (K × V) :=
  (t.entries.filter fun e => code e.1 ≤ code k).getLast?

/-- The first `count` values from the key `k` on. -/
def takeFrom (t : Table K V) (k : K) (count : Nat) : List V :=
  ((t.entries.filter fun e => code k ≤ code e.1).take count).map Prod.snd

theorem mem_put : e ∈ (t.put k v).entries ↔ e = (k, v) ∨ (e ∈ t.entries ∧ e.1 ≠ k) := by
  have hne : e.1 ≠ k ↔ code e.1 < code k ∨ code k < code e.1 := by
    rw [← code_injective.ne_iff]
    omega
  rw [hne]
  show e ∈ t.entries.filter _ ++ (k, v) :: t.entries.filter _ ↔ _
  simp only [mem_append, mem_cons, mem_filter, decide_eq_true_eq]
  tauto

theorem mem_delete : e ∈ (t.delete k).entries ↔ e ∈ t.entries ∧ e.1 ≠ k := by
  show e ∈ t.entries.filter _ ↔ _
  rw [mem_filter, decide_eq_true_eq, code_injective.ne_iff]

/-- A key has one entry. -/
theorem entry_unique {e' : K × V} (h : e ∈ t.entries) (h' : e' ∈ t.entries) (hkey : e.1 = e'.1) :
    e = e' := by
  by_contra hne
  have hdistinct : t.entries.Pairwise fun a b => a.1 ≠ b.1 :=
    t.sorted.imp fun hlt heq => absurd (congrArg code heq) (Nat.ne_of_lt hlt)
  have : Std.Symm fun a b : K × V => a.1 ≠ b.1 := ⟨fun _ _ hab => hab.symm⟩
  exact hdistinct.forall h h' hne hkey

/-- The lookup finds the entries. -/
theorem mem_entries : (k, v) ∈ t.entries ↔ t.get k = some v := by
  rw [get, map_eq_some_iff]
  constructor
  · intro hmem
    have hsome : (t.entries.find? fun e => code e.1 == code k).isSome := by
      rw [List.find?_isSome]
      exact ⟨(k, v), hmem, beq_self_eq_true _⟩
    obtain ⟨e, he⟩ := isSome_iff_exists.mp hsome
    have hcode := List.find?_some he
    have hkey : e.1 = k := code_injective (beq_iff_eq.mp hcode)
    refine ⟨e, he, ?_⟩
    rw [entry_unique (mem_of_find?_eq_some he) hmem hkey]
  · rintro ⟨e, he, rfl⟩
    have hcode := List.find?_some he
    have hkey : e.1 = k := code_injective (beq_iff_eq.mp hcode)
    rw [← hkey]
    exact mem_of_find?_eq_some he

@[simp]
theorem get_empty (k : K) : (empty : Table K V).get k = none := rfl

@[simp]
theorem get_put_self (t : Table K V) (k : K) (v : V) : (t.put k v).get k = some v := by
  rw [← mem_entries, mem_put]
  exact .inl rfl

theorem get_put_of_ne (h : k' ≠ k) : (t.put k v).get k' = t.get k' := by
  ext w
  rw [← mem_entries, ← mem_entries, mem_put]
  simp [h]

/-- What a table holds after a write. -/
theorem get_put {w : V} (h : (t.put k v).get k' = some w) :
    (k' = k ∧ w = v) ∨ t.get k' = some w := by
  rw [← mem_entries, mem_put] at h
  rcases h with heq | ⟨hmem, -⟩
  · exact .inl (Prod.mk.inj heq)
  · exact .inr (mem_entries.mp hmem)

/-- What a table holds after a removal. -/
theorem get_delete {w : V} (h : (t.delete k).get k' = some w) : t.get k' = some w := by
  rw [← mem_entries, mem_delete] at h
  exact mem_entries.mp h.1

theorem get_delete_of_ne (h : k' ≠ k) : (t.delete k).get k' = t.get k' := by
  ext w
  rw [← mem_entries, ← mem_entries, mem_delete]
  simp [h]

/-- A write under a key that no other key is above becomes the last entry. -/
theorem last?_put (h : ∀ e ∈ t.entries, code e.1 ≤ code k) (v : V) :
    (t.put k v).last? = some (k, v) := by
  have hnone : t.entries.filter (fun e => code k < code e.1) = [] := by
    rw [filter_eq_nil_iff]
    intro e he
    have hle := h e he
    simpa using hle
  show (t.entries.filter _ ++ (k, v) :: t.entries.filter _).getLast? = some (k, v)
  rw [hnone, List.getLast?_append, List.getLast?_singleton, some_or]

/-- A write behind all keys. -/
theorem entries_put_last (h : ∀ e ∈ t.entries, code e.1 < code k) (v : V) :
    (t.put k v).entries = t.entries ++ [(k, v)] := by
  have hbefore : t.entries.filter (fun e => code e.1 < code k) = t.entries :=
    filter_eq_self.mpr fun e he => by simpa using h e he
  have hafter : t.entries.filter (fun e => code k < code e.1) = [] := by
    rw [filter_eq_nil_iff]
    intro e he
    have := h e he
    simp only [decide_eq_true_eq]
    omega
  show t.entries.filter _ ++ (k, v) :: t.entries.filter _ = _
  rw [hbefore, hafter]

/-- The seek from a key that no other key is above. -/
theorem seekForPrev_eq_last? (h : ∀ e ∈ t.entries, code e.1 ≤ code k) :
    t.seekForPrev k = t.last? := by
  have hall : t.entries.filter (fun e => code e.1 ≤ code k) = t.entries := by
    rw [filter_eq_self]
    intro e he
    simpa using h e he
  rw [seekForPrev, hall, last?]

/-- Tables with the same entries are equal. -/
theorem ext_mem {t' : Table K V} (h : ∀ e, e ∈ t.entries ↔ e ∈ t'.entries) : t = t' := by
  have hentries : t.entries = t'.entries := eq_of_pairwise_lt t.sorted t'.sorted h
  cases t
  cases t'
  cases hentries
  rfl

/-- A write of the value that is there already. -/
theorem put_eq_self (h : t.get k = some v) : t.put k v = t := by
  refine ext_mem fun e => mem_put.trans ⟨?_, fun he => ?_⟩
  · rintro (rfl | ⟨he, -⟩)
    · exact mem_entries.mpr h
    · exact he
  · by_cases hkey : e.1 = k
    · exact .inl (entry_unique he (mem_entries.mpr h) hkey)
    · exact .inr ⟨he, hkey⟩

/-- The removal of the first entry. -/
theorem entries_delete_head {rest : List (K × V)} (h : t.entries = e :: rest) :
    (t.delete e.1).entries = rest := by
  have hsorted := t.sorted
  rw [h, pairwise_cons] at hsorted
  show t.entries.filter _ = rest
  rw [h, filter_cons, if_neg (by simp), filter_eq_self]
  intro e' he'
  have hlt := hsorted.1 e' he'
  simp only [ne_eq, decide_not, Bool.not_eq_eq_eq_not, Bool.not_true, decide_eq_false_iff_not]
  omega

/-- The removal of several keys, one after the other. -/
def deleteAll (t : Table K V) (ks : List K) : Table K V := ks.foldl delete t

theorem mem_deleteAll {ks : List K} : e ∈ (t.deleteAll ks).entries ↔ e ∈ t.entries ∧ e.1 ∉ ks := by
  induction ks generalizing t with
  | nil => simp [deleteAll]
  | cons k ks ih =>
    show e ∈ ((t.delete k).deleteAll ks).entries ↔ _
    rw [ih, mem_delete, mem_cons, not_or, and_assoc]

theorem mem_of_deleteAll {ks : List K} (he : e ∈ t.entries)
    (hgone : e ∉ (t.deleteAll ks).entries) : e.1 ∈ ks := by
  by_contra hnot
  exact hgone (mem_deleteAll.mpr ⟨he, hnot⟩)

/-- The entries are in the order of their keys, so those up to some key come first. -/
theorem takeWhile_entries {p : K × V → Bool} (hp : ∀ a b, code a.1 < code b.1 → p b → p a) :
    t.entries.takeWhile p = t.entries.filter p := by
  have hsorted := t.sorted
  generalize t.entries = entries at hsorted ⊢
  induction hsorted with
  | nil => rfl
  | @cons a rest habove _ ih =>
    by_cases ha : p a
    · rw [takeWhile_cons_of_pos ha, filter_cons_of_pos ha, ih]
    · rw [takeWhile_cons_of_neg ha, eq_comm, filter_eq_nil_iff]
      simpa [ha] using fun b w hb hpb => ha (hp a (b, w) (habove _ hb) hpb)

/-- The values of the keys from `a` to `b`. -/
def between (t : Table K V) (a b : K) : List V :=
  ((t.entries.filter fun e => code a ≤ code e.1).filter fun e => code e.1 ≤ code b).map Prod.snd

/-- The first `n` values from a key on are those up to `b` if there are `n` of these, or if there
are fewer and no key is above `b`. -/
theorem takeFrom_eq_between_iff {a b : K} {n : Nat} : t.takeFrom a n = t.between a b ↔
    (t.between a b).length = n ∨ (t.between a b).length < n ∧
      ∀ e ∈ t.entries, code a ≤ code e.1 → code e.1 ≤ code b := by
  let later : Table K V := ⟨t.entries.filter fun e => code a ≤ code e.1, t.sorted.filter _⟩
  let upTo : K × V → Bool := fun e => code e.1 ≤ code b
  have hsplit : later.entries.filter upTo ++ later.entries.dropWhile upTo = later.entries := by
    rw [← takeWhile_entries fun _ _ hlt hle => decide_eq_true (by simp at hle; omega)]
    exact takeWhile_append_dropWhile
  show (later.entries.take n).map Prod.snd = (later.entries.filter upTo).map Prod.snd ↔
    ((later.entries.filter upTo).map Prod.snd).length = n ∨
      ((later.entries.filter upTo).map Prod.snd).length < n ∧ _
  rw [length_map]
  constructor
  · intro h
    have hlength := congrArg List.length h
    have hsum := congrArg List.length hsplit
    simp only [length_map, length_take, length_append] at hlength hsum
    by_cases hn : (later.entries.filter upTo).length = n
    · exact .inl hn
    · refine .inr ⟨by omega, fun e he ha => ?_⟩
      have hall : (later.entries.filter upTo).length = later.entries.length := by omega
      have hle := length_filter_eq_length_iff.mp hall e
        (mem_filter.mpr ⟨he, decide_eq_true ha⟩)
      exact of_decide_eq_true hle
  · rintro (hn | ⟨hn, hall⟩)
    · conv_lhs => rw [← hsplit, ← hn, take_left]
    · have hself : later.entries.filter upTo = later.entries := filter_eq_self.mpr fun e he => by
        obtain ⟨he, ha⟩ := mem_filter.mp he
        exact decide_eq_true (hall e he (of_decide_eq_true ha))
      rw [hself] at hn ⊢
      rw [take_of_length_le (Nat.le_of_lt hn)]

end Table

/-! ### Records under a key and a version

A store that never overwrites a value keeps one record for each key and version. A read at a version
takes the newest record of the key that is not newer than the version: `latest`.

`latest_congr` says which records a read looks at, and `latest_eq_of_none` that versions without a
record are skipped. `foldl_put_of_mem` and `foldl_put_of_not_mem` are the reads after a batch of
writes.
-/

/-- The record of a key at a version. -/
abbrev Versioned (K V : Type) := K → Nat → Option V

namespace Versioned

variable {K V : Type} {t : Versioned K V} {key : K} {n : Nat}

def empty : Versioned K V := fun _ _ => none

/-- A write. It replaces the record of the key at the version. -/
def put [DecidableEq K] (t : Versioned K V) (key : K) (version : Nat) (value : V) : Versioned K V :=
  fun k n => if k = key ∧ n = version then some value else t k n

/-- The removal of a record. -/
def delete [DecidableEq K] (t : Versioned K V) (key : K) (version : Nat) : Versioned K V :=
  fun k n => if k = key ∧ n = version then none else t k n

/-- The records up to a version. -/
def upTo (t : Versioned K V) (version : Nat) : Versioned K V :=
  fun k n => if n ≤ version then t k n else none

/-- The newest record of a key at a version or before it. -/
def latest (t : Versioned K V) (key : K) : Nat → Option V
  | 0 => t key 0
  | n + 1 =>
    match t key (n + 1) with
    | some value => some value
    | none => latest t key n

theorem latest_of_some {value : V} (h : t key n = some value) : t.latest key n = some value := by
  cases n with
  | zero => exact h
  | succ n => rw [latest, h]

theorem latest_succ_of_none (h : t key (n + 1) = none) : t.latest key (n + 1) = t.latest key n := by
  rw [latest, h]

/-- A read only looks at the records up to its version. -/
theorem latest_congr {t' : Versioned K V} (h : ∀ m ≤ n, t key m = t' key m) :
    t.latest key n = t'.latest key n := by
  induction n with
  | zero => exact h 0 (by omega)
  | succ n ih =>
    rw [latest, latest, h (n + 1) (Nat.le_refl _), ih fun m hm => h m (by omega)]

/-- Versions without a record of the key are skipped. -/
theorem latest_eq_of_none {m : Nat} (hle : m ≤ n) (h : ∀ i, m < i → i ≤ n → t key i = none) :
    t.latest key n = t.latest key m := by
  induction n with
  | zero =>
    obtain rfl : m = 0 := by omega
    rfl
  | succ n ih =>
    rcases Nat.lt_or_eq_of_le hle with hlt | rfl
    · rw [latest_succ_of_none (h (n + 1) hlt (Nat.le_refl _)),
        ih (by omega) fun i hi hin => h i hi (by omega)]
    · rfl

section
variable [DecidableEq K] {l : List ((K × Nat) × V)}

theorem foldl_put_of_not_mem {t : Versioned K V} {key : K} {n : Nat}
    (h : (key, n) ∉ l.map Prod.fst) :
    (l.foldl (fun t e => t.put e.1.1 e.1.2 e.2) t) key n = t key n := by
  induction l generalizing t with
  | nil => rfl
  | cons e l ih =>
    rw [map_cons, mem_cons, not_or] at h
    rw [foldl_cons, ih h.2]
    have hne : ¬(key = e.1.1 ∧ n = e.1.2) := fun hsame => h.1 (Prod.ext hsame.1 hsame.2)
    show (if _ then _ else _) = _
    rw [if_neg hne]

theorem foldl_put_of_mem (hnodup : (l.map Prod.fst).Nodup) {t : Versioned K V} {key : K} {n : Nat}
    {value : V} (h : ((key, n), value) ∈ l) :
    (l.foldl (fun t e => t.put e.1.1 e.1.2 e.2) t) key n = some value := by
  induction l generalizing t with
  | nil => cases h
  | cons e l ih =>
    rw [map_cons, nodup_cons] at hnodup
    rw [foldl_cons]
    rcases mem_cons.mp h with rfl | h
    · rw [foldl_put_of_not_mem hnodup.1]
      show (if _ then _ else _) = _
      rw [if_pos ⟨rfl, rfl⟩]
    · exact ih hnodup.2 h

/-- A batch of removals takes out the records that it names. -/
theorem foldl_delete (l : List (K × Nat)) (t : Versioned K V) (key : K) (n : Nat) :
    (l.foldl (fun t e => t.delete e.1 e.2) t) key n = if (key, n) ∈ l then none else t key n := by
  induction l generalizing t with
  | nil => rw [if_neg not_mem_nil]; rfl
  | cons e l ih =>
    rw [foldl_cons, ih]
    by_cases hl : (key, n) ∈ l
    · rw [if_pos hl, if_pos (mem_cons_of_mem _ hl)]
    · rw [if_neg hl]
      show (if _ then _ else _) = _
      refine if_congr ?_ rfl rfl
      rw [mem_cons, or_iff_left hl, Prod.ext_iff]

end

end Versioned

end Citrea.Lib
