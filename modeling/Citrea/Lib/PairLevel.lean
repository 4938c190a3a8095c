import Mathlib.Data.List.Basic
import Mathlib.Data.List.Forall2
import Mathlib.Data.List.Induction
import Mathlib.Data.Set.Function

/-!
# `Citrea.Lib.PairLevel`: binding of a pairing tree with a doubled tail

A level of the tree is a list of nodes. The level above pairs neighbours with `node`. A last
node without a neighbour is paired with itself, so that `[x]` and `[x, x]` would have the same
level above. A tree that takes part in a proof of binding therefore refuses a pair of equal
neighbours, and `PairUp` has that refusal built in.

The second ingredient is that `node` does not collide. A hash into a fixed number of bytes
collides somewhere, so the hypothesis is about a set `K` of pairs: the pairs that were hashed.
`PairUp` asks every pair it forms to be in `K`.

* `PairUp.injective`: the level above determines the level below.
* `PairUp.restrict`: the set `K` may be cut down to the pairs that the step forms.
* `Levels.injective`: the same for a tower of `k` levels.
* `Levels.of_same_top`: two towers of any heights under one top. The list of the shorter tower
  is a level of the taller one. Nothing more is true of untagged nodes: the levels of a tree
  are themselves lists under the same root.
* `foldl_node_inj`: a path from the leftmost leaf up to the root. With leaves that are no
  `node` of a pair in `K`, the root determines the leaf and the whole path.
-/

namespace Citrea.Lib

open Option List

variable {α : Type}

/-- `PairUp node K l m`: `m` is the level above `l`, no two neighbours that form a pair are
equal, and every pair that was formed is in `K`. -/
inductive PairUp (node : α → α → α) (K : Set (α × α)) : List α → List α → Prop where
  | nil : PairUp node K [] []
  | single {x : α} (hK : (x, x) ∈ K) : PairUp node K [x] [node x x]
  | pair {x y : α} {rest up : List α} (hne : x ≠ y) (hK : (x, y) ∈ K)
      (h : PairUp node K rest up) : PairUp node K (x :: y :: rest) (node x y :: up)

/-- `Levels node K k l m`: `m` is `k` levels above `l`. -/
inductive Levels (node : α → α → α) (K : Set (α × α)) : Nat → List α → List α → Prop where
  | refl {l : List α} : Levels node K 0 l l
  | step {k : Nat} {l m n : List α} (h : PairUp node K l m) (hs : Levels node K k m n) :
      Levels node K (k + 1) l n

/-- The pairs that a level forms, with the doubled tail. -/
def neighbours : List α → List (α × α)
  | [] => []
  | [x] => [(x, x)]
  | x :: y :: rest => (x, y) :: neighbours rest

variable {node : α → α → α} {K : Set (α × α)} {l m l' n : List α}

/-- The level above is `node` of each pair. -/
theorem PairUp.eq_map (h : PairUp node K l m) : m = (neighbours l).map fun p => node p.1 p.2 := by
  induction h with
  | nil => rfl
  | single _ => rfl
  | pair _ _ _ ih => rw [neighbours, map_cons, ← ih]

/-- A step only needs the pairs that it forms. -/
theorem PairUp.restrict {K' : Set (α × α)} (h : PairUp node K l m)
    (hK' : ∀ p ∈ neighbours l, p ∈ K') : PairUp node K' l m := by
  induction h with
  | nil => exact .nil
  | single _ => exact .single (hK' _ (by simp [neighbours]))
  | pair hne _ _ ih =>
    simp only [neighbours, mem_cons, forall_eq_or_imp] at hK'
    exact .pair hne hK'.1 (ih hK'.2)

/-- The level above has half as many nodes, rounded up. -/
theorem PairUp.length_eq (h : PairUp node K l m) : m.length = (l.length + 1) / 2 := by
  induction h with
  | nil => simp
  | single _ => simp
  | pair _ _ _ ih => simp only [length_cons, ih]; omega

/-- The level above determines the level below. A doubled tail `node x x` cannot also come
from a full pair, because a full pair has distinct members. -/
theorem PairUp.injective (hinj : Set.InjOn (fun p : α × α => node p.1 p.2) K)
    (h : PairUp node K l m) (h' : PairUp node K l' m) : l = l' := by
  have pair_eq : ∀ {a b c d : α}, (a, b) ∈ K → (c, d) ∈ K → node a b = node c d →
      a = c ∧ b = d := by
    intro a b c d hab hcd heq
    simpa using hinj hab hcd heq
  induction h generalizing l' with
  | nil => cases h'; rfl
  | @single x hK =>
    generalize hm : [node x x] = m at h'
    cases h' with
    | nil => simp at hm
    | single hK' =>
      obtain ⟨rfl, -⟩ := pair_eq hK hK' (by simpa using hm)
      rfl
    | pair hne hK' _ =>
      obtain ⟨hx, hy⟩ := pair_eq hK hK' (List.cons.inj hm).1
      exact absurd (hx.symm.trans hy) hne
  | @pair x y rest up hne hK _ ih =>
    generalize hm : node x y :: up = m at h'
    cases h' with
    | nil => simp at hm
    | single hK' =>
      obtain ⟨hx, hy⟩ := pair_eq hK hK' (List.cons.inj hm).1
      exact absurd (hx.trans hy.symm) hne
    | pair _ hK' hrest =>
      obtain ⟨hhead, rfl⟩ := List.cons.inj hm
      obtain ⟨rfl, rfl⟩ := pair_eq hK hK' hhead
      rw [ih hrest]

/-- The pairs of an image. -/
theorem neighbours_map {β : Type} (f : β → α) (l : List β) :
    neighbours (l.map f) = (neighbours l).map fun p => (f p.1, f p.2) := by
  induction l using neighbours.induct with
  | case1 => rfl
  | case2 x => rfl
  | case3 x y rest ih => simp [neighbours, ih]

/-- A level over one label of some leaves gives a level over another, when the second label
determines the first: neighbours that differ in the first label differ in the second. -/
theorem PairUp.of_determined {β : Type} {f g : β → α} {l : List β}
    (hdet : ∀ p ∈ l, ∀ q ∈ l, g p = g q → f p = f q) (h : PairUp node Set.univ (l.map f) m)
    (hK : ∀ p ∈ neighbours (l.map g), p ∈ K) :
    PairUp node K (l.map g) ((neighbours (l.map g)).map fun p => node p.1 p.2) := by
  induction l using neighbours.induct generalizing m with
  | case1 => exact .nil
  | case2 x => exact .single (hK _ (by simp [neighbours]))
  | case3 x y rest ih =>
    simp only [map_cons, neighbours, mem_cons, forall_eq_or_imp] at hK h ⊢
    cases h with
    | pair hne _ hrest =>
      have hneq : g x ≠ g y := fun heq => hne (hdet x (by simp) y (by simp) heq)
      exact .pair hneq hK.1
        (ih (fun p hp q hq => hdet p (by simp [hp]) q (by simp [hq])) hrest hK.2)

/-- A tower of `a + b` levels is a tower of `a` levels under one of `b`. -/
theorem Levels.split {a b : Nat} (h : Levels node K (a + b) l n) :
    ∃ m, Levels node K a l m ∧ Levels node K b m n := by
  induction a generalizing l with
  | zero => exact ⟨l, .refl, by simpa using h⟩
  | succ a ih =>
    rw [Nat.add_right_comm] at h
    cases h with
    | step hup hs =>
      obtain ⟨m, hlo, hhi⟩ := ih hs
      exact ⟨m, .step hup hlo, hhi⟩

/-- The top of a tower of known height determines its bottom. -/
theorem Levels.injective (hinj : Set.InjOn (fun p : α × α => node p.1 p.2) K) {k : Nat}
    (h : Levels node K k l n) (h' : Levels node K k l' n) : l = l' := by
  induction k generalizing l l' with
  | zero => cases h; cases h'; rfl
  | succ k ih =>
    cases h with
    | step hup hs =>
      cases h' with
      | step hup' hs' =>
        obtain rfl := ih hs hs'
        exact hup.injective hinj hup'

/-- Two towers under one top: the bottom of the shorter one is a level of the taller one. -/
theorem Levels.of_same_top (hinj : Set.InjOn (fun p : α × α => node p.1 p.2) K) {k k' : Nat}
    (hk : k ≤ k') (h : Levels node K k l n) (h' : Levels node K k' l' n) :
    Levels node K (k' - k) l' l := by
  obtain ⟨m, hlo, hhi⟩ := Levels.split (a := k' - k) (b := k) (by rwa [Nat.sub_add_cancel hk])
  obtain rfl := Levels.injective hinj h hhi
  exact hlo

/-! ### Paths from the leftmost leaf -/

/-- The pairs that are formed on the way up from `a` along the siblings `p`. -/
def pathPairs (node : α → α → α) (a : α) : List α → List (α × α)
  | [] => []
  | x :: p => (a, x) :: pathPairs node (node a x) p

theorem pathPairs_append_singleton (a x : α) (p : List α) :
    pathPairs node a (p ++ [x]) = pathPairs node a p ++ [(p.foldl node a, x)] := by
  induction p generalizing a with
  | nil => rfl
  | cons y p ih =>
    rw [cons_append, pathPairs, ih, pathPairs, foldl_cons, cons_append]

/-- The root at the end of a path determines the leaf and the path. The induction is on the
end of the path: the last pair is determined by the root, and a leaf is never a `node`. -/
theorem foldl_node_inj (hinj : Set.InjOn (fun p : α × α => node p.1 p.2) K) {a b : α}
    (ha : ∀ p ∈ K, a ≠ node p.1 p.2) (hb : ∀ p ∈ K, b ≠ node p.1 p.2) {p q : List α}
    (hp : ∀ x ∈ pathPairs node a p, x ∈ K) (hq : ∀ x ∈ pathPairs node b q, x ∈ K)
    (h : p.foldl node a = q.foldl node b) : a = b ∧ p = q := by
  induction p using List.reverseRecOn generalizing q with
  | nil =>
    rcases eq_nil_or_concat' q with rfl | ⟨q, y, rfl⟩
    · exact ⟨h, rfl⟩
    · rw [pathPairs_append_singleton] at hq
      rw [foldl_append] at h
      exact absurd h (ha (q.foldl node b, y) (hq _ (by simp)))
  | append_singleton p x ih =>
    rw [pathPairs_append_singleton] at hp
    rcases eq_nil_or_concat' q with rfl | ⟨q, y, rfl⟩
    · rw [foldl_append] at h
      exact absurd h.symm (hb (p.foldl node a, x) (hp _ (by simp)))
    · rw [pathPairs_append_singleton] at hq
      rw [foldl_append, foldl_append] at h
      have hlast : (p.foldl node a, x) = (q.foldl node b, y) :=
        hinj (hp _ (by simp)) (hq _ (by simp)) h
      obtain ⟨hfold, rfl⟩ := Prod.mk.inj hlast
      obtain ⟨hab, rfl⟩ := ih (fun z hz => hp z (mem_append_left _ hz))
        (fun z hz => hq z (mem_append_left _ hz)) hfold
      exact ⟨hab, rfl⟩

/-! ### A path of known length ends at a leaf

The tree is the one of `PairLevel`, but equal neighbours are allowed. A path has one sibling for
each level, and the bits of a number say on which side the sibling is. Nothing is assumed about the
siblings or the number.

Compare the root from the top down. The last pair on the path and the last pair of the tree have the
same `node`, so they are the same pair. The path has as many siblings as the tree has levels, so it
ends at a leaf and not at an inner node (`TreeOver.mem_of_climb`).
-/

variable {α : Type} {node : α → α → α} {K : Set (α × α)}

/-- The level above, with equal neighbours allowed. -/
def levelUp (node : α → α → α) (l : List α) : List α := (neighbours l).map fun p => node p.1 p.2

/-- `TreeOver node l depth root`: the tree over `l` has `depth` levels above the leaves. -/
inductive TreeOver (node : α → α → α) : List α → Nat → α → Prop where
  | root (r : α) : TreeOver node [r] 0 r
  | level {l : List α} {depth : Nat} {r : α} (hl : 2 ≤ l.length)
      (h : TreeOver node (levelUp node l) depth r) : TreeOver node l (depth + 1) r

/-- The pairs that the tree forms. -/
def treePairs (node : α → α → α) : Nat → List α → List (α × α)
  | 0, _ => []
  | depth + 1, l => neighbours l ++ treePairs node depth (levelUp node l)

/-- The end of a path from `a` up along the siblings. -/
def climb (node : α → α → α) (a : α) (siblings : List α) (index : Nat) : α :=
  match siblings with
  | [] => a
  | x :: rest => climb node (if index % 2 = 1 then node x a else node a x) rest (index / 2)

/-- The pairs that the path forms. -/
def climbPairs (node : α → α → α) (a : α) (siblings : List α) (index : Nat) : List (α × α) :=
  match siblings with
  | [] => []
  | x :: rest => (if index % 2 = 1 then (x, a) else (a, x)) ::
      climbPairs node (if index % 2 = 1 then node x a else node a x) rest (index / 2)

/-- Both nodes of a pair are on the level. -/
theorem mem_of_mem_neighbours {l : List α} {p : α × α} (h : p ∈ neighbours l) :
    p.1 ∈ l ∧ p.2 ∈ l := by
  induction l using neighbours.induct with
  | case1 => simp [neighbours] at h
  | case2 x =>
    obtain rfl : p = (x, x) := by simpa [neighbours] using h
    simp
  | case3 x y rest ih =>
    rw [neighbours, mem_cons] at h
    rcases h with rfl | h
    · simp
    · obtain ⟨h1, h2⟩ := ih h
      exact ⟨by simp [h1], by simp [h2]⟩

theorem length_neighbours (l : List α) : (neighbours l).length = (l.length + 1) / 2 := by
  induction l using neighbours.induct with
  | case1 => simp [neighbours]
  | case2 x => simp [neighbours]
  | case3 x y rest ih =>
    rw [neighbours, length_cons, ih, length_cons, length_cons]
    omega

namespace TreeOver

/-- A path with one sibling for each level that ends at the root starts at a leaf. The induction
goes up from the leaves: by the induction hypothesis the node above `a` is on the level above. -/
theorem mem_of_climb (hinj : Set.InjOn (fun p : α × α => node p.1 p.2) K) {l : List α} {depth : Nat}
    {r a : α} {siblings : List α} {index : Nat} (h : TreeOver node l depth r)
    (hlength : siblings.length = depth) (htree : ∀ p ∈ treePairs node depth l, p ∈ K)
    (hpath : ∀ p ∈ climbPairs node a siblings index, p ∈ K)
    (hroot : climb node a siblings index = r) : a ∈ l := by
  induction h generalizing a siblings index with
  | root r =>
    obtain rfl := length_eq_zero_iff.mp hlength
    exact mem_singleton.mpr hroot
  | @level l depth r hl h ih =>
    cases siblings with
    | nil => simp at hlength
    | cons x rest =>
      simp only [treePairs, mem_append] at htree
      simp only [climbPairs, mem_cons] at hpath
      have habove := ih (by simpa using hlength) (fun p hp => htree p (.inr hp))
        (fun p hp => hpath p (.inr hp)) hroot
      obtain ⟨pair, hpair, heq⟩ := mem_map.mp habove
      obtain ⟨hleft, hright⟩ := mem_of_mem_neighbours hpair
      have hmem := htree pair (.inl hpair)
      have hfirst := hpath _ (.inl rfl)
      by_cases hside : index % 2 = 1
      · rw [if_pos hside] at heq hfirst
        obtain rfl : pair = (x, a) := hinj hmem hfirst heq
        exact hright
      · rw [if_neg hside] at heq hfirst
        obtain rfl : pair = (a, x) := hinj hmem hfirst heq
        exact hleft

/-- The depth depends on the number of leaves only. -/
theorem depth_eq {l l' : List α} {depth depth' : Nat} {r r' : α} (h : TreeOver node l depth r)
    (h' : TreeOver node l' depth' r') (hlength : l.length = l'.length) : depth = depth' := by
  induction h generalizing l' depth' r' with
  | root r =>
    cases h' with
    | root _ => rfl
    | level hl _ => rw [← hlength] at hl; simp at hl
  | level hl _ ih =>
    cases h' with
    | root _ => rw [hlength] at hl; simp at hl
    | level _ h' =>
      have habove := ih h' (by simp only [levelUp, length_map, length_neighbours, hlength])
      omega

end TreeOver

/-! ### A pairing tree whose odd last node moves up unchanged

A level pairs neighbours with `node`. A last node without a neighbour is a node of the level
above as it is. `carryRoot` is the root over a list of leaves, and `carryProofRoot` is the root
that a proof for one leaf recomputes, given the index of the leaf and the number of leaves.

The last leaf of such a tree lies on the right edge: on the way to the root it only ever has
siblings on its left (`carryRoot_rightEdge`). A proof for the last index walks the same way
(`carryProofRoot_last`). So the last leaf is bound by the root alone, whatever number of leaves
the proof claims (`rightEdge_inj`), as long as `node` is injective and a leaf is never a `node`.

Under the same condition the root binds all leaves (`carryRoot_inj`). The number of leaves is not
part of the root, and two lists of different lengths have trees of different shapes. So the
argument does not follow the levels: it reads the root as a term over `node` and compares two
terms with the same value (`Spans.unique`).
-/

variable {α : Type} (node : α → α → α)

/-- The level above. -/
def carryUp : List α → List α
  | [] => []
  | [x] => [x]
  | x :: y :: rest => node x y :: carryUp rest

/-- The root from a level up. `fuel` bounds the number of levels. -/
def carryRootFrom : (fuel : Nat) → List α → Option α
  | _, [] => none
  | _, [x] => some x
  | 0, _ => none
  | fuel + 1, level => carryRootFrom fuel (carryUp node level)

/-- The root over a list of leaves; none for the empty list. A tree over `n` leaves has fewer
than `n` levels above them. -/
def carryRoot (leaves : List α) : Option α := carryRootFrom node leaves.length leaves

/-- The root that a proof recomputes from the leaf `x` at `index` among `count` leaves. -/
def carryProofRootFrom : (fuel : Nat) → (proof : List α) → (index count : Nat) → α → Option α
  | 0, _, _, _, x => some x
  | fuel + 1, proof, index, count, x =>
    if count ≤ 1 then some x
    else if index % 2 = 1 then
      proof.head?.bind fun s =>
        carryProofRootFrom fuel proof.tail (index / 2) ((count + 1) / 2) (node s x)
    else if index + 1 < count then
      proof.head?.bind fun s =>
        carryProofRootFrom fuel proof.tail (index / 2) ((count + 1) / 2) (node x s)
    else carryProofRootFrom fuel proof (index / 2) ((count + 1) / 2) x

/-- The root that a proof for one leaf recomputes. -/
def carryProofRoot (proof : List α) (index count : Nat) (x : α) : Option α :=
  carryProofRootFrom node count proof index count x

/-- The node reached from `x` along siblings that are all on the left. -/
def rightEdge (x : α) (siblings : List α) : α := siblings.foldl (fun acc s => node s acc) x

variable {node} {x root : α} {l leaves level : List α} {fuel : Nat} {groups : List (List α)}
  {proof l' : List α} {index : Nat}

/-- The last node of a level is the last node of the level below, or has a left sibling. -/
theorem carryUp_getLast (h : l.getLast? = some x) :
    (carryUp node l).getLast? = some x ∨ ∃ s, (carryUp node l).getLast? = some (node s x) := by
  induction l using carryUp.induct with
  | case1 => simp at h
  | case2 y => exact .inl h
  | case3 a b rest ih =>
    cases rest with
    | nil =>
      obtain rfl : b = x := by simpa using h
      exact .inr ⟨a, rfl⟩
    | cons c rest =>
      have hrest : (c :: rest).getLast? = some x := by simpa using h
      have hne : carryUp node (c :: rest) ≠ [] := by
        cases rest <;> simp [carryUp]
      rw [carryUp, List.getLast?_cons_of_ne_nil hne]
      exact ih hrest

/-- The root lies on the right edge of the last leaf. -/
theorem carryRootFrom_rightEdge (h : carryRootFrom node fuel l = some root) :
    ∃ x siblings, l.getLast? = some x ∧ root = rightEdge node x siblings := by
  induction fuel generalizing l with
  | zero =>
    match l, h with
    | [x], h =>
      obtain rfl : x = root := by simpa [carryRootFrom] using h
      exact ⟨x, [], rfl, rfl⟩
  | succ fuel ih =>
    match l, h with
    | [x], h =>
      obtain rfl : x = root := by simpa [carryRootFrom] using h
      exact ⟨x, [], rfl, rfl⟩
    | a :: b :: rest, h =>
      obtain ⟨y, siblings, hy, hroot⟩ := ih h
      obtain ⟨x, hx⟩ : ∃ x, (a :: b :: rest).getLast? = some x :=
        isSome_iff_exists.mp (by simp)
      rcases @carryUp_getLast _ node _ _ hx with hsame | ⟨s, hsib⟩
      · obtain rfl : x = y := some.inj (hsame.symm.trans hy)
        exact ⟨x, siblings, hx, hroot⟩
      · obtain rfl : node s x = y := some.inj (hsib.symm.trans hy)
        exact ⟨x, s :: siblings, hx, hroot⟩

theorem carryRoot_rightEdge (h : carryRoot node leaves = some root) :
    ∃ x siblings, leaves.getLast? = some x ∧ root = rightEdge node x siblings :=
  carryRootFrom_rightEdge h

/-- A proof for the last index climbs the right edge. -/
theorem carryProofRootFrom_last {count : Nat} (hlast : count ≤ index + 1)
    (h : carryProofRootFrom node fuel proof index count x = some root) :
    ∃ siblings, root = rightEdge node x siblings := by
  induction fuel generalizing proof index count x with
  | zero => exact ⟨[], (some.inj h).symm⟩
  | succ fuel ih =>
    rw [carryProofRootFrom] at h
    by_cases hone : count ≤ 1
    · rw [if_pos hone] at h
      exact ⟨[], (some.inj h).symm⟩
    · rw [if_neg hone] at h
      have hhalf : (count + 1) / 2 ≤ index / 2 + 1 := by omega
      by_cases hodd : index % 2 = 1
      · rw [if_pos hodd, bind_eq_some_iff] at h
        obtain ⟨s, -, h⟩ := h
        obtain ⟨siblings, hroot⟩ := ih hhalf h
        exact ⟨s :: siblings, hroot⟩
      · rw [if_neg hodd, if_neg (by omega)] at h
        exact ih hhalf h

theorem carryProofRoot_last (h : carryProofRoot node proof index (index + 1) x = some root) :
    ∃ siblings, root = rightEdge node x siblings :=
  carryProofRootFrom_last (by omega) h

/-- The root determines the leaf at the end of its right edge. -/
theorem rightEdge_inj (hinj : ∀ a b c d, node a b = node c d → a = c ∧ b = d) {y : α}
    (hx : ∀ a b, x ≠ node a b) (hy : ∀ a b, y ≠ node a b) {p q : List α}
    (h : rightEdge node x p = rightEdge node y q) : x = y := by
  have hpair : Set.InjOn (fun z : α × α => (fun acc s => node s acc) z.1 z.2) Set.univ := by
    intro z _ w _ heq
    obtain ⟨h2, h1⟩ := hinj _ _ _ _ heq
    exact Prod.ext h1 h2
  exact (foldl_node_inj hpair (fun z _ => hx z.2 z.1) (fun z _ => hy z.2 z.1)
    (fun _ _ => Set.mem_univ _) (fun _ _ => Set.mem_univ _) h).1

theorem length_carryUp (l : List α) : (carryUp node l).length = (l.length + 1) / 2 := by
  induction l using carryUp.induct with
  | case1 => simp [carryUp]
  | case2 x => simp [carryUp]
  | case3 x y rest ih =>
    simp only [carryUp, length_cons, ih]
    omega

/-- The fuel is enough: a level with more than one node shrinks. -/
theorem carryRootFrom_isSome (hpos : level ≠ []) (hfuel : level.length ≤ fuel + 1) :
    (carryRootFrom node fuel level).isSome := by
  induction fuel generalizing level with
  | zero =>
    match level with
    | [x] => rfl
    | a :: b :: rest => simp at hfuel
  | succ fuel ih =>
    match level with
    | [x] => rfl
    | a :: b :: rest =>
      refine ih (by simp [carryUp]) ?_
      rw [length_carryUp]
      simp only [length_cons] at hfuel ⊢
      omega

/-- There is a root over every list of leaves but the empty one. -/
theorem carryRoot_isSome (hpos : leaves ≠ []) : (carryRoot node leaves).isSome :=
  carryRootFrom_isSome hpos (by omega)

theorem carryRoot_eq_none (leaves : List α) : carryRoot node leaves = none ↔ leaves = [] := by
  refine ⟨fun h => ?_, fun h => by rw [h]; rfl⟩
  by_contra hpos
  have hsome : (carryRoot node leaves).isSome := carryRoot_isSome hpos
  simp [h] at hsome

/-- The value `x` is a term over `node` that has the values of the list as its leaves, in order. -/
inductive Spans (node : α → α → α) : List α → α → Prop where
  | leaf (x : α) (hx : ∀ a b, x ≠ node a b) : Spans node [x] x
  | node {l r : List α} {x y : α} (hl : Spans node l x) (hr : Spans node r y) :
      Spans node (l ++ r) (node x y)

/-- A value is a term over `node` in at most one way. -/
theorem Spans.unique (hinj : ∀ a b c d, node a b = node c d → a = c ∧ b = d) (h : Spans node l x)
    (h' : Spans node l' x) : l = l' := by
  induction h generalizing l' with
  | leaf x hx =>
    cases h' with
    | leaf => rfl
    | node hl hr => exact absurd rfl (hx _ _)
  | @node l r x y hl hr ihl ihr =>
    generalize hz : node x y = z at h'
    cases h' with
    | leaf _ hleaf => exact absurd hz.symm (hleaf x y)
    | node hl' hr' =>
      obtain ⟨rfl, rfl⟩ := hinj _ _ _ _ hz
      rw [ihl hl', ihr hr']

/-- One level up, the leaves below a new node are those below its two children. -/
theorem spans_carryUp (h : List.Forall₂ (Spans node) groups level) :
    List.Forall₂ (Spans node) (carryUp (· ++ ·) groups) (carryUp node level) := by
  induction level using carryUp.induct generalizing groups with
  | case1 =>
    cases h
    exact .nil
  | case2 x =>
    cases h with
    | cons hx hrest =>
      cases hrest
      exact .cons hx .nil
  | case3 x y rest ih =>
    cases h with
    | cons hx hrest =>
      cases hrest with
      | cons hy hrest => exact .cons (.node hx hy) (ih hrest)

theorem flatten_carryUp (groups : List (List α)) :
    (carryUp (· ++ ·) groups).flatten = groups.flatten := by
  induction groups using carryUp.induct with
  | case1 => rfl
  | case2 x => rfl
  | case3 x y rest ih => simp [carryUp, ih]

theorem spans_singleton (h : List.Forall₂ (Spans node) groups [x]) :
    Spans node groups.flatten x := by
  cases h with
  | cons hx hrest =>
    cases hrest
    simpa using hx

theorem carryRootFrom_spans (hlevel : List.Forall₂ (Spans node) groups level)
    (h : carryRootFrom node fuel level = some root) : Spans node groups.flatten root := by
  induction fuel generalizing groups level with
  | zero =>
    match level, h with
    | [x], h =>
      obtain rfl : x = root := by simpa [carryRootFrom] using h
      exact spans_singleton hlevel
  | succ fuel ih =>
    match level, h with
    | [x], h =>
      obtain rfl : x = root := by simpa [carryRootFrom] using h
      exact spans_singleton hlevel
    | a :: b :: rest, h =>
      -- The level above has the same leaves.
      rw [← flatten_carryUp]
      exact ih (spans_carryUp hlevel) h

/-- The root spans the leaves. -/
theorem carryRoot_spans (hleaf : ∀ x ∈ leaves, ∀ a b, x ≠ node a b)
    (h : carryRoot node leaves = some root) : Spans node leaves root := by
  have hlevel : List.Forall₂ (Spans node) (leaves.map fun x => [x]) leaves := by
    rw [forall₂_map_left_iff, forall₂_same]
    exact fun x hx => .leaf x (hleaf x hx)
  have hspans := carryRootFrom_spans hlevel h
  simpa [← flatMap_def] using hspans

/-- The root determines the leaves, and with them their number. -/
theorem carryRoot_inj (hinj : ∀ a b c d, node a b = node c d → a = c ∧ b = d)
    (hl : ∀ x ∈ l, ∀ a b, x ≠ node a b) (hl' : ∀ x ∈ l', ∀ a b, x ≠ node a b)
    (h : carryRoot node l = some root) (h' : carryRoot node l' = some root) : l = l' :=
  (carryRoot_spans hl h).unique hinj (carryRoot_spans hl' h')

end Citrea.Lib
