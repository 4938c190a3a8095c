import Citrea.Lib.StoreProg

/-!
# `Citrea.Lib.StoreTrace`: the accesses of a run

`StoreProg.trace` lists the accesses of a run in order. It also lists those of a run that fails
later. A statement about each value that a program gets is a statement about its trace.

`trace_simulates` extends the refinement rule to traces: a run that is matched by another backend
gets the same values there.

`Guarded` is a rely and guarantee condition on a program, for a rule about the hints. The program
may rely on good hints, and must set only good hints. At a checked read it must stop at once if the
hint is from outside and is not accepted. `Guarded.sound` turns it into a fact about runs: if the
hints from outside are good, apart from those that the program does not accept itself, then all
hints that it keeps are good.
-/

namespace Citrea.Lib

open List

/-- One access to the two stores, with the value that was read or written. -/
inductive Event {K : Type} (Val : K → Type) (C W : Type) where
  | got (k : K) (v : Option (Val k))
  | put (k : K) (v : Option (Val k))
  | gotHint (checked : Bool) (c : C) (w : Option W) (cached : Bool)
  | putHint (c : C) (w : W)

namespace StoreProg

variable {K : Type} {Val : K → Type} {C W ε α β : Type}

section
variable {σ τ : Type} (B : Backend Val σ) (O : HintBackend C W τ)

/-- The accesses of a run, up to its end or its fault. -/
def trace : StoreProg Val C W ε α → σ → τ → List (Event Val C W)
  | pure _, _, _ => []
  | fail _, _, _ => []
  | get k next, s, t =>
    match B.get k s with
    | .ok r => .got k r.1 :: trace (next r.1) r.2 t
    | .error _ => []
  | set k v next, s, t => .put k v :: trace next (B.set k v s) t
  | getHint checked c next, s, t =>
    match O.get c t with
    | .ok r => .gotHint checked c r.1.1 r.1.2 :: trace (next r.1) s r.2
    | .error _ => []
  | setHint c w next, s, t => .putHint c w :: trace next s (O.set c w t)

end

/-! ### Refinement -/

section
variable {σ₁ σ₂ τ : Type} {B₁ : Backend Val σ₁} {B₂ : Backend Val σ₂} {O : HintBackend C W τ}

/-- A run on `B₁` whose final state is valid has the accesses of the run on `B₂`. -/
theorem trace_simulates {valid : σ₁ → Prop} {R : σ₁ → σ₂ → Prop} (h : Simulates B₁ B₂ valid R)
    {p : StoreProg Val C W ε α} {s₁ s₁' s₂ t t' a} (hR : R s₁ s₂)
    (hrun : run B₁ O p s₁ t = .ok (a, s₁', t')) (hvalid : valid s₁') :
    trace B₁ O p s₁ t = trace B₂ O p s₂ t := by
  replace hrun := runs_of_run hrun
  induction hrun generalizing s₂ with
  | pure => rfl
  | get hget hrest ih =>
    obtain ⟨m₂, hget₂, hRm⟩ := h.get hR hget (valid_of_run h hrest hvalid)
    rw [trace, trace, hget, hget₂]
    exact congrArg _ (ih hRm)
  | set _ ih => exact congrArg _ (ih (h.set hR))
  | getHint hget _ ih =>
    rw [trace, trace, hget]
    exact congrArg _ (ih hR)
  | setHint _ ih => exact congrArg _ (ih hR)

end

/-! ### Rely and guarantee for hints -/

/-- A rule about hints: which ones are good, and which ones a checked read accepts from outside. -/
structure HintRule (C W : Type) where
  good : C → W → Prop
  accepts : C → W → Prop

/-- The program sets only good hints and returns only results with `post`, if it gets only good
hints. A checked read fails on a hint from outside that is not accepted. The values of the other
store are arbitrary. -/
def Guarded (rule : HintRule C W) (post : α → Prop) : StoreProg Val C W ε α → Prop
  | pure a => post a
  | fail _ => True
  | get _ next => ∀ v, Guarded rule post (next v)
  | set _ _ next => Guarded rule post next
  | getHint checked c next =>
    (∀ w cached, (∀ x, w = some x → rule.good c x) → Guarded rule post (next (w, cached))) ∧
    (checked = true → ∀ x, ¬ rule.accepts c x → ∃ fault, next (some x, false) = fail fault)
  | setHint c w next => rule.good c w ∧ Guarded rule post next

namespace Guarded

variable {rule : HintRule C W} {post : α → Prop} {post' : β → Prop} {p : StoreProg Val C W ε α}
  {k : K}

theorem pure {a : α} (h : post a) : Guarded rule post (Pure.pure a : StoreProg Val C W ε α) := h

/-- Sequential composition: what follows may rely on `post`. -/
theorem bind {f : α → StoreProg Val C W ε β} (h : Guarded rule post p)
    (hf : ∀ a, post a → Guarded rule post' (f a)) : Guarded rule post' (p >>= f) := by
  show Guarded rule post' (p.bind f)
  induction p with
  | pure a => exact hf a h
  | fail fault => exact h
  | get k next ih => exact fun v => ih v (h v)
  | set k v next ih => exact ih h
  | getHint checked c next ih =>
    refine ⟨fun w cached hw => ih (w, cached) (h.1 w cached hw), fun hchecked x hx => ?_⟩
    obtain ⟨fault, hfault⟩ := h.2 hchecked x hx
    exact ⟨fault, congrArg (·.bind f) hfault⟩
  | setHint c w next ih => exact ⟨h.1, ih h.2⟩

theorem mono {weaker : α → Prop} (h : Guarded rule post p) (hmono : ∀ a, post a → weaker a) :
    Guarded rule weaker p := by
  induction p with
  | pure a => exact hmono a h
  | fail fault => exact h
  | get k next ih => exact fun v => ih v (h v)
  | set k v next ih => exact ih h
  | getHint checked c next ih => exact ⟨fun w cached hw => ih (w, cached) (h.1 w cached hw), h.2⟩
  | setHint c w next ih => exact ⟨h.1, ih h.2⟩

theorem ofOutcome {x : Outcome ε α} (h : ∀ a, x = .ok a → post a) :
    Guarded rule post (ofOutcome x : StoreProg Val C W ε α) := by
  rcases x with fault | a
  · trivial
  · exact h a rfl

/-- A check that may fail, and what comes after it. -/
theorem check {x : Outcome ε α} {f : α → StoreProg Val C W ε β}
    (h : ∀ a, Guarded rule post' (f a)) :
    Guarded rule post' (StoreProg.ofOutcome x >>= f) := by
  rcases x with fault | a
  · trivial
  · exact h a

theorem judgement : Judgement fun {ε α : Type} (post : α → Prop) (p : StoreProg Val C W ε α) =>
    Guarded rule post p :=
  ⟨pure, bind, mono, ofOutcome fun _ => id⟩

theorem read : Guarded rule (fun _ => True)
    (StoreProg.read k : StoreProg Val C W ε (Option (Val k))) := fun _ => trivial

theorem write {v : Val k} : Guarded rule (fun _ => True)
    (StoreProg.write k v : StoreProg Val C W ε Unit) := trivial

/-- A hint without a check is good by assumption. -/
theorem lookupHint {c : C} : Guarded rule (fun _ => True)
    (StoreProg.lookupHint c : StoreProg Val C W ε (Option W)) :=
  ⟨fun _ _ _ => trivial, nofun⟩

/-- A checked read, with the check right behind it. -/
theorem readHint {c : C} {x : Option W × Bool → Outcome ε α}
    (hrefuse : ∀ w, ¬ rule.accepts c w → ∃ fault, x (some w, false) = .error fault)
    (hpost : ∀ w cached a, (∀ v, w = some v → rule.good c v) → x (w, cached) = .ok a → post a) :
    Guarded rule post (StoreProg.readHint c >>= fun r => StoreProg.ofOutcome (x r) :
      StoreProg Val C W ε α) := by
  refine ⟨fun w cached hw => ofOutcome fun a ha => hpost w cached a hw ha, fun _ w hw => ?_⟩
  obtain ⟨fault, hfault⟩ := hrefuse w hw
  exact ⟨fault, congrArg StoreProg.ofOutcome hfault⟩

theorem mapError {ε' : Type} {f : ε → ε'} (h : Guarded rule post p) :
    Guarded rule post (p.mapError f) := by
  induction p with
  | pure a => exact h
  | fail fault => cases fault <;> trivial
  | get k next ih => exact fun v => ih v (h v)
  | set k v next ih => exact ih h
  | getHint checked c next ih =>
    refine ⟨fun w cached hw => ih (w, cached) (h.1 w cached hw), fun hchecked x hx => ?_⟩
    obtain ⟨fault, hfault⟩ := h.2 hchecked x hx
    dsimp only
    rw [hfault]
    cases fault with
    | error e => exact ⟨_, rfl⟩
    | panic message => exact ⟨_, rfl⟩
  | setHint c w next ih => exact ⟨h.1, ih h.2⟩

/-- A store of hints that keeps `inv`: a hint from the cache is good, and the store keeps `inv`
when it takes in a good hint. -/
structure Keeps {τ : Type} (O : HintBackend C W τ) (good : C → W → Prop) (inv : τ → Prop) :
    Prop where
  cached : ∀ {c w t t'}, inv t → O.get c t = .ok ((some w, true), t') → good c w
  get : ∀ {c r t t'}, inv t → O.get c t = .ok (r, t') → (∀ w, r.1 = some w → good c w) → inv t'
  set : ∀ {c w t}, inv t → good c w → inv (O.set c w t)

section
variable {σ τ : Type} {B : Backend Val σ} {O : HintBackend C W τ} {inv : τ → Prop}
  {p : StoreProg Val C W ε α}

/-- The hints that do not come from the cache are good. Of those that are checked, only the ones
that pass the check have to be. -/
def OutsideGood (rule : HintRule C W) (l : List (Event Val C W)) : Prop :=
  ∀ checked c w, .gotHint checked c (some w) false ∈ l →
    (checked = true → rule.accepts c w) → rule.good c w

theorem OutsideGood.of_cons {e : Event Val C W} {l : List (Event Val C W)}
    (h : OutsideGood rule (e :: l)) : OutsideGood rule l :=
  fun checked c w hmem => h checked c w (mem_cons_of_mem _ hmem)

/-- After a read of a hint, the hint is good or the program stops. -/
theorem good_or_fail (hO : Keeps O rule.good inv) {checked : Bool} {c : C}
    {next : Option W × Bool → StoreProg Val C W ε α}
      (h : Guarded rule post (.getHint checked c next))
    {r : Option W × Bool} {t t' : τ} (hinv : inv t) (hget : O.get c t = .ok (r, t'))
    {l : List (Event Val C W)} (houtside : OutsideGood rule (.gotHint checked c r.1 r.2 :: l)) :
    (∀ w, r.1 = some w → rule.good c w) ∨ ∃ fault, next r = fail fault := by
  obtain ⟨w₀, cached⟩ := r
  rcases w₀ with _ | w
  · exact .inl nofun
  cases cached with
  | true => exact .inl fun _ hw => Option.some.inj hw ▸ hO.cached hinv hget
  | false =>
    -- a hint from outside is accepted, or the check of the program refuses it
    by_cases haccepts : checked = true → rule.accepts c w
    · have hgood := houtside checked c w (mem_cons_self ..) haccepts
      exact .inl fun _ hw => Option.some.inj hw ▸ hgood
    · rw [Classical.not_imp] at haccepts
      exact .inr (h.2 haccepts.1 w haccepts.2)

/-- Up to each point of a run: if the hints from outside are good so far, then the next hint from
the cache is good. The induction is on the program, and `inv` is carried along. -/
theorem cached_good (hO : Keeps O rule.good inv) (h : Guarded rule post p) :
    ∀ {s t}, inv t → ∀ {l₁ checked c w l₂},
      trace B O p s t = l₁ ++ .gotHint checked c (some w) true :: l₂ →
      OutsideGood rule l₁ → rule.good c w := by
  induction p with
  | pure a => intro s t _ l₁ checked c w l₂ htrace; simp [trace] at htrace
  | fail fault => intro s t _ l₁ checked c w l₂ htrace; simp [trace] at htrace
  | get k next ih =>
    intro s t hinv l₁ checked c w l₂ htrace houtside
    rw [trace] at htrace
    split at htrace
    · cases l₁ with
      | nil => simp at htrace
      | cons e l₁ =>
        rw [cons_append, List.cons.injEq] at htrace
        exact ih _ (h _) hinv htrace.2 houtside.of_cons
    · simp at htrace
  | set k v next ih =>
    intro s t hinv l₁ checked c w l₂ htrace houtside
    cases l₁ with
    | nil => simp [trace] at htrace
    | cons e l₁ =>
      rw [trace, cons_append, List.cons.injEq] at htrace
      exact ih h hinv htrace.2 houtside.of_cons
  | getHint checked₀ c₀ next ih =>
    intro s t hinv l₁ checked c w l₂ htrace houtside
    rw [trace] at htrace
    split at htrace
    · next r hget =>
      cases l₁ with
      | nil =>
        -- this read is the one in question
        simp only [nil_append, List.cons.injEq, Event.gotHint.injEq] at htrace
        obtain ⟨⟨-, rfl, hw, hcached⟩, -⟩ := htrace
        exact hO.cached hinv (by rw [hget, ← hw, ← hcached])
      | cons e l₁ =>
        rw [cons_append, List.cons.injEq] at htrace
        obtain ⟨rfl, htrace⟩ := htrace
        rcases good_or_fail hO h hinv hget houtside with hgood | ⟨fault, hfault⟩
        · exact ih r.1 (h.1 _ _ hgood) (hO.get hinv hget hgood) htrace houtside.of_cons
        · rw [hfault] at htrace
          simp [trace] at htrace
    · simp at htrace
  | setHint c₀ w₀ next ih =>
    intro s t hinv l₁ checked c w l₂ htrace houtside
    cases l₁ with
    | nil => simp [trace] at htrace
    | cons e l₁ =>
      rw [trace, cons_append, List.cons.injEq] at htrace
      exact ih h.2 (hO.set hinv h.1) htrace.2 houtside.of_cons

/-- A run that returns, with good hints from outside, keeps `inv` and returns a result with
`post`. -/
theorem sound (hO : Keeps O rule.good inv) (h : Guarded rule post p) {s s' t t' a} (hinv : inv t)
    (hrun : run B O p s t = .ok (a, s', t')) (houtside : OutsideGood rule (trace B O p s t)) :
    post a ∧ inv t' := by
  replace hrun := runs_of_run hrun
  induction hrun with
  | pure => exact ⟨h, hinv⟩
  | get hget _ ih =>
    rw [trace, hget] at houtside
    exact ih (h _) hinv houtside.of_cons
  | set _ ih => exact ih h hinv houtside.of_cons
  | getHint hget hrest ih =>
    rw [trace, hget] at houtside
    rcases good_or_fail hO h hinv hget houtside with hgood | ⟨fault, hfault⟩
    · exact ih (h.1 _ _ hgood) (hO.get hinv hget hgood) houtside.of_cons
    · rw [hfault] at hrest
      cases hrest
  | setHint _ ih => exact ih h.2 (hO.set hinv h.1) houtside.of_cons

end

end Guarded

end StoreProg

end Citrea.Lib
