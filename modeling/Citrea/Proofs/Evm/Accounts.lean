import Citrea.Spec.Evm.Executor

/-!
# `Citrea.Proofs.Evm.Accounts`: the accounts of the EVM as a map

An account is read through two maps, from its address to an index and from the index to its info.
`storedInfo` is the composition. As long as no two addresses share an index and each index is
below the counter (`WellIndexed`), `account_set` changes `storedInfo` at one address, and the
invariant is kept (`run_accountSet`).

`run_loadAccount` says what `load_account` of the journal returns on such a state.
-/

set_option linter.unusedSectionVars false

namespace Citrea.Proofs.Evm

open Function (update update_of_ne)
open Option List Lib
open Lib.StoreProg (run mapStore HintBackend)
open Spec.Evm
open Std (TransOrd LawfulEqOrd)

section
variable {A H : Type}

/-- The index of an address. -/
def idxOf (st : StateStore A H) (a : A) : Option Nat := st (.accountIdx a)

/-- The counter of the indices. -/
def amountOf (st : StateStore A H) : Nat := Option.getD (st .accountAmount) 0

/-- The info at an index. -/
def infoAt (st : StateStore A H) (idx : Nat) : Option (AccountInfo H) := st (.account idx)

/-- The info of an account in the state. -/
def storedInfo (st : StateStore A H) (a : A) : Option (AccountInfo H) :=
  (idxOf st a).bind (infoAt st)

/-- The balance of an account in the state. -/
def storedBalance (st : StateStore A H) (a : A) : Nat :=
  ((storedInfo st a).map (·.balance.toNat)).getD 0

/-- No two addresses share an account index, and the counter is above all of them. -/
structure WellIndexed (st : StateStore A H) : Prop where
  inj : ∀ {a b idx}, idxOf st a = some idx → idxOf st b = some idx → a = b
  lt : ∀ {a idx}, idxOf st a = some idx → idx < amountOf st

/-- Two states agree outside the accounts. -/
structure SameOutsideAccounts (st st' : StateStore A H) : Prop where
  storage : ∀ k, st' (.storage k) = st (.storage k)
  other : ∀ k, st' (.other k) = st (.other k)

end

section
variable {A H ε τ : Type} [DecidableEq A] [DecidableEq H] {O : HintBackend H Bytecode τ}
  {st : StateStore A H} {t : τ}

@[simp]
theorem run_accountInfo {a : A} :
    run mapStore O (accountInfo a : Prog A H ε _) st t = .ok (storedInfo st a, st, t) := by
  unfold accountInfo storedInfo idxOf
  rw [run_bind, run_read_mapStore]
  cases hidx : st (.accountIdx a) with
  | none => rfl
  | some idx => rfl

/-- The index that `account_set` writes to. -/
def indexFor (st : StateStore A H) (a : A) : Nat := (idxOf st a).getD (amountOf st)

/-- The state after `account_set`. -/
def setAccount (st : StateStore A H) (a : A) (info : AccountInfo H) : StateStore A H :=
  match idxOf st a with
  | some idx => update st (.account idx) (some info)
  | none =>
    update (update (update st (.accountIdx a) (some (amountOf st)))
      .accountAmount (some (amountOf st + 1))) (.account (amountOf st)) (some info)

theorem run_accountSet {a : A} {info : AccountInfo H} :
    run mapStore O (accountSet a info : Prog A H ε _) st t = .ok ((), setAccount st a info, t) := by
  unfold accountSet setAccount idxOf
  rw [run_bind, run_read_mapStore]
  cases hidx : st (.accountIdx a) with
  | some idx => rfl
  | none =>
    -- the counter is read before the index is written
    rfl

theorem setAccount_of_some {a : A} {idx : Nat} (h : idxOf st a = some idx) (info : AccountInfo H) :
    setAccount st a info = update st (.account idx) (some info) := by
  simp [setAccount, h]

theorem setAccount_of_none {a : A} (h : idxOf st a = none) (info : AccountInfo H) :
    setAccount st a info = update (update (update st (.accountIdx a)
      (some (amountOf st))) .accountAmount (some (amountOf st + 1)))
      (.account (amountOf st)) (some info) := by
  simp [setAccount, h]

theorem idxOf_setAccount (a : A) (info : AccountInfo H) (b : A) :
    idxOf (setAccount st a info) b = if b = a then some (indexFor st a) else idxOf st b := by
  cases hidx : idxOf st a with
  | some idx =>
    rw [setAccount_of_some hidx, indexFor, hidx, getD_some]
    show update st _ _ (StateKey.accountIdx b) = _
    rw [update_of_ne (by simp)]
    split
    · rename_i hb
      rw [hb]
      exact hidx
    · rfl
  | none =>
    rw [setAccount_of_none hidx, indexFor, hidx, getD_none]
    by_cases hb : b = a
    · subst hb
      simp [idxOf]
    · simp [idxOf, hb]

theorem amountOf_setAccount (a : A) (info : AccountInfo H) : amountOf (setAccount st a info) =
      if (idxOf st a).isSome then amountOf st else amountOf st + 1 := by
  cases hidx : idxOf st a with
  | some idx => simp [setAccount_of_some hidx, amountOf]
  | none => simp [setAccount_of_none hidx, amountOf]

theorem infoAt_setAccount (a : A) (info : AccountInfo H) (idx : Nat) :
    infoAt (setAccount st a info) idx =
      if idx = indexFor st a then some info else infoAt st idx := by
  cases hidx : idxOf st a with
  | some i =>
    rw [setAccount_of_some hidx, indexFor, hidx, getD_some]
    by_cases hi : idx = i
    · subst hi
      simp [infoAt]
    · simp [infoAt, hi]
  | none =>
    rw [setAccount_of_none hidx, indexFor, hidx, getD_none]
    by_cases hi : idx = amountOf st
    · subst hi
      simp [infoAt]
    · simp [infoAt, hi]

/-- `account_set` changes the info of one address. -/
theorem storedInfo_setAccount (hwell : WellIndexed st) (a : A) (info : AccountInfo H) (b : A) :
    storedInfo (setAccount st a info) b = if b = a then some info else storedInfo st b := by
  by_cases hb : b = a
  · subst hb
    simp [storedInfo, idxOf_setAccount, infoAt_setAccount]
  · simp only [storedInfo, idxOf_setAccount, if_neg hb]
    cases hother : idxOf st b with
    | none => rfl
    | some other =>
      -- the index of another address is not the one that is written
      have hne : other ≠ indexFor st a := by
        intro heq
        cases hidx : idxOf st a with
        | some idx =>
          rw [indexFor, hidx, getD_some] at heq
          exact hb (hwell.inj (heq ▸ hother) hidx)
        | none =>
          rw [indexFor, hidx, getD_none] at heq
          have := hwell.lt hother
          omega
      simp [infoAt_setAccount, hne]

/-- `account_set` keeps the indices apart. -/
theorem wellIndexed_setAccount (hwell : WellIndexed st) (a : A) (info : AccountInfo H) :
    WellIndexed (setAccount st a info) := by
  -- an index of another address is not the one of `a`, also if that one is new
  have hother : ∀ b, b ≠ a → idxOf st b ≠ some (indexFor st a) := by
    intro b hb heq
    cases hidx : idxOf st a with
    | some idx =>
      rw [indexFor, hidx, getD_some] at heq
      exact hb (hwell.inj heq hidx)
    | none =>
      rw [indexFor, hidx, getD_none] at heq
      exact absurd (hwell.lt heq) (by omega)
  constructor
  · intro b c idx hb hc
    rw [idxOf_setAccount] at hb hc
    split_ifs at hb hc with h1 h2 h2
    · rw [h1, h2]
    · exact absurd (hc.trans hb.symm) (hother c h2)
    · exact absurd (hb.trans hc.symm) (hother b h1)
    · exact hwell.inj hb hc
  · intro b idx hb
    rw [idxOf_setAccount] at hb
    rw [amountOf_setAccount]
    cases hidx : idxOf st a with
    | some i =>
      rw [isSome_some, if_pos rfl]
      split_ifs at hb with h1
      · rw [indexFor, hidx, getD_some] at hb
        exact hwell.lt (hidx.trans hb)
      · exact hwell.lt hb
    | none =>
      simp only [isSome_none, Bool.false_eq_true, if_false]
      split_ifs at hb with h1
      · rw [indexFor, hidx, getD_none, some.injEq] at hb
        omega
      · have := hwell.lt hb
        omega

/-- `account_set` changes only the accounts. -/
theorem sameOutside_setAccount (a : A) (info : AccountInfo H) :
    SameOutsideAccounts st (setAccount st a info) := by
  cases hidx : idxOf st a with
  | some idx => constructor <;> intro k <;> simp [setAccount_of_some hidx]
  | none => constructor <;> intro k <;> simp [setAccount_of_none hidx]

end

section
variable {A H : Type} [Ord A] [Ord H] [TransOrd A] [LawfulEqOrd A] [DecidableEq A]

/-! ### The accounts of a journal -/

theorem getElem?_set (j : Journal A H) (a : A) (account : Account H) (b : A) :
    (j.set a account).state[b]? = if b = a then some account else j.state[b]? := by
  show (j.state.insert a account)[b]? = _
  rw [Std.TreeMap.getElem?_insert]
  by_cases hb : b = a
  · subst hb
    simp
  · rw [if_neg hb, if_neg]
    intro heq
    exact hb (Std.LawfulEqOrd.eq_of_compare heq).symm

@[simp]
theorem state_push (j : Journal A H) (e : JournalEntry A H) : (j.push e).state = j.state := rfl

/-- What `moveBalance` does, step by step. -/
theorem moveBalance_eq_some {j j' : Journal A H} {src dst : A} {value : U256}
    (h : j.moveBalance src dst value = some j') :
    ∃ source decreased target increased, j.state[src]? = some source ∧
      U256.checkedSub source.info.balance value = some decreased ∧
      (j.set src (source.withBalance decreased)).state[dst]? = some target ∧
      U256.checkedAdd target.info.balance value = some increased ∧
      j' = (j.set src (source.withBalance decreased)).set dst (target.withBalance increased) := by
  simp only [Journal.moveBalance, Option.bind_eq_bind, Option.bind_eq_some_iff, Option.pure_def,
    Option.some.injEq] at h
  obtain ⟨source, hsource, decreased, hdec, target, htarget, increased, hinc, rfl⟩ := h
  exact ⟨source, decreased, target, increased, hsource, hdec, htarget, hinc, rfl⟩

variable [DecidableEq H] (env : EvmEnv A H)

/-- The account that `load_account` returns. -/
def accountAt (st : StateStore A H) (j : Journal A H) (a : A) : Account H :=
  j.state[a]?.getD
    (.loaded (((storedInfo st a).map (·.toRevm env)).getD (RevmAccountInfo.default env)))

/-- The journal after `load_account`. -/
def loadInto (st : StateStore A H) (j : Journal A H) (a : A) : Journal A H :=
  match j.state[a]? with
  | some _ => j
  | none => j.set a (accountAt env st j a)

variable {τ : Type} {O : HintBackend H Bytecode τ} {st : StateStore A H} {t : τ}

@[simp]
theorem run_loadAccount (a : A) (j : Journal A H) : run mapStore O (loadAccount env a j) st t =
      .ok ((accountAt env st j a, loadInto env st j a), st, t) := by
  unfold loadAccount accountAt loadInto
  cases hj : j.state[a]? with
  | some account => rfl
  | none =>
    simp only [run_bind, basic, run_accountInfo]
    simp [Bind.bind, Except.bind, accountAt, hj]

/-- The value that a slot has when it is not loaded. -/
def storedSlot (st : StateStore A H) (a : A) (key : H) : U256 :=
  Option.getD (st (.storage (getStorageAddress env a key))) 0

theorem getElem?_loadInto (j : Journal A H) (a b : A) : (loadInto env st j a).state[b]? =
      if b = a then some (accountAt env st j a) else j.state[b]? := by
  cases hj : j.state[a]? with
  | some account =>
    have hload : loadInto env st j a = j := by simp only [loadInto, hj]
    rw [hload]
    split
    · rename_i hb
      rw [hb, hj, accountAt, hj, getD_some]
    · rfl
  | none =>
    have hload : loadInto env st j a = j.set a (accountAt env st j a) := by
      simp [loadInto, hj]
    rw [hload, getElem?_set]

@[simp]
theorem entries_loadInto (j : Journal A H) (a : A) : (loadInto env st j a).entries = j.entries := by
  unfold loadInto
  split <;> rfl

theorem getElem?_loadInto_self (j : Journal A H) (a : A) :
    (loadInto env st j a).state[a]? = some (accountAt env st j a) := by
  rw [getElem?_loadInto, if_pos rfl]

end

/-! ### The accounts after a commit

`EvmDb::commit` goes through the accounts of a transaction and skips those that were not touched and
those that were destroyed. Of the others it writes the info, if the state has none or if it differs
from the stored one (`committedInfo`). `commit_infos` says what the stored infos are after a commit.
-/

section
variable {A H : Type} [Ord A] [Ord H] [TransOrd A] [LawfulEqOrd A] [DecidableEq A]
  [DecidableEq H] (env : EvmEnv A H) {τ ε : Type} {O : HintBackend H Bytecode τ}
  {st st' : StateStore A H} {t t' : τ}

/-- Two states agree on the accounts. -/
structure SameAccounts (st st' : StateStore A H) : Prop where
  idx : ∀ a, idxOf st' a = idxOf st a
  amount : amountOf st' = amountOf st
  info : ∀ i, infoAt st' i = infoAt st i

namespace SameAccounts

theorem refl (st : StateStore A H) : SameAccounts st st := ⟨fun _ => rfl, rfl, fun _ => rfl⟩

theorem trans {st₁ st₂ st₃ : StateStore A H} (h : SameAccounts st₁ st₂)
    (h' : SameAccounts st₂ st₃) : SameAccounts st₁ st₃ where
  idx := fun a => (h'.idx a).trans (h.idx a)
  amount := h'.amount.trans h.amount
  info := fun i => (h'.info i).trans (h.info i)

theorem wellIndexed (h : SameAccounts st st') (hwell : WellIndexed st) : WellIndexed st' where
  inj := by
    intro a b idx ha hb
    rw [h.idx] at ha hb
    exact hwell.inj ha hb
  lt := by
    intro a idx ha
    rw [h.idx] at ha
    rw [h.amount]
    exact hwell.lt ha

theorem storedInfo_eq (h : SameAccounts st st') (a : A) : storedInfo st' a = storedInfo st a := by
  unfold storedInfo
  rw [h.idx]
  exact congrArg _ (funext h.info)

end SameAccounts

variable {a : A} {info : RevmAccountInfo H} {account : Account H} {j : Journal A H}

theorem state_commitCode
    (h : run mapStore O (commitCode info : Prog A H ε Unit) st t = .ok ((), st', t')) :
    st' = st := by
  unfold commitCode at h
  split at h
  · rw [run_pure, Except.ok.injEq] at h
    cases h
    rfl
  · simp only [run_bind_eq_ok, run_ofOutcome_eq_ok] at h
    obtain ⟨original, _, _, ⟨-, rfl, rfl⟩, h⟩ := h
    split_ifs at h
    · rw [run_pure, Except.ok.injEq] at h
      cases h
      rfl
    · simp only [run_bind_eq_ok, run_lookupHint, bind_eq_ok, Except.ok.injEq, Prod.mk.injEq] at h
      obtain ⟨known, _, _, ⟨_, -, -, rfl, -⟩, h⟩ := h
      split_ifs at h
      · rw [run_writeHint, Except.ok.injEq] at h
        cases h
        rfl
      · rw [run_pure, Except.ok.injEq] at h
        cases h
        rfl

/-- The state after slots of an account were written. -/
def writtenSlots (a : A) (slots : List (H × U256)) (st : StateStore A H) : StateStore A H :=
  slots.foldl (fun st slot =>
    update st (.storage (getStorageAddress env a slot.1)) (some slot.2)) st

theorem state_commitStorage (slots : List (H × U256)) : ∀ {st : StateStore A H} {t : τ},
      run mapStore O (commitStorage env a slots : Prog A H ε Unit) st t = .ok ((), st', t') →
        st' = writtenSlots env a slots st := by
  induction slots with
  | nil =>
    intro st t h
    rw [commitStorage, run_pure, Except.ok.injEq] at h
    cases h
    rfl
  | cons slot rest ih =>
    intro st t h
    simp only [commitStorage, storageSet, run_bind_eq_ok, run_write_mapStore,
      Except.ok.injEq, Prod.mk.injEq] at h
    obtain ⟨_, _, _, ⟨-, rfl, rfl⟩, h⟩ := h
    exact ih h

/-- Writing slots does not change the accounts. -/
theorem sameAccounts_writtenSlots (slots : List (H × U256)) :
    SameAccounts st (writtenSlots env a slots st) := by
  refine List.foldlRecOn slots _ (SameAccounts.refl st) fun st₁ h slot _ => h.trans ?_
  exact ⟨fun b => by simp [idxOf], by simp [amountOf], fun i => by simp [infoAt]⟩

/-- The state after an account of the journal was committed. -/
def committed (st : StateStore A H) (entry : A × Account H) : StateStore A H :=
  if entry.2.touched = true ∧ entry.2.selfdestructed = false then
    if (storedInfo st entry.1).isNone = true ∨
        checkAccountInfoChanged ((storedInfo st entry.1).getD .default) entry.2.info = true then
      setAccount (writtenSlots env entry.1 entry.2.storage.toList st) entry.1
        (entry.2.info.toDb env)
    else writtenSlots env entry.1 entry.2.storage.toList st
  else st

theorem state_commitAccount
    (h : run mapStore O (commitAccount env a account : Prog A H ε Unit) st t = .ok ((), st', t')) :
    st' = committed env st (a, account) := by
  unfold commitAccount at h
  rw [committed]
  split_ifs at h with htouched hdestroyed
  · -- nobody touched the account
    rw [run_pure, Except.ok.injEq] at h
    cases h
    rw [if_neg (by simp [htouched])]
  · -- a destroyed account is skipped
    rw [run_pure, Except.ok.injEq] at h
    cases h
    rw [if_neg (by simp [hdestroyed])]
  · simp only [run_bind_eq_ok, run_accountInfo, Except.ok.injEq, Prod.mk.injEq] at h
    obtain ⟨stored, _, _, ⟨rfl, rfl, rfl⟩, _, _, _, hcode, _, _, _, hstorage, h⟩ := h
    obtain rfl := state_commitCode hcode
    obtain rfl := state_commitStorage env _ hstorage
    rw [if_pos (by simpa using And.intro htouched hdestroyed)]
    split_ifs at h ⊢
    · rw [run_accountSet, Except.ok.injEq] at h
      cases h
      rfl
    · rw [run_pure, Except.ok.injEq] at h
      cases h
      rfl

/-- A commit takes the accounts of the journal one after the other. -/
theorem state_commit
    (h : run mapStore O (commit env j : Prog A H ε Unit) st t = .ok ((), st', t')) :
    st' = j.state.toList.foldl (committed env) st := by
  have hlist : ∀ (accounts : List (A × Account H)) {st : StateStore A H} {t : τ},
      run mapStore O (commitAccounts env accounts : Prog A H ε Unit) st t = .ok ((), st', t') →
        st' = accounts.foldl (committed env) st := by
    intro accounts
    induction accounts with
    | nil =>
      intro st t h
      rw [commitAccounts, run_pure, Except.ok.injEq] at h
      cases h
      rfl
    | cons entry rest ih =>
      intro st t h
      simp only [commitAccounts, run_bind_eq_ok] at h
      obtain ⟨_, _, _, hfirst, hrest⟩ := h
      rw [ih hrest, state_commitAccount env hfirst]
      rfl
  exact hlist _ h

/-- The loop over the entries of a map, if a turn changes what is seen at its own key only, and the
new value depends on the old one at that key. -/
theorem foldl_toList {κ ι σ β : Type} [Ord κ] [TransOrd κ] [LawfulEqOrd κ] [DecidableEq κ]
    {f : σ → κ × ι → σ} {P : σ → Prop} {v : σ → κ → β} {g : σ → κ → ι → β}
    (hstep : ∀ s e, P s → P (f s e) ∧ ∀ k, v (f s e) k = if k = e.1 then g s e.1 e.2 else v s k)
    (hval : ∀ s s' k i, v s k = v s' k → g s k i = g s' k i)
    (entries : Std.TreeMap κ ι) {s : σ} (hs : P s) :
    P (entries.toList.foldl f s) ∧ ∀ k, v (entries.toList.foldl f s) k =
      entries[k]?.elim (v s k) (g s k) := by
  have hdistinct : entries.toList.Pairwise (fun x y => x.1 ≠ y.1) :=
    entries.distinct_keys_toList.imp fun hcompare heq =>
      hcompare (Std.compare_eq_iff_eq.mpr heq)
  have hloop : ∀ (l : List (κ × ι)) {s : σ}, P s → l.Pairwise (fun x y => x.1 ≠ y.1) →
      P (l.foldl f s) ∧ (∀ k i, (k, i) ∈ l → v (l.foldl f s) k = g s k i) ∧
        ∀ k, (∀ i, (k, i) ∉ l) → v (l.foldl f s) k = v s k := by
    intro l
    induction l with
    | nil => exact fun hs _ => ⟨hs, by simp, fun _ _ => rfl⟩
    | cons entry rest ih =>
      intro s hs hdistinct
      obtain ⟨hinv, hview⟩ := hstep s entry hs
      obtain ⟨hne, hrest⟩ := pairwise_cons.mp hdistinct
      obtain ⟨hinv', hmem, hnot⟩ := ih hinv hrest
      -- the key of the first entry does not come again
      have hfresh : ∀ i, (entry.1, i) ∉ rest := fun i hi => hne _ hi rfl
      refine ⟨hinv', fun k i hin => ?_, fun k hout => ?_⟩
      · rcases mem_cons.mp hin with rfl | hin
        · exact (hnot k hfresh).trans ((hview k).trans (if_pos rfl))
        · have hk : k ≠ entry.1 := fun heq => hfresh i (heq ▸ hin)
          exact (hmem k i hin).trans (hval _ _ k i ((hview k).trans (if_neg hk)))
      · have hk : k ≠ entry.1 := fun heq => hout entry.2 (heq ▸ mem_cons_self ..)
        exact (hnot k fun i hin => hout i (mem_cons_of_mem _ hin)).trans
          ((hview k).trans (if_neg hk))
  obtain ⟨hinv, hmem, hnot⟩ := hloop _ hs hdistinct
  refine ⟨hinv, fun k => ?_⟩
  cases hk : entries[k]? with
  | some i => exact hmem k i (Std.TreeMap.mem_toList_iff_getElem?_eq_some.mpr hk)
  | none =>
    refine hnot k fun i hin => ?_
    rw [Std.TreeMap.mem_toList_iff_getElem?_eq_some, hk] at hin
    cases hin

/-- The stored info after an account of the journal was committed. -/
def committedInfo (st : StateStore A H) (a : A) (account : Account H) : Option (AccountInfo H) :=
  if account.touched = true ∧ account.selfdestructed = false ∧
      ((storedInfo st a).isNone = true ∨
        checkAccountInfoChanged ((storedInfo st a).getD .default) account.info = true)
  then some (account.info.toDb env)
  else storedInfo st a

theorem storedInfo_committed (entry : A × Account H) (hwell : WellIndexed st) :
    WellIndexed (committed env st entry) ∧ ∀ b, storedInfo (committed env st entry) b =
      if b = entry.1 then committedInfo env st entry.1 entry.2 else storedInfo st b := by
  have hkeeps : ∀ b, storedInfo st b =
      if b = entry.1 then storedInfo st entry.1 else storedInfo st b := by
    intro b
    split_ifs with hb
    · rw [hb]
    · rfl
  have hsame : SameAccounts st (writtenSlots env entry.1 entry.2.storage.toList st) :=
    sameAccounts_writtenSlots env _
  rw [committed, committedInfo]
  split_ifs with hlive hchanged hand hand hand
  · refine ⟨wellIndexed_setAccount (hsame.wellIndexed hwell) _ _, fun b => ?_⟩
    rw [storedInfo_setAccount (hsame.wellIndexed hwell), hsame.storedInfo_eq]
  · exact absurd ⟨hlive.1, hlive.2, hchanged⟩ hand
  · exact absurd hand.2.2 hchanged
  · -- nothing changed, so the info is not written
    exact ⟨hsame.wellIndexed hwell, fun b => (hsame.storedInfo_eq b).trans (hkeeps b)⟩
  · exact absurd ⟨hand.1, hand.2.1⟩ hlive
  · exact ⟨hwell, hkeeps⟩

/-- The stored infos after a commit. -/
theorem commit_infos (hwell : WellIndexed st)
    (h : run mapStore O (commit env j : Prog A H ε Unit) st t = .ok ((), st', t')) :
    WellIndexed st' ∧ ∀ a, storedInfo st' a =
      j.state[a]?.elim (storedInfo st a) (committedInfo env st a) := by
  rw [state_commit env h]
  refine foldl_toList (fun st entry => storedInfo_committed env entry) ?_ j.state hwell
  intro st₁ st₂ a account heq
  rw [committedInfo, committedInfo, heq]

/-- An account whose info did not change has the stored balance and nonce. -/
theorem stored_of_unchanged
    (h : ¬ ((storedInfo st a).isNone = true ∨ checkAccountInfoChanged ((storedInfo st a).getD
      .default) info = true)) :
    ∃ prev, storedInfo st a = some prev ∧ prev.balance = info.balance ∧ prev.nonce = info.nonce ∧
      prev.codeHash = some info.codeHash := by
  rw [not_or, isNone_iff_eq_none] at h
  obtain ⟨prev, hprev⟩ := ne_none_iff_exists'.mp h.1
  have hsame := h.2
  rw [hprev, getD_some, checkAccountInfoChanged] at hsame
  simp only [ne_eq, decide_eq_true_eq, not_or, Decidable.not_not] at hsame
  exact ⟨prev, hprev, hsame.1, hsame.2.2, hsame.2.1⟩

/-! ### The keys of the other modules -/

/-- A commit writes accounts and slots only. -/
theorem other_commit (h : run mapStore O (commit env j : Prog A H ε Unit) st t = .ok ((), st', t'))
    (key : Spec.Bitcoin.Bytes) : st' (.other key) = st (.other key) := by
  have hslots : ∀ (a : A) slots (st : StateStore A H),
      writtenSlots env a slots st (.other key) = st (.other key) := fun a slots st =>
    List.foldlRecOn (motive := fun st' : StateStore A H => st' (.other key) = st (.other key))
      slots _ rfl fun st₁ h₁ slot _ => (update_of_ne (by simp) ..).trans h₁
  rw [state_commit env h]
  refine List.foldlRecOn (motive := fun st' : StateStore A H => st' (.other key) = st (.other key))
    _ _ rfl ?_
  intro st₁ h₁ entry _
  rw [committed]
  split_ifs
  · rw [(sameOutside_setAccount _ _).other, hslots, h₁]
  · rw [hslots, h₁]
  · exact h₁

end

end Citrea.Proofs.Evm
