import Citrea.Proofs.Evm.Edits
import Mathlib.Algebra.BigOperators.Group.Finset.Basic
import Mathlib.Algebra.Order.BigOperators.Group.Finset
import Mathlib.Data.Fintype.Basic

/-!
# `Citrea.Proofs.Evm.Balances`: balances in the journal of a transaction

`balanceOf` is the balance that a transaction sees: the one in the journal, or the stored one for
an account that is not loaded. `Conserves` says what an operation of the journal does to the
balances. The sum stays the same, except for what an account destroys by naming itself as the
target of its own destruction. An account that nobody has touched keeps its stored balance. Most
operations change no balance at all (`KeepsBalances`).

Each operation conserves in this sense, and so does each run of the interpreter
(`conserves_execute`).
-/

set_option linter.unusedSectionVars false

namespace Citrea.Proofs.Evm

open Option Lib
open Lib.StoreProg (run mapStore HintBackend)
open Spec.Evm
open Std (TransOrd LawfulEqOrd)

section
variable {A H : Type} [Ord A] [Ord H] [TransOrd A] [LawfulEqOrd A] [DecidableEq A] [DecidableEq H]
  (env : EvmEnv A H) {τ : Type} {O : HintBackend H Bytecode τ} {st : StateStore A H} {t : τ}
  {j : Journal A H} {a : A} {account : Account H}

/-! ### The balance that a transaction sees -/

/-- The balance of an account during a transaction. -/
def balanceOf (st : StateStore A H) (j : Journal A H) (a : A) : Nat :=
  match j.state[a]? with
  | some account => account.info.balance.toNat
  | none => storedBalance st a

theorem balanceOf_of_some (h : j.state[a]? = some account) :
    balanceOf st j a = account.info.balance.toNat := by
  simp [balanceOf, h]

theorem balanceOf_congr {j' : Journal A H} (h : j'.state[a]? = j.state[a]?) :
    balanceOf st j' a = balanceOf st j a := by
  simp [balanceOf, h]

theorem balanceOf_set (j : Journal A H) (a : A) (account : Account H) (b : A) :
    balanceOf st (j.set a account) b =
      if b = a then account.info.balance.toNat else balanceOf st j b := by
  by_cases hb : b = a
  · rw [if_pos hb]
    exact balanceOf_of_some (by rw [getElem?_set, if_pos hb])
  · rw [if_neg hb]
    exact balanceOf_congr (by rw [getElem?_set, if_neg hb])

/-- A load returns the balance that the transaction sees. -/
theorem balance_accountAt (st : StateStore A H) (j : Journal A H) (a : A) :
    (accountAt env st j a).info.balance.toNat = balanceOf st j a := by
  unfold accountAt balanceOf
  cases j.state[a]? with
  | some account => rfl
  | none =>
    simp only [getD_none, Account.loaded, storedBalance]
    cases storedInfo st a with
    | none => simp [RevmAccountInfo.default]
    | some info => rfl

@[simp]
theorem balanceOf_loadInto (j : Journal A H) (a b : A) :
    balanceOf st (loadInto env st j a) b = balanceOf st j b := by
  by_cases hb : b = a
  · subst hb
    rw [← balance_accountAt env st j b]
    exact balanceOf_of_some (by rw [getElem?_loadInto, if_pos rfl])
  · exact balanceOf_congr (by rw [getElem?_loadInto, if_neg hb])

/-- The account has been touched. -/
def IsTouched (j : Journal A H) (a : A) : Prop :=
  ∃ account, j.state[a]? = some account ∧ account.touched = true

/-- An account that nobody has touched has its stored balance. -/
def UntouchedAsStored (st : StateStore A H) (j : Journal A H) : Prop :=
  ∀ a account, j.state[a]? = some account → account.touched = false →
    account.info.balance.toNat = storedBalance st a

theorem untouchedAsStored_empty : UntouchedAsStored st (Journal.empty : Journal A H) := by
  intro a account h
  simp [Journal.empty] at h

/-- A replaced account keeps the stored balances, if it is touched or has its stored balance. -/
theorem untouched_set (h : UntouchedAsStored st j)
    (haccount : account.touched = false → account.info.balance.toNat = storedBalance st a) :
    UntouchedAsStored st (j.set a account) := by
  intro b other hb htouched
  rw [getElem?_set] at hb
  split_ifs at hb with hba
  · obtain rfl := some.inj hb
    rw [hba]
    exact haccount htouched
  · exact h b other hb htouched

/-- A replaced account that stays touched leaves all touched accounts touched. -/
theorem touched_set (haccount : IsTouched j a → account.touched = true) (b : A)
    (h : IsTouched j b) : IsTouched (j.set a account) b := by
  by_cases hba : b = a
  · exact ⟨account, by rw [getElem?_set, if_pos hba], haccount (hba ▸ h)⟩
  · obtain ⟨other, hb, htouched⟩ := h
    exact ⟨other, by rw [getElem?_set, if_neg hba, hb], htouched⟩

/-- What is destroyed by an account that names itself as its target. -/
def burnedIn : JournalEntry A H → Nat
  | .accountDestroyed a target _ hadBalance => if a = target then hadBalance.toNat else 0
  | _ => 0

/-- The sum of what is destroyed in a transaction. -/
def burned (j : Journal A H) : Nat := (j.entries.map burnedIn).sum

@[simp]
theorem burned_push (j : Journal A H) (e : JournalEntry A H) :
    burned (j.push e) = burned j + burnedIn e := by
  simp [burned, Journal.push]

@[simp]
theorem burned_set (j : Journal A H) (a : A) (account : Account H) :
    burned (j.set a account) = burned j := rfl

@[simp]
theorem burned_loadInto (j : Journal A H) (a : A) : burned (loadInto env st j a) = burned j := by
  simp [burned, entries_loadInto]

/-! ### Operations that keep all balances -/

/-- The operation changes no balance, records none as destroyed, and leaves touched accounts
touched. -/
structure KeepsBalances (st : StateStore A H) (j j' : Journal A H) : Prop where
  balance : ∀ a, balanceOf st j' a = balanceOf st j a
  burned_eq : burned j' = burned j
  untouched : UntouchedAsStored st j → UntouchedAsStored st j'
  touched : ∀ a, IsTouched j a → IsTouched j' a

namespace KeepsBalances

variable {j : Journal A H} {a : A}

theorem refl (j : Journal A H) : KeepsBalances st j j :=
  ⟨fun _ => rfl, rfl, id, fun _ => id⟩

theorem trans {k l : Journal A H} (h : KeepsBalances st j k) (h' : KeepsBalances st k l) :
    KeepsBalances st j l where
  balance := fun a => (h'.balance a).trans (h.balance a)
  burned_eq := h'.burned_eq.trans h.burned_eq
  untouched := h'.untouched ∘ h.untouched
  touched := fun a => h'.touched a ∘ h.touched a

/-- A new entry that records no destroyed balance. -/
theorem push (j : Journal A H) {e : JournalEntry A H} (h : burnedIn e = 0) :
    KeepsBalances st j (j.push e) where
  balance := fun _ => rfl
  burned_eq := by rw [burned_push, h, Nat.add_zero]
  untouched := id
  touched := fun _ => id

theorem load (st : StateStore A H) (j : Journal A H) (a : A) :
    KeepsBalances st j (loadInto env st j a) where
  balance := balanceOf_loadInto env j a
  burned_eq := burned_loadInto env j a
  untouched := by
    intro h b account hb htouched
    rw [getElem?_loadInto] at hb
    split_ifs at hb with hba
    · cases hj : j.state[a]? with
      | some old =>
        rw [accountAt, hj, getD_some] at hb
        exact h b account (by rw [hba, hj, hb]) htouched
      | none =>
        -- the account was not loaded before, so it has its stored balance
        have hbalance := balance_accountAt env st j a
        rw [some.inj hb, balanceOf, hj] at hbalance
        rw [hbalance, hba]
    · exact h b account hb htouched
  touched := by
    rintro b ⟨account, hb, htouched⟩
    refine ⟨account, ?_, htouched⟩
    rw [getElem?_loadInto]
    split_ifs with hba
    · rw [accountAt, ← hba, hb, getD_some]
    · exact hb

/-- A replaced account with the same balance, whose flag for touched stays or becomes true. -/
theorem set {old new : Account H} (hold : j.state[a]? = some old)
    (hbalance : new.info.balance = old.info.balance)
    (htouched : new.touched = old.touched ∨ new.touched = true) :
    KeepsBalances st j (j.set a new) where
  balance := by
    intro b
    rw [balanceOf_set]
    split_ifs with hba
    · rw [hba, balanceOf_of_some hold, hbalance]
    · rfl
  burned_eq := rfl
  untouched := by
    intro h
    refine untouched_set h fun hnew => ?_
    rw [hbalance]
    exact h a old hold (htouched.elim (fun heq => heq ▸ hnew) fun heq => by simp [heq] at hnew)
  touched := touched_set fun hacc => by
    obtain ⟨account, haccount, htrue⟩ := hacc
    obtain rfl := some_unique hold haccount
    exact htouched.elim (fun heq => heq.trans htrue) id

end KeepsBalances

variable {j j' : Journal A H}

/-- Loads keep all balances. -/
theorem Edit.keepsBalances (h : Edit env st .load j j') : KeepsBalances st j j' := by
  cases h with
  | load j a => exact KeepsBalances.load env st j a
  | loadCode code h => exact KeepsBalances.set h rfl (.inl rfl)
  | loadSlot h hmiss => exact KeepsBalances.set h rfl (.inl rfl)

/-- An authority is delegated. -/
def IsDelegate (action : Action A H) : Prop := ∃ a, action = .delegate a

/-- Loads and delegations keep all balances. -/
theorem Edits.keepsBalances (h : Edits env st IsDelegate j j') : KeepsBalances st j j' := by
  refine h.invariant (P := KeepsBalances st j) ?_ (KeepsBalances.refl j)
  rintro action k k' (rfl | ⟨a, rfl⟩) hedit hk
  · exact hk.trans (hedit.keepsBalances env)
  · cases hedit with
    | delegate h target => exact hk.trans (KeepsBalances.set h rfl (.inr rfl))

/-! ### Sums -/

variable [Fintype A]

/-- The sum of all stored balances. -/
def total (st : StateStore A H) : Nat := ∑ a, storedBalance st a

/-- The sum of all balances during a transaction. -/
def journalTotal (st : StateStore A H) (j : Journal A H) : Nat := ∑ a, balanceOf st j a

@[simp]
theorem journalTotal_empty : journalTotal st (Journal.empty : Journal A H) = total st := by
  unfold journalTotal total
  refine Finset.sum_congr rfl fun a _ => ?_
  simp [balanceOf, Journal.empty]

theorem journalTotal_congr {j j' : Journal A H} (h : ∀ a, balanceOf st j' a = balanceOf st j a) :
    journalTotal st j' = journalTotal st j :=
  Finset.sum_congr rfl fun a _ => h a

theorem balanceOf_le_total (st : StateStore A H) (j : Journal A H) (a : A) :
    balanceOf st j a ≤ journalTotal st j :=
  Finset.single_le_sum (f := balanceOf st j) (fun _ _ => Nat.zero_le _) (Finset.mem_univ a)

/-- The balances of two accounts are parts of the sum. -/
theorem balanceOf_add_le_total (st : StateStore A H) (j : Journal A H) {a b : A} (h : a ≠ b) :
    balanceOf st j a + balanceOf st j b ≤ journalTotal st j := by
  have hsum : balanceOf st j a + ∑ c ∈ Finset.univ.erase a, balanceOf st j c =
      journalTotal st j := Finset.add_sum_erase _ _ (Finset.mem_univ a)
  have hb : balanceOf st j b ≤ ∑ c ∈ Finset.univ.erase a, balanceOf st j c :=
    Finset.single_le_sum (f := balanceOf st j) (fun _ _ => Nat.zero_le _)
      (Finset.mem_erase.mpr ⟨h.symm, Finset.mem_univ b⟩)
  omega

/-- A new balance changes the sum by the difference. -/
theorem journalTotal_set (st : StateStore A H) (j : Journal A H) (a : A) (account : Account H) :
    journalTotal st (j.set a account) + balanceOf st j a =
      journalTotal st j + account.info.balance.toNat := by
  have hnew : balanceOf st (j.set a account) a +
      ∑ c ∈ Finset.univ.erase a, balanceOf st (j.set a account) c =
        journalTotal st (j.set a account) := Finset.add_sum_erase _ _ (Finset.mem_univ a)
  have hold : balanceOf st j a + ∑ c ∈ Finset.univ.erase a, balanceOf st j c =
      journalTotal st j := Finset.add_sum_erase _ _ (Finset.mem_univ a)
  have hrest : ∑ c ∈ Finset.univ.erase a, balanceOf st (j.set a account) c =
      ∑ c ∈ Finset.univ.erase a, balanceOf st j c := by
    refine Finset.sum_congr rfl fun c hc => ?_
    rw [balanceOf_set, if_neg (Finset.ne_of_mem_erase hc)]
  have hself : balanceOf st (j.set a account) a = account.info.balance.toNat := by
    rw [balanceOf_set, if_pos rfl]
  omega

/-! ### Operations that conserve -/

/-- What an operation of the journal does to the balances. -/
structure Conserves (st : StateStore A H) (j j' : Journal A H) : Prop where
  total_eq : journalTotal st j' + burned j' = journalTotal st j + burned j
  burned_le : burned j ≤ burned j'
  untouched : UntouchedAsStored st j → UntouchedAsStored st j'
  touched : ∀ a, IsTouched j a → IsTouched j' a

theorem KeepsBalances.conserves {j j' : Journal A H} (h : KeepsBalances st j j') :
    Conserves st j j' where
  total_eq := by rw [h.burned_eq, journalTotal_congr h.balance]
  burned_le := h.burned_eq.ge
  untouched := h.untouched
  touched := h.touched

namespace Conserves

theorem trans {j k l : Journal A H} (h : Conserves st j k) (h' : Conserves st k l) :
    Conserves st j l where
  total_eq := h'.total_eq.trans h.total_eq
  burned_le := h.burned_le.trans h'.burned_le
  untouched := h'.untouched ∘ h.untouched
  touched := fun a => h'.touched a ∘ h.touched a

theorem set {j : Journal A H} {a : A} {old new : Account H} (hold : j.state[a]? = some old)
    (hbalance : new.info.balance = old.info.balance)
    (htouched : new.touched = old.touched ∨ new.touched = true) : Conserves st j (j.set a new) :=
  (KeepsBalances.set hold hbalance htouched).conserves

theorem push {j k : Journal A H} {e : JournalEntry A H} (h : Conserves st j k)
    (he : burnedIn e = 0) : Conserves st j (k.push e) := h.trans (KeepsBalances.push k he).conserves

/-- The sum does not grow. -/
theorem total_le {j j' : Journal A H} (h : Conserves st j j') :
    journalTotal st j' ≤ journalTotal st j := by
  have := h.total_eq
  have := h.burned_le
  omega

end Conserves

theorem toNat_checkedSub {a b c : U256} (h : U256.checkedSub a b = some c) :
    c.toNat + b.toNat = a.toNat := by
  unfold U256.checkedSub at h
  split_ifs at h with hle
  rw [← some.inj h, BitVec.toNat_sub_of_le hle]
  omega

theorem toNat_checkedAdd {a b c : U256} (h : U256.checkedAdd a b = some c) :
    c.toNat = a.toNat + b.toNat := by
  unfold U256.checkedAdd at h
  split_ifs at h with hlt
  rw [← some.inj h, BitVec.toNat_add, Nat.mod_eq_of_lt hlt]

/-- A transfer takes from one account what it gives to the other one. -/
theorem conserves_moveBalance {j j' : Journal A H} {src dst : A} {value : U256}
    (h : j.moveBalance src dst value = some j') : Conserves st j j' := by
  obtain ⟨source, decreased, target, increased, hsource, hdec, htarget, hinc, rfl⟩ :=
    moveBalance_eq_some h
  have hsub := toNat_checkedSub hdec
  have hadd := toNat_checkedAdd hinc
  have hfirst := journalTotal_set st j src (source.withBalance decreased)
  have hsecond := journalTotal_set st (j.set src (source.withBalance decreased)) dst
    (target.withBalance increased)
  rw [balanceOf_of_some hsource] at hfirst
  rw [balanceOf_of_some htarget] at hsecond
  simp only [Account.withBalance] at hfirst hsecond ⊢
  constructor
  · simp only [burned_set]
    omega
  · exact le_rfl
  · intro huntouched
    exact untouched_set (untouched_set huntouched (by simp)) (by simp)
  · intro a ha
    exact touched_set (fun _ => rfl) a (touched_set (fun _ => rfl) a ha)

section operations
variable {j j' : Journal A H}

/-- A transfer to another account succeeds if the sum of all balances fits. -/
theorem moveBalance_of_fits {src dst : A} {source target : Account H} (hne : src ≠ dst)
    (hsource : j.state[src]? = some source) (htarget : j.state[dst]? = some target)
    (hfits : journalTotal st j < 2 ^ 256) :
    ∃ k, j.moveBalance src dst source.info.balance = some k ∧ balanceOf st k src = 0 := by
  have hsum := balanceOf_add_le_total st j hne
  rw [balanceOf_of_some hsource, balanceOf_of_some htarget] at hsum
  have hsub : U256.checkedSub source.info.balance source.info.balance = some 0 := by
    simp [U256.checkedSub]
  have hadd : U256.checkedAdd target.info.balance source.info.balance =
      some (target.info.balance + source.info.balance) := by
    rw [U256.checkedAdd, if_pos (by omega)]
  have htarget' : (j.set src (source.withBalance 0)).state[dst]? = some target := by
    rw [getElem?_set, if_neg hne.symm, htarget]
  refine ⟨(j.set src (source.withBalance 0)).set dst
    (target.withBalance (target.info.balance + source.info.balance)), ?_, ?_⟩
  · simp only [Journal.moveBalance, hsource, hsub, htarget', hadd, bind_eq_bind,
      bind_some, pure_def]
  · rw [balanceOf_set, if_neg hne, balanceOf_set, if_pos rfl]
    rfl

/-- Paying out conserves. The account is left with nothing, unless it pays itself. -/
theorem conserves_payOut {a target : A} {account other : Account H}
    (haccount : j.state[a]? = some account) (hother : j.state[target]? = some other)
    (hfits : journalTotal st j < 2 ^ 256) :
    Conserves st j (j.payOut a target account.info.balance) ∧
      balanceOf st (j.payOut a target account.info.balance) a =
        if a = target then account.info.balance.toNat else 0 := by
  by_cases hself : a = target
  · rw [Journal.payOut, if_pos hself, if_pos hself]
    exact ⟨(KeepsBalances.refl j).conserves, balanceOf_of_some haccount⟩
  · obtain ⟨k, hmove, hzero⟩ := moveBalance_of_fits hself haccount hother hfits
    rw [Journal.payOut, if_neg hself, if_neg hself, hmove, getD_some]
    exact ⟨conserves_moveBalance hmove, hzero⟩

/-- Removing the balance of an account, with an entry that records it if the account named
itself. -/
theorem conserves_destroy {a target : A} {account : Account H} {wasDestroyed : Bool}
    {balance : U256} (haccount : j.state[a]? = some account)
    (hbalance : account.info.balance.toNat = if a = target then balance.toNat else 0) :
    Conserves st j ((j.set a account.destroyed).push
      (.accountDestroyed a target wasDestroyed balance)) where
  total_eq := by
    have hsum := journalTotal_set st j a account.destroyed
    rw [balanceOf_of_some haccount, hbalance] at hsum
    rw [burned_push, burned_set]
    show journalTotal st (j.set a _) + (burned j + if a = target then balance.toNat else 0) = _
    have hzero : account.destroyed.info.balance.toNat = 0 := rfl
    omega
  burned_le := by
    rw [burned_push, burned_set]
    omega
  untouched := fun h => untouched_set h (by simp [Account.destroyed])
  touched := touched_set fun _ => rfl

/-- Each edit of the interpreter conserves. -/
theorem Edit.conserves {action : Action A H} (h : Edit env st action j j')
    (hcharge : ∀ a, action ≠ .charge a) (hdelegate : ∀ a, action ≠ .delegate a)
    (hfits : journalTotal st j < 2 ^ 256) : Conserves st j j' := by
  cases h with
  | load j a => exact (KeepsBalances.load env st j a).conserves
  | loadCode code h => exact Conserves.set h rfl (.inl rfl)
  | loadSlot h hmiss => exact Conserves.set h rfl (.inl rfl)
  | touch h => exact Conserves.set h rfl (.inr rfl)
  | transfer h => exact (conserves_moveBalance h).push rfl
  | createAccount h hcode hnonce hmoved =>
    -- the new account keeps the balance that its address had
    have hcreated : Conserves st j (j.set _ (Account.asCreated _)) :=
      Conserves.set h rfl (.inr rfl)
    exact ((hcreated.push rfl).trans (conserves_moveBalance hmoved)).push rfl
  | setCode code h => exact Conserves.push (Conserves.set h rfl (.inr rfl)) rfl
  | incNonce h => exact Conserves.push (Conserves.set h rfl (.inr rfl)) rfl
  | fullNonce h hnonce => exact Conserves.set h rfl (.inr rfl)
  | sstore h hloaded => exact Conserves.push (Conserves.set h rfl (.inl rfl)) rfl
  | selfdestruct h htarget hpaid hcreated =>
    obtain ⟨other, hother⟩ := ne_none_iff_exists'.mp htarget
    obtain ⟨hpaidOut, hleft⟩ := conserves_payOut h hother hfits
    rw [balanceOf_of_some hpaid] at hleft
    exact hpaidOut.trans (conserves_destroy hpaid hleft)
  | sweep h htarget hne =>
    obtain ⟨other, hother⟩ := ne_none_iff_exists'.mp htarget
    exact (conserves_payOut h hother hfits).1.push rfl
  | charge => exact absurd rfl (hcharge _)
  | delegate => exact absurd rfl (hdelegate _)

/-- A run of the interpreter conserves. -/
theorem conserves_execute {limit : Nat} (p : Interp A H limit) {result : FrameResult limit}
    {st' : StateStore A H} {t' : τ} (hfits : journalTotal st j < 2 ^ 256)
    (h : run mapStore O (p.execute env j) st t = .ok ((result, j'), st', t')) :
    st' = st ∧ Conserves st j j' := by
  have hallows := allows_of_interpreter (A := A) (H := H)
    (fun action hcharge hdelegate => And.intro hcharge hdelegate) p
  obtain ⟨rfl, hedits⟩ := (tracks_execute tracks_edits p j hallows).sound h
  refine ⟨rfl, hedits.invariant (P := Conserves st' j) ?_ (KeepsBalances.refl j).conserves⟩
  rintro action k k' hallowed hedit hk
  have hfits' := hk.total_le.trans_lt hfits
  rcases hallowed with rfl | ⟨hcharge, hdelegate⟩
  · exact hk.trans (hedit.keepsBalances env).conserves
  · exact hk.trans (hedit.conserves env hcharge hdelegate hfits')

end operations

end

end Citrea.Proofs.Evm
