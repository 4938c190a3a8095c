import Citrea.Proofs.Evm.Conservation

/-!
# `Citrea.Proofs.Evm.Slots`: the storage of one contract

`slotOf` is the value of a slot that a transaction sees: the one in the journal, or the stored one
for a slot that is not loaded. A contract is `Settled` in a journal if it was neither created nor
destroyed by the transaction. An edit that is `Quiet` for the contract changes no slot of it
(`sameContract_of_edit`).

`commit_slots` says what the stored slots are after a commit. `storedSlot_commit` is the case of one
contract: its stored slots are then those of the journal.
-/

set_option linter.unusedSectionVars false

namespace Citrea.Proofs.Evm

open Lib
open Lib.StoreProg (run mapStore HintBackend ReadOnly)
open Spec.Evm
open Std (TransOrd LawfulEqOrd)

/-- No two slots of the state have the same address. -/
def StorageDistinct {A H : Type} (env : EvmEnv A H) : Prop :=
  ∀ a a' key key', getStorageAddress env a key = getStorageAddress env a' key' → a = a' ∧ key = key'

section
variable {A H : Type} [Ord A] [Ord H] [TransOrd A] [LawfulEqOrd A] [TransOrd H] [LawfulEqOrd H]
  [DecidableEq A] [DecidableEq H] (env : EvmEnv A H) (st : StateStore A H) (c : A)

/-- The value of a slot during a transaction. -/
def slotOf (j : Journal A H) (key : H) : U256 :=
  (j.state[c]?.bind fun account => account.storage[key]?).getD (storedSlot env st c key)

/-- The transaction has neither created nor destroyed the contract. -/
def Settled (j : Journal A H) : Prop :=
  ∀ account, j.state[c]? = some account → account.created = false ∧ account.selfdestructed = false

/-- The actions that write no slot of the contract, and do not create or destroy it. -/
def Quiet : Action A H → Prop
  | .sstore a _ _ => a ≠ c
  | .createAccount _ target _ => target ≠ c
  | .selfdestruct a _ => a ≠ c
  | _ => True

/-- The slots of the contract are the same in both journals. -/
structure SameContract (j j' : Journal A H) : Prop where
  slots : ∀ key, slotOf env st c j' key = slotOf env st c j key
  settled : Settled c j → Settled c j'
  touched : IsTouched j c → IsTouched j' c

variable {env st c}

theorem slotOf_empty (key : H) :
    slotOf env st c (.empty : Journal A H) key = storedSlot env st c key := by
  have hnone : (Journal.empty : Journal A H).state[c]? = none := Std.TreeMap.getElem?_emptyc
  rw [slotOf, hnone]
  rfl

theorem settled_empty : Settled c (.empty : Journal A H) := by
  intro account h
  have hnone : (Journal.empty : Journal A H).state[c]? = none := Std.TreeMap.getElem?_emptyc
  rw [hnone] at h
  cases h

theorem slotOf_of_some {j : Journal A H} {account : Account H} (h : j.state[c]? = some account)
    (key : H) : slotOf env st c j key = account.storage[key]?.getD (storedSlot env st c key) := by
  rw [slotOf, h]
  rfl

namespace SameContract

variable {j j' : Journal A H}

theorem refl (j : Journal A H) : SameContract env st c j j := ⟨fun _ => rfl, id, id⟩

theorem trans {k l : Journal A H} (h : SameContract env st c j k) (h' : SameContract env st c k l) :
    SameContract env st c j l where
  slots := fun key => (h'.slots key).trans (h.slots key)
  settled := h'.settled ∘ h.settled
  touched := h'.touched ∘ h.touched

theorem push (h : SameContract env st c j j') (e : JournalEntry A H) :
    SameContract env st c j (j'.push e) := ⟨h.slots, h.settled, h.touched⟩

/-- The account of the contract is the same. -/
theorem of_getElem? (h : j'.state[c]? = j.state[c]?) : SameContract env st c j j' where
  slots := fun key => by rw [slotOf, slotOf, h]
  settled := fun hsettled account haccount => hsettled account (h ▸ haccount)
  touched := fun ⟨account, haccount, htouched⟩ => ⟨account, h ▸ haccount, htouched⟩

/-- Another account is replaced. -/
theorem setOther {a : A} (h : a ≠ c) (j : Journal A H) (account : Account H) :
    SameContract env st c j (j.set a account) :=
  of_getElem? (by rw [getElem?_set, if_neg (Ne.symm h)])

/-- An account is replaced by one with the same slots and flags. -/
theorem set {a : A} {old new : Account H} (hold : j.state[a]? = some old)
    (hslots : ∀ key, new.storage[key]?.getD (storedSlot env st a key) = old.storage[key]?.getD
      (storedSlot env st a key)) (hcreated : new.created = old.created)
    (hdestroyed : new.selfdestructed = old.selfdestructed)
    (htouched : old.touched = true → new.touched = true) :
    SameContract env st c j (j.set a new) := by
  by_cases hac : a = c
  · subst hac
    have hnew : (j.set a new).state[a]? = some new := by rw [getElem?_set, if_pos rfl]
    refine ⟨fun key => ?_, fun hsettled account haccount => ?_,
      fun ⟨account, haccount, htrue⟩ => ?_⟩
    · rw [slotOf_of_some hnew, slotOf_of_some hold, hslots]
    · obtain rfl := some_unique hnew haccount
      rw [hcreated, hdestroyed]
      exact hsettled old hold
    · obtain rfl := some_unique hold haccount
      exact ⟨new, hnew, htouched htrue⟩
  · exact setOther hac j new

theorem load (j : Journal A H) (a : A) : SameContract env st c j (loadInto env st j a) := by
  cases hj : j.state[a]? with
  | some account =>
    rw [loadInto, hj]
    exact refl j
  | none =>
    by_cases hac : a = c
    · subst hac
      have hself : (loadInto env st j a).state[a]? = some (accountAt env st j a) :=
        getElem?_loadInto_self env j a
      rw [accountAt, hj] at hself
      refine ⟨fun key => ?_, fun _ account haccount => ?_, fun hloaded => ?_⟩
      · rw [slotOf_of_some hself, slotOf, hj]
        show (∅ : Std.TreeMap H U256)[key]?.getD _ = _
        rw [Std.TreeMap.getElem?_emptyc]
        rfl
      · obtain rfl := some_unique hself haccount
        exact ⟨rfl, rfl⟩
      · obtain ⟨account, haccount, -⟩ := hloaded
        rw [hj] at haccount
        cases haccount
    · exact of_getElem? (by rw [getElem?_loadInto, if_neg (Ne.symm hac)])

theorem moveBalance {src dst : A} {value : U256} (h : j.moveBalance src dst value = some j') :
    SameContract env st c j j' := by
  obtain ⟨source, decreased, target, increased, hsource, -, htarget, -, rfl⟩ :=
    moveBalance_eq_some h
  have hfirst : SameContract env st c j (j.set src (source.withBalance decreased)) :=
    set hsource (fun _ => rfl) rfl rfl fun _ => rfl
  exact hfirst.trans (set htarget (fun _ => rfl) rfl rfl fun _ => rfl)

theorem payOut (j : Journal A H) (a target : A) (balance : U256) :
    SameContract env st c j (j.payOut a target balance) := by
  rw [Journal.payOut]
  split
  · exact refl j
  · cases hmove : j.moveBalance a target balance with
    | none => exact refl j
    | some moved => exact moveBalance hmove

end SameContract

/-- An edit that is quiet for the contract leaves its slots as they are. -/
theorem sameContract_of_edit {action : Action A H} {j j' : Journal A H}
    (hedit : Edit env st action j j') (hquiet : Quiet c action) (hsettled : Settled c j) :
    SameContract env st c j j' := by
  cases hedit with
  | load j a => exact SameContract.load j a
  | loadCode code h => exact SameContract.set h (fun _ => rfl) rfl rfl id
  | @loadSlot _ a account key h hmiss =>
    by_cases hac : a = c
    · subst hac
      -- the value that is loaded is the stored one, because the contract was not created
      refine SameContract.set h (fun key' => ?_) rfl rfl id
      show (account.storage.insert key _)[key']?.getD _ = _
      rw [(hsettled account h).1, Std.TreeMap.getElem?_insert]
      simp only [Std.compare_eq_iff_eq]
      split
      · next heq =>
        subst heq
        rw [hmiss]
        rfl
      · rfl
    · exact SameContract.setOther hac _ _
  | touch h => exact SameContract.set h (fun _ => rfl) rfl rfl fun _ => rfl
  | transfer h => exact (SameContract.moveBalance h).push _
  | createAccount h _ _ hmoved =>
    refine (SameContract.trans ?_ (SameContract.moveBalance hmoved)).push _
    exact (SameContract.setOther hquiet _ _).push _
  | setCode code h =>
    refine SameContract.push ?_ _
    exact SameContract.set h (fun _ => rfl) rfl rfl fun _ => rfl
  | incNonce h =>
    refine SameContract.push ?_ _
    exact SameContract.set h (fun _ => rfl) rfl rfl fun _ => rfl
  | fullNonce h _ => exact SameContract.set h (fun _ => rfl) rfl rfl fun _ => rfl
  | sstore h _ => exact (SameContract.setOther hquiet _ _).push _
  | selfdestruct h _ _ _ =>
    exact ((SameContract.payOut _ _ _ _).trans (SameContract.setOther hquiet _ _)).push _
  | sweep h _ _ => exact (SameContract.payOut _ _ _ _).push _
  | charge h balance nonce touched htouched =>
    exact SameContract.set h (fun _ => rfl) rfl rfl htouched
  | delegate h target => exact SameContract.set h (fun _ => rfl) rfl rfl fun _ => rfl

theorem allowsHandler_quiet : AllowsHandler (Quiet (H := H) c) :=
    ⟨fun _ => trivial, fun _ => trivial⟩

/-- A sequence of quiet edits, from a journal in which the contract is settled. -/
theorem sameContract_of_edits {j j' : Journal A H} (h : Edits env st (Quiet c) j j')
    (hsettled : Settled c j) : SameContract env st c j j' := by
  have hall : Settled c j' ∧ SameContract env st c j j' := by
    refine h.invariant (P := fun k => Settled c k ∧ SameContract env st c j k) ?_
      ⟨hsettled, SameContract.refl j⟩
    rintro action k k' hallowed hedit ⟨hk, hsame⟩
    have hquiet : Quiet c action := by
      rcases hallowed with rfl | hallowed
      · trivial
      · exact hallowed
    have hstep := sameContract_of_edit hedit hquiet hk
    exact ⟨hstep.settled hk, hsame.trans hstep⟩
  exact hall.2

/-! ### Slots of a settled contract -/

/-- A load of a slot returns its value. -/
theorem readOnly_sload_settled (env : EvmEnv A H) {j : Journal A H} (hsettled : Settled c j)
    (key : H) :
    ReadOnly st (fun r => r.1 = slotOf env st c j key ∧ SameContract env st c j r.2)
      (sload env c key j) := by
  refine (readOnly_sload (Quiet c) c key j).mono ?_
  rintro ⟨value, j'⟩ ⟨hedits, account, haccount, hvalue⟩
  have hsame := sameContract_of_edits hedits hsettled
  refine ⟨?_, hsame⟩
  rw [← hsame.slots, slotOf_of_some haccount, hvalue]
  rfl

/-- The contract after a write of a slot. -/
structure SlotWritten (env : EvmEnv A H) (st : StateStore A H) (c : A) (key : H) (value : U256)
    (j j' : Journal A H) : Prop where
  slots : ∀ k, slotOf env st c j' k = if k = key then value else slotOf env st c j k
  settled : Settled c j'
  touched : IsTouched j c → IsTouched j' c

theorem readOnly_sstore_settled (env : EvmEnv A H) {j : Journal A H} (hsettled : Settled c j)
    (key : H)
    (value : U256) : ReadOnly st (SlotWritten env st c key value j) (sstore env c key value j) := by
  refine ReadOnly.bind (readOnly_sload_settled env hsettled key) ?_
  rintro ⟨present, j₁⟩ ⟨hpresent, hsame₁⟩
  refine ReadOnly.bind (readOnly_loadAccount c j₁) ?_
  rintro _ rfl
  have hsame := hsame₁.trans (SameContract.load j₁ c)
  dsimp only at hpresent ⊢
  split
  · next heq =>
    -- nothing is written, and the slot has the value already
    refine ReadOnly.pure ⟨fun k => ?_, hsame.settled hsettled, hsame.touched⟩
    rw [hsame.slots]
    split
    · next hk => rw [hk, ← hpresent, heq]
    · rfl
  · have hself : (loadInto env st j₁ c).state[c]? = some (accountAt env st j₁ c) :=
      getElem?_loadInto_self env j₁ c
    generalize accountAt env st j₁ c = account at hself ⊢
    have hnew : (((loadInto env st j₁ c).set c { account with
        storage := account.storage.insert key value }).push (.storageChanged c key)).state[c]? =
          some { account with storage := account.storage.insert key value } := by
      rw [state_push, getElem?_set, if_pos rfl]
    refine ReadOnly.pure ⟨fun k => ?_, fun found hfound => ?_, fun htouched => ?_⟩
    · rw [slotOf_of_some hnew, ← hsame.slots, slotOf_of_some hself]
      show (account.storage.insert key value)[k]?.getD _ = _
      rw [Std.TreeMap.getElem?_insert]
      simp only [Std.compare_eq_iff_eq, eq_comm (a := key)]
      split
      · rfl
      · rfl
    · obtain rfl := some_unique hnew hfound
      exact hsame.settled hsettled account hself
    · obtain ⟨found, hfound, htrue⟩ := hsame.touched htouched
      obtain rfl := some_unique hself hfound
      exact ⟨_, hnew, htrue⟩

/-! ### Commit -/

section
variable {τ ε : Type} {O : HintBackend H Bytecode τ} {st' : StateStore A H} {t t' : τ}
  (hdistinct : StorageDistinct env)
include hdistinct

theorem storedSlot_update (st : StateStore A H) (a : A) (key : H) (value : U256) (b : A) (k : H) :
    storedSlot env (Function.update st (.storage (getStorageAddress env a key)) (some value)) b k =
      if b = a ∧ k = key then value else storedSlot env st b k := by
  rw [storedSlot]
  by_cases hkey : b = a ∧ k = key
  · obtain ⟨rfl, rfl⟩ := hkey
    rw [if_pos ⟨rfl, rfl⟩, Function.update_self]
    rfl
  · have hne : StateKey.storage (A := A) (getStorageAddress env b k) ≠
        .storage (getStorageAddress env a key) := by
      intro heq
      exact hkey (hdistinct _ _ _ _ (StateKey.storage.inj heq))
    rw [if_neg hkey, Function.update_of_ne hne]
    rfl

/-- The slots of one account are written. -/
theorem storedSlot_writtenSlots (a : A) (slots : Std.TreeMap H U256) (st : StateStore A H) (b : A)
    (key : H) : storedSlot env (writtenSlots env a slots.toList st) b key =
      if b = a then slots[key]?.getD (storedSlot env st b key) else storedSlot env st b key := by
  -- what is seen at a key is the slots of all accounts
  let seen (st : StateStore A H) (key : H) (b : A) : U256 := storedSlot env st b key
  let f (st : StateStore A H) (slot : H × U256) : StateStore A H :=
    Function.update st (.storage (getStorageAddress env a slot.1)) (some slot.2)
  have hstep : ∀ st slot, True → True ∧ ∀ key, seen (f st slot) key =
      if key = slot.1 then Function.update (seen st slot.1) a slot.2 else seen st key := by
    refine fun st slot _ => ⟨trivial, fun key => funext fun b => ?_⟩
    refine (storedSlot_update hdistinct st a slot.1 slot.2 b key).trans ?_
    by_cases hkey : key = slot.1
    · simp only [seen, hkey, and_true, if_true, Function.update_apply]
    · simp only [seen, hkey, and_false, if_false]
  have hloop := (foldl_toList hstep
    (s := st) (g := fun st key value => Function.update (seen st key) a value)
    (fun _ _ _ value heq => congrArg (Function.update · a value) heq) slots trivial).2 key
  refine (congrFun hloop b).trans ?_
  cases slots[key]? with
  | none => exact (ite_self _).symm
  | some value => exact Function.update_apply ..

omit hdistinct in
theorem storedSlot_of_sameOutside {st₁ st₂ : StateStore A H} (h : SameOutsideAccounts st₁ st₂)
    (a : A) (key : H) : storedSlot env st₂ a key = storedSlot env st₁ a key := by
  rw [storedSlot, storedSlot, h.storage]

/-- The value of a slot after its account was committed. -/
def committedSlot (env : EvmEnv A H) (st : StateStore A H) (a : A) (account : Account H) (key : H) :
    U256 :=
  if account.touched = true ∧ account.selfdestructed = false then
    account.storage[key]?.getD (storedSlot env st a key)
  else storedSlot env st a key

theorem storedSlot_committed (entry : A × Account H) :
    ∀ b, storedSlot env (committed env st entry) b =
      if b = entry.1 then committedSlot env st entry.1 entry.2 else storedSlot env st b := by
  intro b
  funext key
  have hslots := storedSlot_writtenSlots hdistinct entry.1 entry.2.storage st b key
  rw [apply_ite (fun f : H → U256 => f key), committed, committedSlot]
  split_ifs with hlive hchanged hb hb hb
  · rw [storedSlot_of_sameOutside (sameOutside_setAccount ..), hslots, if_pos hb, hb]
  · rw [storedSlot_of_sameOutside (sameOutside_setAccount ..), hslots, if_neg hb]
  · rw [hslots, if_pos hb, hb]
  · rw [hslots, if_neg hb]
  · rw [hb]
  · rfl

/-- The stored slots after a commit. -/
theorem commit_slots {j : Journal A H}
    (h : run mapStore O (commit env j : Prog A H ε Unit) st t = .ok ((), st', t')) (a : A) :
    storedSlot env st' a = j.state[a]?.elim (storedSlot env st a) (committedSlot env st a) := by
  rw [state_commit env h]
  refine (foldl_toList (P := fun _ => True) (v := storedSlot env)
    (fun st entry _ => ⟨trivial, storedSlot_committed hdistinct entry⟩) ?_ j.state trivial).2 a
  intro st₁ st₂ a account heq
  funext key
  rw [committedSlot, committedSlot, heq]

/-- A settled contract that was touched has its slots in the state after a commit. One that was not
touched must not have changed. -/
theorem storedSlot_commit {j : Journal A H}
    (h : run mapStore O (commit env j : Prog A H ε Unit) st t = .ok ((), st', t'))
    (hsettled : Settled c j)
    (hsame : IsTouched j c ∨ ∀ key, slotOf env st c j key = storedSlot env st c key) (key : H) :
    storedSlot env st' c key = slotOf env st c j key := by
  rw [commit_slots hdistinct h]
  cases hc : j.state[c]? with
  | none =>
    rw [slotOf, hc]
    rfl
  | some account =>
    rw [Option.elim_some, committedSlot, (hsettled account hc).2]
    by_cases htouched : account.touched = true
    · rw [if_pos ⟨htouched, rfl⟩, slotOf_of_some hc]
    · rw [if_neg fun hand => htouched hand.1]
      rcases hsame with ⟨account', haccount', htrue⟩ | hsame
      · obtain rfl := some_unique hc haccount'
        exact absurd htrue htouched
      · exact (hsame key).symm

end

end

end Citrea.Proofs.Evm
