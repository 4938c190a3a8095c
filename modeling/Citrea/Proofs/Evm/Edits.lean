import Citrea.Proofs.Evm.Accounts
import Mathlib.Logic.Relation

/-!
# `Citrea.Proofs.Evm.Edits`: what a transaction can do to its journal

A transaction reads the state and changes its journal. `Edit` lists the changes: one constructor for
each of them, with the accounts before and after. `Edits` is a sequence of them. Each operation of
the journal, each run of the interpreter and each part of the handler is such a sequence
(`tracks_execute`, `tracks_preExecution`, `tracks_postExecution`), so an invariant of the journal is
proved once for each constructor of `Edit`.

`Tracks` is what these theorems need: a judgement about programs, and a relation of journals with a
rule for each load and one for all other edits. `tracks_edits` is about runs on a state.

An edit has an `Action` as its label. `allowed` restricts the actions of a run. A fact about the
runs that leave a contract alone is a fact about the edits without certain actions.
-/

set_option linter.unusedSectionVars false

namespace Citrea.Proofs.Evm

open Option Lib
open Lib.StoreProg (ReadOnly)
open Spec.Evm
open Std (TransOrd LawfulEqOrd)

/-- The label of an edit. `charge` is a change of balance or nonce by the handler. -/
inductive Action (A H : Type) where
  | load
  | touch (a : A)
  | transfer (src dst : A) (value : U256)
  | createAccount (caller target : A) (value : U256)
  | setCode (a : A)
  | incNonce (a : A)
  | sstore (a : A) (key : H) (value : U256)
  | selfdestruct (a target : A)
  | charge (a : A)
  | delegate (a : A)

section
variable {A H : Type} [Ord A] [Ord H] [TransOrd A] [LawfulEqOrd A] [DecidableEq A]
  [DecidableEq H] (env : EvmEnv A H) (st : StateStore A H)

/-- One change of the journal. -/
inductive Edit : Action A H → Journal A H → Journal A H → Prop where
  | load (j : Journal A H) (a : A) : Edit .load j (loadInto env st j a)
  | loadCode {j : Journal A H} {a : A} {account : Account H} (code : Bytecode)
      (h : j.state[a]? = some account) :
      Edit .load j (j.set a { account with info := { account.info with code := some code } })
  | loadSlot {j : Journal A H} {a : A} {account : Account H} {key : H}
      (h : j.state[a]? = some account) (hmiss : account.storage[key]? = none) :
      Edit .load j (j.set a { account with
        storage := account.storage.insert key
          (if account.created then 0 else storedSlot env st a key) })
  | touch {j : Journal A H} {a : A} {account : Account H} (h : j.state[a]? = some account) :
      Edit (.touch a) j (j.set a { account with touched := true })
  | transfer {j moved : Journal A H} {src dst : A} {value : U256}
      (h : j.moveBalance src dst value = some moved) :
      Edit (.transfer src dst value) j (moved.push (.balanceTransfer src dst))
  | createAccount {j moved : Journal A H} {caller target : A} {value : U256} {account : Account H}
      (h : j.state[target]? = some account) (hcode : account.info.codeHash = env.keccakEmpty)
      (hnonce : account.info.nonce = 0)
      (hmoved : ((j.set target account.asCreated).push (.accountCreated target)).moveBalance caller
        target value = some moved) :
      Edit (.createAccount caller target value) j (moved.push (.balanceTransfer caller target))
  | setCode {j : Journal A H} {a : A} {account : Account H} (code : Bytes)
      (h : j.state[a]? = some account) :
      Edit (.setCode a) j ((j.set a { account with
          info := { account.info with
            codeHash := env.keccak256 code, code := some (Bytecode.newLegacy env code) }
          touched := true }).push (.codeChange a))
  | incNonce {j : Journal A H} {a : A} {account : Account H} (h : j.state[a]? = some account) :
      Edit (.incNonce a) j ((j.set a { account with
          info := { account.info with nonce := account.info.nonce + 1 }
          touched := true }).push (.nonceChange a))
  | fullNonce {j : Journal A H} {a : A} {account : Account H} (h : j.state[a]? = some account)
      (hnonce : 2 ^ 64 ≤ account.info.nonce + 1) :
      Edit (.incNonce a) j (j.set a { account with touched := true })
  | sstore {j : Journal A H} {a : A} {account : Account H} {key : H} {value : U256}
      (h : j.state[a]? = some account) (hloaded : [TransOrd H] → account.storage[key]? ≠ none) :
      Edit (.sstore a key value) j ((j.set a
        { account with storage := account.storage.insert key value }).push (.storageChanged a key))
  | selfdestruct {j : Journal A H} {a target : A} {account account' : Account H}
      (h : j.state[a]? = some account) (htarget : j.state[target]? ≠ none)
      (hpaid : (j.payOut a target account.info.balance).state[a]? = some account')
      (hcreated : account'.created = true) :
      Edit (.selfdestruct a target) j
        (((j.payOut a target account.info.balance).set a account'.destroyed).push
          (.accountDestroyed a target account'.selfdestructed account.info.balance))
  | sweep {j : Journal A H} {a target : A} {account : Account H}
      (h : j.state[a]? = some account) (htarget : j.state[target]? ≠ none) (hne : a ≠ target) :
      Edit (.selfdestruct a target) j
        ((j.payOut a target account.info.balance).push (.balanceTransfer a target))
  | charge {j : Journal A H} {a : A} {account : Account H} (h : j.state[a]? = some account)
      (balance : U256) (nonce : Nat) (touched : Bool)
      (htouched : account.touched = true → touched = true) :
      Edit (.charge a) j (j.set a { account with
          info := { account.info with balance := balance, nonce := nonce }
          touched := touched })
  | delegate {j : Journal A H} {a : A} {account : Account H} (h : j.state[a]? = some account)
      (target : A) :
      Edit (.delegate a) j (j.set a (account.delegated (delegation env target)))

/-- A sequence of edits. Loads are always allowed. -/
def Edits (allowed : Action A H → Prop) : Journal A H → Journal A H → Prop :=
  Relation.ReflTransGen fun j j' => ∃ action, (action = .load ∨ allowed action) ∧
    Edit env st action j j'

variable {env st} {allowed : Action A H → Prop}

namespace Edits

variable {j k l : Journal A H}

theorem refl (j : Journal A H) : Edits env st allowed j j := Relation.ReflTransGen.refl

theorem trans (h : Edits env st allowed j k) (h' : Edits env st allowed k l) :
    Edits env st allowed j l := Relation.ReflTransGen.trans h h'

/-- One more edit with an allowed action. -/
theorem next (h : Edits env st allowed j k) {action : Action A H} (hallowed : allowed action)
    (hedit : Edit env st action k l) : Edits env st allowed j l :=
  h.tail ⟨action, .inr hallowed, hedit⟩

theorem nextLoad (h : Edits env st allowed j k) (hedit : Edit env st .load k l) :
    Edits env st allowed j l :=
  h.tail ⟨.load, .inl rfl, hedit⟩

theorem load (j : Journal A H) (a : A) : Edits env st allowed j (loadInto env st j a) :=
  (refl j).nextLoad (.load j a)

/-- What each edit with an allowed action keeps, all of them keep. -/
theorem invariant {P : Journal A H → Prop}
    (step : ∀ action j j', action = .load ∨ allowed action → Edit env st action j j' → P j → P j')
    {j' : Journal A H} (h : Edits env st allowed j j') (hj : P j) : P j' := by
  induction h with
  | refl => exact hj
  | tail _ hedit ih =>
    obtain ⟨action, hallowed, hedit⟩ := hedit
    exact step action _ _ hallowed hedit ih

end Edits

variable {j : Journal A H} {b : A} {limit : Nat}

/-! ### Loads -/

theorem readOnly_accountInfo {ε : Type} (a : A) :
    ReadOnly st (fun info => info = storedInfo st a) (accountInfo a : Prog A H ε _) := by
  refine ReadOnly.bind (ReadOnly.read _) ?_
  rintro _ rfl
  rw [storedInfo, idxOf]
  cases st (.accountIdx a) with
  | none => exact ReadOnly.pure rfl
  | some idx => exact ReadOnly.read _

theorem readOnly_loadAccount (a : A) (j : Journal A H) :
    ReadOnly st (fun r => r = (accountAt env st j a, loadInto env st j a))
      (loadAccount env a j) := by
  rw [loadAccount, accountAt, loadInto]
  cases hj : j.state[a]? with
  | some account => exact ReadOnly.pure rfl
  | none =>
    have hbasic : ReadOnly st (fun info => info = (storedInfo st a).map (·.toRevm env))
        (basic env a : Prog A H EvmError _) := by
      refine ReadOnly.bind (readOnly_accountInfo a) ?_
      rintro _ rfl
      exact ReadOnly.pure rfl
    refine ReadOnly.bind hbasic ?_
    rintro _ rfl
    refine ReadOnly.pure ?_
    rw [accountAt, hj]
    rfl

theorem readOnly_fetchCode (codeHash : H) :
    ReadOnly st (fun _ => True) (fetchCode env codeHash) := by
  rw [fetchCode]
  split
  · exact ReadOnly.pure trivial
  · exact ReadOnly.mapError fun _ => ReadOnly.ofOutcome.mono fun _ _ => trivial

variable (allowed) in
theorem readOnly_loadCode (a : A) (j : Journal A H) :
    ReadOnly st (fun r => Edits env st allowed j r.2) (loadCode env a j) := by
  refine ReadOnly.bind (readOnly_loadAccount a j) ?_
  rintro _ rfl
  dsimp only
  split
  · exact ReadOnly.pure (Edits.load j a)
  · refine ReadOnly.bind (readOnly_fetchCode _) fun code _ => ReadOnly.pure ?_
    exact (Edits.load j a).nextLoad (.loadCode code (getElem?_loadInto_self env j a))

theorem readOnly_storageGet {ε : Type} (a : A) (key : H) :
    ReadOnly st (fun v => v = st (.storage (getStorageAddress env a key)))
      (storageGet env a key : Prog A H ε _) := rfl

theorem readOnly_fetchSlot (a : A) (created : Bool) (key : H) :
    ReadOnly st (fun v => v = if created then 0 else storedSlot env st a key)
      (fetchSlot env a created key) := by
  rw [fetchSlot]
  split
  · exact ReadOnly.pure rfl
  · refine ReadOnly.bind (readOnly_storageGet a key) ?_
    rintro _ rfl
    exact ReadOnly.pure rfl

variable (allowed) in
/-- After a load of a slot the journal has the slot. -/
theorem readOnly_sload (a : A) (key : H) (j : Journal A H) :
    ReadOnly st (fun r => Edits env st allowed j r.2 ∧ ∃ account, r.2.state[a]? = some account ∧
        ([TransOrd H] → account.storage[key]? = some r.1)) (sload env a key j) := by
  refine ReadOnly.bind (readOnly_loadAccount a j) ?_
  rintro _ rfl
  have hself : (loadInto env st j a).state[a]? = some (accountAt env st j a) :=
    getElem?_loadInto_self env j a
  dsimp only
  split
  · next value hvalue => exact ReadOnly.pure ⟨Edits.load j a, _, hself, hvalue⟩
  · next hmiss =>
    refine ReadOnly.bind (readOnly_fetchSlot _ _ _) ?_
    rintro _ rfl
    refine ReadOnly.pure ⟨(Edits.load j a).nextLoad (.loadSlot hself hmiss), ?_⟩
    exact ⟨_, by rw [getElem?_set, if_pos rfl], Std.TreeMap.getElem?_insert_self⟩

/-- An account that is loaded stays as it is when another load follows. -/
theorem getElem?_loadInto_of_some {a : A} {account : Account H} (h : j.state[a]? = some account) :
    (loadInto env st j b).state[a]? = some account := by
  rw [getElem?_loadInto]
  split
  · next heq =>
    subst heq
    rw [accountAt, h, getD_some]
  · exact h

theorem readOnly_setCode (a : A) (code : Bytes) (j : Journal A H) (h : allowed (.setCode a)) :
    ReadOnly st (Edits env st allowed j) (setCode env a code j) := by
  refine ReadOnly.bind (readOnly_loadAccount a j) ?_
  rintro _ rfl
  dsimp only
  split
  · exact ReadOnly.pure (Edits.load j a)
  · exact ReadOnly.pure
      ((Edits.load j a).next h (.setCode code (getElem?_loadInto_self env j a)))

theorem readOnly_blockHash {ε : Type} (number : Nat) :
    ReadOnly st (fun _ => True) (blockHash env number : Prog A H ε Bytes) := by
  have hread : ReadOnly st (fun _ => True) (blockhashGet env number : Prog A H ε _) := trivial
  exact ReadOnly.bind hread fun _ _ => ReadOnly.ofOutcome.mono fun _ _ => trivial

theorem readOnly_calcDiffSize (tx : TxEnv A) (j : Journal A H) :
    ReadOnly st (fun _ => True) (calcDiffSize env tx j) := by
  have hnew : ∀ addresses : List A,
      ReadOnly st (fun _ => True) (newAccountSizes addresses : Prog A H EvmError Nat) := by
    intro addresses
    induction addresses with
    | nil => exact ReadOnly.pure trivial
    | cons a rest ih =>
      refine ReadOnly.bind (ReadOnly.bind (ReadOnly.read _) fun _ _ => ReadOnly.pure trivial)
        fun _ (_ : True) => ?_
      exact ReadOnly.bind ih fun _ _ => ReadOnly.pure trivial
  refine ReadOnly.bind ReadOnly.ofOutcome ?_
  rintro ⟨accounts, slots⟩ _
  exact ReadOnly.bind (hnew _) fun _ _ => ReadOnly.pure trivial

/-! ### Programs that track a relation of journals -/

variable (env st allowed) in
/-- A judgement, and a relation that the programs of a transaction keep between their journals. -/
structure Tracks (J : ∀ {ε α : Type}, (α → Prop) → Prog A H ε α → Prop)
    (R : Journal A H → Journal A H → Prop) : Prop extends StoreProg.Judgement J where
  refl : ∀ j, R j j
  trans : ∀ {j k l}, R j k → R k l → R j l
  edit : ∀ {action j k}, allowed action → action ≠ .load → (∀ a, action ≠ .setCode a) →
    Edit env st action j k → R j k
  loadAccount : ∀ (a : A) (j : Journal A H), J (fun r => R j r.2 ∧ r.2.state[a]? = some r.1 ∧
    ∀ (b : A) account, j.state[b]? = some account → r.2.state[b]? = some account)
    (loadAccount env a j)
  loadCode : ∀ a j, J (fun r => R j r.2) (loadCode env a j)
  sload : ∀ (a : A) (key : H) j, J (fun r => R j r.2 ∧ ∃ account, r.2.state[a]? = some account ∧
    ([TransOrd H] → account.storage[key]? = some r.1)) (sload env a key j)
  setCode : ∀ a code j, allowed (.setCode a) → J (R j) (setCode env a code j)
  blockHash : ∀ number, J (fun _ => True) (blockHash env number : Prog A H EvmError Bytes)
  calcDiffSize : ∀ tx j, J (fun _ => True) (calcDiffSize env tx j)

/-- A transaction that reads from the state `st` edits its journal. -/
theorem tracks_edits : Tracks env st allowed (ReadOnly st) (Edits env st allowed) where
  toJudgement := ReadOnly.judgement
  refl := Edits.refl
  trans := Edits.trans
  edit := fun hallowed _ _ hedit => (Edits.refl _).next hallowed hedit
  loadAccount := by
    intro a j
    refine (readOnly_loadAccount a j).mono ?_
    rintro _ rfl
    exact ⟨Edits.load j a, getElem?_loadInto_self env j a, fun b account hb =>
      getElem?_loadInto_of_some hb⟩
  loadCode := readOnly_loadCode allowed
  sload := readOnly_sload allowed
  setCode := readOnly_setCode
  blockHash := readOnly_blockHash
  calcDiffSize := readOnly_calcDiffSize

variable {J : ∀ {ε α : Type}, (α → Prop) → Prog A H ε α → Prop}
  {R : Journal A H → Journal A H → Prop} (hT : Tracks env st allowed J R)
include hT

/-- One more edit that neither loads an account nor sets code. -/
theorem Tracks.next {k l : Journal A H} {action : Action A H} (h : R j k)
    (hallowed : allowed action)
    (hload : action ≠ .load) (hcode : ∀ a, action ≠ .setCode a) (hedit : Edit env st action k l) :
    R j l :=
  hT.trans h (hT.edit hallowed hload hcode hedit)

/-- Two programs in a row, where the second one starts from the journal that the first one leaves.
-/
theorem Tracks.andThen {ε α β : Type} {p : Prog A H ε α} {q : α → Prog A H ε β}
    {f : α → Journal A H} {g : β → Journal A H} (hp : J (fun r => R j (f r)) p)
    (hq : ∀ r, J (fun s => R (f r) (g s)) (q r)) : J (fun s => R j (g s)) (p >>= q) :=
  hT.bind hp fun r hr => hT.mono (hq r) fun _ hs => hT.trans hr hs

theorem Tracks.load (a : A) (j : Journal A H) : J (fun r => R j r.2)
    (Spec.Evm.loadAccount env a j) :=
  hT.mono (hT.loadAccount a j) fun _ h => h.1

/-! ### Changes -/

theorem tracks_touch (a : A) (j : Journal A H) (h : allowed (.touch a)) :
    J (R j) (touch env a j) := by
  refine hT.bind (hT.loadAccount a j) ?_
  rintro ⟨account, j₁⟩ ⟨hload, hself, -⟩
  exact hT.pure (hT.next hload h nofun nofun (.touch hself))

/-- A transfer of nothing touches its target. -/
theorem tracks_transfer (src dst : A) (value : U256) (j : Journal A H)
    (htouch : value = 0 → allowed (.touch dst)) (h : allowed (.transfer src dst value)) :
    J (fun r => R j r.2) (transfer env src dst value j) := by
  rw [transfer]
  split
  · next hzero =>
    exact hT.bind (tracks_touch hT dst j (htouch hzero)) fun j' hj' => hT.pure hj'
  · refine hT.andThen (hT.load src j) fun ⟨_, j₁⟩ => hT.andThen (hT.load dst j₁) fun ⟨_, j₂⟩ => ?_
    dsimp only
    split
    · next moved hmoved =>
      exact hT.pure (hT.edit h nofun nofun (.transfer hmoved))
    · exact hT.pure (hT.refl j₂)

theorem tracks_createAccount (caller target : A) (value : U256) (j : Journal A H)
    (h : allowed (.createAccount caller target value)) :
    J (fun r => R j r.2) (createAccount env caller target value j) := by
  refine hT.andThen (hT.load caller j) fun ⟨_, j₁⟩ => hT.bind (hT.loadAccount target j₁) ?_
  rintro ⟨account, j₂⟩ ⟨hload, hself, -⟩
  dsimp only
  split
  · exact hT.pure hload
  · next hfree =>
    rw [not_or, ne_eq, ne_eq, Decidable.not_not, Decidable.not_not] at hfree
    split
    · next moved hmoved =>
      exact hT.pure (hT.next hload h nofun nofun (.createAccount hself hfree.1 hfree.2 hmoved))
    · exact hT.pure hload

theorem tracks_incNonce (a : A) (j : Journal A H) (h : allowed (.incNonce a)) :
    J (R j) (incNonce env a j) := by
  refine hT.bind (hT.loadAccount a j) ?_
  rintro ⟨account, j₁⟩ ⟨hload, hself, -⟩
  dsimp only
  split
  · exact hT.pure (hT.next hload h nofun nofun (.incNonce hself))
  · next hfull =>
    exact hT.pure (hT.next hload h nofun nofun (.fullNonce hself (by omega)))

theorem tracks_sstore (a : A) (key : H) (value : U256) (j : Journal A H)
    (h : allowed (.sstore a key value)) : J (R j) (sstore env a key value j) := by
  refine hT.bind (hT.sload a key j) ?_
  rintro ⟨present, j₁⟩ ⟨h₁, account, haccount, hpresent⟩
  refine hT.bind (hT.loadAccount a j₁) ?_
  rintro ⟨account', j₂⟩ ⟨h₂, hself, hkept⟩
  obtain rfl := some_unique (hkept a account haccount) hself
  have hloads : R j j₂ := hT.trans h₁ h₂
  dsimp only
  split
  · exact hT.pure hloads
  · have hloaded : [TransOrd H] → account.storage[key]? ≠ none := by
      intro
      rw [hpresent]
      exact some_ne_none _
    exact hT.pure (hT.next hloads h nofun nofun (.sstore hself hloaded))

omit hT in
theorem getElem?_payOut_ne_none (h : j.state[b]? ≠ none) (a target : A) (balance : U256) :
    (j.payOut a target balance).state[b]? ≠ none := by
  rw [Journal.payOut]
  split
  · exact h
  · cases hmove : j.moveBalance a target balance with
    | none => exact h
    | some moved =>
      obtain ⟨source, decreased, target', increased, -, -, -, -, rfl⟩ := moveBalance_eq_some hmove
      rw [getD_some, getElem?_set, getElem?_set]
      split
      · exact some_ne_none _
      · split
        · exact some_ne_none _
        · exact h

theorem tracks_selfdestruct (a target : A) (j : Journal A H)
    (h : allowed (.selfdestruct a target)) : J (R j) (selfdestruct env a target j) := by
  refine hT.bind (hT.loadAccount a j) ?_
  rintro ⟨account, j₁⟩ ⟨h₁, hself₁, -⟩
  refine hT.bind (hT.loadAccount target j₁) ?_
  rintro ⟨_, j₂⟩ ⟨h₂, htarget, hkept⟩
  have hloads : R j j₂ := hT.trans h₁ h₂
  have hself : j₂.state[a]? = some account := hkept a account hself₁
  replace htarget : j₂.state[target]? ≠ none := htarget ▸ some_ne_none _
  -- the account is still there after its balance was paid out
  obtain ⟨account', haccount'⟩ := ne_none_iff_exists'.mp
    (getElem?_payOut_ne_none (hself ▸ some_ne_none _) a target account.info.balance)
  dsimp only
  rw [loadAccount, haccount']
  show J (R j) (if account'.created = true then _ else _)
  split
  · next hcreated =>
    exact hT.pure (hT.next hloads h nofun nofun (.selfdestruct hself htarget haccount' hcreated))
  · show J (R j) (if a ≠ target then _ else _)
    split
    · next hne => exact hT.pure (hT.next hloads h nofun nofun (.sweep hself htarget hne))
    · next heq =>
      rw [Journal.payOut, if_pos (Decidable.not_not.mp heq)]
      exact hT.pure hloads

/-! ### The interpreter -/

omit hT

/-- Every action of a run of the interpreter is allowed, whatever it loads. -/
def Allows (allowed : Action A H → Prop) {limit : Nat} : Interp A H limit → Prop
  | .done _ _ _ => True
  | .loadAccount _ next => ∀ info, Allows allowed (next info)
  | .loadCode _ next => ∀ code, Allows allowed (next code)
  | .sload _ _ next => ∀ value, Allows allowed (next value)
  | .blockHash _ next => ∀ hash, Allows allowed (next hash)
  | .touch a next => allowed (.touch a) ∧ Allows allowed next
  | .transfer src dst value next =>
    (value = 0 → allowed (.touch dst)) ∧ allowed (.transfer src dst value) ∧
      ∀ moved, Allows allowed (next moved)
  | .createAccount caller target value next =>
    allowed (.createAccount caller target value) ∧ ∀ created, Allows allowed (next created)
  | .setCode a _ next => allowed (.setCode a) ∧ Allows allowed next
  | .incNonce a next => allowed (.incNonce a) ∧ Allows allowed next
  | .sstore a key value next => allowed (.sstore a key value) ∧ Allows allowed next
  | .selfdestruct a target next => allowed (.selfdestruct a target) ∧ Allows allowed next

/-- Every run is allowed, if every action of the interpreter is. -/
theorem allows_of_interpreter
    (hall : ∀ action, (∀ a, action ≠ .charge a) → (∀ a, action ≠ .delegate a) → allowed action)
    (p : Interp A H limit) : Allows allowed p := by
  induction p with
  | done success unused unused_le => trivial
  | loadAccount a next ih => exact ih
  | loadCode a next ih => exact ih
  | sload a key next ih => exact ih
  | blockHash number next ih => exact ih
  | touch a next ih => exact ⟨hall _ nofun nofun, ih⟩
  | transfer src dst value next ih => exact ⟨fun _ => hall _ nofun nofun, hall _ nofun nofun, ih⟩
  | createAccount caller target value next ih => exact ⟨hall _ nofun nofun, ih⟩
  | setCode a code next ih => exact ⟨hall _ nofun nofun, ih⟩
  | incNonce a next ih => exact ⟨hall _ nofun nofun, ih⟩
  | sstore a key value next ih => exact ⟨hall _ nofun nofun, ih⟩
  | selfdestruct a target next ih => exact ⟨hall _ nofun nofun, ih⟩

include hT

/-- A run of the interpreter is a sequence of edits, by induction on the run. -/
theorem tracks_execute (p : Interp A H limit) : ∀ (j : Journal A H),
    Allows allowed p → J (fun r => R j r.2) (p.execute env j) := by
  induction p with
  | done success unused unused_le => exact fun j _ => hT.pure (hT.refl j)
  | loadAccount a next ih =>
    exact fun j h => hT.andThen (hT.load a j) fun ⟨_, j₁⟩ => ih _ j₁ (h _)
  | loadCode a next ih =>
    exact fun j h => hT.andThen (hT.loadCode a j) fun ⟨_, j₁⟩ => ih _ j₁ (h _)
  | sload a key next ih =>
    refine fun j h => hT.andThen (hT.mono (hT.sload a key j) fun _ hs => hs.1) ?_
    exact fun ⟨_, j₁⟩ => ih _ j₁ (h _)
  | blockHash number next ih =>
    exact fun j h => hT.bind (hT.blockHash number) fun hash _ => ih hash j (h hash)
  | touch a next ih =>
    exact fun j h => hT.andThen (tracks_touch hT a j h.1) fun j₁ => ih j₁ h.2
  | transfer src dst value next ih =>
    refine fun j h => hT.andThen (tracks_transfer hT src dst value j h.1 h.2.1) ?_
    exact fun ⟨_, j₁⟩ => ih _ j₁ (h.2.2 _)
  | createAccount caller target value next ih =>
    refine fun j h => hT.andThen (tracks_createAccount hT caller target value j h.1) ?_
    exact fun ⟨_, j₁⟩ => ih _ j₁ (h.2 _)
  | setCode a code next ih =>
    exact fun j h => hT.andThen (hT.setCode a code j h.1) fun j₁ => ih j₁ h.2
  | incNonce a next ih =>
    exact fun j h => hT.andThen (tracks_incNonce hT a j h.1) fun j₁ => ih j₁ h.2
  | sstore a key value next ih =>
    exact fun j h => hT.andThen (tracks_sstore hT a key value j h.1) fun j₁ => ih j₁ h.2
  | selfdestruct a target next ih =>
    exact fun j h => hT.andThen (tracks_selfdestruct hT a target j h.1) fun j₁ => ih j₁ h.2

/-! ### The handler -/

/-- The actions of the handler are allowed: it charges the caller and pays the recipients of the
fees, and it delegates the authorities. -/
structure AllowsHandler (allowed : Action A H → Prop) : Prop where
  charge : ∀ a, allowed (.charge a)
  delegate : ∀ a, allowed (.delegate a)

theorem tracks_validateTxAgainstState (tx : TxEnv A) (j : Journal A H) :
    J (R j) (validateTxAgainstState env tx j) := by
  rw [validateTxAgainstState]
  split
  · refine hT.bind (hT.loadAccount _ j) ?_
    rintro ⟨_, j₁⟩ ⟨h₁, -⟩
    exact hT.bind hT.ofOutcome fun _ _ => hT.pure h₁
  · refine hT.andThen (hT.loadCode _ j) fun ⟨_, j₁⟩ => hT.andThen (hT.load _ j₁) fun ⟨_, j₂⟩ => ?_
    refine hT.bind hT.ofOutcome fun _ _ => ?_
    refine hT.bind hT.ofOutcome fun _ _ => ?_
    refine hT.bind hT.ofOutcome fun _ _ => ?_
    exact hT.bind hT.ofOutcome fun _ _ => hT.pure (hT.refl j₂)

theorem tracks_applyAuthList (hdelegate : ∀ a, allowed (.delegate a)) (chainId : Nat)
    (auths : List (Authorization A)) :
    ∀ j : Journal A H, J (R j) (applyAuthList env chainId auths j) := by
  induction auths with
  | nil => exact fun j => hT.pure (hT.refl j)
  | cons auth rest ih =>
    intro j
    have hfirst : J (R j) (applyAuthorization env chainId j auth) := by
      rw [applyAuthorization]
      split
      · exact hT.pure (hT.refl j)
      · cases auth.authority with
        | none => exact hT.pure (hT.refl j)
        | some authority =>
          refine hT.andThen (hT.loadCode authority j) fun ⟨_, j₁⟩ =>
            hT.bind (hT.loadAccount authority j₁) ?_
          rintro ⟨account, j₂⟩ ⟨hload, hself, -⟩
          dsimp only
          split
          · exact hT.pure hload
          · exact hT.pure (hT.next hload (hdelegate authority) nofun nofun
              (.delegate hself auth.address))
    exact hT.andThen hfirst ih

variable (hhandler : AllowsHandler allowed)
include hhandler

theorem tracks_deductCaller (block : BlockEnv A) (tx : TxEnv A) (j : Journal A H) :
    J (R j) (deductCaller env block tx j) := by
  refine hT.bind (hT.loadAccount _ j) ?_
  rintro ⟨account, j₁⟩ ⟨hload, hself, -⟩
  have hcharge := fun balance nonce => hT.next hload (hhandler.charge _) nofun nofun
    (.charge hself balance nonce true fun _ => rfl)
  dsimp only
  split
  all_goals exact hT.pure (hcharge _ _)

theorem tracks_preExecution (revm : Revm A H) (block : BlockEnv A) (tx : TxEnv A) :
    J (R .empty) (preExecution env revm block tx) := by
  refine hT.bind hT.ofOutcome fun _ _ => ?_
  refine hT.andThen (tracks_validateTxAgainstState hT tx _) fun j₁ => ?_
  exact hT.andThen (tracks_deductCaller hT hhandler block tx j₁)
    (tracks_applyAuthList hT hhandler.delegate _ _)

theorem tracks_increaseBalance (amount : U256) (a : A) (j : Journal A H) :
    J (R j) (increaseBalance env amount a j) := by
  refine hT.bind (hT.loadAccount a j) ?_
  rintro ⟨account, j₁⟩ ⟨hload, hself, -⟩
  exact hT.pure (hT.next hload (hhandler.charge a) nofun nofun
    (.charge hself _ _ true fun _ => rfl))

theorem tracks_decreaseBalance (amount : U256) (a : A) (j : Journal A H) :
    J (fun r => ∀ j', r = some j' → R j j') (decreaseBalance env amount a j) := by
  refine hT.bind (hT.loadAccount a j) ?_
  rintro ⟨account, j₁⟩ ⟨hload, hself, -⟩
  dsimp only
  split
  · exact hT.pure nofun
  · refine hT.pure fun j' hj' => ?_
    rw [← some.inj hj']
    exact hT.next hload (hhandler.charge a) nofun nofun (.charge hself _ _ true fun _ => rfl)

theorem tracks_reimburseCaller (block : BlockEnv A) (tx : TxEnv A) (unused : Nat)
    (j : Journal A H) : J (R j) (reimburseCaller env block tx unused j) := by
  rw [reimburseCaller]
  split
  · exact hT.pure (hT.refl j)
  · refine hT.bind (hT.loadAccount _ j) ?_
    rintro ⟨account, j₁⟩ ⟨hload, hself, -⟩
    exact hT.pure (hT.next hload (hhandler.charge _) nofun nofun (.charge hself _ _ _ id))

theorem tracks_rewardBeneficiary (block : BlockEnv A) (tx : TxEnv A) (gasUsed : Nat)
    (j : Journal A H) : J (R j) (rewardBeneficiary env block tx gasUsed j) := by
  rw [rewardBeneficiary]
  split
  · exact hT.pure (hT.refl j)
  · exact hT.andThen (tracks_increaseBalance hT hhandler _ _ j)
      (tracks_increaseBalance hT hhandler _ _)

theorem tracks_output (l1FeeRate : Nat) (tx : TxEnv A) (success : Bool) (gasUsed : Nat)
    (j : Journal A H) :
    J (fun r => r.success = success ∧ R j r.journal)
      (output env l1FeeRate tx success gasUsed j) := by
  refine hT.bind (hT.calcDiffSize tx j) fun size _ => ?_
  dsimp only
  split
  · exact hT.pure ⟨rfl, hT.refl j⟩
  · refine hT.bind (tracks_decreaseBalance hT hhandler _ tx.caller j) fun r hr => ?_
    cases r with
    | none => exact hT.mono hT.ofOutcome fun _ hok => absurd hok err_ne_ok
    | some j₁ =>
      refine hT.bind (tracks_increaseBalance hT hhandler _ _ j₁) fun j₂ h₂ => ?_
      exact hT.pure ⟨rfl, hT.trans (hr j₁ rfl) h₂⟩

theorem tracks_postExecution (block : BlockEnv A) (l1FeeRate : Nat) (tx : TxEnv A)
    (result : FrameResult tx.gasLimit) (j : Journal A H) :
    J (fun r => r.success = result.success ∧ R j r.journal)
      (postExecution env block l1FeeRate tx result j) := by
  refine hT.bind (tracks_reimburseCaller hT hhandler block tx _ j) fun j₁ h₁ => ?_
  refine hT.bind (tracks_rewardBeneficiary hT hhandler block tx _ j₁) fun j₂ h₂ => ?_
  exact hT.mono (tracks_output hT hhandler _ _ _ _ j₂) fun r hr =>
    ⟨hr.1, hT.trans (hT.trans h₁ h₂) hr.2⟩

/-- A transaction whose run has only allowed actions. -/
theorem tracks_transact (revm : Revm A H) (block : BlockEnv A) (l1FeeRate : Nat) (tx : TxEnv A)
    (h : Allows allowed (revm.interpret block tx)) :
    J (fun r => R .empty r.journal) (transact env revm block l1FeeRate tx) := by
  refine hT.andThen (tracks_preExecution hT hhandler revm block tx) fun j₁ => ?_
  refine hT.andThen (tracks_execute hT _ j₁ h) fun ⟨result, j₂⟩ => ?_
  exact hT.mono (tracks_postExecution hT hhandler block l1FeeRate tx result j₂) fun r hr => hr.2

end

section
variable {A H : Type} [Ord A] [Ord H] [TransOrd A] [LawfulEqOrd A] [DecidableEq A]
  [DecidableEq H] {env : EvmEnv A H}

/-- A transaction does not write to the state before it is committed. -/
theorem state_transact {τ : Type} {O : StoreProg.HintBackend H Bytecode τ} {revm : Revm A H}
    {block : BlockEnv A} {l1FeeRate : Nat} {tx : TxEnv A} {result : ResultAndState A H}
    {st st' : StateStore A H} {t t' : τ}
    (h : StoreProg.run StoreProg.mapStore O (transact env revm block l1FeeRate tx) st t =
      .ok (result, st', t')) : st' = st := by
  have hhandler : AllowsHandler fun _ : Action A H => True := ⟨fun _ => trivial, fun _ => trivial⟩
  exact ((tracks_transact tracks_edits hhandler revm block l1FeeRate tx
    (allows_of_interpreter (fun _ _ _ => trivial) _)).sound h).1

end

end Citrea.Proofs.Evm
