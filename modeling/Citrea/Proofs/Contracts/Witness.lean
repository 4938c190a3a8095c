import Citrea.Proofs.Contracts.Bridge

/-!
# `Citrea.Proofs.Contracts.Witness`: the witness parser of the bridge

A witness vector is a list of stacks. `WitnessStack` has a stack as it is serialized: the count of
its items, and each item behind the count of its bytes. `counts` says which bytes stand for a count,
so that the results hold for a library that takes the shortest form only, and for one that takes
longer forms as well. `ParsesCounts` is what the contracts expect of the library.

`stackLength_of_items` and `items_of_stackLength` are the two directions for the items of a stack.
The length of the last item is not compared with the end of the bytes there. `validateWitness` does
that for the whole vector at its end, and `stacks_of_validateStacks` carries this back to each item.
`witness_parsing` puts them together. A witness vector without stacks is refused.
-/

namespace Citrea.Proofs.Contracts

open List Citrea.Lib Citrea.Spec.Bitcoin Citrea.Spec.Contracts Citrea.Spec.Contracts.WitnessUtils

/-- The forms of counts: a form is one to nine bytes, a count is below `2 ^ 64`, and no form starts
another one. -/
structure CountForms (counts : Bytes → Nat → Prop) : Prop where
  length : ∀ {form : Bytes} {n : Nat}, counts form n → 1 ≤ form.length ∧ form.length ≤ 9
  value : ∀ {form : Bytes} {n : Nat}, counts form n → n < 2 ^ 64
  unique : ∀ {form form' rest rest' : Bytes} {n n' : Nat}, counts form n → counts form' n' →
    form ++ rest = form' ++ rest' → form = form' ∧ n = n'

/-- `parseVarIntAt` reads a count, or it signals a failure. -/
structure ParsesCounts (lib : SpvLibrary) (counts : Bytes → Nat → Prop) : Prop where
  forms : CountForms counts
  read : ∀ {b form rest : Bytes} {i n : Nat}, counts form n → b.drop i = form ++ rest →
    lib.parseVarIntAt b i = (form.length - 1, n)
  fail : ∀ {b : Bytes} {i : Nat}, (∀ form rest n, counts form n → b.drop i ≠ form ++ rest) →
    lib.parseVarIntAt b i = (errBadArg, 0)

/-- An item of a stack, with the form of its length. -/
structure WitnessItem (counts : Bytes → Nat → Prop) where
  form : Bytes
  data : Bytes
  counted : counts form data.length

/-- A stack, with the form of its number of items. -/
structure WitnessStack (counts : Bytes → Nat → Prop) where
  form : Bytes
  items : List (WitnessItem counts)
  counted : counts form items.length

section
variable {counts : Bytes → Nat → Prop} {b part rest : Bytes} {i : Nat}

/-- An item as it is serialized. -/
def WitnessItem.bytes (item : WitnessItem counts) : Bytes := item.form ++ item.data

/-- Items one after the other. -/
def itemsBytes (items : List (WitnessItem counts)) : Bytes := (items.map WitnessItem.bytes).flatten

/-- A stack as it is serialized. -/
def WitnessStack.bytes (stack : WitnessStack counts) : Bytes := stack.form ++ itemsBytes stack.items

/-- Stacks one after the other. -/
def stacksBytes (wits : List (WitnessStack counts)) : Bytes :=
  (wits.map WitnessStack.bytes).flatten

theorem itemsBytes_cons (item : WitnessItem counts) (items : List (WitnessItem counts)) :
    itemsBytes (item :: items) = item.bytes ++ itemsBytes items := rfl

theorem stacksBytes_cons (stack : WitnessStack counts) (wits : List (WitnessStack counts)) :
    stacksBytes (stack :: wits) = stack.bytes ++ stacksBytes wits := rfl

theorem checkedAdd_eq_ok {a b c : Nat} : checkedAdd a b = .ok c ↔ a + b < 2 ^ 256 ∧ c = a + b := by
  rw [checkedAdd]
  split
  · next h => rw [pure_eq_ok, and_iff_right h, eq_comm]
  · next h => exact ⟨fun hpanic => absurd hpanic panic_ne_ok, fun hok => absurd hok.1 h⟩

/-- The bytes from a position on move past a part that is read. -/
theorem drop_of_append (h : b.drop i = part ++ rest) : b.drop (i + part.length) = rest := by
  rw [← drop_drop, h, drop_left]

/-- A part that is read is inside the bytes. -/
theorem le_of_drop (h : b.drop i = part ++ rest) (hne : part ≠ []) :
    i + part.length ≤ b.length := by
  have hlength := congrArg List.length h
  rw [length_drop, length_append] at hlength
  have hpos := length_pos_of_ne_nil hne
  omega

/-- A loop that moves past one part at each turn ends behind all the parts. -/
theorem walk_parts {α : Type} {bytes : α → Bytes} {walk : Nat → Nat → Call Nat} {start : Nat}
    (hzero : ∀ offset, walk 0 offset = .ok offset)
    (hstep : ∀ n offset part rest, b.drop (start + offset) = bytes part ++ rest →
      walk (n + 1) offset = walk n (offset + (bytes part).length))
    (parts : List α) {offset : Nat}
    (h : b.drop (start + offset) = (parts.map bytes).flatten ++ rest) :
    walk parts.length offset = .ok (offset + (parts.map bytes).flatten.length) := by
  induction parts generalizing offset with
  | nil => exact hzero offset
  | cons part parts ih =>
    rw [map_cons, flatten_cons, append_assoc] at h
    have hrest := drop_of_append h
    rw [Nat.add_assoc] at hrest
    rw [length_cons, hstep _ _ _ _ h, ih hrest, map_cons, flatten_cons,
      length_append, Nat.add_assoc]

variable {lib : SpvLibrary} {b rest : Bytes} {i n offset start len : Nat}
  {stack : WitnessStack counts} {wits : List (WitnessStack counts)}

variable (hlib : ParsesCounts lib counts)
include hlib

/-- A count that is parsed has a form at the position. -/
theorem ParsesCounts.form (h : (lib.parseVarIntAt b i).1 ≠ errBadArg) :
    ∃ form rest n, counts form n ∧ b.drop i = form ++ rest ∧
      lib.parseVarIntAt b i = (form.length - 1, n) := by
  by_contra hnone
  refine h (congrArg Prod.fst (hlib.fail fun form rest n hcount hdrop => hnone ?_))
  exact ⟨form, rest, n, hcount, hdrop, hlib.read hcount hdrop⟩

theorem ParsesCounts.ne_errBadArg {form : Bytes}
    (h : counts form n) : form.length - 1 ≠ errBadArg := by
  have hlength := hlib.forms.length h
  rw [errBadArg]
  omega

/-- `1 + _varIntDataLen + _itemLen` is the length of the item with its count. -/
theorem afterItem_eq_ok {form : Bytes} {next : Nat}
    (h : counts form n) : afterItem offset (form.length - 1) n = .ok next ↔
      offset + (form.length + n) < 2 ^ 256 ∧ next = offset + (form.length + n) := by
  have hlength := hlib.forms.length h
  simp only [afterItem, bind_eq_ok, checkedAdd_eq_ok]
  constructor
  · rintro ⟨first, ⟨-, rfl⟩, size, ⟨-, rfl⟩, hsum, rfl⟩
    omega
  · rintro ⟨hsum, rfl⟩
    exact ⟨_, ⟨by omega, rfl⟩, _, ⟨by omega, rfl⟩, by omega, by omega⟩

/-! ### The items of a stack -/

omit hlib in
theorem stackLength_succ (b : Bytes) (start n offset : Nat) :
    stackLength lib b start (n + 1) offset = (do
      let position ← checkedAdd start offset
      if (lib.parseVarIntAt b position).1 = errBadArg then pure errBadArg
      else do
        let next ← afterItem offset (lib.parseVarIntAt b position).1
          (lib.parseVarIntAt b position).2
        stackLength lib b start n next) := rfl

/-- An item that is there is inside the bytes, and the sum behind it does not overflow. -/
theorem afterItem_of_item (hb : b.length < 2 ^ 256) (item : WitnessItem counts)
    (h : b.drop (start + offset) = item.bytes ++ rest) : start + offset < 2 ^ 256 ∧
      afterItem offset (item.form.length - 1) item.data.length =
        .ok (offset + item.bytes.length) := by
  have hlength := hlib.forms.length item.counted
  have hbytes : item.bytes.length = item.form.length + item.data.length := length_append
  have hinside := le_of_drop h (ne_nil_of_length_pos (by omega))
  exact ⟨by omega, (afterItem_eq_ok hlib item.counted).mpr ⟨by omega, by omega⟩⟩

/-- The loop over the items that are there. -/
theorem stackLength_of_items (hb : b.length < 2 ^ 256)
    (items : List (WitnessItem counts)) (h : b.drop (start + offset) = itemsBytes items ++ rest) :
    stackLength lib b start items.length offset = .ok (offset + (itemsBytes items).length) := by
  refine walk_parts (fun _ => rfl) (fun n offset item rest h => ?_) items h
  obtain ⟨hposition, hnext⟩ := afterItem_of_item hlib hb item h
  rw [WitnessItem.bytes, append_assoc] at h
  rw [stackLength_succ, checkedAdd_eq_ok.mpr ⟨hposition, rfl⟩]
  show (if (lib.parseVarIntAt b (start + offset)).1 = errBadArg then _ else _) = _
  rw [hlib.read item.counted h, if_neg (hlib.ne_errBadArg item.counted), hnext]
  rfl

/-- The loop never goes back. -/
theorem le_stackLength
    (h : stackLength lib b start n offset = .ok len) (hlen : len ≠ errBadArg) : offset ≤ len := by
  induction n generalizing offset with
  | zero => exact Nat.le_of_eq (pure_eq_ok.mp h)
  | succ n ih =>
    rw [stackLength_succ, bind_eq_ok] at h
    obtain ⟨position, -, h⟩ := h
    split at h
    · exact absurd (pure_eq_ok.mp h).symm hlen
    · next hread =>
      obtain ⟨form, rest, itemLen, hcount, -, hparse⟩ := hlib.form hread
      rw [hparse, bind_eq_ok] at h
      obtain ⟨next, hnext, h⟩ := h
      have hsum := ((afterItem_eq_ok hlib hcount).mp hnext).2
      have hle := ih h
      omega

/-- What the loop walked over are items, if their end is inside the bytes. -/
theorem items_of_stackLength
    (h : stackLength lib b start n offset = .ok len) (hlen : len ≠ errBadArg)
    (hinside : start + len ≤ b.length) : ∃ items : List (WitnessItem counts), items.length = n ∧
      b.drop (start + offset) = itemsBytes items ++ b.drop (start + len) := by
  induction n generalizing offset with
  | zero =>
    obtain rfl := pure_eq_ok.mp h
    exact ⟨[], rfl, rfl⟩
  | succ n ih =>
    rw [stackLength_succ, bind_eq_ok] at h
    obtain ⟨position, hposition, h⟩ := h
    obtain ⟨-, rfl⟩ := checkedAdd_eq_ok.mp hposition
    split at h
    · exact absurd (pure_eq_ok.mp h).symm hlen
    · next hread =>
      obtain ⟨form, rest, itemLen, hcount, hdrop, hparse⟩ := hlib.form hread
      rw [hparse, bind_eq_ok] at h
      obtain ⟨next, hnext, h⟩ := h
      obtain ⟨-, rfl⟩ := (afterItem_eq_ok hlib hcount).mp hnext
      have hle := le_stackLength hlib h hlen
      obtain ⟨items, hitems, hdropItems⟩ := ih h
      -- The end of the item is before the end of the stack, so its bytes are there.
      have hrest := drop_of_append hdrop
      have hlength := congrArg List.length hrest
      rw [length_drop] at hlength
      have hdata : (rest.take itemLen).length = itemLen := by
        rw [length_take]
        omega
      refine ⟨⟨form, rest.take itemLen, by rwa [hdata]⟩ :: items, by rw [length_cons, hitems],
        ?_⟩
      rw [itemsBytes_cons, WitnessItem.bytes, append_assoc, append_assoc, ← hdropItems,
        hdrop]
      have hafter : b.drop (start + (offset + (form.length + itemLen))) = rest.drop itemLen := by
        rw [← hrest, drop_drop]
        congr 1
        omega
      rw [hafter, take_append_drop]

/-! ### A stack in a witness vector -/

omit hlib in
theorem determineWitnessLengthAt_eq (b : Bytes) (start : Nat) :
    determineWitnessLengthAt lib b start =
      if (lib.parseVarIntAt b start).1 = errBadArg then pure errBadArg else (do
        let offset ← checkedAdd 1 (lib.parseVarIntAt b start).1
        stackLength lib b start (lib.parseVarIntAt b start).2 offset) := rfl

theorem length_stack_pos (stack : WitnessStack counts) : 1 ≤ stack.bytes.length := by
  have hlength := hlib.forms.length stack.counted
  rw [WitnessStack.bytes, length_append]
  omega

/-- The length of a stack that is there. -/
theorem determineWitnessLengthAt_of_stack (hb : b.length < 2 ^ 256) (stack : WitnessStack counts)
    (h : b.drop start = stack.bytes ++ rest) :
    determineWitnessLengthAt lib b start = .ok stack.bytes.length := by
  rw [WitnessStack.bytes, append_assoc] at h
  have hlength := hlib.forms.length stack.counted
  have hitems := drop_of_append h
  rw [determineWitnessLengthAt_eq, hlib.read stack.counted h,
    if_neg (hlib.ne_errBadArg stack.counted), bind_eq_ok]
  refine ⟨stack.form.length, checkedAdd_eq_ok.mpr ⟨by omega, by omega⟩, ?_⟩
  rw [stackLength_of_items hlib hb stack.items hitems, WitnessStack.bytes, length_append]

/-- What has a length is a stack, if its end is inside the bytes. -/
theorem stack_of_determineWitnessLengthAt
    (h : determineWitnessLengthAt lib b start = .ok len) (hlen : len ≠ errBadArg)
    (hinside : start + len ≤ b.length) :
    ∃ stack : WitnessStack counts, b.drop start = stack.bytes ++ b.drop (start + len) := by
  rw [determineWitnessLengthAt_eq] at h
  split at h
  · exact absurd (pure_eq_ok.mp h).symm hlen
  · next hread =>
    obtain ⟨form, rest, n, hcount, hdrop, hparse⟩ := hlib.form hread
    rw [hparse, bind_eq_ok] at h
    obtain ⟨offset, hoffset, h⟩ := h
    have hlength := hlib.forms.length hcount
    obtain ⟨-, rfl⟩ := checkedAdd_eq_ok.mp hoffset
    obtain ⟨items, hitems, hdropItems⟩ := items_of_stackLength hlib h hlen hinside
    refine ⟨⟨form, items, by rwa [hitems]⟩, ?_⟩
    rw [WitnessStack.bytes, append_assoc, ← hdropItems, hdrop]
    have hposition : start + (1 + (form.length - 1)) = start + form.length := by omega
    rw [hposition, drop_of_append hdrop]

/-! ### The witness vector -/

omit hlib in
theorem validateStacks_succ (b : Bytes) (n offset : Nat) : validateStacks lib b (n + 1) offset =
      if b.length ≤ offset then pure false else (do
        let nextLen ← determineWitnessLengthAt lib b offset
        if nextLen = errBadArg then pure false else do
          let next ← checkedAdd offset nextLen
          validateStacks lib b n next) := rfl

theorem validateStacks_of_stacks (hb : b.length < errBadArg)
    (wits : List (WitnessStack counts)) (h : b.drop offset = stacksBytes wits)
    (hoffset : offset ≤ b.length) : validateStacks lib b wits.length offset = .ok true := by
  induction wits generalizing offset with
  | nil =>
    have hlength := congrArg List.length h
    rw [length_drop] at hlength
    have hend : offset = b.length := by
      change b.length - offset = 0 at hlength
      omega
    rw [length_nil, validateStacks, hend, beq_self_eq_true]
    rfl
  | cons stack wits ih =>
    rw [stacksBytes_cons] at h
    have hpos := length_stack_pos hlib stack
    have hinside := le_of_drop h (ne_nil_of_length_pos (by omega))
    have herr : errBadArg = 2 ^ 256 - 1 := rfl
    rw [length_cons, validateStacks_succ, if_neg (by omega), bind_eq_ok]
    refine ⟨_, determineWitnessLengthAt_of_stack hlib (by omega) stack h, ?_⟩
    rw [if_neg (by omega), bind_eq_ok]
    exact ⟨_, checkedAdd_eq_ok.mpr ⟨by omega, rfl⟩, ih (drop_of_append h) hinside⟩

omit hlib in
/-- An accepted vector ends where its bytes end, so the offset is inside them at each step. -/
theorem le_of_validateStacks (h : validateStacks lib b n offset = .ok true) :
    offset ≤ b.length := by
  cases n with
  | zero =>
    have hend : (offset == b.length) = true := pure_eq_ok.mp h
    exact Nat.le_of_eq (beq_iff_eq.mp hend)
  | succ n =>
    rw [validateStacks_succ] at h
    split at h
    · cases pure_eq_ok.mp h
    · omega

theorem stacks_of_validateStacks (h : validateStacks lib b n offset = .ok true) :
    ∃ wits : List (WitnessStack counts), wits.length = n ∧ b.drop offset = stacksBytes wits := by
  induction n generalizing offset with
  | zero =>
    have hend : (offset == b.length) = true := pure_eq_ok.mp h
    exact ⟨[], rfl, drop_eq_nil_of_le (Nat.le_of_eq (beq_iff_eq.mp hend).symm)⟩
  | succ n ih =>
    rw [validateStacks_succ] at h
    split at h
    · cases pure_eq_ok.mp h
    · rw [bind_eq_ok] at h
      obtain ⟨len, hlen, h⟩ := h
      split at h
      · cases pure_eq_ok.mp h
      · next hne =>
        rw [bind_eq_ok] at h
        obtain ⟨next, hnext, h⟩ := h
        obtain ⟨-, rfl⟩ := checkedAdd_eq_ok.mp hnext
        obtain ⟨stack, hstack⟩ :=
          stack_of_determineWitnessLengthAt hlib hlen hne (le_of_validateStacks h)
        obtain ⟨wits, hwits, hrest⟩ := ih h
        exact ⟨stack :: wits, by rw [length_cons, hwits], by rw [hstack, hrest]; rfl⟩

/-! ### The parts of a witness vector -/

theorem stackLengthAt_of_stack (hb : b.length < errBadArg)
    (stack : WitnessStack counts) (h : b.drop start = stack.bytes ++ rest) :
    stackLengthAt lib b start = .ok stack.bytes.length := by
  have hpos := length_stack_pos hlib stack
  have hinside := le_of_drop h (ne_nil_of_length_pos (by omega))
  have herr : errBadArg = 2 ^ 256 - 1 := rfl
  simp only [stackLengthAt, require, bind_eq_ok, ensure_eq_ok, pure_eq_ok]
  exact ⟨_, determineWitnessLengthAt_of_stack hlib (by omega) stack h, (), by omega, rfl⟩

theorem skipStacks_of_stacks (hb : b.length < errBadArg)
    (wits : List (WitnessStack counts)) (h : b.drop (0 + offset) = stacksBytes wits ++ rest) :
    skipStacks lib b wits.length offset = .ok (offset + (stacksBytes wits).length) := by
  refine walk_parts (fun _ => rfl) (fun n offset stack rest h => ?_) wits h
  rw [Nat.zero_add] at h
  have hpos := length_stack_pos hlib stack
  have hinside := le_of_drop h (ne_nil_of_length_pos (by omega))
  have herr : errBadArg = 2 ^ 256 - 1 := rfl
  rw [skipStacks, stackLengthAt_of_stack hlib hb stack h]
  show (checkedAdd _ _ >>= _) = _
  rw [checkedAdd_eq_ok.mpr ⟨by omega, rfl⟩]
  rfl

omit hlib in
theorem slice_of_drop {part : Bytes} (h : b.drop i = part ++ rest) :
    slice b i part.length = .ok part := by
  rw [slice]
  by_cases hzero : part.length = 0
  · rw [if_pos hzero, eq_nil_of_length_eq_zero hzero]
    rfl
  · have hinside := le_of_drop h (ne_nil_of_length_pos (by omega))
    rw [if_neg hzero, if_pos hinside, h, take_left]
    rfl

omit hlib in
/-- A list is cut before one of its entries. -/
theorem split_at_index {α : Type} {l : List α} {a : α} (h : l[i]? = some a) :
    l = l.take i ++ a :: l.drop (i + 1) ∧ (l.take i).length = i := by
  obtain ⟨hlt, rfl⟩ := List.getElem?_eq_some_iff.mp h
  refine ⟨?_, by rw [length_take]; omega⟩
  rw [getElem_cons_drop, take_append_drop]

theorem extractWitnessAtIndex_of_stacks
    (hb : (stacksBytes wits).length < errBadArg) (h : wits[i]? = some stack) :
    extractWitnessAtIndex lib (stacksBytes wits) i = .ok stack.bytes := by
  obtain ⟨hsplit, hlength⟩ := split_at_index h
  have hbytes : stacksBytes wits =
      stacksBytes (wits.take i) ++ (stack.bytes ++ stacksBytes (wits.drop (i + 1))) := by
    conv_lhs => rw [hsplit]
    rw [stacksBytes, map_append, flatten_append]
    rfl
  have hskip : skipStacks lib (stacksBytes wits) (wits.take i).length 0 =
      .ok (0 + (stacksBytes (wits.take i)).length) :=
    skipStacks_of_stacks hlib hb (wits.take i) hbytes
  rw [hlength, Nat.zero_add] at hskip
  have hdrop : (stacksBytes wits).drop (stacksBytes (wits.take i)).length =
      stack.bytes ++ stacksBytes (wits.drop (i + 1)) := by
    conv_lhs => rw [hbytes]
    exact drop_left
  simp only [extractWitnessAtIndex, bind_eq_ok]
  exact ⟨_, hskip, _, stackLengthAt_of_stack hlib hb stack hdrop, slice_of_drop hdrop⟩

omit hlib in
theorem length_stack_le (h : wits[i]? = some stack) :
    stack.bytes.length ≤ (stacksBytes wits).length :=
  List.Sublist.length_le (sublist_flatten_of_mem
    (mem_map_of_mem (mem_of_getElem? h)))

theorem itemAt_of_item (item : WitnessItem counts) (h : b.drop start = item.bytes ++ rest) :
    itemAt lib b start = .ok (item.form.length - 1, item.data.length) := by
  rw [WitnessItem.bytes, append_assoc] at h
  show (require ((lib.parseVarIntAt b start).1 ≠ errBadArg) _ >>= fun _ =>
    pure ((lib.parseVarIntAt b start).1, (lib.parseVarIntAt b start).2)) = _
  rw [hlib.read item.counted h, bind_eq_ok]
  exact ⟨(), ensure_eq_ok.mpr (hlib.ne_errBadArg item.counted), rfl⟩

theorem skipItems_of_items (hb : b.length < 2 ^ 256)
    (items : List (WitnessItem counts)) (h : b.drop (0 + offset) = itemsBytes items ++ rest) :
    skipItems lib b items.length offset = .ok (offset + (itemsBytes items).length) := by
  refine walk_parts (fun _ => rfl) (fun n offset item rest h => ?_) items h
  obtain ⟨-, hnext⟩ := afterItem_of_item hlib hb item h
  rw [Nat.zero_add] at h
  rw [skipItems, itemAt_of_item hlib item h]
  show (afterItem _ _ _ >>= _) = _
  rw [hnext]
  rfl

omit hlib in
theorem extractItemFromWitness_eq (b : Bytes) (index : Nat) :
    extractItemFromWitness lib b index = (do
      require ((lib.parseVarInt b).1 ≠ errBadArg) "Read overrun during VarInt parsing"
      require (index < (lib.parseVarInt b).2) "Witness read overrun"
      let start ← checkedAdd 1 (lib.parseVarInt b).1
      let offset ← skipItems lib b index start
      let item ← itemAt lib b offset
      let size ← checkedAdd item.2 item.1
      let length ← checkedAdd size 1
      slice b offset length) := rfl

/-- The number of items of a stack. -/
theorem parseVarInt_of_stack (stack : WitnessStack counts) :
    lib.parseVarInt stack.bytes = (stack.form.length - 1, stack.items.length) := by
  have hfront : stack.bytes.drop 0 = stack.form ++ itemsBytes stack.items := rfl
  exact hlib.read stack.counted hfront

theorem extractItemFromWitness_of_stack
    (hb : stack.bytes.length < 2 ^ 256) {j : Nat} {item : WitnessItem counts}
    (h : stack.items[j]? = some item) :
    extractItemFromWitness lib stack.bytes j = .ok item.bytes := by
  obtain ⟨hsplit, hlength⟩ := split_at_index h
  obtain ⟨hj, -⟩ := List.getElem?_eq_some_iff.mp h
  have hform := hlib.forms.length stack.counted
  have hitem := hlib.forms.length item.counted
  have hitems : itemsBytes stack.items =
      itemsBytes (stack.items.take j) ++ (item.bytes ++ itemsBytes (stack.items.drop (j + 1))) := by
    conv_lhs => rw [hsplit]
    rw [itemsBytes, map_append, flatten_append]
    rfl
  have hbehind : stack.bytes.drop stack.form.length = itemsBytes stack.items := drop_left
  have hskip := skipItems_of_items hlib hb (stack.items.take j)
    ((congrArg stack.bytes.drop (Nat.zero_add _)).trans (hbehind.trans hitems))
  rw [hlength] at hskip
  have hdrop := drop_of_append (hbehind.trans hitems)
  have hbytes : item.bytes.length = item.form.length + item.data.length := length_append
  have hinside := le_of_drop hdrop (ne_nil_of_length_pos (by omega))
  rw [extractItemFromWitness_eq, parseVarInt_of_stack hlib]
  simp only [require, bind_eq_ok, ensure_eq_ok, checkedAdd_eq_ok]
  refine ⟨(), hlib.ne_errBadArg stack.counted, (), hj, stack.form.length, ⟨by omega, by omega⟩, _,
    hskip, _, itemAt_of_item hlib item hdrop, _, ⟨by omega, rfl⟩, item.bytes.length,
    ⟨by omega, by omega⟩, slice_of_drop hdrop⟩

/-! ### The parser -/

omit hlib

/-- For every witness vector and every number of stacks that is not 0: `validateWitness` accepts the
vector exactly if it is that many stacks and nothing more. Then `extractWitnessAtIndex` returns each
stack, and `extractItemFromWitness` returns each item of a stack with its count. No vector is
accepted as one of 0 stacks. The bound on the length is that of a `bytes` value in memory. -/
theorem witness_parsing (hlib : ParsesCounts lib counts) (b : Bytes) (hb : b.length < errBadArg) :
    validateWitness lib b 0 = .ok false ∧ ∀ n, n ≠ 0 → (validateWitness lib b n = .ok true ↔
        ∃ wits : List (WitnessStack counts), wits.length = n ∧ b = stacksBytes wits) ∧
      ∀ wits : List (WitnessStack counts), wits.length = n → b = stacksBytes wits →
        ∀ (i : Nat) (stack : WitnessStack counts), wits[i]? = some stack →
          extractWitnessAtIndex lib b i = .ok stack.bytes ∧
          ∀ (j : Nat) (item : WitnessItem counts), stack.items[j]? = some item →
            extractItemFromWitness lib stack.bytes j = .ok item.bytes := by
  refine ⟨rfl, fun n hn => ⟨?_, ?_⟩⟩
  · rw [validateWitness, if_neg hn]
    constructor
    · intro h
      obtain ⟨wits, hwits, hbytes⟩ := stacks_of_validateStacks hlib h
      exact ⟨wits, hwits, hbytes⟩
    · rintro ⟨wits, rfl, rfl⟩
      exact validateStacks_of_stacks hlib hb wits rfl (by omega)
  · rintro wits - rfl i stack hstack
    refine ⟨extractWitnessAtIndex_of_stacks hlib hb hstack, fun j item hitem => ?_⟩
    refine extractItemFromWitness_of_stack hlib ?_ hitem
    have hle := length_stack_le hstack
    have herr : errBadArg = 2 ^ 256 - 1 := rfl
    omega

end

/-! ### A library that reads counts by their first byte -/

/-- The number of bytes behind the first byte of a count. -/
def dataLength (flag : UInt8) : Nat :=
  if flag = 0xff then 8 else if flag = 0xfe then 4 else if flag = 0xfd then 2 else 0

/-- The forms of a count, also those that are longer than needed. -/
def countForms (form : Bytes) (n : Nat) : Prop :=
  ∃ flag data, form = flag :: data ∧ data.length = dataLength flag ∧
    n = if dataLength flag = 0 then flag.toNat else ofLeBytes data

/-- `parseVarIntAt`, with a failure for a position behind the end. -/
def readCountAt (b : Bytes) (i : Nat) : Nat × Nat :=
  match b.drop i with
  | [] => (errBadArg, 0)
  | flag :: rest =>
    if rest.length < dataLength flag then (errBadArg, 0)
    else (dataLength flag, if dataLength flag = 0 then flag.toNat
      else ofLeBytes (rest.take (dataLength flag)))

/-- A library with this parser. -/
def countLib : SpvLibrary := { sampleLib with parseVarIntAt := readCountAt }

theorem dataLength_le (flag : UInt8) : dataLength flag ≤ 8 := by
  rw [dataLength]
  split
  · omega
  · split
    · omega
    · split <;> omega

theorem countForms_forms : CountForms countForms where
  length := by
    rintro form n ⟨flag, data, rfl, hdata, -⟩
    have hle := dataLength_le flag
    rw [length_cons]
    omega
  value := by
    rintro form n ⟨flag, data, -, hdata, rfl⟩
    split
    · exact Nat.lt_trans flag.toNat_lt (by decide)
    · have hlt := ofLeBytes_lt data
      have hpow : 256 ^ data.length ≤ 256 ^ 8 :=
        Nat.pow_le_pow_right (by decide) (hdata ▸ dataLength_le flag)
      omega
  unique := by
    rintro form form' rest rest' n n' ⟨flag, data, rfl, hdata, rfl⟩
      ⟨flag', data', rfl, hdata', rfl⟩ h
    rw [cons_append, cons_append, List.cons.injEq] at h
    obtain ⟨rfl, h⟩ := h
    obtain ⟨rfl, -⟩ := append_inj h (hdata.trans hdata'.symm)
    exact ⟨rfl, rfl⟩

theorem countLib_parses : ParsesCounts countLib countForms where
  forms := countForms_forms
  read := by
    rintro b form rest i n ⟨flag, data, rfl, hdata, rfl⟩ h
    show readCountAt b i = _
    rw [readCountAt, h, cons_append]
    dsimp only
    rw [if_neg (by rw [length_append]; omega), take_left' hdata, length_cons, hdata]
    rfl
  fail := by
    intro b i hnone
    show readCountAt b i = _
    rw [readCountAt]
    split
    · rfl
    · next flag rest hdrop =>
      split
      · rfl
      · next hle =>
        refine absurd ?_
          (hnone (flag :: rest.take (dataLength flag)) (rest.drop (dataLength flag)) _
          ⟨flag, _, rfl, by rw [length_take]; omega, rfl⟩)
        rw [hdrop, cons_append, take_append_drop]

/-- An empty vector is 0 stacks one after the other, and it is refused. -/
theorem validateWitness_refuses_no_stacks : ParsesCounts countLib countForms ∧
    validateWitness countLib [] 0 = .ok false ∧
    ∃ wits : List (WitnessStack countForms), wits.length = 0 ∧ [] = stacksBytes wits :=
  ⟨countLib_parses, rfl, [], rfl, rfl⟩

/-- A vector of one stack, with an item of one byte and an empty item. -/
def sampleStack : WitnessStack countForms where
  form := [2]
  items := [⟨[1], [7], ⟨1, [], rfl, by decide, by decide⟩⟩,
    ⟨[0], [], ⟨0, [], rfl, by decide, by decide⟩⟩]
  counted := ⟨2, [], rfl, by decide, by decide⟩

theorem sampleStack_parsing :
    ParsesCounts countLib countForms ∧ ([2, 1, 7, 0] : Bytes).length < errBadArg ∧
    validateWitness countLib [2, 1, 7, 0] 1 = .ok true ∧
    extractItemFromWitness countLib [2, 1, 7, 0] 0 = .ok [1, 7] := by
  have hb : ([2, 1, 7, 0] : Bytes).length < errBadArg := by decide
  obtain ⟨-, hparsing⟩ := witness_parsing countLib_parses [2, 1, 7, 0] hb
  obtain ⟨haccept, hparts⟩ := hparsing 1 (by decide)
  obtain ⟨-, hitems⟩ := hparts [sampleStack] rfl rfl 0 sampleStack rfl
  exact ⟨countLib_parses, hb, haccept.mpr ⟨[sampleStack], rfl, rfl⟩, hitems 0 _ rfl⟩

end Citrea.Proofs.Contracts
