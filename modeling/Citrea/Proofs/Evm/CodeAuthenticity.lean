import Citrea.Proofs.Evm.Code
import Citrea.Proofs.Evm.Conservation
import Citrea.Proofs.Storage.Soundness

/-!
# `Citrea.Proofs.Evm.CodeAuthenticity`: contract code in a run of the guest

`code_by_hash` compares the hash of the bytes of a code that comes from the witness, but not the
padding and the jump table that come with them. It does not compare a code that comes from the
cache. `commit` looks a new code up before it writes it, and the value that it finds is not compared
with anything. So the cache holds the code of a hash exactly as long as the witness does not lie
about these two (`HonestHints`).

`code_authentic` is the positive result, for every run with such witnesses. That the bytes have the
hash is what the check in `code_by_hash` gives. `forged_code_is_executed` is a run of two blocks in
which the witness lies once. The second block calls the contract that the first one deployed, and
gets another code.
-/

set_option linter.unusedSectionVars false

namespace Citrea.Proofs.Evm

open List Lib
open Lib.StoreProg (run trace Guarded)
open Lib.StoreProg.Guarded (OutsideGood)
open Spec.Bitcoin (Bytes32)
open Spec.BatchProof Spec.Evm Spec.Storage Proofs.BatchProof Proofs.Storage
open Std (TransOrd LawfulEqOrd)

section
variable {A H : Type} [DecidableEq H] (env : EvmEnv A H)

/-- A run of `code_by_hash` returns `code` for the hash `h`: it gets a hint, and makes `code` of it.
-/
def CodeReturned (events : List (Event (StateKey.Value (A := A) (H := H)) H Bytecode)) (h : H)
    (code : Bytecode) : Prop :=
  ∃ w cached, .gotHint true h w cached ∈ events ∧ codeOfHint env h (w, cached) = .ok code

/-- What the witness must not lie about. A code that `commit` finds outside the cache is the code of
its hash. A code outside the cache whose bytes have the hash that `code_by_hash` looks for has the
padding and the jump table of these bytes. -/
structure HonestHints (events : List (Event (StateKey.Value (A := A) (H := H)) H Bytecode)) :
    Prop where
  commit : ∀ h code, .gotHint false h (some code) false ∈ events → IsCode env h code
  analysis : ∀ h code bytes, .gotHint true h (some code) false ∈ events →
    code.originalByteSlice = some bytes → env.keccak256 bytes = h → code = analyse env bytes

/-- The hints from outside that are not refused are codes of their hashes. -/
theorem HonestHints.outsideGood {env : EvmEnv A H}
    {events : List (Event (StateKey.Value (A := A) (H := H)) H Bytecode)}
    (h : HonestHints env events) : OutsideGood (codeRule env) events := by
  intro checked c code hmem haccepts
  cases checked with
  | false => exact h.commit c code hmem
  | true =>
    obtain ⟨bytes, hbytes, hhash⟩ := haccepts rfl
    exact ⟨bytes, hhash, h.analysis c code bytes hmem hbytes hhash⟩

end

section
variable {A H R Tx Key Proof UpdateProof : Type} [Ord A] [Ord H] [TransOrd A] [LawfulEqOrd A]
  [DecidableEq A] [DecidableEq H] [DecidableEq R]
  {base : StfEnv R Tx Witness (GuestLog ShortHeaderProofProvider) Key}
  {jmt : Jmt R Proof UpdateProof} {env : RuntimeEnv A H R Tx Key}
  {codec : Codec (StateKey.Value (A := A) (H := H))} {codeCodec : Codec fun _ : H => Bytecode}
  {provider : ShortHeaderProofProvider}

/-- Authenticity of code. Take any blocks that the guest has executed, with any pruning, and the
execution of one more block, which may fail at any point. If the witnesses are honest about the
codes that `commit` finds and about the analysis of those that `code_by_hash` accepts, then each
code that `code_by_hash` returns has bytes that hash to `h`, it is the analysis of these bytes, and
no other code has this property. -/
theorem code_authentic (hkeccak : Function.Injective env.executor.evm.keccak256)
    (hpads : AnalysisPads env.executor.evm) (hcodec : Codec.Lawful codeCodec) {key : Key}
    {execs : List (BlockExec R Tx Witness (GuestLog ShortHeaderProofProvider))} {root root' : R}
    {call : BlockCall R Tx Witness (GuestLog ShortHeaderProofProvider)}
    (hexecutes : Executes (withRuntime base jmt (citreaRuntime env codec codeCodec provider)) key
      root none execs root' call.logs)
    (hhonest : ∀ exec ∈ execs, HonestHints env.executor.evm
      (callEvents jmt (citreaRuntime env codec codeCodec provider) key exec.toBlockCall))
    (hcall : HonestHints env.executor.evm
      (callEvents jmt (citreaRuntime env codec codeCodec provider) key call))
    {h : H} {code : Bytecode} (hcode : CodeReturned env.executor.evm
      (callEvents jmt (citreaRuntime env codec codeCodec provider) key call) h code) :
    ∃ bytes, code.originalByteSlice = some bytes ∧ env.executor.evm.keccak256 bytes = h ∧
      code = analyse env.executor.evm bytes ∧
      ∀ code', IsCode env.executor.evm h code' → code' = code := by
  obtain ⟨w, cached, hmem, hok⟩ := hcode
  have hgood : IsCode env.executor.evm h code := by
    cases cached with
    | false =>
      -- the check has compared the hash of the bytes
      obtain ⟨rfl, hhash⟩ := hasHash_of_codeOfHint hok
      exact hcall.outsideGood true h code hmem fun _ => hhash
    | true =>
      obtain rfl : w = some code := by
        cases w with
        | none => cases hok
        | some found => exact congrArg some (Except.ok.inj hok)
      obtain ⟨l₁, l₂, hsplit⟩ := append_of_mem hmem
      have hguarded : ∀ memory spec key root block, Guarded (codeRule env.executor.evm)
          (fun _ => True) ((citreaRuntime env codec codeCodec provider).block memory spec key root
            block) := fun memory spec key root block => guarded_l2BlockProgram env memory _
      refine cached_hints_good hcodec hguarded hexecutes
        (fun exec hexec => (hhonest exec hexec).outsideGood) hsplit ?_
      intro checked c code hc
      refine hcall.outsideGood checked c code ?_
      rw [hsplit]
      exact mem_append_left _ hc
  have hunique : ∀ code', IsCode env.executor.evm h code' → code' = code :=
    fun code' hcode' => hcode'.unique hkeccak hgood
  obtain ⟨bytes, hbytes, rfl⟩ := hgood
  exact ⟨bytes, originalByteSlice_analyse hpads bytes, hbytes, rfl, hunique⟩

end

/-! ### A concrete rollup -/

/-- A number as zeros. -/
def unary (n : Nat) : Bytes := List.replicate n 0

/-- A byte string with its length in front. -/
def piece (b : Bytes) : Bytes := unary b.length ++ 1 :: b

/-- Takes a `piece` off. -/
def splitPiece (bytes : Bytes) : Bytes × Bytes :=
  let rest := (bytes.dropWhile (· == 0)).drop 1
  rest.splitAt (bytes.takeWhile (· == 0)).length

theorem splitPiece_piece (b rest : Bytes) : splitPiece (piece b ++ rest) = (b, rest) := by
  have htake : ((unary b.length ++ 1 :: (b ++ rest)).takeWhile (· == 0)).length = b.length := by
    rw [unary, takeWhile_append_of_pos (by simp)]
    simp
  have hdrop : (unary b.length ++ 1 :: (b ++ rest)).dropWhile (· == 0) = 1 :: (b ++ rest) := by
    rw [unary, dropWhile_append_of_pos (by simp)]
    simp
  rw [splitPiece, piece, append_assoc, cons_append, htake, hdrop]
  simp

def encodeAccount (info : AccountInfo Bytes) : Bytes :=
  leBytes 32 info.balance.toNat ++ (piece (unary info.nonce) ++ match info.codeHash with
    | none => []
    | some h => 1 :: h)

def decodeAccount (bytes : Bytes) : Option (AccountInfo Bytes) :=
  let balance : U256 := BitVec.ofNat 256 (ofLeBytes (bytes.take 32))
  match splitPiece (bytes.drop 32) with
  | (nonce, []) => some ⟨balance, none, nonce.length⟩
  | (nonce, _ :: h) => some ⟨balance, some h, nonce.length⟩

/-- The codec of the state values, for eight addresses and hashes that are byte strings. -/
def wordCodec : Codec (StateKey.Value (A := Fin 8) (H := Bytes)) where
  keyBytes := fun
    | .accountIdx a => [0, UInt8.ofNat a]
    | .accountAmount => [1]
    | .account idx => 2 :: unary idx
    | .storage kaddr => 3 :: kaddr
    | .other key => 4 :: key
  encode := fun
    | .accountIdx _, n => unary n
    | .accountAmount, n => unary n
    | .account _, info => encodeAccount info
    | .storage _, w => leBytes 32 w.toNat
    | .other _, bytes => bytes
  decode := fun
    | .accountIdx _, bytes => some bytes.length
    | .accountAmount, bytes => some bytes.length
    | .account _, bytes => decodeAccount bytes
    | .storage _, bytes => some (BitVec.ofNat 256 (ofLeBytes bytes))
    | .other _, bytes => some bytes

def encodeCode : Bytecode → Bytes
  | .legacyAnalyzed bytecode originalLen jumpTable =>
    0 :: (piece bytecode ++ (piece (unary originalLen) ++
      jumpTable.map fun b => if b then 1 else 0))
  | .eof raw => 1 :: raw
  | .eip7702 delegatedAddress version raw => 2 :: version :: (piece delegatedAddress ++ raw)

def decodeCode : Bytes → Option Bytecode
  | 0 :: rest =>
    let (bytecode, rest) := splitPiece rest
    let (originalLen, jumpTable) := splitPiece rest
    some (.legacyAnalyzed bytecode originalLen.length (jumpTable.map (· == 1)))
  | 1 :: raw => some (.eof raw)
  | 2 :: version :: rest =>
    let (delegatedAddress, raw) := splitPiece rest
    some (.eip7702 delegatedAddress version raw)
  | _ => none

theorem decodeCode_encodeCode (code : Bytecode) : decodeCode (encodeCode code) = some code := by
  cases code with
  | legacyAnalyzed bytecode originalLen jumpTable =>
    have htable : (jumpTable.map fun b => if b then (1 : UInt8) else 0).map (· == 1) =
        jumpTable := by
      rw [map_map]
      refine (map_congr_left fun b _ => ?_).trans (map_id _)
      cases b <;> rfl
    rw [encodeCode, decodeCode]
    simp [splitPiece_piece, htable, unary]
  | eof raw => rfl
  | eip7702 delegatedAddress version raw =>
    rw [encodeCode, decodeCode]
    simp [splitPiece_piece]

/-- The codec of contract code. -/
def wordCodeCodec : Codec fun _ : Bytes => Bytecode where
  keyBytes := id
  encode := fun _ code => encodeCode code
  decode := fun _ bytes => decodeCode bytes

theorem lawful_wordCodeCodec : Codec.Lawful wordCodeCodec where
  keyBytes := Function.injective_id
  decode := fun _ code => decodeCode_encodeCode code

/-- A rollup with eight addresses, as in `sampleExecutor`. A hash is the byte string itself, so no
hash has two preimages. Data `[0]` deploys the code `[0x60, 0x00]` at the last address, and other
data loads the code of that address. -/
def wordExecutor : ExecutorEnv (Fin 8) Bytes where
  evm :=
    { keccak256 := id
      analyzeLegacy := fun b => (b ++ [0], b.map (· == 0x5b))
      addressBytes := fun a => [UInt8.ofNat a]
      storageHash := fun a k => UInt8.ofNat a :: k
      slot := fun w => leBytes 32 w.toNat
      mappingSlot := fun key base => leBytes 32 key.toNat ++ leBytes 32 base.toNat
      blockHashKey := fun n => leBytes 8 n
      zeroAddress := 0
      systemSigner := 1
      baseFeeVault := 2
      l1FeeVault := 3
      bitcoinLightClient := 4 }
  revm :=
    { validateEnv := fun _ _ => none
      interpret := fun _ tx =>
        match tx.data with
        | [0] => .incNonce tx.caller <| .createAccount tx.caller 7 tx.value fun _ =>
          .setCode 7 [0x60, 0x00] <|
          .done true (tx.gasLimit / 2) (half_le_gasLimit tx)
        | _ => .loadCode 7 fun _ => .done true (tx.gasLimit / 2) (half_le_gasLimit tx) }
  shp := ⟨⟨fun _ => .zero, fun _ => none, fun _ => none⟩, fun _ => none⟩
  setBlockInfoSelector := [1, 2, 3, 4]
  initializeBlockNumberSelector := [5, 6, 7, 8]

/-- The runtime of the sample rollup. A transaction is the data and the nonce of an EVM transaction
of the user. -/
def wordRuntimeEnv : RuntimeEnv (Fin 8) Bytes (List Nat) (Bytes × Nat) Unit where
  executor := wordExecutor
  beginHook := fun _ => pure sampleBlock
  decodeTx := fun tx =>
    pure (.evm [some (sampleTx (if tx.1 = [0] then none else some 7) 0 tx.1 tx.2)])
  preDispatchTxHook := fun _ _ => pure ()
  postDispatchTxHook := fun _ _ => pure ()
  cfgKey := [9]
  ruleDataKey := [8]
  encodeRuleData := fun data => unary data.counter.toNat
  decodeRuleData := fun bytes => some ⟨10, .zero, UInt32.ofNat bytes.length, 0⟩
  endHook := fun _ _ _ => pure ()

abbrev wordRuntime := citreaRuntime wordRuntimeEnv wordCodec wordCodeCodec (.zk [] none)

/-! ### A tree of writes -/

/-- The state after a list of writes. -/
def writtenState (writes : List (Bytes × Option Bytes)) : State :=
  applyWrites (fun _ => none) writes

/-- A tree whose root stands for a list of writes. -/
def historyJmt (history : List Nat → List (Bytes × Option Bytes)) : Jmt (List Nat) Unit Unit where
  verify := fun _ root key value => decide (writtenState (history root) key = value)
  verifyUpdate := fun _ oldRoot newRoot writes =>
    decide (history newRoot = history oldRoot ++ writes)
  readValue := fun hint => match hint with
    | [] => some none
    | _ :: value => some (some value)
  readProof := fun _ => some ()
  readUpdateProof := fun _ => some ()
  readRoot := fun hint => some (hint.map UInt8.toNat)

theorem historyJmt_sound (history : List Nat → List (Bytes × Option Bytes)) :
    JmtSound (historyJmt history) fun root => writtenState (history root) where
  verify := fun h => of_decide_eq_true h
  verifyUpdate := by
    intro proof oldRoot newRoot writes h
    rw [of_decide_eq_true h]
    exact applyWrites_append ..

/-- The hints for `historyJmt`. -/
def historyWriter : HintWriter (List Nat) Unit Unit where
  writeValue := fun value => match value with
    | none => []
    | some bytes => 0 :: bytes
  writeProof := fun _ => []
  writeUpdateProof := fun _ => []
  writeRoot := fun root => root.map UInt8.ofNat

/-- The databases of the prover after a list of writes. The offchain state is empty. -/
def historyDb (writes : List (Bytes × Option Bytes)) (root newRoot : List Nat) :
    ProverDb (List Nat) Unit Unit where
  readValue := writtenState writes
  readOffchainValue := fun _ => none
  rootHash := root
  getWithProof := fun key => (writtenState writes key, ())
  putValueSetWithProof := fun _ => (newRoot, ())

/-! ### A forged code -/

/-- A configuration, the data of the rule enforcer, and an account of the user with 10000 coins. -/
def genesisWrites : List (Bytes × Option Bytes) :=
  [([4, 9], some []), ([4, 8], some []), ([1], some [0]), ([0, 5], some []),
    ([2], some (encodeAccount ⟨10000, none, 0⟩))]

/-- A block of the sample rollup. -/
def wordBlock (height : UInt64) (prevHash stateRoot : List Nat) (txs : List (Bytes × Nat)) :
    L2Block (List Nat) (Bytes × Nat) :=
  let header : L2Header (List Nat) := ⟨height, prevHash, stateRoot, 0, [], 0⟩
  ⟨⟨header, header.computeDigest listHash, []⟩, txs⟩

/-- The first block deploys the contract. -/
def deployBlock : L2Block (List Nat) (Bytes × Nat) := wordBlock 1 [] [1] [([0], 0)]

/-- The second block calls the contract. -/
def callBlock : L2Block (List Nat) (Bytes × Nat) := wordBlock 2 deployBlock.hash [2] [([1], 1)]

/-- The execution of a block by the prover. -/
def proverBlock (writes : List (Bytes × Option Bytes)) (root newRoot : List Nat)
    (logs : Option (ReadWriteLog × ReadWriteLog)) (block : L2Block (List Nat) (Bytes × Nat)) :
    Option (BlockResult (List Nat)) :=
  match applyProgram (proverStorage historyWriter (historyDb writes root newRoot)) wordCodec
    wordCodeCodec (wordRuntime.block (.zk [] none) .tangerine () root block) logs [] [] with
  | .ok (_, result) => some result
  | .error _ => none

def deployResult : Option (BlockResult (List Nat)) :=
  proverBlock genesisWrites [0] [1] none deployBlock

def callResult : Option (BlockResult (List Nat)) := do
  let deployed ← deployResult
  proverBlock (genesisWrites ++ deployed.update.stateDiff) [1] [2]
    (some (deployed.stateLog, deployed.offchainLog)) callBlock

/-- The writes of a block, and its state witness. -/
def writesAndWitness (result : Option (BlockResult (List Nat))) :
    List (Bytes × Option Bytes) × Witness :=
  (result.map fun r => (r.update.stateDiff, r.witness)).getD ([], [])

/-- The roots `[0]`, `[1]` and `[2]` stand for the states before the two blocks, between them, and
after them. -/
def deployHistory (root : List Nat) : List (Bytes × Option Bytes) :=
  if root = [0] then genesisWrites
  else if root = [1] then genesisWrites ++ (writesAndWitness deployResult).1
  else if root = [2] then
    genesisWrites ++ (writesAndWitness deployResult).1 ++ (writesAndWitness callResult).1
  else []

abbrev deployJmt : Jmt (List Nat) Unit Unit := historyJmt deployHistory

/-- An environment that accepts every signature. -/
def wordBase : StfEnv (List Nat) (Bytes × Nat) Witness (GuestLog ShortHeaderProofProvider)
    Unit where
  sha256 := listHash
  merkleRoot := fun hashes => carryRoot (fun l r => listHash (.node l r)) hashes
  merkleProofFromBytes := fun _ => some []
  merkleVerify := fun _ _ _ _ _ => false
  publicKeyFromSlice := fun _ => some ()
  verifyTxMerkleRoot := fun _ _ _ => true
  verifySignature := fun _ _ => true
  executeL2Block := fun _ _ _ _ _ _ _ => Outcome.panic "no runtime"
  pruneHalf := id

abbrev wordEnv := withRuntime wordBase deployJmt wordRuntime

/-- The first block, with a hint for the lookup of the new code in `commit`. -/
def deployCall (hint : Option Bytecode) :
    BlockCall (List Nat) (Bytes × Nat) Witness (GuestLog ShortHeaderProofProvider) where
  spec := .tangerine
  preStateRoot := [0]
  logs := none
  stateWitness := (writesAndWitness deployResult).2
  offchainWitness := [historyWriter.writeValue (hint.map encodeCode)]
  block := deployBlock

/-- The second block, after the first one. -/
def callCall (deployed : L2BlockResult (List Nat) (GuestLog ShortHeaderProofProvider)) :
    BlockCall (List Nat) (Bytes × Nat) Witness (GuestLog ShortHeaderProofProvider) where
  spec := .tangerine
  preStateRoot := [1]
  logs := some (deployed.stateLog, deployed.offchainLog)
  stateWitness := (writesAndWitness callResult).2
  offchainWitness := []
  block := callBlock

/-- The execution of a call. -/
def executeCallOf
    (call : BlockCall (List Nat) (Bytes × Nat) Witness (GuestLog ShortHeaderProofProvider)) :
    Outcome StateTransitionError (L2BlockResult (List Nat) (GuestLog ShortHeaderProofProvider)) :=
  applyL2Block wordEnv call.spec () call.preStateRoot call.logs call.stateWitness
    call.offchainWitness call.block

/-- The hints that a list of accesses gets. -/
def gotHints {K C W : Type} {Val : K → Type} (l : List (Event Val C W)) :
    List (Bool × C × Option W × Bool) :=
  l.filterMap fun e => match e with
    | .gotHint checked c w cached => some (checked, c, w, cached)
    | _ => none

theorem mem_gotHints {K C W : Type} {Val : K → Type} {l : List (Event Val C W)} {checked : Bool}
    {c : C} {w : Option W} {cached : Bool} :
    .gotHint checked c w cached ∈ l ↔ (checked, c, w, cached) ∈ gotHints l := by
  rw [gotHints, mem_filterMap]
  constructor
  · exact fun h => ⟨_, h, rfl⟩
  · rintro ⟨e, he, heq⟩
    cases e with
    | gotHint checked' c' w' cached' =>
      obtain ⟨rfl, rfl, rfl, rfl⟩ : checked' = checked ∧ c' = c ∧ w' = w ∧ cached' = cached := by
        simpa using heq
      exact he
    | got k v => cases heq
    | put k v => cases heq
    | putHint c' w' => cases heq

/-- What is looked at in a run of the two blocks. -/
structure TwoBlocks where
  roots : List (List Nat)
  deployHints : List (Bool × Bytes × Option Bytecode × Bool)
  callHints : List (Bool × Bytes × Option Bytecode × Bool)
deriving DecidableEq

/-- Both blocks, with a given hint. -/
def deployAndCall (hint : Option Bytecode) : Outcome StateTransitionError TwoBlocks := do
  let deployed ← executeCallOf (deployCall hint)
  let called ← executeCallOf (callCall deployed)
  pure
    { roots := [deployed.initRoot, deployed.finalRoot, called.initRoot, called.finalRoot]
      deployHints := gotHints (callEvents deployJmt wordRuntime () (deployCall hint))
      callHints := gotHints (callEvents deployJmt wordRuntime () (callCall deployed)) }

/-- The code that the first block deploys. -/
def deployedCode : Bytecode := .legacyAnalyzed [0x60, 0x00, 0] 2 [false, false]

/-- Another code. -/
def forgedCode : Bytecode := .legacyAnalyzed [0x61, 0] 1 [false]

theorem deployAndCall_none : deployAndCall none =
    .ok ⟨[[0], [1], [1], [2]], [(false, [0x60, 0x00], none, false)],
      [(true, [0x60, 0x00], some deployedCode, true)]⟩ := by
  decide +kernel

theorem deployAndCall_forged : deployAndCall (some forgedCode) =
    .ok ⟨[[0], [1], [1], [2]], [(false, [0x60, 0x00], some forgedCode, false)],
      [(true, [0x60, 0x00], some forgedCode, true)]⟩ := by
  decide +kernel

/-- The executions of the two blocks. -/
theorem executes_of_deployAndCall {hint : Option Bytecode}
    {first second : List (Bool × Bytes × Option Bytecode × Bool)}
    (h : deployAndCall hint = .ok ⟨[[0], [1], [1], [2]], first, second⟩) : ∃ deployed called,
      Executes wordEnv () [0] none [⟨deployCall hint, deployed, false⟩] [1]
        (callCall deployed).logs ∧ BlockExec.Applied wordEnv () ⟨callCall deployed, called, false⟩ ∧
      gotHints (callEvents deployJmt wordRuntime () (deployCall hint)) = first ∧
      gotHints (callEvents deployJmt wordRuntime () (callCall deployed)) = second := by
  simp only [deployAndCall, bind_eq_ok, pure_eq_ok, TwoBlocks.mk.injEq,
    List.cons.injEq, and_true] at h
  obtain ⟨deployed, hdeployed, called, hcalled, ⟨hinit, hfinal, hinit', hfinal'⟩, hhints⟩ := h
  refine ⟨deployed, called, ?_, ⟨hcalled, hinit', hfinal'⟩, hhints⟩
  have happlied : BlockExec.Applied wordEnv () ⟨deployCall hint, deployed, false⟩ :=
    ⟨hdeployed, hinit, hfinal⟩
  refine Executes.cons happlied ?_
  rw [happlied.finalRoot]
  exact Executes.nil

/-- The result for the two blocks with an honest witness. -/
theorem code_authentic_after_deployment : ∃ deployed bytes,
    Executes wordEnv () [0] none [⟨deployCall none, deployed, false⟩] [1] (callCall deployed).logs ∧
    CodeReturned wordExecutor.evm (callEvents deployJmt wordRuntime () (callCall deployed))
      [0x60, 0x00] deployedCode ∧
    deployedCode.originalByteSlice = some bytes ∧ wordExecutor.evm.keccak256 bytes = [0x60, 0x00] ∧
    deployedCode = analyse wordExecutor.evm bytes := by
  obtain ⟨deployed, called, hexecutes, -, hfirst, hsecond⟩ :=
    executes_of_deployAndCall deployAndCall_none
  have hreturned : CodeReturned wordExecutor.evm
      (callEvents deployJmt wordRuntime () (callCall deployed)) [0x60, 0x00] deployedCode := by
    refine ⟨some deployedCode, true, mem_gotHints.mpr ?_, rfl⟩
    rw [hsecond]
    exact mem_singleton_self _
  have hhonest : ∀ exec ∈ [(⟨deployCall none, deployed, false⟩ : BlockExec _ _ _ _)],
      HonestHints wordExecutor.evm (callEvents deployJmt wordRuntime () exec.toBlockCall) := by
    intro exec hexec
    obtain rfl := mem_singleton.mp hexec
    refine ⟨fun h code hmem => ?_, fun h code bytes hmem => ?_⟩
    all_goals
      rw [mem_gotHints, hfirst] at hmem
      simp at hmem
  have hcall : HonestHints wordExecutor.evm
      (callEvents deployJmt wordRuntime () (callCall deployed)) := by
    refine ⟨fun h code hmem => ?_, fun h code bytes hmem => ?_⟩
    all_goals
      rw [mem_gotHints, hsecond] at hmem
      simp at hmem
  have hpads : AnalysisPads wordExecutor.evm := fun bytes => prefix_append bytes [0]
  have hinjective : Function.Injective wordExecutor.evm.keccak256 := Function.injective_id
  obtain ⟨bytes, hbytes, hhash, hanalyse, -⟩ := code_authentic hinjective hpads
    lawful_wordCodeCodec hexecutes hhonest hcall hreturned
  exact ⟨deployed, bytes, hexecutes, hreturned, hbytes, hhash, hanalyse⟩

/-- The witness of the first block says that the hash of the new code already has a code. Both
blocks are executed, with sound proofs for the state. In the second block `code_by_hash` returns
the forged code for the hash. -/
theorem forged_code_is_executed : ∃ deployed called, Function.Injective wordExecutor.evm.keccak256 ∧
    JmtSound deployJmt (fun root => writtenState (deployHistory root)) ∧
    Executes wordEnv () [0] none
      [⟨deployCall (some forgedCode), deployed, false⟩, ⟨callCall deployed, called, false⟩] [2]
      (some (called.stateLog, called.offchainLog)) ∧
    CodeReturned wordExecutor.evm (callEvents deployJmt wordRuntime () (callCall deployed))
      [0x60, 0x00] forgedCode ∧ forgedCode.originalByteSlice = some [0x61] ∧
    wordExecutor.evm.keccak256 [0x61] ≠ [0x60, 0x00] := by
  obtain ⟨deployed, called, hexecutes, happlied, -, hsecond⟩ :=
    executes_of_deployAndCall deployAndCall_forged
  refine ⟨deployed, called, Function.injective_id, historyJmt_sound _, ?_, ?_, by decide, by decide⟩
  · refine hexecutes.append (.cons happlied ?_)
    rw [happlied.finalRoot]
    exact Executes.nil
  · refine ⟨some forgedCode, true, mem_gotHints.mpr ?_, rfl⟩
    rw [hsecond]
    exact mem_singleton_self _

end Citrea.Proofs.Evm
