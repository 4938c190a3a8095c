import Citrea.Spec.Bitcoin.Parsers
import Citrea.Spec.LightClient.Circuit

/-!
# `Citrea.Spec.Bitcoin.Builders`: the builders of commit and reveal transactions

`crates/bitcoin-da/src/helpers/builders/{mod.rs,body_builders.rs}`. An inscription is a pair of
transactions: the commit transaction pays to the taproot address of the reveal script, and the
reveal transaction spends that output and shows the script. The builders try nonces, and for each
nonce lower the amounts satoshi by satoshi, until the wtxid of the reveal transaction starts with
the prefix.

`BuilderEnv` holds what the builders call for one private key: the signatures, the taproot
computations, the encoding of `DataOnDa`, and the order in which a hash set is listed. The check
that the inscription is locked to the right address compares two computations of the taproot
crate and is not part of the model. Arithmetic on `u64` wraps. The two unbounded searches take a
`fuel`, and `outOfFuel` says that it was used up.
-/

namespace Citrea.Spec.Bitcoin

open List Lib
open Spec.LightClient (DataOnDa)

/-- `REVEAL_OUTPUT_AMOUNT`. -/
def revealOutputAmount : UInt64 := 546

/-- `REVEAL_OUTPUT_THRESHOLD`. -/
def revealOutputThreshold : UInt64 := 2000

/-- `SCHNORR_SIGNATURE_SIZE`. -/
def schnorrSignatureSize : Nat := 64

/-- The size of a push of a body. -/
def bodyPushSize : Nat := 520

/-- `Sequence::ENABLE_RBF_NO_LOCKTIME`. -/
def enableRbfNoLocktime : UInt32 := 0xfffffffd

/-- `UTXO`, the fields that the builders read. -/
structure Utxo where
  txId : Bytes32
  vout : UInt32
  amount : UInt64
deriving DecidableEq

/-- The errors of the builders. `outOfFuel` is not an error of the source: the search did not end
within the given number of turns. -/
inductive BuilderError where
  | notEnoughUtxos
  | inputUtxoNotBigEnough
  | outOfFuel
deriving DecidableEq

/-- A serialized control block. Its first byte is the leaf version `0xc0` with a parity bit. -/
structure ControlBlock where
  data : ByteVec
  leafVersion : data.data.head? = some 0xc0 ∨ data.data.head? = some 0xc1

/-- What `build_control_block` and `Address::p2tr` compute from a reveal script. -/
structure TaprootSpend where
  controlBlock : ControlBlock
  commitScriptPubkey : ByteVec
  tapscriptHash : Bytes32

/-- The functions that the builders call, for one private key. -/
structure BuilderEnv where
  sha256 : Bytes → Bytes32
  /-- The x-only public key. -/
  publicKey : Bytes32
  /-- The public key of the second component of `sign_blob_with_private_key`. -/
  signerPublicKey : Bytes
  /-- The signature of `sign_blob_with_private_key`. -/
  signBlob : Bytes → Bytes
  taproot : (revealScript : ByteVec) → TaprootSpend
  /-- The Schnorr signature of a reveal transaction that spends the given output. -/
  signSchnorr : TxOut → Transaction → (tapscriptHash : Bytes32) → ByteVec
  borshDataOnDa : DataOnDa Bytes32 → Bytes
  /-- The order in which the elements of a hash set are listed. -/
  setOrder : List Utxo → List Utxo
  /-- Whether the program is compiled with `debug_assert!`. -/
  debugAssertions : Bool

/-- The arguments that the four builders share. -/
structure WalletRequest where
  prevUtxo : Option Utxo
  utxos : List Utxo
  changeScriptPubkey : ByteVec
  commitFeeRate : UInt64
  revealFeeRate : UInt64
  revealTxPrefix : Bytes

/-! ### Transactions -/

/-- A `Vec` of bytes, whose length fits the machine. -/
def ByteVec.ofBytes {ε : Type} (bytes : Bytes) : Outcome ε ByteVec :=
  if h : bytes.length < 2 ^ 64 then pure ⟨bytes, h⟩ else Outcome.panic "capacity overflow"

/-- An empty script. -/
def ByteVec.empty : ByteVec := ⟨[], nil_fits⟩

/-- `[0; SCHNORR_SIGNATURE_SIZE]`. -/
def schnorrPlaceholder : ByteVec := ⟨List.replicate schnorrSignatureSize 0, by decide⟩

/-- An input without a witness. -/
def unsignedInput (previousOutput : OutPoint) : TxIn :=
  { previousOutput, scriptSig := .empty, sequence := enableRbfNoLocktime, witness := [],
    witness_fits := nil_fits }

/-- A transaction of version 2 without lock time. -/
def newTransaction {ε : Type} (input : List TxIn) (output : List TxOut) : Outcome ε Transaction :=
  if h : input.length < 2 ^ 64 ∧ output.length < 2 ^ 64 then
    pure { version := 2, lockTime := 0, input, output, input_fits := h.1, output_fits := h.2 }
  else Outcome.panic "capacity overflow"

/-- `Transaction::vsize`: the weight over four, rounded up. -/
def Transaction.vsize (tx : Transaction) : Nat :=
  (3 * tx.encodeWithoutWitness.length + tx.consensusEncode.length + 3) / 4

/-- `tx.output[i].value = f(tx.output[i].value)`. -/
def Transaction.modifyValue (i : Nat) (f : UInt64 → UInt64) (tx : Transaction) : Transaction :=
  { tx with
    output := tx.output.modify i fun o => { o with value := f o.value }
    output_fits := by rw [length_modify]; exact tx.output_fits }

/-- `tx.input[0].previous_output.txid = txid`. -/
def Transaction.setPreviousTxid (txid : Bytes32) (tx : Transaction) : Transaction :=
  { tx with
    input := tx.input.modify 0 fun i =>
      { i with previousOutput := { i.previousOutput with txid := txid } }
    input_fits := by rw [length_modify]; exact tx.input_fits }

theorem stack_fits (a b c : ByteVec) : [a, b, c].length < 2 ^ 64 := by simp

/-- Sets the witness of the first input to a signature, a script and a control block. -/
def Transaction.setWitness (signature revealScript controlBlock : ByteVec) (tx : Transaction) :
    Transaction :=
  { tx with
    input := tx.input.modify 0 fun i =>
      { i with
        witness := [signature, revealScript, controlBlock]
        witness_fits := stack_fits signature revealScript controlBlock }
    input_fits := by rw [length_modify]; exact tx.input_fits }

/-! ### The commit transaction -/

/-- The loop of `choose_utxos` over the small outputs: it stops when the sum is large enough. -/
def takeUntilAmount (amount : UInt64) : List Utxo → List Utxo × UInt64 → List Utxo × UInt64
  | [], chosen => chosen
  | utxo :: rest, (chosen, sum) =>
    if amount ≤ sum + utxo.amount then (chosen ++ [utxo], sum + utxo.amount)
    else takeUntilAmount amount rest (chosen ++ [utxo], sum + utxo.amount)

section
variable (env : BuilderEnv)

/-- `input_set.difference(&chosen_set)`, as a list. -/
def leftoverUtxos (utxos chosen : List Utxo) : List Utxo :=
  env.setOrder (utxos.dedup.filter fun utxo => utxo ∉ chosen)

/-- `choose_utxos`: the chosen outputs, their sum, and the outputs that are left. -/
def chooseUtxos (requiredUtxo : Option Utxo) (utxos : List Utxo) (amount : UInt64) :
    Outcome BuilderError (List Utxo × UInt64 × List Utxo) :=
  let chosen := requiredUtxo.toList
  let sum := (requiredUtxo.map (·.amount)).getD 0
  if amount ≤ sum then pure (chosen, sum, utxos)
  else
    let remainingAmount := amount - sum
    let biggerUtxos := (utxos.filter fun utxo => remainingAmount ≤ utxo.amount).insertionSort
      fun a b => a.amount ≤ b.amount
    match biggerUtxos.head? with
    | some utxo =>
      let chosen := chosen ++ [utxo]
      pure (chosen, sum + utxo.amount, leftoverUtxos env utxos chosen)
    | none => do
      let smallerUtxos := (utxos.filter fun utxo => utxo.amount < remainingAmount).insertionSort
        fun a b => b.amount ≤ a.amount
      let (chosen, sum) := takeUntilAmount amount smallerUtxos (chosen, sum)
      ensure (amount ≤ sum) .notEnoughUtxos
      pure (chosen, sum, leftoverUtxos env utxos chosen)

/-- `get_size_commit`: the size with a signature in every input. -/
def getSizeCommit (inputs : List TxIn) (outputs : List TxOut) : Outcome BuilderError Nat := do
  let tx ← newTransaction
    (inputs.map fun i => { i with witness := [schnorrPlaceholder], witness_fits := by decide })
    outputs
  pure tx.vsize

/-- The change that every commit transaction has. -/
def nonDustChange : UInt64 := 546

/-- The loop of `build_commit_transaction`: the fee is computed from the size of the last turn,
until the size does not change. -/
def commitSizeLoop (prevUtxo : Option Utxo) (utxos : List Utxo) (recipient changeAddress : ByteVec)
    (outputValue feeRate : UInt64) :
    (fuel : Nat) → (lastSize : Nat) → Outcome BuilderError (Transaction × List Utxo)
  | 0, _ => err .outOfFuel
  | fuel + 1, lastSize => do
    let fee := UInt64.ofNat lastSize * feeRate
    let inputTotal := outputValue + fee + nonDustChange
    let (chosenUtxos, sum, leftover) ← chooseUtxos env prevUtxo utxos inputTotal
    let hasChange := revealOutputAmount ≤ sum - inputTotal
    let change := if hasChange then sum - inputTotal + nonDustChange else nonDustChange
    let outputs := [⟨outputValue, recipient⟩, ⟨change, changeAddress⟩]
    let inputs := chosenUtxos.map fun u => unsignedInput ⟨u.txId, u.vout⟩
    let size ← getSizeCommit inputs outputs
    if size = lastSize then do
      let tx ← newTransaction inputs outputs
      pure (tx, leftover)
    else
      commitSizeLoop prevUtxo utxos recipient changeAddress outputValue feeRate fuel size

/-- `build_commit_transaction`. The required output is not chosen a second time. -/
def buildCommitTransaction (prevUtxo : Option Utxo) (utxos : List Utxo)
    (recipient changeAddress : ByteVec) (outputValue feeRate : UInt64) (fuel : Nat) :
    Outcome BuilderError (Transaction × List Utxo) := do
  let size ← getSizeCommit [unsignedInput ⟨.zero, 0⟩]
    [⟨outputValue, recipient⟩, ⟨nonDustChange, changeAddress⟩]
  let utxos := match prevUtxo with
    | none => utxos
    | some required => utxos.filter fun utxo =>
      !(utxo.vout == required.vout && utxo.txId == required.txId)
  commitSizeLoop env prevUtxo utxos recipient changeAddress outputValue feeRate fuel size

/-! ### The reveal transaction -/

/-- `get_size_reveal`. -/
def getSizeReveal (recipient : ByteVec) (outputAmount : UInt64) (script : ByteVec)
    (controlBlock : ControlBlock) : Nat :=
  let tx : Transaction :=
    { version := 2
      lockTime := 0
      input := [unsignedInput ⟨.zero, 0⟩]
      output := [⟨outputAmount, recipient⟩]
      input_fits := by decide
      output_fits := by simp }
  (tx.setWitness schnorrPlaceholder script controlBlock.data).vsize

/-- `build_reveal_transaction`. -/
def buildRevealTransaction (inputUtxo : TxOut) (inputTxid : Bytes32) (inputVout : UInt32)
    (recipient : ByteVec) (outputValue feeRate : UInt64) (revealScript : ByteVec)
    (controlBlock : ControlBlock) : Outcome BuilderError Transaction := do
  let size := getSizeReveal recipient outputValue revealScript controlBlock
  let inputTotal := outputValue + UInt64.ofNat size * feeRate
  ensure (¬ (inputUtxo.value < revealOutputAmount ∨ inputUtxo.value < inputTotal))
    .inputUtxoNotBigEnough
  pure
    { version := 2
      lockTime := 0
      input := [unsignedInput ⟨inputTxid, inputVout⟩]
      output := [⟨outputValue, recipient⟩]
      input_fits := by simp
      output_fits := by simp }

/-- `build_witness`. -/
def buildWitness (commitTx revealTx : Transaction) (revealScript : ByteVec)
    (spend : TaprootSpend) : Outcome BuilderError Transaction := do
  let prevout ← expect commitTx.output.head? "index out of bounds"
  let signature := env.signSchnorr prevout revealTx spend.tapscriptHash
  pure (revealTx.setWitness signature revealScript spend.controlBlock.data)

/-- `update_witness`: a new signature, with the script and the control block of the old witness. -/
def updateWitness (commitTx revealTx : Transaction) (spend : TaprootSpend) :
    Outcome BuilderError Transaction := do
  let prevout ← expect commitTx.output.head? "index out of bounds"
  let signature := env.signSchnorr prevout revealTx spend.tapscriptHash
  let input ← expect revealTx.input.head? "called `Option::unwrap()` on a `None` value"
  let revealScript ← expect input.witness[1]? "called `Option::unwrap()` on a `None` value"
  let controlBlock ← expect input.witness[2]? "called `Option::unwrap()` on a `None` value"
  pure (revealTx.setWitness signature revealScript controlBlock)

/-! ### The search for the prefix -/

/-- A commit transaction with its reveal transaction. -/
structure CommitReveal where
  commit : Transaction
  reveal : Transaction

/-- `tx.output[0].value`. -/
def firstValue (tx : Transaction) : Outcome BuilderError UInt64 := do
  let output ← expect tx.output.head? "index out of bounds"
  pure output.value

/-- The `else` branch of the inner loop: one satoshi less for the reveal output, and the witness
signed again. -/
def lowerValues (spend : TaprootSpend) (pair : CommitReveal) :
    Outcome BuilderError CommitReveal := do
  let commit := (pair.commit.modifyValue 0 (· - 1)).modifyValue 1 (· + 1)
  let reveal := (pair.reveal.modifyValue 0 (· - 1)).setPreviousTxid
    (calculateTxid env.sha256 commit)
  let reveal ← updateWitness env commit reveal spend
  pure ⟨commit, reveal⟩

/-- The inner loop. The value of the reveal output starts at `REVEAL_OUTPUT_THRESHOLD` above its
lower bound and falls by one in each turn, so there are at most that many turns. -/
def mineValues (revealTxPrefix : Bytes) (minCommitValue : UInt64) (spend : TaprootSpend) :
    (turns : Nat) → CommitReveal → Outcome BuilderError (Option CommitReveal)
  | 0, _ => pure none
  | turns + 1, pair => do
    let commitValue ← firstValue pair.commit
    let revealValue ← firstValue pair.reveal
    if minCommitValue ≤ commitValue ∧ revealOutputAmount < revealValue then
      if startsWith revealTxPrefix (calculateWtxid env.sha256 pair.reveal) then pure (some pair)
      else do
        let pair ← lowerValues env spend pair
        mineValues revealTxPrefix minCommitValue spend turns pair
    else pure none

/-- The reveal script of a nonce: the envelope, the nonce and `OP_NIP`. -/
def finishRevealScript (envelope : Bytes) (nonce : Nat) : Outcome BuilderError ByteVec :=
  ByteVec.ofBytes (envelope ++ pushSlice (leBytes 8 nonce) ++ [opNip])

/-- The body of the outer loop for one nonce: the pair, if one was found, with the outputs that
are left. -/
def tryNonce (request : WalletRequest) (envelope : Bytes) (fuel nonce : Nat) :
    Outcome BuilderError (Option CommitReveal × List Utxo) := do
  let revealScript ← finishRevealScript envelope nonce
  let spend := env.taproot revealScript
  let fee := UInt64.ofNat (getSizeReveal request.changeScriptPubkey revealOutputAmount revealScript
    spend.controlBlock) * request.revealFeeRate
  let revealInputValue := fee + revealOutputAmount + revealOutputThreshold
  let (commit, leftover) ← buildCommitTransaction env request.prevUtxo request.utxos
    spend.commitScriptPubkey request.changeScriptPubkey revealInputValue request.commitFeeRate fuel
  let inputToReveal ← expect commit.output.head? "index out of bounds"
  let reveal ← buildRevealTransaction inputToReveal (calculateTxid env.sha256 commit) 0
    request.changeScriptPubkey (revealOutputAmount + revealOutputThreshold) request.revealFeeRate
    revealScript spend.controlBlock
  let reveal ← buildWitness env commit reveal revealScript spend
  let found ← mineValues env request.revealTxPrefix (fee + revealOutputAmount) spend
    revealOutputThreshold.toNat ⟨commit, reveal⟩
  pure (found, leftover)

/-- The outer loop over the nonces. -/
def mineFrom (request : WalletRequest) (envelope : Bytes) :
    (fuel : Nat) → (nonce : Nat) → Outcome BuilderError (CommitReveal × List Utxo)
  | 0, _ => err .outOfFuel
  | fuel + 1, nonce => do
    let (found, leftover) ← tryNonce env request envelope (fuel + 1) nonce
    match found with
    | some pair => pure (pair, leftover)
    | none => mineFrom request envelope fuel (nonce + 1)

/-- The search, from the first nonce on. The first digits are skipped. -/
def mine (request : WalletRequest) (envelope : Bytes) (fuel : Nat) :
    Outcome BuilderError (CommitReveal × List Utxo) :=
  mineFrom env request envelope fuel 16

/-! ### The reveal scripts -/

/-- `push_slice(PushBytesBuf::try_from(data).expect(message))`. -/
def pushBytesBuf (data : Bytes) (message : String) : Outcome BuilderError Bytes := do
  let data ← expect (if data.length < 2 ^ 32 then some data else none) message
  pure (pushSlice data)

/-- The start of every reveal script: the key, its check, the kind, and `OP_FALSE OP_IF`. -/
def scriptStart (kind : TransactionKind) : Bytes :=
  pushSlice env.publicKey.data ++ [opChecksigverify] ++ pushSlice kind.toBytes ++ [opFalse, opIf]

/-- The pushes of the signature and of the key of the signer. -/
def pushSignature (body : Bytes) : Outcome BuilderError Bytes := do
  let signature ← pushBytesBuf (env.signBlob body) "Cannot push signature"
  let signerPublicKey ← pushBytesBuf env.signerPublicKey "Cannot push sequencer public key"
  pure (signature ++ signerPublicKey)

/-- The loop that pushes the pieces of a body. -/
def pushChunks : List Bytes → Outcome BuilderError Bytes
  | [] => pure []
  | chunk :: rest => do
    let push ← pushBytesBuf chunk "Cannot push body chunk"
    let pushes ← pushChunks rest
    pure (push ++ pushes)

/-- The envelope of a signed body that is cut into pushes. -/
def signedEnvelope (kind : TransactionKind) (body : Bytes) : Outcome BuilderError Bytes := do
  let signature ← pushSignature env body
  let pushes ← pushChunks (chunks bodyPushSize body)
  pure (scriptStart env kind ++ signature ++ pushes ++ [opEndif])

/-- The envelope of an unsigned body that is cut into pushes. -/
def unsignedEnvelope (kind : TransactionKind) (body : Bytes) : Outcome BuilderError Bytes := do
  let pushes ← pushChunks (chunks bodyPushSize body)
  pure (scriptStart env kind ++ pushes ++ [opEndif])

/-- The envelope of a sequencer commitment: the body is one push. -/
def commitmentEnvelope (body : Bytes) : Outcome BuilderError Bytes := do
  let signature ← pushSignature env body
  let push ← pushBytesBuf body "Cannot push sequencer commitment"
  pure (scriptStart env .sequencerCommitment ++ signature ++ push ++ [opEndif])

/-! ### The builders -/

/-- `TxWithId`. -/
structure TxWithId where
  id : Bytes32
  tx : Transaction

/-- A reveal transaction with its id. -/
def withId (tx : Transaction) : TxWithId := ⟨calculateTxid env.sha256 tx, tx⟩

/-- `DaTxs`. -/
inductive DaTxs where
  | complete (commit : Transaction) (reveal : TxWithId)
  | chunked (commitChunks revealChunks : List Transaction) (commit : Transaction)
      (reveal : TxWithId)
  | batchProofMethodId (commit : Transaction) (reveal : TxWithId)
  | sequencerCommitment (commit : Transaction) (reveal : TxWithId)

/-- `RawTxData`. -/
inductive RawTxData where
  | complete (body : Bytes)
  | chunks (bodies : List Bytes)
  | batchProofMethodId (body : Bytes)
  | sequencerCommitment (body : Bytes)

/-- `create_inscription_type_0`. -/
def createInscriptionType0 (body : Bytes) (request : WalletRequest) (fuel : Nat) :
    Outcome BuilderError DaTxs := do
  let envelope ← signedEnvelope env .complete body
  let (pair, _) ← mine env request envelope fuel
  pure (.complete pair.commit (withId env pair.reveal))

/-- The outputs that the next pair may spend after a pair: the reveal output comes first, and the
change of the commit transaction is added to what is left. -/
def nextRequest (request : WalletRequest) (pair : CommitReveal) (leftover : List Utxo) :
    Outcome BuilderError WalletRequest := do
  let revealOutput ← expect pair.reveal.output.head? "index out of bounds"
  let change := match pair.commit.output[1]? with
    | some output => [⟨calculateTxid env.sha256 pair.commit, 1, output.value⟩]
    | none => []
  pure
    { request with
      prevUtxo := some ⟨calculateTxid env.sha256 pair.reveal, 0, revealOutput.value⟩
      utxos := leftover ++ change }

/-- The loop of `create_inscription_type_1` over the chunks: the pairs, and the arguments for the
pair after them. -/
def createChunks (fuel : Nat) :
    List Bytes → WalletRequest → Outcome BuilderError (List CommitReveal × WalletRequest)
  | [], request => pure ([], request)
  | body :: rest, request => do
    let envelope ← unsignedEnvelope env .chunks body
    let (pair, leftover) ← mine env request envelope fuel
    let request ← nextRequest env request pair leftover
    let (pairs, request) ← createChunks fuel rest request
    pure (pair :: pairs, request)

/-- The body of the aggregate of the given reveal transactions. -/
def aggregateBody (revealChunks : List Transaction) : Bytes :=
  env.borshDataOnDa (.aggregate (revealChunks.map (calculateTxid env.sha256))
    (revealChunks.map (calculateWtxid env.sha256)))

/-- `create_inscription_type_1`. -/
def createInscriptionType1 (chunks : List Bytes) (request : WalletRequest) (fuel : Nat) :
    Outcome BuilderError DaTxs := do
  let (pairs, request) ← createChunks env fuel chunks request
  let revealChunks := pairs.map (·.reveal)
  let envelope ← signedEnvelope env .aggregate (aggregateBody env revealChunks)
  let (pair, _) ← mine env request envelope fuel
  pure (.chunked (pairs.map (·.commit)) revealChunks pair.commit (withId env pair.reveal))

/-- `create_inscription_type_3`. -/
def createInscriptionType3 (body : Bytes) (request : WalletRequest) (fuel : Nat) :
    Outcome BuilderError DaTxs := do
  let envelope ← unsignedEnvelope env .batchProofMethodId body
  let (pair, _) ← mine env request envelope fuel
  pure (.batchProofMethodId pair.commit (withId env pair.reveal))

/-- `create_inscription_type_4`. -/
def createInscriptionType4 (body : Bytes) (request : WalletRequest) (fuel : Nat) :
    Outcome BuilderError DaTxs := do
  assert (env.debugAssertions = true → body.length < bodyPushSize)
    "The body of a serialized sequencer commitment exceeds 520 bytes"
  let envelope ← commitmentEnvelope env body
  let (pair, _) ← mine env request envelope fuel
  pure (.sequencerCommitment pair.commit (withId env pair.reveal))

/-- `create_inscription_transactions`. -/
def createInscriptionTransactions (data : RawTxData) (request : WalletRequest) (fuel : Nat) :
    Outcome BuilderError DaTxs :=
  match data with
  | .complete body => createInscriptionType0 env body request fuel
  | .chunks bodies => createInscriptionType1 env bodies request fuel
  | .batchProofMethodId body => createInscriptionType3 env body request fuel
  | .sequencerCommitment body => createInscriptionType4 env body request fuel

end

end Citrea.Spec.Bitcoin
