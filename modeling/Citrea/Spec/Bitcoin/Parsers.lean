import Citrea.Spec.Bitcoin.Verifier

/-!
# `Citrea.Spec.Bitcoin.Parsers`: scripts of the `bitcoin` crate

`Script::instructions`, the pushes of `script::Builder` and `Witness::tapscript`, as the version
of the crate that the repository uses defines them. A script is its bytes. The iterator does not
ask for minimal pushes, and it ends after an error.
-/

namespace Citrea.Spec.Bitcoin

open Lib

/-- `OP_FALSE`, which is `OP_PUSHBYTES_0`. -/
def opFalse : UInt8 := 0x00

/-- `OP_PUSHDATA1`. Every smaller opcode pushes as many bytes as its value. -/
def opPushdata1 : UInt8 := 0x4c

/-- `OP_PUSHDATA2`. -/
def opPushdata2 : UInt8 := 0x4d

/-- `OP_PUSHDATA4`. Every larger opcode is not a push. -/
def opPushdata4 : UInt8 := 0x4e

/-- `OP_IF`. -/
def opIf : UInt8 := 0x63

/-- `OP_ENDIF`. -/
def opEndif : UInt8 := 0x68

/-- `OP_NIP`. -/
def opNip : UInt8 := 0x77

/-- `OP_CHECKSIGVERIFY`. -/
def opChecksigverify : UInt8 := 0xad

/-- `script::Error`, the variant that the iterator returns. -/
inductive ScriptError where
  | earlyEndOfScript
deriving DecidableEq

/-- The text of the error. -/
def ScriptError.toString : ScriptError → String
  | .earlyEndOfScript => "unexpected end of script"

/-- `script::Instruction`. -/
inductive Instruction where
  | pushBytes (b : Bytes)
  | op (opcode : UInt8)
deriving DecidableEq

/-- What the iterator returns, with the bytes that are left for it. -/
abbrev InstructionStep := Except ScriptError Instruction × Bytes

/-- `take_slice_or_kill`: the next `n` bytes as a push. When there are not so many, the iterator
has nothing left. -/
def takeSliceOrKill (n : Nat) (data : Bytes) : InstructionStep :=
  if n ≤ data.length then (.ok (.pushBytes (data.take n)), data.drop n)
  else (.error .earlyEndOfScript, [])

/-- `next_push_data_len`: a push whose length stands in the next `width` bytes. -/
def nextPushDataLen (width : Nat) (data : Bytes) : InstructionStep :=
  if width ≤ data.length then takeSliceOrKill (ofLeBytes (data.take width)) (data.drop width)
  else (.error .earlyEndOfScript, [])

/-- `Instructions::next` after it has taken the byte `code`. -/
def nextInstruction (code : UInt8) (data : Bytes) : InstructionStep :=
  if code < opPushdata1 then takeSliceOrKill code.toNat data
  else if code = opPushdata1 then nextPushDataLen 1 data
  else if code = opPushdata2 then nextPushDataLen 2 data
  else if code = opPushdata4 then nextPushDataLen 4 data
  else (.ok (.op code), data)

theorem length_takeSliceOrKill_le (n : Nat) (data : Bytes) :
    (takeSliceOrKill n data).2.length ≤ data.length := by
  unfold takeSliceOrKill
  split <;> simp

theorem length_nextPushDataLen_le (width : Nat) (data : Bytes) :
    (nextPushDataLen width data).2.length ≤ data.length := by
  unfold nextPushDataLen
  split
  · have h := length_takeSliceOrKill_le (ofLeBytes (data.take width)) (data.drop width)
    rw [List.length_drop] at h
    omega
  · simp

theorem length_nextInstruction_le (code : UInt8) (data : Bytes) :
    (nextInstruction code data).2.length ≤ data.length := by
  unfold nextInstruction
  split_ifs
  · exact length_takeSliceOrKill_le _ _
  · exact length_nextPushDataLen_le _ _
  · exact length_nextPushDataLen_le _ _
  · exact length_nextPushDataLen_le _ _
  · exact Nat.le_refl _

/-- `script.instructions()`, as the list of what the iterator returns. -/
def instructions : Bytes → List (Except ScriptError Instruction)
  | [] => []
  | code :: data => (nextInstruction code data).1 :: instructions (nextInstruction code data).2
termination_by script => script.length
decreasing_by
  have h := length_nextInstruction_le code data
  simp only [List.length_cons]
  omega

/-- The bytes in front of a push of `n` bytes. -/
def pushHeader (n : Nat) : Bytes :=
  if n < opPushdata1.toNat then leBytes 1 n
  else if n < 0x100 then opPushdata1 :: leBytes 1 n
  else if n < 0x10000 then opPushdata2 :: leBytes 2 n
  else opPushdata4 :: leBytes 4 n

/-- `push_slice`. A `PushBytes` has fewer than `2^32` bytes. -/
def pushSlice (data : Bytes) : Bytes := pushHeader data.length ++ data

/-- `TAPROOT_ANNEX_PREFIX`. -/
def taprootAnnexPrefix : UInt8 := 0x50

/-- `Witness::tapscript`: the item before the control block, which is the last item, or the one
before the annex. -/
def tapscript (witness : List ByteVec) : Option Bytes :=
  match witness.getLast? with
  | none => none
  | some last =>
    let scriptPosFromLast :=
      if 2 ≤ witness.length ∧ last.data.head? = some taprootAnnexPrefix then 3 else 2
    if scriptPosFromLast ≤ witness.length then
      (witness[witness.length - scriptPosFromLast]?).map (·.data)
    else none

/-! ### The inscription parser

`crates/bitcoin-da/src/helpers/parsers.rs`, with `TransactionKind` of `helpers/mod.rs`. A parser
takes the instructions that are left and returns its value with the instructions after it.
-/

/-- `TransactionKind`. The number of an unknown kind is not zero in the source. -/
inductive TransactionKind where
  | complete
  | aggregate
  | chunks
  | batchProofMethodId
  | sequencerCommitment
  | unknown (n : UInt16)
deriving DecidableEq

namespace TransactionKind

/-- `TransactionKind::to_bytes`. -/
def toBytes : TransactionKind → Bytes
  | .complete => leBytes 2 0
  | .aggregate => leBytes 2 1
  | .chunks => leBytes 2 2
  | .batchProofMethodId => leBytes 2 3
  | .sequencerCommitment => leBytes 2 4
  | .unknown n => leBytes 2 n.toNat

/-- `TransactionKind::from_bytes`. -/
def fromBytes (bytes : Bytes) : Outcome ParserError (Option TransactionKind) :=
  if bytes.length ≠ 2 then pure none
  else
    match ofLeBytes bytes with
    | 0 => pure (some .complete)
    | 1 => pure (some .aggregate)
    | 2 => pure (some .chunks)
    | 3 => pure (some .batchProofMethodId)
    | 4 => pure (some .sequencerCommitment)
    | n => do
      let n ← expect (if n = 0 then none else some n) "Is not zero"
      pure (some (.unknown (UInt16.ofNat n)))

end TransactionKind

/-- The iterator that the parsers read from. -/
abbrev Instructions := List (Except ScriptError Instruction)

/-- `read_instr`. -/
def readInstr : Instructions → Outcome ParserError (Instruction × Instructions)
  | [] => err .unexpectedEndOfScript
  | .error e :: _ => err (.scriptError e.toString)
  | .ok instr :: rest => pure (instr, rest)

/-- `read_push_bytes`. -/
def readPushBytes (instrs : Instructions) : Outcome ParserError (Bytes × Instructions) := do
  let (instr, rest) ← readInstr instrs
  match instr with
  | .pushBytes pushBytes => pure (pushBytes, rest)
  | .op _ => err .unexpectedOpcode

/-- `read_opcode`. -/
def readOpcode (instrs : Instructions) : Outcome ParserError (UInt8 × Instructions) := do
  let (instr, rest) ← readInstr instrs
  match instr with
  | .pushBytes _ => err .unexpectedOpcode
  | .op code => pure (code, rest)

/-- `if OP != read_opcode(instructions)? { return Err(UnexpectedOpcode) }`. -/
def expectOpcode (code : UInt8) (instrs : Instructions) : Outcome ParserError Instructions := do
  let (found, rest) ← readOpcode instrs
  ensure (found = code) .unexpectedOpcode
  pure rest

namespace BodyParsers

/-- The start of every body: `OP_FALSE OP_IF`. -/
def readEnvelopeStart (instrs : Instructions) : Outcome ParserError Instructions := do
  let (opFalse, rest) ← readPushBytes instrs
  ensure (opFalse = []) .unexpectedOpcode
  expectOpcode opIf rest

/-- The loop that reads pushes up to `OP_ENDIF`. -/
def readChunks : Instructions → Outcome ParserError (List Bytes × Instructions)
  | [] => err .unexpectedEndOfScript
  | .error e :: _ => err (.scriptError e.toString)
  | .ok (.pushBytes chunk) :: rest => do
    ensure (chunk ≠ []) .unexpectedOpcode
    let (chunks, rest) ← readChunks rest
    pure (chunk :: chunks, rest)
  | .ok (.op code) :: rest => do
    ensure (code = opEndif) .unexpectedOpcode
    pure ([], rest)

/-- The end of every body: the nonce, `OP_NIP` and nothing more. -/
def readEnd (instrs : Instructions) : Outcome ParserError Unit := do
  let (_nonce, rest) ← readPushBytes instrs
  let rest ← expectOpcode opNip rest
  ensure (rest = []) .unexpectedOpcode

/-- A body with its signature and key, cut into pushes. -/
def parseSignedChunks (instrs : Instructions) : Outcome ParserError SignedBody := do
  let rest ← readEnvelopeStart instrs
  let (signature, rest) ← readPushBytes rest
  let (publicKey, rest) ← readPushBytes rest
  let (chunks, rest) ← readChunks rest
  readEnd rest
  pure { body := chunks.flatten, signature, publicKey }

/-- `parse_type_0_body`. -/
def parseType0Body (instrs : Instructions) : Outcome ParserError SignedBody :=
  parseSignedChunks instrs

/-- `parse_type_1_body`. -/
def parseType1Body (instrs : Instructions) : Outcome ParserError SignedBody :=
  parseSignedChunks instrs

/-- `parse_type_2_body`. -/
def parseType2Body (instrs : Instructions) : Outcome ParserError Bytes := do
  let rest ← readEnvelopeStart instrs
  let (chunks, rest) ← readChunks rest
  readEnd rest
  pure chunks.flatten

/-- `parse_type_3_body`: the body is one push. -/
def parseType3Body (instrs : Instructions) : Outcome ParserError Bytes := do
  let rest ← readEnvelopeStart instrs
  let (body, rest) ← readPushBytes rest
  let rest ← expectOpcode opEndif rest
  readEnd rest
  pure body

/-- `parse_type_4_body`: the body is one push. -/
def parseType4Body (instrs : Instructions) : Outcome ParserError SignedBody := do
  let rest ← readEnvelopeStart instrs
  let (signature, rest) ← readPushBytes rest
  let (publicKey, rest) ← readPushBytes rest
  let (body, rest) ← readPushBytes rest
  let rest ← expectOpcode opEndif rest
  readEnd rest
  pure { body, signature, publicKey }

end BodyParsers

/-- The `match kind` of `parse_transaction`. -/
def parseBody (instrs : Instructions) : TransactionKind → Outcome ParserError ParsedTransaction
  | .complete => do
    let b ← BodyParsers.parseType0Body instrs
    pure (.complete b)
  | .aggregate => do
    let b ← BodyParsers.parseType1Body instrs
    pure (.aggregate b)
  | .chunks => do
    let body ← BodyParsers.parseType2Body instrs
    pure (.chunk body)
  | .batchProofMethodId => do
    let body ← BodyParsers.parseType3Body instrs
    pure (.batchProofMethodId body)
  | .sequencerCommitment => do
    let b ← BodyParsers.parseType4Body instrs
    pure (.sequencerCommitment b)
  | .unknown n => err (.invalidHeaderType n)

/-- `parse_transaction`. -/
def parseTransaction (instrs : Instructions) : Outcome ParserError ParsedTransaction := do
  let (_publicKey, rest) ← readPushBytes instrs
  let rest ← expectOpcode opChecksigverify rest
  let (kindSlice, rest) ← readPushBytes rest
  match ← TransactionKind.fromBytes kindSlice with
  | none => err .invalidHeaderLength
  | some kind => parseBody rest kind

/-- `get_script`. -/
def getScript (tx : Transaction) : Outcome ParserError Bytes := do
  let input ← expect tx.input.head? "index out of bounds"
  match tapscript input.witness with
  | none => err .nonTapscriptWitness
  | some script => pure script

/-- `parse_relevant_transaction`. -/
def parseRelevantTransaction (tx : Transaction) : Outcome ParserError ParsedTransaction := do
  let script ← getScript tx
  parseTransaction (instructions script)

/-! ### `BitcoinHeaderShortProof::verify`

`crates/bitcoin-da/src/spec/short_proof.rs`: the proof that a coinbase transaction is in a block,
and the facts about the block that the EVM learns from it.

`ScriptEnv` holds what the check calls from the `sha2` and `bitcoin` crates: SHA-256, the
iterator over the minimal instructions of a script, and the reader of a script number.
-/

/-- `ShortHeaderProofVerificationError`. -/
inductive ShortHeaderProofVerificationError where
  | invalidHeaderHash
  | invalidCoinbaseMerkleProof
  | wrongTxCommitment (expected : Bytes) (actual : Bytes32)
deriving DecidableEq

/-- `L1UpdateSystemTransactionInfo`. -/
@[ext]
structure L1UpdateSystemTransactionInfo where
  headerHash : Bytes32
  prevHeaderHash : Bytes32
  txCommitment : Bytes32
  coinbaseTxidMerkleProofHeight : UInt8
  blockHeight : UInt64
deriving DecidableEq

/-- `BitcoinHeaderShortProof`. -/
structure BitcoinHeaderShortProof where
  header : HeaderWrapper
  coinbaseTx : Transaction
  coinbaseTxTxidMerkleProof : List Bytes32

/-- The functions that the check calls from other crates. `instructionsMinimalNext` is the
first item of `instructions_minimal()`: none for an empty script, and an error for an
instruction that is not minimal. `readScriptint` is none where the source gets an error. -/
structure ScriptEnv where
  sha256 : Bytes → Bytes32
  instructionsMinimalNext : Bytes → Option (Except String Instruction)
  readScriptint : Bytes → Option Int

section
variable (env : ScriptEnv)

/-- The height that the coinbase transaction starts with (BIP 34). -/
def bip34BlockHeight (coinbaseTx : Transaction) :
    Outcome ShortHeaderProofVerificationError UInt64 := do
  let input ← expect coinbaseTx.input.head? "coinbase tx must have input"
  let item ← expect (env.instructionsMinimalNext input.scriptSig.data)
    "should have at least one instruction"
  match item with
  | .error _ => Outcome.panic "should be minimal"
  | .ok (.op _) => Outcome.panic "should be push bytes"
  | .ok (.pushBytes b) => do
    let height ← expect (env.readScriptint b) "should work"
    assert (0 < height) "height must be positive"
    pure (UInt64.ofInt height)

namespace BitcoinHeaderShortProof

/-- The `match commitment_idx` of `verify`. -/
def checkTxsCommitment (proof : BitcoinHeaderShortProof) :
    Outcome ShortHeaderProofVerificationError Unit :=
  match witnessCommitmentScript proof.coinbaseTx with
  | none =>
    ensure
      (¬ (1 < proof.header.txCount ∧ proof.header.merkleRoot ≠ proof.header.txsCommitment))
      (.wrongTxCommitment proof.header.merkleRoot.data proof.header.txsCommitment)
  | some script => do
    let input ← expect proof.coinbaseTx.input.head? "index out of bounds"
    let inputWitnessValue ← expect input.witness.head?
      "called `Option::unwrap()` on a `None` value"
    let commitment := calculateDoubleSha256 env.sha256
      (proof.header.txsCommitment.data ++ inputWitnessValue.data)
    ensure (committedHash script = commitment.data)
      (.wrongTxCommitment (committedHash script) proof.header.txsCommitment)

/-- `BitcoinHeaderShortProof::verify`. -/
def verify (proof : BitcoinHeaderShortProof) :
    Outcome ShortHeaderProofVerificationError L1UpdateSystemTransactionInfo := do
  ensure (proof.header.verifyHash env.sha256 = true) .invalidHeaderHash
  let claimedRoot ← BitcoinMerkleTree.calculateRootWithMerkleProof env.sha256
    (calculateTxid env.sha256 proof.coinbaseTx) 0 proof.coinbaseTxTxidMerkleProof
  ensure (proof.header.merkleRoot = claimedRoot) .invalidCoinbaseMerkleProof
  ensure (¬ (proof.header.txCount = 1 ∧ proof.header.txsCommitment ≠ .zero))
    (.wrongTxCommitment Bytes32.zero.data proof.header.txsCommitment)
  proof.checkTxsCommitment env
  let height ← bip34BlockHeight env proof.coinbaseTx
  pure
    { headerHash := proof.header.precomputedHash
      prevHeaderHash := proof.header.header.prevBlockhash
      txCommitment := proof.header.txsCommitment
      coinbaseTxidMerkleProofHeight := UInt8.ofNat proof.coinbaseTxTxidMerkleProof.length
      blockHeight := height }

end BitcoinHeaderShortProof

end

end Citrea.Spec.Bitcoin
