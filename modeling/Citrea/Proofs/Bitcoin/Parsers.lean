import Citrea.Spec.Bitcoin.Parsers

/-!
# `Citrea.Proofs.Bitcoin.Parsers`: the scripts that the inscription parser accepts

Each reader of the parser succeeds on exactly one form of instruction list, so a successful parse
spells out the whole list. `parseTransaction_eq_ok` puts the readers together: the parser returns
`v` exactly for the inscriptions whose pushes are the pushes of `v`.

`instructions_pushSlice` and `instructions_op` say that the iterator reads back what the script
builder wrote.
-/

namespace Citrea.Proofs.Bitcoin

open List Lib Spec.Bitcoin

variable {data b : Bytes} {code : UInt8} {instrs rest : Instructions} {v : ParsedTransaction}
  {instr : Instruction} {bytes : Bytes} {kind : TransactionKind}

/-! ### The iterator on the bytes of a script builder -/

theorem takeSliceOrKill_append (data rest : Bytes) :
    takeSliceOrKill data.length (data ++ rest) = (.ok (.pushBytes data), rest) := by
  simp [takeSliceOrKill]

theorem nextPushDataLen_append {width : Nat} (h : data.length < 256 ^ width) (rest : Bytes) :
    nextPushDataLen width (leBytes width data.length ++ (data ++ rest)) =
      (.ok (.pushBytes data), rest) := by
  have htake : (leBytes width data.length ++ (data ++ rest)).take width =
      leBytes width data.length := take_left' (length_leBytes _ _)
  have hdrop : (leBytes width data.length ++ (data ++ rest)).drop width = data ++ rest :=
    drop_left' (length_leBytes _ _)
  rw [nextPushDataLen, if_pos (by simp), htake, hdrop, ofLeBytes_leBytes h, takeSliceOrKill_append]

/-- The iterator takes the byte of an opcode and what belongs to it. -/
theorem instructions_of_next {rest : Bytes} (h : nextInstruction code data = (.ok instr, rest)) :
    instructions (code :: data) = .ok instr :: instructions rest := by
  rw [instructions, h]

/-- A push that the builder wrote is read back as that push. -/
theorem instructions_pushSlice (h : data.length < 2 ^ 32) (rest : Bytes) :
    instructions (pushSlice data ++ rest) = .ok (.pushBytes data) :: instructions rest := by
  unfold pushSlice pushHeader
  -- The four cases are the four forms of a push, by the length of the data.
  split_ifs with hshort hone htwo
  · show instructions (UInt8.ofNat data.length :: (data ++ rest)) = _
    have hlen : (UInt8.ofNat data.length).toNat = data.length := by
      have hbound : opPushdata1.toNat = 76 := rfl
      rw [UInt8.toNat_ofNat']
      omega
    apply instructions_of_next
    rw [nextInstruction, if_pos (UInt8.lt_iff_toNat_lt.mpr (by omega)), hlen,
      takeSliceOrKill_append]
  · rw [cons_append, cons_append, append_assoc]
    apply instructions_of_next
    rw [nextInstruction, if_neg (by decide), if_pos rfl]
    exact nextPushDataLen_append (by omega) rest
  · rw [cons_append, cons_append, append_assoc]
    apply instructions_of_next
    rw [nextInstruction, if_neg (by decide), if_neg (by decide), if_pos rfl]
    exact nextPushDataLen_append (by omega) rest
  · rw [cons_append, cons_append, append_assoc]
    apply instructions_of_next
    rw [nextInstruction, if_neg (by decide), if_neg (by decide), if_neg (by decide), if_pos rfl]
    exact nextPushDataLen_append (by omega) rest

/-- An opcode that is not a push is read back as itself. -/
theorem instructions_op (h : opPushdata4 < code) (rest : Bytes) :
    instructions (code :: rest) = .ok (.op code) :: instructions rest := by
  have hlarge : 78 < code.toNat := UInt8.lt_iff_toNat_lt.mp h
  have hne : ∀ other : UInt8, other.toNat ≤ 78 → code ≠ other := by
    rintro other hother rfl
    omega
  apply instructions_of_next
  have hnotShort : ¬ code < opPushdata1 := by
    rw [UInt8.lt_iff_toNat_lt]
    have hbound : opPushdata1.toNat = 76 := rfl
    omega
  rw [nextInstruction, if_neg hnotShort, if_neg (hne opPushdata1 (by decide)),
    if_neg (hne opPushdata2 (by decide)), if_neg (hne opPushdata4 (by decide))]

/-- `OP_FALSE` is read back as an empty push. -/
theorem instructions_opFalse (rest : Bytes) :
    instructions (opFalse :: rest) = .ok (.pushBytes []) :: instructions rest := by
  apply instructions_of_next
  simp [nextInstruction, opFalse, opPushdata1, takeSliceOrKill]

/-! ### What each reader accepts -/

theorem readInstr_eq_ok : readInstr instrs = .ok (instr, rest) ↔ instrs = .ok instr :: rest := by
  unfold readInstr
  split <;> simp

theorem readPushBytes_eq_ok :
    readPushBytes instrs = .ok (b, rest) ↔ instrs = .ok (.pushBytes b) :: rest := by
  simp only [readPushBytes, bind_eq_ok, Prod.exists, readInstr_eq_ok]
  constructor
  · rintro ⟨instr, tail, rfl, h⟩
    cases instr with
    | pushBytes c =>
      obtain ⟨rfl, rfl⟩ : c = b ∧ tail = rest := by simpa using h
      rfl
    | op code => simp at h
  · rintro rfl
    exact ⟨_, _, rfl, rfl⟩

theorem readOpcode_eq_ok :
    readOpcode instrs = .ok (code, rest) ↔ instrs = .ok (.op code) :: rest := by
  simp only [readOpcode, bind_eq_ok, Prod.exists, readInstr_eq_ok]
  constructor
  · rintro ⟨instr, tail, rfl, h⟩
    cases instr with
    | pushBytes c => simp at h
    | op found =>
      obtain ⟨rfl, rfl⟩ : found = code ∧ tail = rest := by simpa using h
      rfl
  · rintro rfl
    exact ⟨_, _, rfl, rfl⟩

theorem expectOpcode_eq_ok :
    expectOpcode code instrs = .ok rest ↔ instrs = .ok (.op code) :: rest := by
  simp only [expectOpcode, bind_eq_ok, ensure_eq_ok, pure_eq_ok, Prod.exists, readOpcode_eq_ok]
  constructor
  · rintro ⟨found, tail, rfl, ⟨-, rfl, rfl⟩⟩
    rfl
  · rintro rfl
    exact ⟨code, rest, rfl, (), rfl, rfl⟩

open BodyParsers

theorem readEnvelopeStart_eq_ok : readEnvelopeStart instrs = .ok rest ↔
      instrs = .ok (.pushBytes []) :: .ok (.op opIf) :: rest := by
  simp [readEnvelopeStart, readPushBytes_eq_ok, expectOpcode_eq_ok]

/-- The instructions of a list of pushes. -/
def pushes (chunks : List Bytes) : Instructions := chunks.map fun c => .ok (.pushBytes c)

/-- The loop stops at the first `OP_ENDIF` and has read non-empty pushes up to there. -/
theorem readChunks_eq_ok {chunks : List Bytes} : readChunks instrs = .ok (chunks, rest) ↔
      instrs = pushes chunks ++ .ok (.op opEndif) :: rest ∧ ∀ c ∈ chunks, c ≠ [] := by
  induction instrs generalizing chunks rest with
  | nil => simp [readChunks]
  | cons item tail ih =>
    rcases item with e | (chunk | code)
    · cases chunks <;> simp [readChunks, pushes]
    · -- A push: it is the first of the chunks, and the rest of the list gives the others.
      simp only [readChunks, bind_eq_ok, ensure_eq_ok, pure_eq_ok, Prod.exists, ih]
      constructor
      · rintro ⟨-, hchunk, cs, rest', ⟨rfl, hcs⟩, heq⟩
        obtain ⟨rfl, rfl⟩ : chunk :: cs = chunks ∧ rest' = rest := by simpa using heq
        exact ⟨rfl, forall_mem_cons.mpr ⟨hchunk, hcs⟩⟩
      · rintro ⟨heq, hne⟩
        cases chunks with
        | nil => simp [pushes] at heq
        | cons c cs =>
          obtain ⟨rfl, rfl⟩ : chunk = c ∧ tail = pushes cs ++ .ok (.op opEndif) :: rest := by
            simpa [pushes] using heq
          have hne := forall_mem_cons.mp hne
          exact ⟨(), hne.1, cs, rest, ⟨rfl, hne.2⟩, rfl⟩
    · simp only [readChunks, bind_eq_ok, ensure_eq_ok, pure_eq_ok]
      cases chunks <;> simp [pushes]

theorem readEnd_eq_ok {u : Unit} :
    readEnd instrs = .ok u ↔ ∃ nonce, instrs = [.ok (.pushBytes nonce), .ok (.op opNip)] := by
  simp [readEnd, readPushBytes_eq_ok, expectOpcode_eq_ok]

/-! ### What the parsers of the bodies accept -/

/-- The instructions after the kind: the pushes of the body between `OP_FALSE OP_IF` and
`OP_ENDIF`, then the nonce and `OP_NIP`. -/
def envelope (body : List Bytes) (nonce : Bytes) : Instructions :=
  .ok (.pushBytes []) :: .ok (.op opIf) ::
    (pushes body ++ [.ok (.op opEndif), .ok (.pushBytes nonce), .ok (.op opNip)])

/-- The pushes of a signed body that is cut into pieces. -/
def SignedPieces (b : SignedBody) (body : List Bytes) : Prop :=
  ∃ chunks, body = b.signature :: b.publicKey :: chunks ∧ (∀ c ∈ chunks, c ≠ []) ∧
    b.body = chunks.flatten

theorem parseSignedChunks_eq_ok {b : SignedBody} : parseSignedChunks instrs = .ok b ↔
      ∃ body nonce, instrs = envelope body nonce ∧ SignedPieces b body := by
  simp only [parseSignedChunks, bind_eq_ok, pure_eq_ok, Prod.exists,
    readEnvelopeStart_eq_ok, readPushBytes_eq_ok, readChunks_eq_ok, readEnd_eq_ok]
  constructor
  · rintro ⟨_, rfl, signature, _, rfl, publicKey, _, rfl, chunks, _, ⟨rfl, hne⟩, -, ⟨nonce, rfl⟩,
      rfl⟩
    exact ⟨signature :: publicKey :: chunks, nonce, rfl, chunks, rfl, hne, rfl⟩
  · rintro ⟨_, nonce, rfl, chunks, rfl, hne, hbody⟩
    exact ⟨_, rfl, b.signature, _, rfl, b.publicKey, _, rfl, chunks, _, ⟨rfl, hne⟩, (),
      ⟨nonce, rfl⟩,
      by rw [← hbody]⟩

theorem parseType2Body_eq_ok : parseType2Body instrs = .ok b ↔
      ∃ body nonce, instrs = envelope body nonce ∧ (∀ c ∈ body, c ≠ []) ∧ b = body.flatten := by
  simp only [parseType2Body, bind_eq_ok, pure_eq_ok, Prod.exists,
    readEnvelopeStart_eq_ok, readChunks_eq_ok, readEnd_eq_ok]
  constructor
  · rintro ⟨_, rfl, chunks, _, ⟨rfl, hne⟩, -, ⟨nonce, rfl⟩, rfl⟩
    exact ⟨chunks, nonce, rfl, hne, rfl⟩
  · rintro ⟨chunks, nonce, rfl, hne, rfl⟩
    exact ⟨_, rfl, chunks, _, ⟨rfl, hne⟩, (), ⟨nonce, rfl⟩, rfl⟩

theorem parseType3Body_eq_ok :
    parseType3Body instrs = .ok b ↔ ∃ nonce, instrs = envelope [b] nonce := by
  simp only [parseType3Body, bind_eq_ok, pure_eq_ok, Prod.exists,
    readEnvelopeStart_eq_ok, readPushBytes_eq_ok, expectOpcode_eq_ok, readEnd_eq_ok]
  constructor
  · rintro ⟨_, rfl, body, _, rfl, _, rfl, -, ⟨nonce, rfl⟩, rfl⟩
    exact ⟨nonce, rfl⟩
  · rintro ⟨nonce, rfl⟩
    exact ⟨_, rfl, b, _, rfl, _, rfl, (), ⟨nonce, rfl⟩, rfl⟩

theorem parseType4Body_eq_ok {b : SignedBody} : parseType4Body instrs = .ok b ↔
      ∃ nonce, instrs = envelope [b.signature, b.publicKey, b.body] nonce := by
  simp only [parseType4Body, bind_eq_ok, pure_eq_ok, Prod.exists,
    readEnvelopeStart_eq_ok, readPushBytes_eq_ok, expectOpcode_eq_ok, readEnd_eq_ok]
  constructor
  · rintro ⟨_, rfl, signature, _, rfl, publicKey, _, rfl, body, _, rfl, _, rfl, -, ⟨nonce, rfl⟩,
      rfl⟩
    exact ⟨nonce, rfl⟩
  · rintro ⟨nonce, rfl⟩
    exact ⟨_, rfl, b.signature, _, rfl, b.publicKey, _, rfl, b.body, _, rfl, _, rfl, (),
      ⟨nonce, rfl⟩,
      rfl⟩

/-! ### The kind -/

/-- The kind of a parsed transaction. -/
def kindOf : ParsedTransaction → TransactionKind
  | .complete _ => .complete
  | .aggregate _ => .aggregate
  | .chunk _ => .chunks
  | .batchProofMethodId _ => .batchProofMethodId
  | .sequencerCommitment _ => .sequencerCommitment

/-- Two bytes that have the number of a kind are the bytes of that kind. -/
theorem toBytes_of_number {n : Nat} (hlen : bytes.length = 2) (hn : ofLeBytes bytes = n)
    (h : (pure (some kind) : Outcome ParserError _) = .ok (some (kindOf v)))
    (hkind : kind.toBytes = leBytes 2 n) : bytes = (kindOf v).toBytes := by
  have heq : kind = kindOf v := by simpa using h
  rw [← heq, hkind, ← hn, ← hlen, leBytes_ofLeBytes]

/-- The bytes of a kind give the kind back, and a known kind has no other bytes. -/
theorem fromBytes_eq_ok :
    TransactionKind.fromBytes bytes = .ok (some (kindOf v)) ↔ bytes = (kindOf v).toBytes := by
  constructor
  · intro h
    unfold TransactionKind.fromBytes at h
    split at h
    · simp at h
    · rename_i hlen
      have hlen : bytes.length = 2 := not_not.mp hlen
      -- The five known numbers, each with its kind; an unknown number gives an unknown kind.
      split at h
      · rename_i hn
        exact toBytes_of_number hlen hn h rfl
      · rename_i hn
        exact toBytes_of_number hlen hn h rfl
      · rename_i hn
        exact toBytes_of_number hlen hn h rfl
      · rename_i hn
        exact toBytes_of_number hlen hn h rfl
      · rename_i hn
        exact toBytes_of_number hlen hn h rfl
      · obtain ⟨n, -, hn⟩ := bind_eq_ok.mp h
        cases v <;> simp [kindOf] at hn
  · rintro rfl
    cases v <;> rfl

/-- The number of an unknown kind is not zero, so reading a kind does not panic. -/
theorem fromBytes_cases (bytes : Bytes) : ∃ kind, TransactionKind.fromBytes bytes = .ok kind := by
  unfold TransactionKind.fromBytes
  split
  · exact ⟨_, rfl⟩
  · split
    · exact ⟨_, rfl⟩
    · exact ⟨_, rfl⟩
    · exact ⟨_, rfl⟩
    · exact ⟨_, rfl⟩
    · exact ⟨_, rfl⟩
    · rename_i h0 _ _ _ _
      rw [if_neg h0]
      exact ⟨_, rfl⟩

/-! ### The whole script -/

/-- The pushes between `OP_IF` and `OP_ENDIF` that stand for a value. -/
def BodyPushes : ParsedTransaction → List Bytes → Prop
  | .complete b, body => SignedPieces b body
  | .aggregate b, body => SignedPieces b body
  | .chunk b, body => (∀ c ∈ body, c ≠ []) ∧ b = body.flatten
  | .batchProofMethodId b, body => body = [b]
  | .sequencerCommitment b, body => body = [b.signature, b.publicKey, b.body]

/-- The instructions of an inscription: the key and its check, the kind, and the envelope. -/
def inscription (key : Bytes) (kind : TransactionKind) (body : List Bytes) (nonce : Bytes) :
    Instructions :=
  .ok (.pushBytes key) :: .ok (.op opChecksigverify) :: .ok (.pushBytes kind.toBytes) ::
    envelope body nonce

theorem parseBody_eq_ok : parseBody instrs kind = .ok v ↔
      kind = kindOf v ∧ ∃ body nonce, instrs = envelope body nonce ∧ BodyPushes v body := by
  cases kind with
  | complete =>
    simp only [parseBody, parseType0Body, bind_eq_ok, pure_eq_ok, parseSignedChunks_eq_ok]
    cases v <;> simp [kindOf, BodyPushes]
  | aggregate =>
    simp only [parseBody, parseType1Body, bind_eq_ok, pure_eq_ok, parseSignedChunks_eq_ok]
    cases v <;> simp [kindOf, BodyPushes]
  | chunks =>
    simp only [parseBody, bind_eq_ok, pure_eq_ok, parseType2Body_eq_ok]
    cases v <;> simp [kindOf, BodyPushes, and_assoc, eq_comm]
  | batchProofMethodId =>
    simp only [parseBody, bind_eq_ok, pure_eq_ok, parseType3Body_eq_ok]
    cases v <;> simp [kindOf, BodyPushes]
  | sequencerCommitment =>
    simp only [parseBody, bind_eq_ok, pure_eq_ok, parseType4Body_eq_ok]
    cases v <;> simp [kindOf, BodyPushes]
  | unknown n => cases v <;> simp [parseBody, kindOf]

/-- The parser returns `v` exactly for the inscriptions of the kind of `v` whose pushes stand
for `v`. -/
theorem parseTransaction_eq_ok : parseTransaction instrs = .ok v ↔
      ∃ key body nonce, instrs = inscription key (kindOf v) body nonce ∧ BodyPushes v body := by
  simp only [parseTransaction, bind_eq_ok, Prod.exists, readPushBytes_eq_ok, expectOpcode_eq_ok]
  constructor
  · rintro ⟨key, _, rfl, _, rfl, kindSlice, _, rfl, found, hkind, h⟩
    cases found with
    | none => simp at h
    | some kind =>
      obtain ⟨rfl, body, nonce, rfl, hpushes⟩ := parseBody_eq_ok.mp h
      exact ⟨key, body, nonce, by rw [fromBytes_eq_ok.mp hkind]; rfl, hpushes⟩
  · rintro ⟨key, body, nonce, rfl, hpushes⟩
    exact ⟨key, _, rfl, _, rfl, _, _, rfl, some (kindOf v), fromBytes_eq_ok.mpr rfl,
      parseBody_eq_ok.mpr ⟨rfl, body, nonce, rfl, hpushes⟩⟩

/-! ### No panic -/

section
open Outcome

theorem noPanic_readInstr (instrs : Instructions) : NoPanic (readInstr instrs) := by
  unfold readInstr
  split
  · exact panicsOnly_err
  · exact panicsOnly_err
  · exact panicsOnly_ok

theorem noPanic_readPushBytes (instrs : Instructions) : NoPanic (readPushBytes instrs) := by
  apply PanicsOnly.bind (noPanic_readInstr instrs)
  rintro ⟨instr, rest⟩ -
  cases instr with
  | pushBytes b => exact panicsOnly_ok
  | op code => exact panicsOnly_err

theorem noPanic_expectOpcode (code : UInt8) (instrs : Instructions) :
    NoPanic (expectOpcode code instrs) := by
  have hread : NoPanic (readOpcode instrs) := by
    apply PanicsOnly.bind (noPanic_readInstr instrs)
    rintro ⟨instr, rest⟩ -
    cases instr with
    | pushBytes b => exact panicsOnly_err
    | op code => exact panicsOnly_ok
  apply PanicsOnly.bind hread
  rintro ⟨found, rest⟩ -
  exact PanicsOnly.bind panicsOnly_ensure fun _ _ => panicsOnly_ok

theorem noPanic_readEnvelopeStart (instrs : Instructions) : NoPanic (readEnvelopeStart instrs) := by
  apply PanicsOnly.bind (noPanic_readPushBytes instrs)
  rintro ⟨opFalse, rest⟩ -
  exact PanicsOnly.bind panicsOnly_ensure fun _ _ => noPanic_expectOpcode opIf rest

theorem noPanic_readChunks (instrs : Instructions) : NoPanic (readChunks instrs) := by
  induction instrs with
  | nil => exact panicsOnly_err
  | cons item rest ih =>
    rcases item with e | (chunk | code)
    · exact panicsOnly_err
    · exact PanicsOnly.bind panicsOnly_ensure fun _ _ =>
        PanicsOnly.bind ih fun _ _ => panicsOnly_ok
    · exact PanicsOnly.bind panicsOnly_ensure fun _ _ => panicsOnly_ok

theorem noPanic_readEnd (instrs : Instructions) : NoPanic (readEnd instrs) := by
  apply PanicsOnly.bind (noPanic_readPushBytes instrs)
  rintro ⟨nonce, rest⟩ -
  exact PanicsOnly.bind (noPanic_expectOpcode opNip rest) fun _ _ => panicsOnly_ensure

theorem noPanic_parseBody (instrs : Instructions) (kind : TransactionKind) :
    NoPanic (parseBody instrs kind) := by
  have hsigned : NoPanic (parseSignedChunks instrs) :=
    (noPanic_readEnvelopeStart instrs).bind fun _ _ =>
      (noPanic_readPushBytes _).bind fun _ _ => (noPanic_readPushBytes _).bind fun _ _ =>
        (noPanic_readChunks _).bind fun _ _ => (noPanic_readEnd _).bind fun _ _ => panicsOnly_ok
  cases kind with
  | complete => exact hsigned.bind fun _ _ => panicsOnly_ok
  | aggregate => exact hsigned.bind fun _ _ => panicsOnly_ok
  | chunks =>
    have hbody : NoPanic (parseType2Body instrs) :=
      (noPanic_readEnvelopeStart instrs).bind fun _ _ => (noPanic_readChunks _).bind fun _ _ =>
        (noPanic_readEnd _).bind fun _ _ => panicsOnly_ok
    exact hbody.bind fun _ _ => panicsOnly_ok
  | batchProofMethodId =>
    have hbody : NoPanic (parseType3Body instrs) :=
      (noPanic_readEnvelopeStart instrs).bind fun _ _ => (noPanic_readPushBytes _).bind fun _ _ =>
        (noPanic_expectOpcode _ _).bind fun _ _ => (noPanic_readEnd _).bind fun _ _ => panicsOnly_ok
    exact hbody.bind fun _ _ => panicsOnly_ok
  | sequencerCommitment =>
    have hbody : NoPanic (parseType4Body instrs) :=
      (noPanic_readEnvelopeStart instrs).bind fun _ _ => (noPanic_readPushBytes _).bind fun _ _ =>
        (noPanic_readPushBytes _).bind fun _ _ => (noPanic_readPushBytes _).bind fun _ _ =>
          (noPanic_expectOpcode _ _).bind fun _ _ => (noPanic_readEnd _).bind fun _ _ =>
            panicsOnly_ok
    exact hbody.bind fun _ _ => panicsOnly_ok
  | unknown n => exact panicsOnly_err

/-- The parser returns a value or an error on every list of instructions. -/
theorem noPanic_parseTransaction (instrs : Instructions) : NoPanic (parseTransaction instrs) := by
  apply PanicsOnly.bind (noPanic_readPushBytes instrs)
  rintro ⟨key, rest⟩ -
  apply PanicsOnly.bind (noPanic_expectOpcode opChecksigverify rest)
  rintro rest -
  apply PanicsOnly.bind (noPanic_readPushBytes rest)
  rintro ⟨kindSlice, rest⟩ -
  obtain ⟨kind, hkind⟩ := fromBytes_cases kindSlice
  show NoPanic (TransactionKind.fromBytes kindSlice >>= _)
  rw [hkind]
  cases kind with
  | none => exact panicsOnly_err
  | some kind => exact noPanic_parseBody rest kind

end

end Citrea.Proofs.Bitcoin
