import Citrea.Proofs.Bitcoin.Parsers
import Citrea.Spec.Bitcoin.Builders

/-!
# `Citrea.Proofs.Bitcoin.Builders`: the transactions that the builders return

`mine_found` says what a returned pair looks like: the reveal transaction spends the commit
transaction and shows the script with some nonce, its wtxid starts with the prefix, and the commit
transaction spends the required output. The search changes amounts, the spent txid and the
signature, and `RevealPair` is what it keeps.

`createInscriptionTransactions_readBack` then compares what was inscribed with what the parser
reads: it differs for a method id whose body is empty or longer than one push, since the builder
cuts that body into pushes and its parser reads a single push.
-/

namespace Citrea.Proofs.Bitcoin

open Option List Lib Spec.Bitcoin

theorem ofBytes_eq_ok {ε : Type} {bytes : Bytes} {v : ByteVec}
    (h : (ByteVec.ofBytes bytes : Outcome ε ByteVec) = .ok v) : v.data = bytes := by
  unfold ByteVec.ofBytes at h
  split at h
  · simp only [pure_eq_ok] at h
    rw [← h]
  · simp at h

theorem newTransaction_eq_ok {ε : Type} {input : List TxIn} {output : List TxOut}
    {tx : Transaction} (h : (newTransaction input output : Outcome ε Transaction) = .ok tx) :
    tx.input = input ∧ tx.output = output := by
  unfold newTransaction at h
  split at h
  · simp only [pure_eq_ok] at h
    rw [← h]
    exact ⟨rfl, rfl⟩
  · simp at h

section
variable {env : BuilderEnv} {leftover : List Utxo} {fuel : Nat} {revealScript : ByteVec}
  {request : WalletRequest} {pair : CommitReveal} {kind : TransactionKind} {bytes body : Bytes}
  {utxo : Utxo} {utxos : List Utxo} {tx : Transaction} {signature controlBlock : ByteVec}
  {envelope : Bytes} {nonce : Nat} {l : List Bytes}

/-! ### A pair through the search -/

/-- The input of a reveal transaction. -/
def revealInput (txid : Bytes32) (signature revealScript controlBlock : ByteVec) : TxIn :=
  { unsignedInput ⟨txid, 0⟩ with
    witness := [signature, revealScript, controlBlock]
    witness_fits := stack_fits signature revealScript controlBlock }

/-- The commit transaction spends the required output, and the reveal transaction spends the
first output of the commit transaction with the script in its witness. -/
structure RevealPair (env : BuilderEnv) (request : WalletRequest) (revealScript : ByteVec)
    (pair : CommitReveal) : Prop where
  required : ∀ utxo, request.prevUtxo = some utxo →
    ∃ i ∈ pair.commit.input, i.previousOutput = ⟨utxo.txId, utxo.vout⟩
  reveal : ∃ signature, pair.reveal.input =
    [revealInput (calculateTxid env.sha256 pair.commit) signature revealScript
      (env.taproot revealScript).controlBlock.data]

/-- The chosen outputs begin with the required one. -/
theorem chooseUtxos_required {amount : UInt64} {chosen : List Utxo} {sum : UInt64}
    (h : chooseUtxos env (some utxo) utxos amount = .ok (chosen, sum, leftover)) :
    utxo ∈ chosen := by
  have htake : ∀ (rest : List Utxo) (acc : List Utxo × UInt64), utxo ∈ acc.1 →
      utxo ∈ (takeUntilAmount amount rest acc).1 := by
    intro rest
    induction rest with
    | nil => exact fun _ hacc => hacc
    | cons next rest ih =>
      intro acc hacc
      unfold takeUntilAmount
      split
      · exact mem_append_left _ hacc
      · exact ih _ (mem_append_left _ hacc)
  unfold chooseUtxos at h
  simp only [toList_some, map_some, getD_some] at h
  split at h
  · obtain ⟨rfl, -⟩ : [utxo] = chosen ∧ _ := by simpa using h
    exact mem_singleton_self utxo
  · split at h
    · obtain ⟨rfl, -⟩ : [utxo] ++ [_] = chosen ∧ _ := by simpa using h
      simp
    · obtain ⟨-, -, h⟩ := bind_eq_ok.mp h
      obtain ⟨rfl, -⟩ : _ = chosen ∧ _ := by simpa using h
      exact htake _ _ (mem_singleton_self utxo)

/-- The commit transaction spends the required output. -/
theorem buildCommitTransaction_required {recipient changeAddress : ByteVec}
    {outputValue feeRate : UInt64}
    (h : buildCommitTransaction env (some utxo) utxos recipient changeAddress outputValue feeRate
      fuel = .ok (tx, leftover)) : ∃ i ∈ tx.input, i.previousOutput = ⟨utxo.txId, utxo.vout⟩ := by
  -- The loop returns a transaction over the outputs chosen in its last turn.
  have hloop : ∀ (utxos : List Utxo) (fuel lastSize : Nat),
      commitSizeLoop env (some utxo) utxos recipient changeAddress outputValue feeRate fuel lastSize
        = .ok (tx, leftover) → ∃ i ∈ tx.input, i.previousOutput = ⟨utxo.txId, utxo.vout⟩ := by
    intro utxos fuel
    induction fuel with
    | zero => exact fun _ h => absurd h err_ne_ok
    | succ fuel ih =>
      intro lastSize h
      unfold commitSizeLoop at h
      simp only [bind_eq_ok, Prod.exists] at h
      obtain ⟨chosen, sum, rest, hchosen, size, -, h⟩ := h
      split at h
      · simp only [bind_eq_ok, pure_eq_ok, Prod.mk.injEq] at h
        obtain ⟨built, hbuilt, rfl, -⟩ := h
        rw [(newTransaction_eq_ok hbuilt).1]
        exact ⟨_, mem_map_of_mem (chooseUtxos_required hchosen), rfl⟩
      · exact ih size h
  unfold buildCommitTransaction at h
  obtain ⟨size, -, h⟩ := bind_eq_ok.mp h
  exact hloop _ _ _ h

theorem setPreviousTxid_input (tx : Transaction) (txid : Bytes32) {old : Bytes32}
    (h : tx.input = [revealInput old signature revealScript controlBlock]) :
    (tx.setPreviousTxid txid).input = [revealInput txid signature revealScript controlBlock] := by
  show tx.input.modify 0 _ = _
  rw [h]
  rfl

theorem setWitness_input {txid : Bytes32} (signature' revealScript' controlBlock' : ByteVec)
    (h : tx.input = [revealInput txid signature revealScript controlBlock]) :
    (tx.setWitness signature' revealScript' controlBlock').input =
      [revealInput txid signature' revealScript' controlBlock'] := by
  show tx.input.modify 0 _ = _
  rw [h]
  rfl

/-- Lowering the amounts keeps the pair. -/
theorem RevealPair.lowerValues {next : CommitReveal} (h : RevealPair env request revealScript pair)
    (hnext : lowerValues env (env.taproot revealScript) pair = .ok next) :
    RevealPair env request revealScript next := by
  simp only [Citrea.Spec.Bitcoin.lowerValues, updateWitness, bind_eq_ok, pure_eq_ok,
    expect_eq_ok] at hnext
  obtain ⟨reveal, ⟨prevout, -, input, hinput, script, hscript, controlBlock, hblock, rfl⟩, rfl⟩ :=
    hnext
  obtain ⟨signature, hreveal⟩ := h.reveal
  -- The input with the new txid gives the script and the control block of the new witness.
  have hlowered := setPreviousTxid_input (pair.reveal.modifyValue 0 (· - 1))
    (calculateTxid env.sha256 ((pair.commit.modifyValue 0 (· - 1)).modifyValue 1 (· + 1))) hreveal
  rw [hlowered, List.head?_cons, some_inj] at hinput
  subst hinput
  obtain rfl : revealScript = script := by simpa [revealInput] using hscript
  obtain rfl : (env.taproot revealScript).controlBlock.data = controlBlock := by
    simpa [revealInput] using hblock
  exact ⟨h.required, _, setWitness_input _ _ _ hlowered⟩

/-- The inner loop returns a pair whose wtxid starts with the prefix. -/
theorem RevealPair.mineValues {revealTxPrefix : Bytes} {minCommitValue : UInt64} {turns : Nat}
    {found : CommitReveal} (h : RevealPair env request revealScript pair)
    (hfound : mineValues env revealTxPrefix minCommitValue (env.taproot revealScript) turns pair =
      .ok (some found)) : RevealPair env request revealScript found ∧
      startsWith revealTxPrefix (calculateWtxid env.sha256 found.reveal) = true := by
  induction turns generalizing pair with
  | zero => simp [Citrea.Spec.Bitcoin.mineValues] at hfound
  | succ turns ih =>
    simp only [Citrea.Spec.Bitcoin.mineValues, bind_eq_ok] at hfound
    obtain ⟨commitValue, -, revealValue, -, hfound⟩ := hfound
    split at hfound
    · split at hfound
      · rename_i hstarts
        obtain rfl : pair = found := by simpa using hfound
        exact ⟨h, hstarts⟩
      · obtain ⟨next, hnext, hfound⟩ := bind_eq_ok.mp hfound
        exact ih (h.lowerValues hnext) hfound
    · simp at hfound

/-- What the search returns. -/
structure Mined (env : BuilderEnv) (request : WalletRequest) (envelope : Bytes)
    (revealScript : ByteVec) (nonce : Nat) (pair : CommitReveal) : Prop where
  script : revealScript.data = envelope ++ pushSlice (leBytes 8 nonce) ++ [opNip]
  kept : RevealPair env request revealScript pair
  wtxid : startsWith request.revealTxPrefix (calculateWtxid env.sha256 pair.reveal) = true

theorem tryNonce_found (h : tryNonce env request envelope fuel nonce = .ok (some pair, leftover)) :
    ∃ revealScript, Mined env request envelope revealScript nonce pair := by
  simp only [tryNonce, finishRevealScript, buildWitness, buildRevealTransaction,
    bind_eq_ok, pure_eq_ok, expect_eq_ok, Prod.exists, Prod.mk.injEq] at h
  obtain ⟨revealScript, hscript, commit, rest, hcommit, output, -, unsigned, ⟨-, -, rfl⟩, reveal,
    ⟨prevout, -, hreveal⟩, found, hfound, rfl, -⟩ := h
  have hstart : RevealPair env request revealScript ⟨commit, reveal⟩ :=
    { required := by
        intro utxo hutxo
        rw [hutxo] at hcommit
        exact buildCommitTransaction_required hcommit
      reveal := ⟨_, by rw [← hreveal]; rfl⟩ }
  obtain ⟨hpair, hstarts⟩ := hstart.mineValues hfound
  exact ⟨revealScript, ofBytes_eq_ok hscript, hpair, hstarts⟩

/-- The search returns a pair for some nonce. -/
theorem mine_found (h : mine env request envelope fuel = .ok (pair, leftover)) :
    ∃ revealScript nonce, Mined env request envelope revealScript nonce pair := by
  unfold mine at h
  generalize 16 = nonce at h
  induction fuel generalizing nonce with
  | zero => exact absurd h err_ne_ok
  | succ fuel ih =>
    unfold mineFrom at h
    simp only [bind_eq_ok, Prod.exists] at h
    obtain ⟨found, rest, htry, h⟩ := h
    cases found with
    | none => exact ih _ h
    | some found =>
      obtain ⟨rfl, rfl⟩ : found = pair ∧ rest = leftover := by simpa using h
      obtain ⟨revealScript, hmined⟩ := tryNonce_found htry
      exact ⟨revealScript, nonce, hmined⟩

/-! ### The scripts -/

/-- The pushes of a list, one after the other. -/
def pushSlices (l : List Bytes) : Bytes := l.flatMap pushSlice

theorem instructions_pushSlices (h : ∀ c ∈ l, c.length < 2 ^ 32) (rest : Bytes) :
    instructions (pushSlices l ++ rest) = pushes l ++ instructions rest := by
  induction l with
  | nil => rfl
  | cons c l ih =>
    have h := forall_mem_cons.mp h
    show instructions (pushSlice c ++ pushSlices l ++ rest) = _
    rw [append_assoc, instructions_pushSlice h.1, ih h.2]
    rfl

/-- The script of an envelope is read as an inscription. -/
theorem instructions_script {body : List Bytes} (h : ∀ c ∈ body, c.length < 2 ^ 32) (nonce : Nat) :
    instructions (scriptStart env kind ++ pushSlices body ++ [opEndif] ++
        pushSlice (leBytes 8 nonce) ++ [opNip]) =
      inscription env.publicKey.data kind body (leBytes 8 nonce) := by
  have hkey : env.publicKey.data.length < 2 ^ 32 := by
    rw [env.publicKey.length_eq]
    decide
  have hkind : kind.toBytes.length < 2 ^ 32 := by
    cases kind <;> simp [TransactionKind.toBytes]
  have hnonce : (leBytes 8 nonce).length < 2 ^ 32 := by simp
  simp only [scriptStart, append_assoc, cons_append, nil_append]
  rw [instructions_pushSlice hkey, instructions_op (by decide), instructions_pushSlice hkind,
    instructions_opFalse, instructions_op (by decide), instructions_pushSlices h,
    instructions_op (by decide), instructions_pushSlice hnonce, instructions_op (by decide),
    instructions]
  rfl

theorem pushBytesBuf_eq_ok {data : Bytes} {message : String}
    (h : pushBytesBuf data message = .ok bytes) :
    data.length < 2 ^ 32 ∧ bytes = pushSlice data := by
  simp only [pushBytesBuf, bind_eq_ok, expect_eq_ok, pure_eq_ok] at h
  obtain ⟨a, ha, rfl⟩ := h
  split at ha
  · obtain rfl : data = a := by simpa using ha
    exact ⟨‹_›, rfl⟩
  · simp at ha

theorem pushChunks_eq_ok (h : pushChunks l = .ok bytes) :
    (∀ c ∈ l, c.length < 2 ^ 32) ∧ bytes = pushSlices l := by
  induction l generalizing bytes with
  | nil =>
    obtain rfl : [] = bytes := by simpa [pushChunks] using h
    exact ⟨by simp, rfl⟩
  | cons c l ih =>
    simp only [pushChunks, bind_eq_ok, pure_eq_ok] at h
    obtain ⟨push, hpush, rest, hrest, rfl⟩ := h
    obtain ⟨hlt, rfl⟩ := pushBytesBuf_eq_ok hpush
    obtain ⟨hlts, rfl⟩ := ih hrest
    exact ⟨forall_mem_cons.mpr ⟨hlt, hlts⟩, rfl⟩

theorem pushSignature_eq_ok (h : pushSignature env body = .ok bytes) :
    (∀ c ∈ [env.signBlob body, env.signerPublicKey], c.length < 2 ^ 32) ∧
      bytes = pushSlices [env.signBlob body, env.signerPublicKey] := by
  simp only [pushSignature, bind_eq_ok, pure_eq_ok] at h
  obtain ⟨signature, hsignature, key, hkey, rfl⟩ := h
  obtain ⟨hlt, rfl⟩ := pushBytesBuf_eq_ok hsignature
  obtain ⟨hlt', rfl⟩ := pushBytesBuf_eq_ok hkey
  exact ⟨by simpa using ⟨hlt, hlt'⟩, by simp [pushSlices]⟩

/-- An envelope with its pushes: what the iterator reads from the finished script. -/
def Envelops (env : BuilderEnv) (bytes : Bytes) (kind : TransactionKind)
    (body : List Bytes) : Prop :=
  ∀ nonce, instructions (bytes ++ pushSlice (leBytes 8 nonce) ++ [opNip]) =
    inscription env.publicKey.data kind body (leBytes 8 nonce)

theorem signedEnvelope_envelops (h : signedEnvelope env kind body = .ok bytes) :
    Envelops env bytes kind
      (env.signBlob body :: env.signerPublicKey :: chunks bodyPushSize body) := by
  simp only [signedEnvelope, bind_eq_ok, pure_eq_ok] at h
  obtain ⟨signature, hsignature, pushed, hpushed, rfl⟩ := h
  obtain ⟨hlt, rfl⟩ := pushSignature_eq_ok hsignature
  obtain ⟨hlt', rfl⟩ := pushChunks_eq_ok hpushed
  intro nonce
  have hscript := @instructions_script env kind _ (forall_mem_append.mpr ⟨hlt, hlt'⟩) nonce
  simpa [pushSlices] using hscript

theorem unsignedEnvelope_envelops (h : unsignedEnvelope env kind body = .ok bytes) :
    Envelops env bytes kind (chunks bodyPushSize body) := by
  simp only [unsignedEnvelope, bind_eq_ok, pure_eq_ok] at h
  obtain ⟨pushed, hpushed, rfl⟩ := h
  obtain ⟨hlt, rfl⟩ := pushChunks_eq_ok hpushed
  exact instructions_script hlt

theorem commitmentEnvelope_envelops (h : commitmentEnvelope env body = .ok bytes) :
    Envelops env bytes .sequencerCommitment [env.signBlob body, env.signerPublicKey, body] := by
  simp only [commitmentEnvelope, bind_eq_ok, pure_eq_ok] at h
  obtain ⟨signature, hsignature, push, hpush, rfl⟩ := h
  obtain ⟨hlt, rfl⟩ := pushSignature_eq_ok hsignature
  obtain ⟨hlt', rfl⟩ := pushBytesBuf_eq_ok hpush
  intro nonce
  have hall : ∀ c ∈ [env.signBlob body, env.signerPublicKey] ++ [body], c.length < 2 ^ 32 :=
    forall_mem_append.mpr ⟨hlt, by simpa using hlt'⟩
  have hscript := @instructions_script env .sequencerCommitment _ hall nonce
  simpa [pushSlices] using hscript

/-! ### Reading a built transaction -/

/-- The control block is not an annex, so the script is the item before it. -/
theorem tapscript_revealInput (signature revealScript : ByteVec) (block : ControlBlock) :
    tapscript [signature, revealScript, block.data] = some revealScript.data := by
  have hannex : ¬ block.data.data.head? = some taprootAnnexPrefix := by
    rcases block.leafVersion with h | h <;> rw [h] <;> decide
  simp [tapscript, hannex]

/-- An inscription determines its parts. -/
theorem inscription_inj {key key' nonce nonce' : Bytes} {kind' : TransactionKind}
    {body body' : List Bytes}
    (h : inscription key kind body nonce = inscription key' kind' body' nonce') : body = body' := by
  -- The pushes end at the first instruction that is not a push.
  have hbody : ∀ (l l' : List Bytes) (rest rest' : Instructions),
      pushes l ++ .ok (.op opEndif) :: rest = pushes l' ++ .ok (.op opEndif) :: rest' → l = l' := by
    intro l
    induction l with
    | nil =>
      intro l' rest rest' h
      cases l' with
      | nil => rfl
      | cons c l' => simp [pushes] at h
    | cons c l ih =>
      intro l' rest rest' h
      cases l' with
      | nil => simp [pushes] at h
      | cons c' l' =>
        simp only [pushes, map_cons, cons_append, List.cons.injEq, Except.ok.injEq,
          Instruction.pushBytes.injEq] at h
        rw [h.1, ih l' rest rest' h.2]
  simp only [inscription, envelope, List.cons.injEq] at h
  exact hbody _ _ _ _ h.2.2.2.2.2

/-- The parser reads a mined pair as `v` exactly when the pushes of its envelope stand for `v`. -/
theorem Mined.parse (h : Mined env request bytes revealScript nonce pair) {body : List Bytes}
    (henv : Envelops env bytes kind body) (v : ParsedTransaction) (hkind : kindOf v = kind) :
    parseRelevantTransaction pair.reveal = .ok v ↔ BodyPushes v body := by
  obtain ⟨signature, hinput⟩ := h.kept.reveal
  have hscript : getScript pair.reveal = .ok revealScript.data := by
    show (expect pair.reveal.input.head? _ >>= _) = _
    rw [hinput]
    dsimp only [expect, head?, bind, Except.bind, revealInput]
    rw [tapscript_revealInput]
    rfl
  have hparse : parseRelevantTransaction pair.reveal =
      parseTransaction (inscription env.publicKey.data kind body (leBytes 8 nonce)) := by
    show (getScript pair.reveal >>= _) = _
    rw [hscript]
    show parseTransaction (instructions revealScript.data) = _
    rw [h.script, henv nonce]
  rw [hparse, parseTransaction_eq_ok]
  constructor
  · rintro ⟨key', body', nonce', heq, hpushes⟩
    rw [inscription_inj heq]
    exact hpushes
  · intro hpushes
    exact ⟨_, body, _, by rw [hkind], hpushes⟩

/-- The pieces of a body stand for the body. -/
theorem signedPieces_chunks (b : SignedBody) :
    SignedPieces b (b.signature :: b.publicKey :: chunks bodyPushSize b.body) :=
  ⟨_, rfl, fun c hc => (chunks_sizes (by decide) b.body c hc).1,
    (flatten_chunks (by decide) b.body).symm⟩

/-- The signed body that the builders make of a body. -/
def signedBody (env : BuilderEnv) (body : Bytes) : SignedBody :=
  ⟨body, env.signBlob body, env.signerPublicKey⟩

/-- The parser reads the reveal transactions as what was inscribed: the same kind, body, signature
and key. -/
def ReadBack (env : BuilderEnv) : RawTxData → DaTxs → Prop
  | .complete body, .complete _ reveal =>
    parseRelevantTransaction reveal.tx = .ok (.complete (signedBody env body))
  | .chunks bodies, .chunked _ revealChunks _ reveal =>
    revealChunks.map parseRelevantTransaction = bodies.map (fun body => .ok (.chunk body)) ∧
      parseRelevantTransaction reveal.tx =
        .ok (.aggregate (signedBody env (aggregateBody env revealChunks)))
  | .batchProofMethodId body, .batchProofMethodId _ reveal =>
    parseRelevantTransaction reveal.tx = .ok (.batchProofMethodId body)
  | .sequencerCommitment body, .sequencerCommitment _ reveal =>
    parseRelevantTransaction reveal.tx = .ok (.sequencerCommitment (signedBody env body))
  | _, _ => False

/-- The body of a method id is one push. -/
def OnePush (body : Bytes) : Prop := body ≠ [] ∧ body.length ≤ bodyPushSize

theorem createChunks_parse {bodies : List Bytes} {request' : WalletRequest}
    {pairs : List CommitReveal} (h : createChunks env fuel bodies request = .ok (pairs, request')) :
    (pairs.map (·.reveal)).map parseRelevantTransaction =
      bodies.map fun body => .ok (.chunk body) := by
  induction bodies generalizing request request' pairs with
  | nil =>
    obtain ⟨rfl, -⟩ : [] = pairs ∧ _ := by simpa [createChunks] using h
    rfl
  | cons body bodies ih =>
    simp only [createChunks, bind_eq_ok, pure_eq_ok, Prod.exists, Prod.mk.injEq] at h
    obtain ⟨bytes, hbytes, pair, leftover, hmine, next, -, rest, last, hrest, rfl, -⟩ := h
    obtain ⟨revealScript, nonce, hmined⟩ := mine_found hmine
    have hpair : parseRelevantTransaction pair.reveal = .ok (.chunk body) := by
      rw [hmined.parse (unsignedEnvelope_envelops hbytes) _ rfl]
      exact ⟨fun c hc => (chunks_sizes (by decide) body c hc).1,
        (flatten_chunks (by decide) body).symm⟩
    rw [map_cons, map_cons, map_cons, hpair, ih hrest]

/-- What the builders inscribe is read back, except for a method id that is not one push. -/
theorem createInscriptionTransactions_readBack {data : RawTxData} {txs : DaTxs}
    (h : createInscriptionTransactions env data request fuel = .ok txs) :
    ReadBack env data txs ↔ ∀ body, data = .batchProofMethodId body → OnePush body := by
  cases data with
  | complete body =>
    simp only [createInscriptionTransactions, createInscriptionType0, bind_eq_ok,
      pure_eq_ok, Prod.exists] at h
    obtain ⟨bytes, hbytes, pair, leftover, hmine, rfl⟩ := h
    obtain ⟨revealScript, nonce, hmined⟩ := mine_found hmine
    have hparse : ReadBack env (.complete body)
        (.complete pair.commit (withId env pair.reveal)) := by
      show parseRelevantTransaction pair.reveal = _
      rw [hmined.parse (signedEnvelope_envelops hbytes) _ rfl]
      exact signedPieces_chunks (signedBody env body)
    exact iff_of_true hparse (by simp)
  | chunks bodies =>
    simp only [createInscriptionTransactions, createInscriptionType1, bind_eq_ok,
      pure_eq_ok, Prod.exists] at h
    obtain ⟨pairs, request', hpairs, bytes, hbytes, pair, leftover, hmine, rfl⟩ := h
    obtain ⟨revealScript, nonce, hmined⟩ := mine_found hmine
    have hparse : parseRelevantTransaction pair.reveal =
        .ok (.aggregate (signedBody env (aggregateBody env (pairs.map (·.reveal))))) := by
      rw [hmined.parse (signedEnvelope_envelops hbytes) _ rfl]
      exact signedPieces_chunks (signedBody env _)
    exact iff_of_true ⟨createChunks_parse hpairs, hparse⟩ (by simp)
  | batchProofMethodId body =>
    simp only [createInscriptionTransactions, createInscriptionType3, bind_eq_ok,
      pure_eq_ok, Prod.exists] at h
    obtain ⟨bytes, hbytes, pair, leftover, hmine, rfl⟩ := h
    obtain ⟨revealScript, nonce, hmined⟩ := mine_found hmine
    -- The pushes are the pieces of the body, and the parser wants the body as the only push.
    have hparse : ReadBack env (.batchProofMethodId body)
        (.batchProofMethodId pair.commit (withId env pair.reveal)) ↔
          chunks bodyPushSize body = [body] :=
      hmined.parse (unsignedEnvelope_envelops hbytes) (.batchProofMethodId body) rfl
    rw [hparse, chunks_eq_singleton_iff (by decide)]
    simp [OnePush]
  | sequencerCommitment body =>
    simp only [createInscriptionTransactions, createInscriptionType4, bind_eq_ok,
      pure_eq_ok, Prod.exists] at h
    obtain ⟨-, -, bytes, hbytes, pair, leftover, hmine, rfl⟩ := h
    obtain ⟨revealScript, nonce, hmined⟩ := mine_found hmine
    have hparse : ReadBack env (.sequencerCommitment body)
        (.sequencerCommitment pair.commit (withId env pair.reveal)) := by
      show parseRelevantTransaction pair.reveal = _
      rw [hmined.parse (commitmentEnvelope_envelops hbytes) _ rfl]
      rfl
    exact iff_of_true hparse (by simp)

end

/-! ### The inscription format in both directions

`inscriptions_exact` compares the builders, the parser and the documented shape of a script. They
agree except in two places. The builder of a method id cuts the body into pushes and its parser
reads one push, so a body that is empty or longer than one push is not read back. And the parser
does not look at the length of the signature, of the key, and of the body where that is one push,
so it accepts scripts with an empty push there.
-/

/-- The script is an inscription of `v` in the documented shape: no push between `OP_IF` and
`OP_ENDIF` is empty. -/
def Documented (script : Bytes) (v : ParsedTransaction) : Prop :=
  ∃ key body nonce, instructions script = inscription key (kindOf v) body nonce ∧
    BodyPushes v body ∧ [] ∉ body

/-- The script is an inscription but for an empty signature, an empty key, or an empty body
that is one push. -/
def EmptyPush (script : Bytes) : Prop :=
  ∃ v key body nonce, instructions script = inscription key (kindOf v) body nonce ∧
    BodyPushes v body ∧ [] ∈ body

/-- The parser accepts exactly the documented scripts, if no push that it does not look at is
empty. -/
theorem parse_documented_iff (script : Bytes) :
    (∀ v, parseTransaction (instructions script) = .ok v ↔ Documented script v) ↔
      ¬ EmptyPush script := by
  constructor
  · rintro h ⟨v, key, body, nonce, hscript, hpushes, hempty⟩
    obtain ⟨key', body', nonce', hscript', -, hne⟩ :=
      (h v).mp (parseTransaction_eq_ok.mpr ⟨key, body, nonce, hscript, hpushes⟩)
    rw [hscript] at hscript'
    rw [inscription_inj hscript'] at hempty
    exact hne hempty
  · intro hnone v
    rw [parseTransaction_eq_ok]
    constructor
    · rintro ⟨key, body, nonce, hscript, hpushes⟩
      exact ⟨key, body, nonce, hscript, hpushes, fun hempty =>
        hnone ⟨v, key, body, nonce, hscript, hpushes, hempty⟩⟩
    · rintro ⟨key, body, nonce, hscript, hpushes, -⟩
      exact ⟨key, body, nonce, hscript, hpushes⟩

/-- The builders' transactions are read back, a transaction with a tapscript is accepted exactly
when its script has the documented shape, and the parser does not panic on it: this holds exactly
when a method id fits one push and no push that the parser does not look at is empty. -/
theorem inscriptions_exact {env : BuilderEnv} {data : RawTxData} {request : WalletRequest}
    {fuel : Nat} {txs : DaTxs} {tx : Transaction} {script : Bytes}
    (hbuilt : createInscriptionTransactions env data request fuel = .ok txs)
    (hscript : getScript tx = .ok script) :
    (ReadBack env data txs ∧ (∀ v, parseRelevantTransaction tx = .ok v ↔ Documented script v) ∧
        Outcome.NoPanic (parseRelevantTransaction tx)) ↔
      (∀ body, data = .batchProofMethodId body → OnePush body) ∧ ¬ EmptyPush script := by
  have hparse : parseRelevantTransaction tx = parseTransaction (instructions script) := by
    show (getScript tx >>= _) = _
    rw [hscript]
    rfl
  rw [hparse, createInscriptionTransactions_readBack hbuilt, parse_documented_iff]
  simp [noPanic_parseTransaction]

section

/-- A wallet with one output, a hash that is always zero and no prefix to search for. -/
def plainEnv : BuilderEnv where
  sha256 := fun _ => .zero
  publicKey := .zero
  signerPublicKey := [2]
  signBlob := fun _ => [1]
  taproot := fun _ => ⟨⟨⟨[0xc0], by decide⟩, .inl rfl⟩, .empty, .zero⟩
  signSchnorr := fun _ _ _ => schnorrPlaceholder
  borshDataOnDa := fun _ => []
  setOrder := id
  debugAssertions := false

def plainRequest : WalletRequest where
  prevUtxo := none
  utxos := [⟨.zero, 0, 100000⟩]
  changeScriptPubkey := .empty
  commitFeeRate := 1
  revealFeeRate := 1
  revealTxPrefix := []

/-- A method id of 521 bytes is cut into two pushes and is not read back. -/
theorem methodId_two_pushes :
    ∃ txs, createInscriptionTransactions plainEnv (.batchProofMethodId (List.replicate 521 7))
      plainRequest 2 = .ok txs ∧
      ¬ ReadBack plainEnv (.batchProofMethodId (List.replicate 521 7)) txs := by
  have hbuilt : ((createInscriptionTransactions plainEnv
      (.batchProofMethodId (List.replicate 521 7)) plainRequest 2).map fun _ => ()) = .ok () := by
    decide +kernel
  obtain ⟨txs, htxs, -⟩ := map_eq_ok.mp hbuilt
  refine ⟨txs, htxs, fun hread => ?_⟩
  have hone := (createInscriptionTransactions_readBack htxs).mp hread _ rfl
  exact absurd hone.2 (by rw [length_replicate]; decide)

/-- A transaction whose tapscript is empty. -/
def emptyScriptTx : Transaction where
  version := 2
  lockTime := 0
  input := [revealInput .zero .empty .empty ⟨[0xc0], by decide⟩]
  output := []
  input_fits := by decide
  output_fits := nil_fits

theorem short_methodId_exact :
    ∃ txs, createInscriptionTransactions plainEnv (.batchProofMethodId [7]) plainRequest 2 =
        .ok txs ∧ ReadBack plainEnv (.batchProofMethodId [7]) txs ∧
      (∀ v, parseRelevantTransaction emptyScriptTx = .ok v ↔ Documented [] v) ∧
      Outcome.NoPanic (parseRelevantTransaction emptyScriptTx) := by
  have hbuilt : ((createInscriptionTransactions plainEnv (.batchProofMethodId [7])
      plainRequest 2).map fun _ => ()) = .ok () := by
    decide +kernel
  obtain ⟨txs, htxs, -⟩ := map_eq_ok.mp hbuilt
  have hempty : ¬ EmptyPush [] := by
    rintro ⟨v, key, body, nonce, hscript, -⟩
    simp [instructions, inscription] at hscript
  have hone : ∀ body, RawTxData.batchProofMethodId [7] = .batchProofMethodId body →
      OnePush body := by
    intro body hbody
    obtain rfl : [7] = body := by simpa using hbody
    exact ⟨by decide, by decide⟩
  exact ⟨txs, htxs, (inscriptions_exact htxs rfl).mpr ⟨hone, hempty⟩⟩

end

end Citrea.Proofs.Bitcoin
