import Citrea.Spec.FullNode.DaBlockHandler

/-!
# `Citrea.Spec.FullNode.Crashes`: the L1 block handler with crashes

`process_l1_block` of `crates/fullnode/src/da_block_handler.rs` as one script of writes, with the
turns of `Spec.FullNode.DaBlockHandler`. A crash can come before any of its writes, and then the
block is processed again on the ledger of the crash.
-/

namespace Citrea.Spec.FullNode

open Lib Spec.BatchProof

section
variable {H C : Type} [DecidableEq H] (env : FullNodeEnv H C)

/-- A script of the handler. -/
abbrev HandlerScript (H : Type) := Script (FullLedger H) (LedgerWrite H) Empty

/-- A commitment or a proof of the block. -/
def itemScript (height : UInt64) (item : ProofOrCommitment H) : HandlerScript H := fun f =>
  match item with
  | .commitment c => commitmentTrace env height c f.ledger
  | .proof p => proofTrace env height p f.ledger

/-- A loop whose turns read the ledger. -/
def loopScript {α : Type}
    (turn : α → Ledger H → Outcome Empty (List (LedgerWrite H) × LoopControl)) :
    List α → HandlerScript H
  | [] => Script.emit []
  | a :: rest => fun f => do
    let (writes, control) ← turn a f.ledger
    match control with
    | .next => Script.seq LedgerWrite.apply (Script.emit writes) (loopScript turn rest) f
    | .exit => pure ⟨writes, false⟩
    | .halt => pure ⟨writes, true⟩

/-- `process_pending_commitments`. -/
def pendingCommitmentsScript (height : UInt64) : HandlerScript H := fun f =>
  loopScript (fun e => retryCommitmentTurn env height e.1 e.2.1 e.2.2)
    f.ledger.getPendingCommitments f

/-- `process_pending_proofs`. -/
def pendingProofsScript (height : UInt64) : HandlerScript H := fun f =>
  loopScript (fun e => retryProofTurn env height e.1 e.2.1 e.2.2) f.ledger.getPendingProofs f

/-- The part of `process_l1_block` after the commitments and proofs of the block. -/
def afterItemsScript (height : UInt64) : HandlerScript H :=
  Script.seq LedgerWrite.apply (pendingCommitmentsScript env height) <|
  Script.seq LedgerWrite.apply (pendingProofsScript env height) <|
  Script.emit [.setLastScannedL1Height height]

/-- `process_l1_block`. -/
def blockScript (block : L1Block H) : HandlerScript H :=
  Script.seq LedgerWrite.apply (Script.emit [.setL1HeightOfL1Hash block.hash block.height]) <|
  Script.seq LedgerWrite.apply
    (Script.each LedgerWrite.apply (itemScript env block.height) block.commitmentsAndProofs) <|
  afterItemsScript env block.height

/-! ### Crashes -/

/-- `process_l1_block` with crashes: each number is how many writes were made before the next crash.
After a crash the block is processed again, unless the last write was made. -/
def processL1Block (block : L1Block H) : (crashes : List Nat) → FullLedger H →
    Outcome Empty (FullLedger H × Bool)
  | [], f => Script.run LedgerWrite.apply (blockScript env block) f
  | k :: rest, f => do
    let trace ← blockScript env block f
    if k < trace.writes.length then
      processL1Block block rest (applyAll LedgerWrite.apply (trace.writes.take k) f)
    else pure (applyAll LedgerWrite.apply trace.writes f, trace.halted)

/-- What the node gets: an L2 block, or an L1 block with the crashes while it is processed. -/
inductive NodeInput (H : Type) where
  | l2Block (block : StoredL2Block H)
  | l1Block (block : L1Block H) (crashes : List Nat)

/-- The same input without a crash. -/
def NodeInput.uninterrupted : NodeInput H → NodeInput H
  | .l2Block block => .l2Block block
  | .l1Block block _ => .l1Block block []

/-- One input. The flag says that the handler has stopped. -/
def stepInput (s : FullLedger H × Bool) : NodeInput H → Outcome Empty (FullLedger H × Bool)
  | .l2Block block => pure ({ s.1 with ledger := s.1.ledger.commitL2Block block }, s.2)
  | .l1Block block crashes => if s.2 then pure s else processL1Block env block crashes s.1

/-- A node over a list of inputs. -/
def runInputs (s : FullLedger H × Bool) (inputs : List (NodeInput H)) :
    Outcome Empty (FullLedger H × Bool) := inputs.foldlM (stepInput env) s

end

end Citrea.Spec.FullNode
