import Citrea.Lib.Outcome
import Citrea.Lib.PrefixCode

/-!
# `Citrea.Spec.Bitcoin.Transaction`: Bitcoin transactions and their ids

The transaction type of the `bitcoin` crate and the two ids that
`crates/bitcoin-da/src/helpers/mod.rs` computes from it. The fields are written in the consensus
format. `calculateTxid` hashes the transaction without its witnesses, and `calculateWtxid`
hashes it with them.

SHA-256 is a parameter: the `sha2` crate is not part of the repository. A `Vec` of the source
has a length that fits `usize`, and the structures carry that bound.
-/

namespace Citrea.Spec.Bitcoin

open Lib

/-- `[u8]` and `Vec<u8>`. -/
abbrev Bytes := List UInt8

/-- `[u8; 32]`. -/
@[ext]
structure Bytes32 where
  data : Bytes
  length_eq : data.length = 32
deriving DecidableEq

/-- `[b; 32]`. -/
def Bytes32.replicate (b : UInt8) : Bytes32 := ⟨List.replicate 32 b, by simp⟩

/-- `[0; 32]`. -/
def Bytes32.zero : Bytes32 := .replicate 0

/-- A byte vector of the machine: a script or a witness item. -/
@[ext]
structure ByteVec where
  data : Bytes
  fits : data.length < 2 ^ 64
deriving DecidableEq

theorem nil_fits {α : Type} : ([] : List α).length < 2 ^ 64 := by simp

/-- `bitcoin::OutPoint`. -/
@[ext]
structure OutPoint where
  txid : Bytes32
  vout : UInt32
deriving DecidableEq

/-- `bitcoin::TxIn`. -/
@[ext]
structure TxIn where
  previousOutput : OutPoint
  scriptSig : ByteVec
  sequence : UInt32
  witness : List ByteVec
  witness_fits : witness.length < 2 ^ 64
deriving DecidableEq

/-- `bitcoin::TxOut`. -/
@[ext]
structure TxOut where
  value : UInt64
  scriptPubkey : ByteVec
deriving DecidableEq

/-- `bitcoin::Transaction`. The version is an `i32` in the source; only its four bytes are
used. -/
@[ext]
structure Transaction where
  version : UInt32
  lockTime : UInt32
  input : List TxIn
  output : List TxOut
  input_fits : input.length < 2 ^ 64
  output_fits : output.length < 2 ^ 64
deriving DecidableEq

/-- The consensus encoding of an input. The witness is not part of it. -/
def TxIn.consensusEncode (i : TxIn) : Bytes :=
  i.previousOutput.txid.data ++ leBytes 4 i.previousOutput.vout.toNat ++
    varBytes i.scriptSig.data ++ leBytes 4 i.sequence.toNat

/-- The consensus encoding of an output. -/
def TxOut.consensusEncode (o : TxOut) : Bytes :=
  leBytes 8 o.value.toNat ++ varBytes o.scriptPubkey.data

/-- The consensus encoding of a witness. -/
def encodeWitness (items : List ByteVec) : Bytes :=
  varList (fun item => varBytes item.data) items

namespace Transaction

/-- The bytes that `calculate_txid` hashes: version, inputs, outputs and lock time. -/
def encodeWithoutWitness (tx : Transaction) : Bytes :=
  leBytes 4 tx.version.toNat ++ varList TxIn.consensusEncode tx.input ++
    varList TxOut.consensusEncode tx.output ++ leBytes 4 tx.lockTime.toNat

/-- The serialization has the segwit marker when some input has a witness, and, to avoid an
ambiguity, when there is no input. -/
def usesSegwitSerialization (tx : Transaction) : Bool :=
  tx.input.any (fun i => !i.witness.isEmpty) || tx.input.isEmpty

/-- `Transaction::consensus_encode`: with marker, flag and witnesses for a segwit
serialization, without them otherwise. -/
def consensusEncode (tx : Transaction) : Bytes :=
  if tx.usesSegwitSerialization then
    leBytes 4 tx.version.toNat ++ [0, 1] ++ varList TxIn.consensusEncode tx.input ++
      varList TxOut.consensusEncode tx.output ++
      tx.input.flatMap (fun i => encodeWitness i.witness) ++ leBytes 4 tx.lockTime.toNat
  else tx.encodeWithoutWitness

end Transaction

/-- `calculate_double_sha256`. -/
def calculateDoubleSha256 (sha256 : Bytes → Bytes32) (input : Bytes) : Bytes32 :=
  sha256 (sha256 input).data

/-- `calculate_txid`. -/
def calculateTxid (sha256 : Bytes → Bytes32) (tx : Transaction) : Bytes32 :=
  calculateDoubleSha256 sha256 tx.encodeWithoutWitness

/-- `calculate_wtxid`. -/
def calculateWtxid (sha256 : Bytes → Bytes32) (tx : Transaction) : Bytes32 :=
  calculateDoubleSha256 sha256 tx.consensusEncode

/-! ### `BitcoinMerkleTree`

`crates/bitcoin-da/src/helpers/merkle_tree.rs`: the tree over a list of ids, and the root that a
Merkle path recomputes. Both panic where the source does.
-/

section
variable (sha256 : Bytes → Bytes32) {ε : Type}

/-- The 64 bytes `preimage` of a pair of nodes. -/
def nodePreimage (l r : Bytes32) : Bytes := l.data ++ r.data

/-- The hash of a pair of nodes. -/
def combineNodes (l r : Bytes32) : Bytes32 := calculateDoubleSha256 sha256 (nodePreimage l r)

/-- One turn of the `while` loop of `BitcoinMerkleTree::new`: the level above. The last node of
an odd level is hashed with itself. -/
def nextLevel : List Bytes32 → Outcome ε (List Bytes32)
  | [] => pure []
  | [last] => pure [combineNodes sha256 last last]
  | l :: r :: rest => do
    assert (l ≠ r) "Duplicate hashes in the Merkle tree, indicating mutation"
    let up ← nextLevel rest
    pure (combineNodes sha256 l r :: up)

/-- The levels from `level` up to the root. `fuel` bounds the number of turns; a level with
`n` nodes needs fewer than `n`. -/
def buildLevels : (fuel : Nat) → List Bytes32 → Outcome ε (List (List Bytes32))
  | 0, level => pure [level]
  | fuel + 1, level =>
    if level.length ≤ 1 then pure [level]
    else do
      let up ← nextLevel sha256 level
      let above ← buildLevels fuel up
      pure (level :: above)

/-- `BitcoinMerkleTree`: the levels, leaves first. -/
structure BitcoinMerkleTree where
  nodes : List (List Bytes32)
deriving DecidableEq

namespace BitcoinMerkleTree

/-- `BitcoinMerkleTree::new`. -/
def new (transactions : List Bytes32) : Outcome ε BitcoinMerkleTree :=
  if transactions.length = 1 then pure ⟨[transactions]⟩
  else do
    let nodes ← buildLevels sha256 transactions.length transactions
    pure ⟨nodes⟩

/-- `BitcoinMerkleTree::root`. -/
def root (tree : BitcoinMerkleTree) : Outcome ε Bytes32 :=
  expect (tree.nodes.getLast?.bind List.head?) "index out of bounds"

/-- The `while` loop of `get_idx_path`: the sibling of the node `i` on every level but the last.
The last node of an odd level is its own sibling. -/
def idxPath : List (List Bytes32) → Nat → Outcome ε (List Bytes32)
  | [], _ => pure []
  | [_], _ => pure []
  | level :: above :: rest, i => do
    let sibling ← expect
      (if i % 2 = 1 then level[i - 1]?
        else if level.length - 1 = i then level[i]?
        else level[i + 1]?)
      "index out of bounds"
    let path ← idxPath (above :: rest) (i / 2)
    pure (sibling :: path)

/-- `BitcoinMerkleTree::get_idx_path`. -/
def getIdxPath (tree : BitcoinMerkleTree) (index : UInt32) : Outcome ε (List Bytes32) := do
  let leaves ← expect tree.nodes.head? "index out of bounds"
  assert (index.toNat < leaves.length % 2 ^ 32) "Index out of bounds"
  idxPath tree.nodes index.toNat

/-- The `while` loop of `calculate_root_with_merkle_proof`: the node so far and the index so
far, climbed along the siblings. -/
def climb : Bytes32 → UInt32 → List Bytes32 → Outcome ε (Bytes32 × UInt32)
  | combined, index, [] => pure (combined, index)
  | combined, index, sibling :: rest =>
    if index % 2 = 0 then climb (combineNodes sha256 combined sibling) (index / 2) rest
    else if sibling = combined then
      Outcome.panic "Merkle proof is invalid: left hash matches combined hash"
    else climb (combineNodes sha256 sibling combined) (index / 2) rest

/-- `BitcoinMerkleTree::calculate_root_with_merkle_proof`. The loop runs `merkle_proof.len() as
u32` times. -/
def calculateRootWithMerkleProof (txid : Bytes32) (idx : UInt32) (merkleProof : List Bytes32) :
    Outcome ε Bytes32 := do
  let (combined, index) ← climb sha256 txid idx (merkleProof.take (merkleProof.length % 2 ^ 32))
  assert (index = 0) "Merkle proof is invalid: index should be 0 at the end"
  pure combined

end BitcoinMerkleTree

end

end Citrea.Spec.Bitcoin

namespace Citrea

export Spec.Bitcoin (Bytes)

end Citrea
