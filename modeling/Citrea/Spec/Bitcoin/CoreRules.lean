import Citrea.Lib.PairLevel
import Citrea.Spec.Bitcoin.Verifier

/-!
# `Citrea.Spec.Bitcoin.CoreRules`: the header rules of Bitcoin Core

What the header chain of the light client is meant to compute, in the terms of Bitcoin Core: a chain
of blocks by their heights, and rules that look back into it. Nothing here is taken from the source.

A target is a number. The compact form of a number has one byte for its size in bytes and three
bytes for its most significant digits, and the top bit of the digits is a sign.
-/

namespace Citrea.Spec.Bitcoin.Core

open Lib

/-! ### Compact numbers -/

/-- The number of bytes and the three digits of a compact number with a positive sign. -/
def compactDigits (n : Nat) : Nat × Nat :=
  let size := (bitLength n + 7) / 8
  let digits := if size ≤ 3 then n * 2 ^ (8 * (3 - size)) else n / 2 ^ (8 * (size - 3))
  -- digits with the sign bit set are moved down by a byte
  if digits / 2 ^ 23 % 2 = 1 then (size + 1, digits / 2 ^ 8) else (size, digits)

/-- `arith_uint256::GetCompact`. -/
def getCompact (n : Nat) : UInt32 :=
  let (size, digits) := compactDigits n
  UInt32.ofNat (size * 2 ^ 24 + digits)

/-- `arith_uint256::SetCompact`, without the flags. The number is not cut off. -/
def setCompact (bits : UInt32) : Nat :=
  let size := bits.toNat / 2 ^ 24
  let word := bits.toNat % 2 ^ 23
  if size ≤ 3 then word / 2 ^ (8 * (3 - size)) else word * 2 ^ (8 * (size - 3))

/-- `powLimit` of mainnet and testnet4. -/
def powLimit : Nat := 2 ^ 224 - 1

/-- `DeriveTarget` has a result: the number is positive and not above the limit. -/
def ValidBits (bits : UInt32) : Prop :=
  bits.toNat / 2 ^ 23 % 2 = 0 ∧ 0 < setCompact bits ∧ setCompact bits ≤ powLimit

instance (bits : UInt32) : Decidable (ValidBits bits) := inferInstanceAs (Decidable (_ ∧ _ ∧ _))

/-- `GetBlockProof`. -/
def getBlockProof (bits : UInt32) : Nat :=
  (2 ^ 256 - 1 - setCompact bits) / (setCompact bits + 1) + 1

/-! ### The chain -/

/-- `CBlockIndex`, the fields that the rules look at. -/
structure BlockIndex where
  hash : Bytes32
  time : UInt32
  bits : UInt32
deriving DecidableEq

/-- A chain of blocks from height 0 to the tip, with its total work. -/
structure Chain where
  tip : Nat
  block : Nat → BlockIndex
  work : Nat

namespace Chain

/-- The chain with one more block. -/
def extend (chain : Chain) (header : HeaderWrapper) : Chain where
  tip := chain.tip + 1
  block := Function.update chain.block (chain.tip + 1)
    ⟨header.precomputedHash, header.header.time, header.header.bits⟩
  work := chain.work + getBlockProof header.header.bits

/-- `GetMedianTimePast`. -/
def medianTimePast (chain : Chain) : UInt32 :=
  let times := (List.range 11).map fun k => (chain.block (chain.tip - k)).time
  (times.insertionSort (· ≤ ·)).getD 5 0

end Chain

/-- The number of seconds in an epoch. -/
def targetTimespan : Int := 1209600

/-- The difference of the times, as a signed number between a quarter of an epoch and four epochs.
-/
def clampedTimespan (first last : UInt32) : Int :=
  max (targetTimespan / 4) (min (targetTimespan * 4) ((last.toNat : Int) - first.toNat))

/-- `CalculateNextWorkRequired`, from the bits of a block and the time of an epoch. -/
def calculateNextWorkRequired (bits first last : UInt32) : UInt32 :=
  let target := (setCompact bits * clampedTimespan first last / targetTimespan).toNat
  getCompact (min target powLimit)

/-- `GetNextWorkRequired` of mainnet. -/
def getNextWorkRequired (chain : Chain) : UInt32 :=
  if (chain.tip + 1) % blocksPerEpoch = 0 then
    calculateNextWorkRequired (chain.block chain.tip).bits
      (chain.block (chain.tip - (blocksPerEpoch - 1))).time (chain.block chain.tip).time
  else (chain.block chain.tip).bits

/-- The rules for the next header of mainnet. -/
structure Accepts (sha256 : Bytes → Bytes32) (chain : Chain) (header : HeaderWrapper) : Prop where
  hash : header.precomputedHash = header.blockHash sha256
  height : header.height.toNat = chain.tip + 1
  prev : header.header.prevBlockhash = (chain.block chain.tip).hash
  bits : header.header.bits = getNextWorkRequired chain
  work : ofLeBytes header.precomputedHash.data ≤ setCompact header.header.bits
  time : chain.medianTimePast < header.header.time

/-! ### Testnet4 -/

/-- The bits of the last block that is not under the exception for slow blocks. -/
def lastRealBits (block : Nat → BlockIndex) : Nat → UInt32
  | 0 => (block 0).bits
  | height + 1 =>
    if (height + 1) % blocksPerEpoch ≠ 0 ∧ (block (height + 1)).bits = getCompact powLimit then
      lastRealBits block height
    else (block (height + 1)).bits

/-- `GetNextWorkRequired` with `fPowAllowMinDifficultyBlocks` and `enforce_BIP94`, for a block with
the given time. -/
def getNextWorkRequiredTestnet4 (chain : Chain) (time : UInt32) : UInt32 :=
  if (chain.tip + 1) % blocksPerEpoch = 0 then
    let first := chain.block (chain.tip - (blocksPerEpoch - 1))
    calculateNextWorkRequired first.bits first.time (chain.block chain.tip).time
  else if (chain.block chain.tip).time.toNat + 1200 < time.toNat then getCompact powLimit
  else lastRealBits chain.block chain.tip

/-! ### The block rules of Bitcoin Core

The rules for the transactions of a block that matter to who reads data from it, with the segwit
rules in force: the merkle root in the header, and the witness commitment. Nothing here is taken
from the source.
-/

section
variable (sha256 : Bytes → Bytes32)

/-- Two neighbours that are hashed together are equal. -/
def equalPair : List Bytes32 → Bool
  | x :: y :: rest => x == y || equalPair rest
  | _ => false

/-- `ComputeMerkleRoot`: the root, and whether equal neighbours were seen. -/
def computeMerkleRoot : (fuel : Nat) → List Bytes32 → Bytes32 × Bool
  | fuel + 1, x :: y :: rest =>
    let (root, mutated) := computeMerkleRoot fuel (levelUp (combineNodes sha256) (x :: y :: rest))
    (root, mutated || equalPair (x :: y :: rest))
  | _, [root] => (root, false)
  | _, _ => (.zero, false)

/-- `BlockMerkleRoot`. -/
def blockMerkleRoot (txs : List Transaction) : Bytes32 × Bool :=
  computeMerkleRoot sha256 txs.length (txs.map (calculateTxid sha256))

/-- `BlockWitnessMerkleRoot`. The coinbase transaction counts as zero. -/
def blockWitnessMerkleRoot (rest : List Transaction) : Bytes32 :=
  (computeMerkleRoot sha256 (rest.length + 1) (.zero :: rest.map (calculateWtxid sha256))).1

/-- The script at `GetWitnessCommitmentIndex`: the last output that has the size and the bytes of a
witness commitment. -/
def witnessCommitment (coinbase : Transaction) : Option Bytes :=
  ((coinbase.output.map fun o => o.scriptPubkey.data).filter fun script =>
    decide (38 ≤ script.length) && script.take 6 == [0x6a, 0x24, 0xaa, 0x21, 0xa9, 0xed]).getLast?

/-- `CheckWitnessMalleation`: a commitment is the hash of the witness root and of the only item in
the witness of the coinbase transaction, and without a commitment there is no witness. -/
def WitnessCommitted (coinbase : Transaction) (rest : List Transaction) : Prop :=
  match witnessCommitment coinbase with
  | some script => ∃ input reserved, coinbase.input.head? = some input ∧
      input.witness = [reserved] ∧ reserved.data.length = 32 ∧
      (script.drop 6).take 32 = (calculateDoubleSha256 sha256
        ((blockWitnessMerkleRoot sha256 rest).data ++ reserved.data)).data
  | none => ∀ tx ∈ coinbase :: rest, ∀ i ∈ tx.input, i.witness = []

/-- A block with the coinbase transaction `coinbase` and the other transactions `rest`. -/
structure ValidBlock (header : BitcoinHeader) (coinbase : Transaction) (rest : List Transaction) :
    Prop where
  /-- The header has the merkle root of a list that was not mutated. -/
  merkleRoot : blockMerkleRoot sha256 (coinbase :: rest) = (header.merkleRoot, false)
  witness : WitnessCommitted sha256 coinbase rest
  /-- `bad-txns-vin-empty`. -/
  inputs : ∀ tx ∈ coinbase :: rest, tx.input ≠ []
  /-- A transaction has weight, so a block has fewer of them than fit a word. -/
  fits : rest.length + 1 < 2 ^ 32

end

end Citrea.Spec.Bitcoin.Core
