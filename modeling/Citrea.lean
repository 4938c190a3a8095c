import Citrea.Proofs.Evm.LastL1Hash
import Citrea.Proofs.LightClient.OrderIndependence
import Citrea.Proofs.Sequencer.BlockProduction
import Citrea.Proofs.Bitcoin.Testnet4
import Citrea.Proofs.Contracts.DepositScript
import Citrea.Proofs.Contracts.Inclusion
import Citrea.Proofs.Contracts.PayoutAmount
import Citrea.Proofs.FullNode.Crash
import Citrea.Proofs.BatchProof.TxMerkle
import Citrea.Proofs.LightClient.MethodIds
import Citrea.Proofs.Sequencer.CommitmentRuns
import Citrea.Proofs.Bitcoin.Builders
import Citrea.Proofs.Bitcoin.Extraction
import Citrea.Proofs.StorageOps.LightClientRollback
import Citrea.Proofs.StorageOps.Pruning
import Citrea.Proofs.Fork
import Citrea.Proofs.Storage.StateVec
import Citrea.Proofs.Storage.Undo
