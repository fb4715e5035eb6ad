import CreditsNode.Csnode.Proofs.ReplenishProofs
import CreditsNode.Csdb.Proofs.PoolHashProofs
import CreditsNode.Csdb.Proofs.AddressProofs
import CreditsNode.Csdb.Proofs.DatabaseFaultsProofs
import CreditsNode.Csnode.Proofs.BlockHashesProofs
import CreditsNode.Csdb.Proofs.StorageLookupProofs
import CreditsNode.Csnode.Proofs.RequiredBlocksProofs
import CreditsNode.Csnode.Proofs.TransactionsIteratorProofs
import CreditsNode.Csnode.Proofs.PacketCodecProofs
import CreditsNode.Csnode.Proofs.PacketQueueProofs
import CreditsNode.Csnode.Proofs.SyncProofs
import CreditsNode.Csnode.Proofs.AgreementProofs
import CreditsNode.Csnode.Proofs.CharacteristicProofs
import CreditsNode.Csnode.Proofs.PacketQuorumProofs
import CreditsNode.Solver.Proofs.FramingProofs
import CreditsNode.Solver.Proofs.ScreeningProofs
import CreditsNode.Solver.Proofs.ElectionProofs
import CreditsNode.Solver.Proofs.CallsQueueSchedulerProofs
import CreditsNode.Solver.Proofs.ContractUpdateProofs
import CreditsNode.Solver.Proofs.TrustedStage1StateProofs
import CreditsNode.Solver.Proofs.SmartConsensusProofs
import CreditsNode.Solver.Proofs.FinalFeeProofs
import CreditsNode.Solver.Proofs.GrayListProofs
import CreditsNode.Net.Proofs.DirectPacketsProofs
import CreditsNode.Csnode.Proofs.PackStreamProofs
import CreditsNode.Csnode.Proofs.RoundPackageBinaryProofs
import CreditsNode.Csdb.Proofs.PoolCommitmentProofs
import CreditsNode.Csnode.Proofs.CanceledSmartProofs
import CreditsNode.Csnode.Proofs.FinalizeBlockProofs
import CreditsNode.Csnode.Proofs.BlockValidatorPluginsProofs
import CreditsNode.System.Proofs.TypedAllocatorProofs
import CreditsNode.Net.Proofs.TransportProofs
import CreditsNode.Csnode.Proofs.RoundsProofs
