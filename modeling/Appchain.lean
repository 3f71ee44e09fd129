import Appchain.Main
import Appchain.Json.Printed
import Appchain.Proofs.Conservation
import Appchain.Proofs.StoredEntries
import Appchain.Proofs.Exports
import Appchain.Proofs.Movements
import Appchain.Proofs.Signatures
import Appchain.Proofs.Spending
import Appchain.Proofs.Replay
import Appchain.Proofs.VersionedStores
import Appchain.Proofs.HashedContents
import Appchain.Proofs.AppHashes
import Appchain.Proofs.LoadedGenesis
import Appchain.Proofs.GenesisAttempts
import Appchain.Proofs.Submissions
import Appchain.Proofs.PacketLogs
import Appchain.Proofs.SerialisedTypes
import Appchain.Proofs.JoinedBlocks
import Appchain.Proofs.Stages
import Appchain.Proofs.Arrivals
import Appchain.Proofs.BondHistories
import Appchain.Proofs.MinedWork
import Appchain.Proofs.ReissuedAccounts
import Appchain.Proofs.AccountNumbers
import Appchain.Proofs.IsolatedStores
import Appchain.Proofs.Registries
import Appchain.Proofs.FilteredDecoding
import Appchain.Proofs.FlatStores
import Appchain.Proofs.HashHistories
import Appchain.Proofs.Transfers
import Appchain.Proofs.Admissions
import Appchain.Proofs.CoinSets
import Appchain.Proofs.CheckedTransactions
import Appchain.Proofs.IndependentTransactions
import Appchain.Proofs.WorkInputs
import Appchain.Proofs.TrendRewards
import Appchain.Proofs.ParameterHistories
import Appchain.Proofs.WorkSearch
