import IeumChain.ActiveLimit
import IeumChain.Agreement
import IeumChain.AmountText
import IeumChain.ArchiveRecovery
import IeumChain.ArrivalOrder
import IeumChain.BlockAssembly
import IeumChain.BlockBinding
import IeumChain.BlockTime
import IeumChain.BondMaturity
import IeumChain.CachedBlocks
import IeumChain.CalendarPeriods
import IeumChain.CatchUp
import IeumChain.CommonVerdict
import IeumChain.Communication
import IeumChain.CompactedBackups
import IeumChain.Conservation
import IeumChain.CrossChain
import IeumChain.Culprits
import IeumChain.DailyEvents
import IeumChain.DbTransactions
import IeumChain.DeferredVotes
import IeumChain.DoubleVotes
import IeumChain.DrainedTransactions
import IeumChain.EmissionBudgets
import IeumChain.Equivocation
import IeumChain.ExecutedEvents
import IeumChain.FailedStaking
import IeumChain.Finality
import IeumChain.GenesisAllocation
import IeumChain.KeySpellings
import IeumChain.Keystore
import IeumChain.KeystoreTampering
import IeumChain.LearnedAddresses
import IeumChain.LedgerAgreement
import IeumChain.LedgerKeys
import IeumChain.LegacyMigration
import IeumChain.LoopSteps
import IeumChain.NetworkGroups
import IeumChain.NodeLoop
import IeumChain.NodeSettlement
import IeumChain.Nonces
import IeumChain.OwnProposals
import IeumChain.PeerOrder
import IeumChain.PoolIndexes
import IeumChain.PrefixScan
import IeumChain.ProposerRotation
import IeumChain.RawReencoding
import IeumChain.RecoveryApprovals
import IeumChain.RedeliveredCertificates
import IeumChain.RelayReceipts
import IeumChain.RewardCaps
import IeumChain.RewardOrder
import IeumChain.RlpDecoding
import IeumChain.RpcReads
import IeumChain.SchedulerProgress
import IeumChain.ServicePool
import IeumChain.ServiceStatements
import IeumChain.SharedVerdict
import IeumChain.ShownState
import IeumChain.SigningBytes
import IeumChain.SnapshotTransfer
import IeumChain.SnapshotVotes
import IeumChain.StakingOrder
import IeumChain.StateMigrations
import IeumChain.SyncChannels
import IeumChain.SyncLoop
import IeumChain.Timeouts
import IeumChain.TipQuorum
import IeumChain.TornRecords
import IeumChain.TransactionLookup
import IeumChain.Unbonding
import IeumChain.Updater
import IeumChain.ValidRounds
import IeumChain.ValidatorEras
import IeumChain.ValidatorSelection
import IeumChain.VoteLog
import IeumChain.WireMessages
