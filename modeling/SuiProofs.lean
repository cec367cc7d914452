import SuiProofs.Consensus.ThresholdClock
import SuiProofs.Consensus.DagStateRecovery
import SuiProofs.Consensus.BlockManagerAcceptance
import SuiProofs.Consensus.LeaderSwap
import SuiProofs.Consensus.LeaderScoring
import SuiProofs.Consensus.Core
import SuiProofs.Consensus.CommitFetch
import SuiProofs.Authority.ObjectLocks
import SuiProofs.Authority.TransactionManagerRuns
import SuiProofs.Authority.MultiStakeAggregator
import SuiProofs.Authority.DependentWork
import SuiProofs.Authority.ConsensusHandler
import SuiProofs.Authority.RandomnessDkg
import SuiProofs.Authority.SharedObjectVersions
import SuiProofs.Authority.StateAccumulator
import SuiProofs.SuiSystem.JoiningStake
import SuiProofs.SuiSystem.ReportRecords
import SuiProofs.SuiSystem.Departures
import SuiProofs.SuiSystem.Withdrawals
import SuiProofs.SuiSystem.Settings
import SuiProofs.Bridge.Encoding
import SuiProofs.Bridge.Limiter
import SuiProofs.Bridge.ActionExecutor
import SuiProofs.Execution.ArgumentBorrows
import SuiProofs.Execution.CircularOwnership
import SuiProofs.Network.StateSync
import SuiProofs.Ingestion.Executor
import SuiProofs.Ingestion.CheckpointReader
import SuiProofs.Move.LocalsSafety
import SuiProofs.Move.Uleb128
import SuiProofs.Move.Compatibility
import SuiProofs.Move.AbstractStack
