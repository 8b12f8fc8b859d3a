import Arx.Framework.SolarisBacking
import Arx.Framework.PoolShares
import Arx.Framework.PoolOracle
import Arx.Framework.VotingLifecycle
import Arx.Framework.GovernanceVotes
import Arx.Framework.FeeAccounting
import Arx.Framework.CoinSupply
import Arx.BlockExecutor.History
import Arx.BlockExecutor.Progress
import Arx.ArxAggregator.AggregatorExtension
import Arx.Consensus.Agreement
import Arx.Consensus.BlockTreeRuns
import Arx.Consensus.CommitProofs
import Arx.Consensus.PipelineRuns
import Arx.Arxdb.StateStoreRuns
import Arx.Mempool.Readiness
import Arx.Mempool.GetBatch
import Arx.Framework.Moneta
import Arx.Network.PeerManager
import Arx.Framework.PoolU64
import Arx.Network.RateLimit
import Arx.Types.AccumulatorSoundness
import Arx.Consensus.BatchAggregator
import Arx.Arxdb.StateMerkleRuns
