import Mosbench.Gsl.Cancel
import Mosbench.Gsl.Wakeup
import Mosbench.Gsl.Fairness
import Mosbench.Postgres.Reclaim
import Mosbench.Postgres.LWWakeup
import Mosbench.Metis.ThreadPool
import Mosbench.Metis.Barrier
import Mosbench.Metis.Splitter
import Mosbench.Metis.WordCount
import Mosbench.Metis.MergeSchedule
import Mosbench.Metis.BTreeRelease
import Mosbench.Metis.Pipeline
import Mosbench.Metis.ReduceTasks
import Mosbench.Metis.MapOnly
import Mosbench.Psearchy.Dofiles
import Mosbench.Psearchy.Index
import Mosbench.Psearchy.Primes
import Mosbench.Psearchy.Tokenizing
import Mosbench.Psearchy.Advance
import Mosbench.Psearchy.Scores
import Mosbench.Mparts.Completion
import Mosbench.Mparts.Leading
import Mosbench.Mparts.Semiring
import Mosbench.Mparts.ResultPath
import Mosbench.Mparts.Manager
import Mosbench.Pgload.Worker
import Mosbench.Mparts.RpcServer
import Mosbench.Mparts.RpcReplies
import Mosbench.Metis.Sublists
import Mosbench.Gsl.ArrayCounts
import Mosbench.Metis.SortOutput
import Mosbench.Parex.Exploration
import Mosbench.Mparts.SafePath
import Mosbench.Support.RssHash
import Mosbench.Mparts.SourceRules
import Mosbench.Mparts.OutputReader
import Mosbench.Support.CpuRange
import Mosbench.Support.CpuOrder
