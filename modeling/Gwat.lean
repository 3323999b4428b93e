import Gwat.Dag.Forward
import Gwat.Dag.InsertBatch
import Gwat.Dag.SyncBlocks
import Gwat.Dag.SpineSequence
import Gwat.Dag.Ancestry
import Gwat.Dag.Creator
import Gwat.Dag.DownloadFilter
import Gwat.Validator.TrialPeriod
import Gwat.Validator.PayoutLog
import Gwat.Validator.StakeLedger
import Gwat.Validator.LifeCycle
import Gwat.Validator.RuleShares
import Gwat.Validator.RuleBuilding
import Gwat.Validator.SharedCode
import Gwat.Validator.ShuffleInverse
import Gwat.Validator.ActiveCache
import Gwat.Validator.ActiveCount
import Gwat.Validator.CacheBound
import Gwat.Validator.SyncAgreement
import Gwat.Validator.EraRun
import Gwat.Validator.EraPaths
import Gwat.Token.Operation
import Gwat.Token.IsToken
import Gwat.Core.Reward
import Gwat.Core.Checkpoints
import Gwat.Core.SyncRecord
import Gwat.Core.OneWithdrawal
import Gwat.Core.FailedCall
import Gwat.Core.SyncRestore
