import Concurrencpp.SlistObjects
import Concurrencpp.Results.WhenAnyOutcome
import Concurrencpp.Results.WhenAllOrder
import Concurrencpp.Results.Assertions
import Concurrencpp.Results.SharedResultFinish
import Concurrencpp.Executors.IdleAccounting
import Concurrencpp.Executors.WorkerSelection
import Concurrencpp.Threads.AsyncLockUnlock
import Concurrencpp.Threads.CvReentry
import Concurrencpp.Threads.CvAwaitOwner
import Concurrencpp.Threads.CvNotify
import Concurrencpp.Timers.DelayObject
import Concurrencpp.Executors.ManualExecutorWait
import Concurrencpp.Tasks.TaskCall
import Concurrencpp.Results.ResultPromiseOnce
import Concurrencpp.Executors.ThreadCreation
import Concurrencpp.Timers.TimerPassOnce
import Concurrencpp.Timers.TimerCancel
import Concurrencpp.Timers.TimerDeadlines
import Concurrencpp.Executors.AfterShutdown
import Concurrencpp.Executors.WorkDistribution
import Concurrencpp.Executors.PoolCallbacks
import Concurrencpp.Results.LazyResultOnce
import Concurrencpp.Results.Generator
import Concurrencpp.Timers.TimerPassMachine
