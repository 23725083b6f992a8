import ProcMachines.ExchangeDelivery
import ProcMachines.IoPort
import ProcMachines.ReaderDelivery
import ProcMachines.IntrusiveListRefinement
import ProcMachines.AlarmClockProvider
import ProcMachines.ProcMachineExternalPoll
import ProcMachines.ProcMachineExternalPollWindow
import ProcMachines.ProcMachineExchanges
import ProcMachines.WatchableValue
import ProcMachines.WatchableValueVersions
import ProcMachines.ExchangeFlush
import ProcMachines.Consumer
import ProcMachines.ReaderCalls
import ProcMachines.StreamIoStream
import ProcMachines.ConsumerContract
import ProcMachines.WriterIoWriter
import ProcMachines.WriterProgress
import ProcMachines.ExchangeAgreement
import ProcMachines.ReaderArithmetic
import ProcMachines.ReaderPending
import ProcMachines.ReaderAnswers
import ProcMachines.IoErrorConversions
import ProcMachines.IoPortConnected
import ProcMachines.IoPortDelivery
import ProcMachines.AlarmClockWakeup
import ProcMachines.AlarmClockDriven
import ProcMachines.InputValueWakeup
import ProcMachines.WatchableValueWakeup
import ProcMachines.ReaderRecycling
import ProcMachines.ProcMachineJobs
import ProcMachines.AlarmClockDeadline
import ProcMachines.AlarmClockStale
import ProcMachines.ProcMachinePoll
import ProcMachines.IntrusiveListReentrant
import ProcMachines.AlarmClockBatch
import ProcMachines.NoopSend
import ProcMachines.Automaton
import ProcMachines.ProcMachineDeterminism
import ProcMachines.Simulation
import ProcMachines.Scheduler
import ProcMachines.ProcMachineScheduler
import ProcMachines.ProcMachineRealization
import ProcMachines.ProcMachineProgress
import ProcMachines.Ranking
import ProcMachines.SchedulerRest
import ProcMachines.ProcMachineRest
import ProcMachines.ProcMachineWaitables
import ProcMachines.ProcMachineObjects
import ProcMachines.ProcMachineNetwork
import ProcMachines.FizzBuzzMinimal
import ProcMachines.ProcMachineSession
import ProcMachines.FizzBuzzTask
import ProcMachines.FizzBuzzSansIo
import ProcMachines.FizzBuzzIo
