import JSProCpp.Transitions
import JSProCpp.SharedPromise
import JSProCpp.SettleOnce
import JSProCpp.OrderedDelivery
import JSProCpp.StateOwners
import JSProCpp.FinalSuspend
import JSProCpp.AllInputs
import JSProCpp.LockDiscipline
import JSProCpp.AsyncMutex
import JSProCpp.LockGuards
import JSProCpp.Interleaving
import JSProCpp.PromiseCells
import JSProCpp.RaceSettlement
import JSProCpp.RaceOutcome
import JSProCpp.RaceProgress
import JSProCpp.RaceCall
import JSProCpp.RaceResult
import JSProCpp.ChainLinks
import JSProCpp.Completion
import JSProCpp.SettleOutcome
import JSProCpp.DerivedPromises
import JSProCpp.StatePromise
import JSProCpp.StateLifecycle
import JSProCpp.PromiseFamily
import JSProCpp.AllSettlement
import JSProCpp.AllOutcome
import JSProCpp.AllProgress
import JSProCpp.AllResult
import JSProCpp.CVPromise
import JSProCpp.CVPromiseEpochs
import JSProCpp.LockAwareWait
import JSProCpp.LockAwareWaitRuns
import JSProCpp.FlushErrors
import JSProCpp.LosingCalls
import JSProCpp.ReferencedOutcome
import JSProCpp.TypedCatch
import JSProCpp.ReentrantDone
import JSProCpp.AttachedCallables
import JSProCpp.Monitors
import JSProCpp.WaitSets
import JSProCpp.WaitRegistrations
import JSProCpp.QueueHop
import JSProCpp.QueuedCallbacks
import JSProCpp.ChainOutcomes
import JSProCpp.ChainProgress
import JSProCpp.ChainSemantics
import JSProCpp.CellRefinement
import JSProCpp.WaitRefinement
import JSProCpp.ChainTypes
import JSProCpp.Memcheck
import JSProCpp.RaceTypes
import JSProCpp.CoroutineOutcomes
import JSProCpp.CoroutineRest
import JSProCpp.CoroutineSemantics
