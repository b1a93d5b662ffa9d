import Mc68000.Memory.Ram
import Mc68000.Session.Transfer
import Mc68000.Settings.Error
import Mc68000.Settings.Json
import Mc68000.Cycles.Json
import Mc68000.ControlInstructions
import Mc68000.Execution.Step
import Mc68000.Inspect
import Mc68000.Proofs.Evolution
import Mc68000.Proofs.Exception
import Mc68000.Proofs.Instruction
import Mc68000.Proofs.Hosted
import Mc68000.Proofs.Loop
import Mc68000.Proofs.Attention
import Mc68000.Proofs.StackOverflow
import Mc68000.Proofs.DoubleFault
import Mc68000.Proofs.FaultedStop
import Mc68000.Proofs.SlotList
import Mc68000.Proofs.Registry
import Mc68000.Proofs.Entry
import Mc68000.Proofs.Outcome
import Mc68000.Proofs.Calls
import Mc68000.Proofs.Privilege
import Mc68000.Proofs.RamBytes
import Mc68000.Proofs.Nesting
import Mc68000.Proofs.Accesses
import Mc68000.Proofs.Polls
import Mc68000.Proofs.FaultAccounts
import Mc68000.Proofs.StackPointers
import Mc68000.Proofs.StopRecords
import Mc68000.Proofs.Stopping
import Mc68000.Proofs.TraceArming
import Mc68000.Proofs.TraceTiming
import Mc68000.Proofs.InterruptTiming
import Mc68000.Proofs.InterruptNesting
import Mc68000.Proofs.Preservation
import Mc68000.Proofs.Counters
import Mc68000.Proofs.NestedCall
import Mc68000.Proofs.BreakRequest
import Mc68000.Proofs.Likeness
import Mc68000.Proofs.HostLikeness
import Mc68000.Proofs.Observation
import Mc68000.Proofs.BreakTransparency
import Mc68000.Proofs.Image
import Mc68000.Proofs.Transfer
import Mc68000.Proofs.Frame
import Mc68000.Proofs.Additions
import Mc68000.Proofs.Interception
import Mc68000.Proofs.StackedStatus
import Mc68000.Proofs.StackChanges
import Mc68000.Proofs.ControlFlow
import Mc68000.Proofs.Overdue
import Mc68000.Proofs.Housekeeping
import Mc68000.Proofs.CycleAccount
import Mc68000.Proofs.Histories
import Mc68000.Proofs.StackLatch
import Mc68000.Proofs.RamContents
import Mc68000.Proofs.FaultLatch
import Mc68000.Proofs.JsonGrammar
import Mc68000.Proofs.TableBuilding
import Mc68000.Proofs.JsonReader
import Mc68000.Proofs.SettingsCodec
