import Dezh.AddressSpaces
import Dezh.AgentStorage
import Dezh.Base64
import Dezh.BumpHeap
import Dezh.CapabilityBound
import Dezh.CapabilityLists
import Dezh.CheckpointLoss
import Dezh.ConsoleAuthority
import Dezh.CorruptMarking
import Dezh.GateHistories
import Dezh.IntentLeases
import Dezh.IpcAuthority
import Dezh.IrGrammar
import Dezh.JournalDamage
import Dezh.LiveRevocation
import Dezh.LoaderPermissions
import Dezh.MemoryMap
import Dezh.NameUniqueness
import Dezh.PackageExecution
import Dezh.ReplyMatching
import Dezh.RollbackSoundness
import Dezh.Runq
import Dezh.SignedEnvelope
import Dezh.TaskRows
import Dezh.TicketLock
import Dezh.Timeouts
import Dezh.UserMemory
import Dezh.WindowAccess
