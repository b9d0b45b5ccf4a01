import Ntsync.Lib.Lts
import Ntsync.Lib.Links
import Ntsync.Semaphore
import Ntsync.Ledger
import Ntsync.Lifetime
import Ntsync.Handles
import Ntsync.Recycling
import Ntsync.Conservation
import Ntsync.Events
import Ntsync.Linearize
import Ntsync.OpenMap
import Ntsync.OpenCrash
import Ntsync.Lists
import Ntsync.Owners
import Ntsync.Nodes
import Ntsync.Orphans
import Ntsync.Crash
import Ntsync.Lib.Bucket
import Ntsync.Pacing
import Ntsync.AutoSweep
import Ntsync.Attempt
import Ntsync.Abi
import Ntsync.Cursor
import Ntsync.SweepExact
import Ntsync.FullTable
import Ntsync.FastPath
import Ntsync.WaitAny
import Ntsync.Holders
import Ntsync.Scan
import Ntsync.Clock
import Ntsync.TimedOut
import Ntsync.Verdicts
import Ntsync.Acquirable
import Ntsync.Sleepers
import Ntsync.Wakeups
import Ntsync.Alerts
import Ntsync.Pulses
import Ntsync.Woken
import Ntsync.Atomic
import Ntsync.Stale
import Ntsync.Lib.Amortized
import Ntsync.Progress
import Ntsync.Guard
import Ntsync.OpenEnds
import Ntsync.Paths
import Ntsync.Unique
import Ntsync.WaitAll
import Ntsync.Stranded
import Ntsync.Closing
