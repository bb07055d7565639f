import Ikkat.Agreement
import Ikkat.Attempts
import Ikkat.Cached
import Ikkat.Convergence
import Ikkat.Crash
import Ikkat.Cuts
import Ikkat.Damage
import Ikkat.EntryLock
import Ikkat.Failover
import Ikkat.FileMetas
import Ikkat.Histories
import Ikkat.Leadership
import Ikkat.LockOrder
import Ikkat.Markers
import Ikkat.OpenMap
import Ikkat.Panics
import Ikkat.Primality
import Ikkat.Progress
import Ikkat.Reads
import Ikkat.Rebuild
import Ikkat.Recording
import Ikkat.Redirects
import Ikkat.Sequential
import Ikkat.Uncommitted
import Ikkat.Updates
