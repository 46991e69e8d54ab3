import FreshCore.Imperative.Program
import FreshCore.Imperative.History
import FreshCore.Imperative.Generations
import FreshCore.Imperative.Monitor
import FreshCore.Imperative.Remember
import FreshCore.Arithmetic.Checked
import FreshCore.Octets.LittleEndian
import FreshCore.Posix.Path
import FreshCore.Posix.FileSystem
import FreshCore.Posix.Interference
import FreshCore.Posix.Resolution
import FreshCore.Posix.Canonical
import FreshCore.Posix.Pruning
import FreshCore.Posix.OwnFiles
import FreshCore.Posix.Weight
import FreshCore.Posix.Disk
import FreshCore.Posix.Stdio
import FreshCore.Config.Configuration
import FreshCore.Config.Printing
import FreshCore.Device.Readings
import FreshCore.Logging.Logger
import FreshCore.Logging.Rotation
import FreshCore.Logging.Threads
import FreshCore.Power.ThermalMonitor
import FreshCore.Device.Detection
import FreshCore.Device.PackagesList
import FreshCore.Daemon.World
import FreshCore.Daemon.Scope
import FreshCore.Daemon.Unless
import FreshCore.Daemon.Quiet
import FreshCore.Power.IdleDetector
import FreshCore.Diagnostics.Diagnostics
import FreshCore.Storage.Filesystem
import FreshCore.Cache.StateStorage
import FreshCore.Cache.PackageScanner
import FreshCore.Cache.PathValidation
import FreshCore.Cache.DirectorySize
import FreshCore.Cache.ScannerConfinement
import FreshCore.Cache.CacheAnalyzer
import FreshCore.Cache.CacheCleaner
import FreshCore.Cache.RemovalRuns
import FreshCore.Cache.RemovalFrame
import FreshCore.Cache.Undisturbed
import FreshCore.Cache.CleanerComplete
import FreshCore.Cache.SweepsComplete
import FreshCore.Cache.CleanerProgress
import FreshCore.Cache.FreedBytes
import FreshCore.Cache.MeasuredFreed
import FreshCore.Cache.BatchBound
import FreshCore.Cache.RecordedCleanup
import FreshCore.Cache.CleanerRace
import FreshCore.Cache.SaveAtomic
import FreshCore.Cache.SaveLoad
import FreshCore.Cache.CrashSafety
import FreshCore.Cache.StateDamage
import FreshCore.Cache.AnalysisTurns
import FreshCore.Cache.Cooldown
import FreshCore.Cache.Selection
import FreshCore.Cache.Reordering
import FreshCore.Cache.GrowthRate
import FreshCore.Cache.GrowthMagnitude
import FreshCore.Audio.MicFixer
import FreshCore.Audio.PollLoop
import FreshCore.Audio.Command
import FreshCore.Audio.LostReadings
import FreshCore.Audio.AlsaInotify
import FreshCore.Audio.EventBuffer
import FreshCore.Audio.Polling
import FreshCore.Core.DecisionEngine
import FreshCore.Core.Assembly
import FreshCore.Core.Invariants
import FreshCore.Core.EngineRuns
import FreshCore.Core.IdleStreak
import FreshCore.Core.ScreenRestart
import FreshCore.Core.DozeRelease
import FreshCore.Core.WakeUp
import FreshCore.Core.CleanupCap
import FreshCore.Core.Limits
import FreshCore.Core.Budget
import FreshCore.Core.Restart
import FreshCore.Core.Bookkeeping
import FreshCore.Core.Records
import FreshCore.Core.RecordHistory
import FreshCore.Core.Confinement
import FreshCore.Core.Termination
import FreshCore.Core.Scheduler
import FreshCore.Core.Timeliness
import FreshCore.Core.TargetTurns
import FreshCore.Core.Starvation
import FreshCore.Core.TargetProgress
