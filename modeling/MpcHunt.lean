import MpcHunt.Window.Coverage
import MpcHunt.Harness.DualRounds
import MpcHunt.Harness.CleanVerdict
import MpcHunt.Harness.Runnable
import MpcHunt.Harness.KeyDigest
import MpcHunt.Harness.SnapshotFile
import MpcHunt.Harness.WireRun
import MpcHunt.Lib.JsonLoads
import MpcHunt.Summary.Agreement
import MpcHunt.Window.ShardUnits
import MpcHunt.Brain.BrainPaths
import MpcHunt.Telemetry.Collisions
import MpcHunt.Telemetry.Closing
import MpcHunt.Harness.ExtraMapKey
import MpcHunt.Harness.AppliedChanges
import MpcHunt.Summary.NormalizedStack
import MpcHunt.Harness.DualReplay
import MpcHunt.Telemetry.Promotion
import MpcHunt.Telemetry.Refusals
import MpcHunt.Window.Rollback
import MpcHunt.Window.SideBySide
import MpcHunt.Telemetry.Packaged
import MpcHunt.Workflow.PlanWave
import MpcHunt.Window.Quarantine
import MpcHunt.Telemetry.KilledRun
import MpcHunt.Incident.Packed
import MpcHunt.Brain.Progress
