import HEDB.Foundations.Files
import HEDB.Types.Defs
import HEDB.Types.Request
import HEDB.RecordReplay.Recorder
import HEDB.RecordReplay.Replayer
import HEDB.RecordReplay.Records
import HEDB.RecordReplay.Matching
import HEDB.RecordReplay.Logs
import HEDB.RecordReplay.FixedWidth
import HEDB.RecordReplay.Operands
import HEDB.RecordReplay.Text
import HEDB.RecordReplay.Desenitizer
import HEDB.Foundations.System
import HEDB.SharedMemory.Model
import HEDB.SharedMemory.Invariant
import HEDB.SharedMemory.Regions
import HEDB.SharedMemory.Header
import HEDB.SharedMemory.Server
import HEDB.SharedMemory.Allocation
import HEDB.SharedMemory.Processes
import HEDB.SharedMemory.Forks
import HEDB.SharedMemory.Exclusivity
import HEDB.SharedMemory.Sessions
import HEDB.EvalExpr.Model
import HEDB.EvalExpr.Syntax
import HEDB.PlainOps.Like
import HEDB.EvalExpr.Compile
import HEDB.EvalExpr.Misread
import HEDB.PlainOps.Arithmetic
import HEDB.Foundations.Arithmetic32
import HEDB.PlainOps.Ieee
import HEDB.PrivacyZone.Crypto
import HEDB.PrivacyZone.EncOps
import HEDB.PrivacyZone.Handler
import HEDB.Pipeline.Calls
import HEDB.Pipeline.Text
import HEDB.Udf.EncText
import HEDB.Udf.TextResults
import HEDB.Pipeline.Failures
import HEDB.Pipeline.Confinement
import HEDB.Foundations.Ranks
import HEDB.Udf.Comparison
import HEDB.Udf.OrderTags
import HEDB.RecordReplay.SeveralLogs
import HEDB.Interface.Backend
import HEDB.Interface.History
import HEDB.Interface.Modes
import HEDB.Interface.Buffers
import HEDB.RecordReplay.LogEnd
import HEDB.Interface.Recordings
import HEDB.RecordReplay.Completeness
import HEDB.SharedMemory.Children
import HEDB.SharedMemory.Access
import HEDB.SharedMemory.Timeouts
import HEDB.SharedMemory.Stale
import HEDB.SharedMemory.Restart
import HEDB.Foundations.Gregorian
import HEDB.PlainOps.Year
import HEDB.Udf.TextForm
import HEDB.Udf.Representation
import HEDB.Foundations.Windows
import HEDB.Udf.Aggregates
import HEDB.Udf.Averages
import HEDB.Tools.Hotfix
import HEDB.Anonymizer.KTest
import HEDB.Anonymizer.Seeds
import HEDB.Anonymizer.Wrapper
import HEDB.Foundations.WorkerPool
import HEDB.PrivacyZone.Parallel
import HEDB.Pipeline.Agreement
import HEDB.Foundations.ShortReads
import HEDB.RecordReplay.Rejections
import HEDB.Udf.Nulls
import HEDB.RecordReplay.Described
import HEDB.RecordReplay.Place
import HEDB.RecordReplay.Malformed
import HEDB.Udf.Substring
import HEDB.Udf.TextBounds
import HEDB.Udf.ServerInput
import HEDB.Foundations.Binary32
import HEDB.Foundations.Printf
import HEDB.Udf.Outputs
import HEDB.PlainOps.Faults
import HEDB.SharedMemory.Signals
import HEDB.EvalExpr.Checked
import HEDB.EvalExpr.Reading
import HEDB.EvalExpr.Follows
import HEDB.EvalExpr.Arrays
import HEDB.Foundations.Best
import HEDB.Udf.FloatOrder
import HEDB.Udf.Casts
import HEDB.Foundations.CStrings
import HEDB.Interface.Discovery
import HEDB.Interface.LogNames
import HEDB.Anonymizer.Solutions
import HEDB.PrivacyZone.Ivs
import HEDB.RecordReplay.AppendLog
import HEDB.Utils.PrintHex
import HEDB.PrivacyZone.Reporting
import HEDB.Foundations.Liveness
import HEDB.Pipeline.Nonces
import HEDB.SharedMemory.Delivery
import HEDB.SharedMemory.Progress
import HEDB.Foundations.Simulation
import HEDB.Udf.Operators
import HEDB.Udf.Scripts
import HEDB.Udf.Plans
import HEDB.EvalExpr.OnServer
import HEDB.EvalExpr.Fused
import HEDB.Pipeline.Codes
import HEDB.Interface.Queries
import HEDB.Anonymizer.Runs
