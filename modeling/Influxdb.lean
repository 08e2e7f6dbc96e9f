import Influxdb.Tsm1.CompactRun
import Influxdb.Tsm1.DescendingCursor
import Influxdb.Tsm1.KeyCursorContents
import Influxdb.Tsm1.PlannerRun
import Influxdb.Tsm1.IntegerCodec
import Influxdb.Tsm1.FloatArrayEncoder
import Influxdb.Tsm1.IndexRoundTrip
import Influxdb.Tsm1.ReaderDelete
import Influxdb.Tsm1.CacheRun
import Influxdb.Tsm1.WalSegment
import Influxdb.Tsm1.BlockFrame
import Influxdb.Models.PointBytes
import Influxdb.Models.FieldSplit
import Influxdb.Models.LineCut
import Influxdb.Models.EscapeBytes
import Influxdb.Encoding.Simple8bScan
import Influxdb.Coordinator.MapShardsRight
import Influxdb.Meta.Marshal
import Influxdb.Meta.Auth
import Influxdb.Meta.Atomic
import Influxdb.Tsi1.Reopen
import Influxdb.Tsi1.DroppedTags
import Influxdb.Tsi1.NonManifestFiles
import Influxdb.Tsdb.DeleteShard
import Influxdb.Tsdb.SeriesIndexSwap
import Influxdb.Retention.DeletionCheck
import Influxdb.Reads.MultiShardCursor
import Influxdb.Authz.Permissions
import Influxdb.Authz.CachingPasswords
import Influxdb.NoSqlModule.TempDB
import Influxdb.Tsm1.Values
import Influxdb.Tsm1.CleanupMeasurement
import Influxdb.DurableQueue.DiskUsage
import Influxdb.Scheduler.TreeScheduler
