import Proofload.Lib.Run
import Proofload.Lib.Machine
import Proofload.Lib.Maps
import Proofload.Lib.Lists
import Proofload.Lib.Stream
import Proofload.Lib.Linearizability
import Proofload.Lib.Locality
import Proofload.Lib.Encoding
import Proofload.Lib.Search
import Proofload.Lib.Base64
import Proofload.Lib.Json
import Proofload.Lib.Arrivals
import Proofload.Lib.Words
import Proofload.Lib.JsonRecord
import Proofload.Lib.RecordFile
import Proofload.Lib.Totals
import Proofload.Lib.Atomics
import Proofload.Lib.Cumulative
import Proofload.Lib.Texts
import Proofload.Lib.Escaping
import Proofload.Lib.Disk
import Proofload.Lib.Tables
import Proofload.Lib.Deferred
import Proofload.Lib.Paths
import Proofload.Lib.Markup
import Proofload.Domain
import Proofload.Workload.Value
import Proofload.Workload.Generator
import Proofload.Workload.Partition
import Proofload.Workload.Config
import Proofload.Workload.Mix
import Proofload.Config.Resolve
import Proofload.Schedule.Scheduler
import Proofload.Schedule.Ramp
import Proofload.Schedule.Exact
import Proofload.Metrics.Histogram
import Proofload.Metrics.Recorder
import Proofload.Metrics.Hdr
import Proofload.Metrics.Codec
import Proofload.Metrics.Interval
import Proofload.Metrics.Telescope
import Proofload.Metrics.Merge
import Proofload.Runner.Worker
import Proofload.Runner.Timed
import Proofload.Runner.Accounting
import Proofload.Runner.Lifecycle
import Proofload.Runner.Conservation
import Proofload.Drivers.Plan
import Proofload.Drivers.Postgres
import Proofload.Drivers.Redis
import Proofload.Drivers.Dsn
import Proofload.Drivers.Cassandra
import Proofload.Drivers.Clickhouse
import Proofload.Drivers.Session
import Proofload.Kafka.Record
import Proofload.Kafka.AnalyzeLog
import Proofload.Kafka.Broker
import Proofload.Kafka.Soundness
import Proofload.Kafka.Drain
import Proofload.Kafka.Exact
import Proofload.Kafka.LossCount
import Proofload.Verify.History
import Proofload.Verify.Register
import Proofload.Verify.WholeHistory
import Proofload.Verify.RegisterRun
import Proofload.Verify.Reconcile
import Proofload.Verify.StaticCluster
import Proofload.Verify.WriteLog
import Proofload.Verify.Elle
import Proofload.Verify.HistoryFile
import Proofload.Verify.LogFile
import Proofload.Verify.Corruption
import Proofload.Verify.Acknowledged
import Proofload.Nemesis.Plan
import Proofload.Nemesis.Run
import Proofload.Nemesis.Exact
import Proofload.Nemesis.Controller
import Proofload.Nemesis.FaultScript
import Proofload.Nemesis.Lasting
import Proofload.Cluster.Coordinator
import Proofload.Cluster.Serve
import Proofload.Cluster.Barrier
import Proofload.Provision.Kubernetes
import Proofload.Export.Influx
import Proofload.Export.Pushgateway
import Proofload.Emit.Layout
import Proofload.Emit.AllOrNothing
import Proofload.Emit.Atomic
import Proofload.Warehouse.Runs
import Proofload.Report.Page
import Proofload.Report.Sections
import Proofload.Report.Timeline
import Proofload.Cli.Load
import Proofload.Cli.MergeResults
import Proofload.Cli.Intervals
import Proofload.Cli.Stress
import Proofload.Cli.Setup
import Proofload.Cli.StressRamp
import Proofload.Cli.Distributed
import Proofload.Cli.Run
