import Ptolemy.Dict
import Ptolemy.Value
import Ptolemy.Feeder
import Ptolemy.FeederConservation
import Ptolemy.Carbon
import Ptolemy.CarbonSharding
import Ptolemy.Postgres
import Ptolemy.PostgresHistory
import Ptolemy.PostgresLiveRows
import Ptolemy.PostgresObservations
import Ptolemy.PostChain
import Ptolemy.PostOrder
import Ptolemy.Heapq
import Ptolemy.Scheduler
import Ptolemy.SchedulerLoop
import Ptolemy.SchedulerReload
import Ptolemy.SupervisorTimes
import Ptolemy.SupervisorDrivers
import Ptolemy.SupervisorShared
import Ptolemy.GroupNames
import Ptolemy.ColumnIndependence
import Ptolemy.Poll
import Ptolemy.ZStore
import Ptolemy.HostWatcher
import Ptolemy.Telephones
import Ptolemy.TelephoneStartup
import Ptolemy.AlertStanzas
import Ptolemy.AlertLifecycle
import Ptolemy.AlertLimits
import Ptolemy.PostgresTransactions
import Ptolemy.PostgresDuplicates
import Ptolemy.PostgresMerge
import Ptolemy.PostgresPartitions
import Ptolemy.PostgresPrefetch
import Ptolemy.Forest
import Ptolemy.EntityTree
import Ptolemy.TreeCompleteness
import Ptolemy.Entities
import Ptolemy.EntityMoves
import Ptolemy.EntityScan
import Ptolemy.EntityClean
import Ptolemy.EntityConservation
import Ptolemy.RecordMoves
import Ptolemy.HeartbeatRing
import Ptolemy.SharedHeartbeats
import Ptolemy.ObjectNames
import Ptolemy.BulkWalk
import Ptolemy.BulkWalkView
import Ptolemy.NetworkDevices
import Ptolemy.PollDrivers
import Ptolemy.SqlLiteral
import Ptolemy.PostgresQueryText
import Ptolemy.SupervisorLogs
import Ptolemy.DriverRefs
import Ptolemy.DriverNesting
import Ptolemy.Renaming
import Ptolemy.DriverKeys
import Ptolemy.ValueSubstitution
import Ptolemy.MergeDefs
import Ptolemy.RecordIsolation
import Ptolemy.HexText
import Ptolemy.TrunkedVlans
import Ptolemy.MacAddresses
import Ptolemy.AccessPoints
import Ptolemy.Neighbours
import Ptolemy.CapacityWindow
import Ptolemy.PostgresDifferences
import Ptolemy.PortChannels
import Ptolemy.LineProtocol
import Ptolemy.InfluxLines
import Ptolemy.InfluxBuffer
import Ptolemy.DeviceCategories
import Ptolemy.PeriodGrammar
import Ptolemy.CarbonSeries
import Ptolemy.FPing
import Ptolemy.SubnetReports
import Ptolemy.SubnetQueue
import Ptolemy.PostRecords
import Ptolemy.PollDelivery
import Ptolemy.SupervisedPolling
import Ptolemy.SupervisorRecovery
import Ptolemy.SchedulerDeadlines
import Ptolemy.SchedulerCluster
import Ptolemy.AgentOptions
import Ptolemy.IterativePolling
import Ptolemy.TopicExchange
import Ptolemy.AnalyseRouting
import Ptolemy.AnalyseAlerts
import Ptolemy.InventorySchedule
import Ptolemy.Scoreboards
import Ptolemy.Grouping
import Ptolemy.LastDefinitions
import Ptolemy.PortFunctions
