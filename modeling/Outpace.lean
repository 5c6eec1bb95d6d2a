import Outpace.Wire.ReassemblyPublication
import Outpace.Swarm.SchedulerRuns
import Outpace.Swarm.Live.Publication
import Outpace.Swarm.Live.SingleRequest
import Outpace.Swarm.Live.Rerequest
import Outpace.Swarm.Vod.Delivery
import Outpace.Wire.ChunkerRoundTrip
import Outpace.Media.KeyframeGateRuns
import Outpace.Swarm.SeedCreation
import Outpace.Engine.VodGeometry
import Outpace.Swarm.Live.PeerEventsOrder
import Outpace.Swarm.Identifier
import Outpace.Swarm.CatalogHttp
import Outpace.Swarm.ServeCoordinator
import Outpace.Swarm.MetadataExchange
import Outpace.Swarm.InboundAdmission
import Outpace.Swarm.Vod.CoordinatorStaff
import Outpace.Swarm.Live.WarmPeersFile
import Outpace.Swarm.Live.WorkerPermits
import Outpace.Swarm.Retention
import Outpace.Swarm.SeedAnnounce
import Outpace.Swarm.DhtQueries
import Outpace.Swarm.DiskFaults
import Outpace.Engine.StartupSource
import Outpace.Media.AudioVersions
import Outpace.Engine.TableChecks
import Outpace.Swarm.Live.Reciprocal
import Outpace.Swarm.Live.EvictedGap
import Outpace.Swarm.Live.BufferScan
import Outpace.Engine.AudioRecovery
import Outpace.Engine.IngestStream
import Outpace.Media.TsResyncPush
