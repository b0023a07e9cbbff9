import Gatel.Admin.Exchange
import Gatel.Admin.Handle
import Gatel.App.Lifecycle
import Gatel.Bundle.AccessLog
import Gatel.Bundle.Authority
import Gatel.Bundle.BasicAuth
import Gatel.Bundle.BodyLimit
import Gatel.Bundle.Cors
import Gatel.Bundle.EncodingAccept
import Gatel.Bundle.FileHandler
import Gatel.Bundle.FileListing
import Gatel.Bundle.FileServer
import Gatel.Bundle.ForceHttps
import Gatel.Bundle.ForwardAuth
import Gatel.Bundle.IpFilter
import Gatel.Bundle.LocalRedirect
import Gatel.Bundle.Preconditions
import Gatel.Bundle.Ranges
import Gatel.Bundle.RateLimit
import Gatel.Bundle.RetryAfter
import Gatel.Bundle.Timeout
import Gatel.Cache.Directives
import Gatel.Cache.Eviction
import Gatel.Cache.Fill
import Gatel.Cache.Freshness
import Gatel.Cache.Invariant
import Gatel.Cache.Policy
import Gatel.Cache.Refill
import Gatel.Cache.Revalidate
import Gatel.Cache.Store
import Gatel.Cache.Traced
import Gatel.Cgi.Delivery
import Gatel.Cgi.Environment
import Gatel.Cgi.Head
import Gatel.Cgi.HeadBoundary
import Gatel.Cgi.Mapping
import Gatel.Cgi.RequestFraming
import Gatel.Cgi.Sink
import Gatel.Cgi.Supervisor
import Gatel.Cgi.Terminal
import Gatel.Checkpoint.Compact
import Gatel.Checkpoint.Envelope
import Gatel.Checkpoint.Recovery
import Gatel.Checkpoint.Writer
import Gatel.Codec.SnapshotCodec
import Gatel.Codec.SnapshotExact
import Gatel.Generation.Capture
import Gatel.Generation.Invariant
import Gatel.Generation.Outcomes
import Gatel.Generation.Safety
import Gatel.Generation.Steps
import Gatel.Generation.Store
import Gatel.Generation.Transition
import Gatel.Generation.Writers
import Gatel.Journal.Crash
import Gatel.Journal.Record
import Gatel.Journal.Reopen
import Gatel.Journal.Settle
import Gatel.Journal.Transaction
import Gatel.Journal.WalFrame
import Gatel.Kdl.Glob
import Gatel.Kdl.Guard
import Gatel.Kdl.Load
import Gatel.Lib.Base64
import Gatel.Lib.CanonicalSort
import Gatel.Lib.Extremum
import Gatel.Lib.FirstMatch
import Gatel.Lib.Format
import Gatel.Lib.FramedScan
import Gatel.Lib.GreedyOrder
import Gatel.Lib.Holdings
import Gatel.Lib.Json
import Gatel.Lib.KeepFirst
import Gatel.Lib.KeyedFold
import Gatel.Lib.KeyedMap
import Gatel.Lib.LittleEndian
import Gatel.Lib.PrefixCode
import Gatel.Lib.Run
import Gatel.Lib.Semaphore
import Gatel.Lib.Separated
import Gatel.Lib.Shuffle
import Gatel.Lib.SmoothRobin
import Gatel.Lib.SortedMap
import Gatel.Lib.TokenBucket
import Gatel.Lib.TornLog
import Gatel.Lib.Utf8
import Gatel.Model.Body
import Gatel.Model.Diagnostic
import Gatel.Model.Framing
import Gatel.Model.FromNode
import Gatel.Model.FromNodeExact
import Gatel.Model.Hash
import Gatel.Model.HashExact
import Gatel.Model.Http
import Gatel.Model.Id
import Gatel.Model.Net
import Gatel.Model.NetBits
import Gatel.Model.NetText
import Gatel.Model.Resource
import Gatel.Model.Snapshot
import Gatel.Model.Value
import Gatel.Observe.Access
import Gatel.Observe.Measure
import Gatel.Plan.ChainOrder
import Gatel.Plan.Compile
import Gatel.Plan.Conditions
import Gatel.Plan.Decoded
import Gatel.Plan.Directive
import Gatel.Plan.Faithful
import Gatel.Plan.FingerprintExact
import Gatel.Plan.GlobalDecode
import Gatel.Plan.HealthDecode
import Gatel.Plan.Matcher
import Gatel.Plan.Normalize
import Gatel.Plan.Ordering
import Gatel.Plan.PassOrder
import Gatel.Plan.PathIdentity
import Gatel.Plan.Reorder
import Gatel.Plan.RequestPath
import Gatel.Plan.RouteOrder
import Gatel.Plan.Selection
import Gatel.Plan.SiteOrder
import Gatel.Plan.Spec
import Gatel.Plan.SpecOrder
import Gatel.Plan.Texts
import Gatel.Plan.Upstream
import Gatel.Plan.UpstreamDecode
import Gatel.Plan.UpstreamExact
import Gatel.Plan.Validate
import Gatel.Proxy.Attempts
import Gatel.Proxy.CookieLines
import Gatel.Proxy.GuardedBody
import Gatel.Proxy.Hygiene
import Gatel.Proxy.Outbound
import Gatel.Proxy.RequestHost
import Gatel.Server.AcceptLoops
import Gatel.Server.Bind
import Gatel.Server.BlockingBudget
import Gatel.Server.ClientAddress
import Gatel.Server.ConnectionDrain
import Gatel.Server.PluginRetirement
import Gatel.Server.PluginTasks
import Gatel.Server.ProxyProtocol
import Gatel.State.Admission
import Gatel.State.Ejection
import Gatel.State.Endpoint
import Gatel.State.EndpointPool
import Gatel.State.Multiplex
import Gatel.State.ProbeDelay
import Gatel.State.Registry
import Gatel.State.Reload
import Gatel.State.Selector
import Gatel.State.Supervisor
import Gatel.State.TargetText
import Gatel.State.WeightedRobin
import Gatel.Tls.AcmeWanted
import Gatel.Tls.CertificateStore
import Gatel.Tls.Publication
import Gatel.Tls.Renewal
import Gatel.Tls.Server
