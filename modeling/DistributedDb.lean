import DistributedDb.Lib.OrderedMap
import DistributedDb.Lib.CircularWalk
import DistributedDb.Types
import DistributedDb.HashRing.Murmur3
import DistributedDb.HashRing.Ring
import DistributedDb.HashRing.Lookup
import DistributedDb.HashRing.Invariant
import DistributedDb.HashRing.Removal
import DistributedDb.Lib.Getline
import DistributedDb.Lib.LastWrite
import DistributedDb.Storage.Engine
import DistributedDb.Lib.Runs
import DistributedDb.Storage.Wal
import DistributedDb.Storage.Interleaving
import DistributedDb.Node.Services
import DistributedDb.Node.Coordinator
import DistributedDb.Cluster.Serve
import DistributedDb.Lib.CallGraph
import DistributedDb.Lib.PreferenceRouting
import DistributedDb.HashRing.View
import DistributedDb.Cluster.Requests
import DistributedDb.Cluster.Forwarding
import DistributedDb.Cluster.SharedRing
import DistributedDb.HashRing.Launch
import DistributedDb.Cluster.Reads
import DistributedDb.Cluster.Healthy
import DistributedDb.Cluster.Join
import DistributedDb.Cluster.Convergence
import DistributedDb.Lib.Linearize
import DistributedDb.Cluster.Machine
import DistributedDb.Cluster.Footprint
import DistributedDb.Cluster.SingleCopy
import DistributedDb.Cluster.Rejoin
import DistributedDb.Cluster.RejoinRuns
import DistributedDb.Node.Election
import DistributedDb.Cluster.Reelection
import DistributedDb.Cluster.ReelectionRuns
import DistributedDb.Storage.Crash
import DistributedDb.HashRing.Membership
import DistributedDb.HashRing.Positions
import DistributedDb.Node.Startup
import DistributedDb.Cluster.Executor
import DistributedDb.Cluster.Resync
import DistributedDb.Cluster.Success
import DistributedDb.Json.Parser
import DistributedDb.Json.Dump
import DistributedDb.Json.RoundTrip
import DistributedDb.Json.Access
import DistributedDb.Node.Codec
import DistributedDb.Node.TcpServer
import DistributedDb.Node.Detector
import DistributedDb.Node.Timeouts
import DistributedDb.Cluster.ElectionSafety
import DistributedDb.Cluster.ElectionRounds
import DistributedDb.Cluster.ElectionCascade
import DistributedDb.HashRing.Nearest
import DistributedDb.Lib.WordMixing
import DistributedDb.HashRing.Separation
import DistributedDb.Storage.Replay
import DistributedDb.Cluster.StateTransfer
import DistributedDb.Cluster.Refusals
import DistributedDb.Gateway.Store
import DistributedDb.Node.CommandLine
import DistributedDb.Node.TcpClient
import DistributedDb.Json.Accepted
import DistributedDb.Node.Relay
import DistributedDb.Gateway.Wire
import DistributedDb.Gateway.Client
import DistributedDb.Gateway.Service
import DistributedDb.Cluster.Contract
import DistributedDb.Cluster.Provenance
import DistributedDb.Cluster.Encoding
import DistributedDb.Node.Exchange
import DistributedDb.Cluster.Launched
import DistributedDb.Cluster.Progress
import DistributedDb.Cluster.Replies
import DistributedDb.Cluster.Locks
import DistributedDb.Cluster.ElectionValidity
import DistributedDb.Cluster.Placement
import DistributedDb.Gateway.Status
