import Drunos.Rest.EventManager
import Drunos.Rest.Polls
import Drunos.Rest.FlowManager
import Drunos.Parser.PacketParser
import Drunos.Parser.Bounds
import Drunos.Parser.Frame
import Drunos.Parser.Buffers
import Drunos.Parser.Layers
import Drunos.Parser.Writes
import Drunos.Controller.Dispatch
import Drunos.Controller.Transactions
import Drunos.Theory.Dependency
import Drunos.Theory.PartialMap
import Drunos.Controller.Loader
import Drunos.Oxm.Field
import Drunos.Oxm.FieldSet
import Drunos.Oxm.KnownBits
import Drunos.Oxm.Wildcards
import Drunos.Oxm.Handler
import Drunos.Retic.Fdd
import Drunos.Retic.Compiler
import Drunos.Retic.Compositions
import Drunos.Retic.CompilerMeaning
import Drunos.Retic.Applier
import Drunos.Retic.Leaves
import Drunos.Maple.TraceablePacket
import Drunos.Oxm.MultiFieldSet
import Drunos.Oxm.AddedFields
import Drunos.Oxm.Overlaps
import Drunos.Maple.TraceTree
import Drunos.Maple.Lookup
import Drunos.Maple.Priorities
import Drunos.Theory.PriorityTable
import Drunos.Theory.Regex
import Drunos.Maple.Commit
import Drunos.Maple.Matches
import Drunos.Maple.Backend
import Drunos.Maple.PacketIn
import Drunos.Maple.Retry
import Drunos.Maple.Announced
import Drunos.Maple.Installed
import Drunos.Maple.Decision
import Drunos.Maple.Messages
import Drunos.Maple.Answers
import Drunos.Retic.Ordered
import Drunos.Retic.Translator
import Drunos.Retic.TranslatorTable
import Drunos.Retic.TraceTree
import Drunos.Retic.Tracer
import Drunos.Retic.Traverser
import Drunos.Retic.Returned
import Drunos.Retic.Merged
import Drunos.Retic.Traced
import Drunos.Retic.Sound
import Drunos.Retic.Cached
import Drunos.Retic.Whole
import Drunos.Retic.Outputs
import Drunos.Retic.Timeouts
import Drunos.Retic.Lookups
import Drunos.Retic.Carried
import Drunos.Retic.Frames
import Drunos.Retic.FieldSetUnion
import Drunos.Types.Text
import Drunos.Types.Ethaddr
import Drunos.Types.Ipv4addr
import Drunos.Types.IPv6Addr
import Drunos.Rest.StringCast
import Drunos.Topology.Location
import Drunos.Topology.Broadcast
import Drunos.Topology.Graph
import Drunos.Topology.Route
import Drunos.Topology.LearningSwitch
import Drunos.Topology.LinkDiscovery
import Drunos.Topology.LldpFrames
import Drunos.Topology.LinkStores
import Drunos.Topology.LinkSignals
import Drunos.Topology.Links
import Drunos.Topology.SpanningTree
import Drunos.Topology.LoopFree
import Drunos.Retic.MergedNodes
import Drunos.Retic.Augmentions
import Drunos.Retic.Spacing
import Drunos.Retic.PreMatch
import Drunos.Retic.PathTable
import Drunos.Retic.Places
import Drunos.Retic.Forks
import Drunos.Retic.Rising
import Drunos.Retic.Standing
import Drunos.Retic.PacketIns
import Drunos.Retic.Retests
import Drunos.Theory.Halving
import Drunos.Retic.Ties
import Drunos.Retic.Swaps
import Drunos.Retic.Slips
import Drunos.Retic.TypeOrder
import Drunos.Driver.OFDriver
import Drunos.Driver.FluidOXMAdapter
import Drunos.Driver.Of13Backend
import Drunos.Driver.Storage
import Drunos.Driver.Expiry
import Drunos.Driver.Switch
import Drunos.Driver.Sessions
import Drunos.Oxm.Wildcards
import Drunos.Theory.Flooding
import Drunos.Topology.Flood
import Drunos.Topology.Switches
import Drunos.Topology.KnownPorts
import Drunos.Controller.Deliveries
import Drunos.Rest.KnownRules
import Drunos.Json11.Texts
import Drunos.Rest.Listener
import Drunos.Rest.Requests
