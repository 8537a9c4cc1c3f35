import QtProtobuf.L1Wire.VarintInputs
import QtProtobuf.L1Wire.Headers
import QtProtobuf.L1Wire.IteratorRuns
import QtProtobuf.L2Codec.RoundTrip
import QtProtobuf.L2Codec.ShortValues
import QtProtobuf.L2Codec.UnsetMessages
import QtProtobuf.L2Codec.UnknownFields
import QtProtobuf.L2Codec.MapEntry
import QtProtobuf.L2Codec.Framing
import QtProtobuf.L2Codec.NullElements
import QtProtobuf.L2Codec.Concatenation
import QtProtobuf.L2Codec.IntegerWidths
import QtProtobuf.L2Codec.Canonical
import QtProtobuf.L2Codec.RepeatedCompare
import QtProtobuf.L2Codec.Preserved
import QtProtobuf.L2Codec.SerializerRegistry
import QtProtobuf.L2Codec.Evolution
import QtProtobuf.L2Codec.Reordering
import QtProtobuf.L2Codec.HandlersRegistry
import QtProtobuf.L2Codec.QtTypes
import QtProtobuf.L2Json.Content
import QtProtobuf.L2Json.WellFormed
import QtProtobuf.L2Json.Integers
import QtProtobuf.L2Json.RoundTrip
import QtProtobuf.L3Grpc.BidirectLifetime
import QtProtobuf.L3Grpc.BidirectWrites
import QtProtobuf.L3Grpc.BidirectReplays
import QtProtobuf.L3Grpc.RpcStatus
import QtProtobuf.L3Grpc.ReassemblyCuts
import QtProtobuf.L3Grpc.ReassemblyEnds
import QtProtobuf.L3Grpc.AsyncCall
import QtProtobuf.L3Grpc.ReplyData
import QtProtobuf.L4Client.OneLiveRpc
import QtProtobuf.L4Client.KeptStreams
import QtProtobuf.L4Client.AttachChannel
import QtProtobuf.L4Client.StreamSharing
import QtProtobuf.L4Client.Delivery
import QtProtobuf.L4Client.TypedCalls
import QtProtobuf.L4Client.QuickRuns
import QtProtobuf.L5Generator.NestedMessages
import QtProtobuf.L5Generator.NameAgreement
import QtProtobuf.L5Generator.IncludeClosure
import QtProtobuf.L5Generator.BuildFiles
import QtProtobuf.L5Generator.Timestamp
import QtProtobuf.L5Generator.EnumVisibility
import QtProtobuf.L5Generator.MapGuards
import QtProtobuf.L5Generator.Comments
import QtProtobuf.L5Generator.Registration
import QtProtobuf.L5Generator.GeneratedClasses
