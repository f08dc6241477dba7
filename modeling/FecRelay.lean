import FecRelay.Base.Method
import FecRelay.Base.Run
import FecRelay.Base.PriorityBag
import FecRelay.Utility
import FecRelay.Logic
import FecRelay.Packet
import FecRelay.Asio
import FecRelay.Theorems.Receiver
import FecRelay.Base.LeakyBucket
import FecRelay.Theorems.Shaper
import FecRelay.Theorems.Bandwidth
import FecRelay.Theorems.Priority
import FecRelay.Base.Chunks
import FecRelay.Codec.Wirehair
import FecRelay.Base.Reassembly
import FecRelay.Codec.Siamese
import FecRelay.Block
import FecRelay.Theorems.Uniqueness
import FecRelay.Wire
import FecRelay.Theorems.BlockTransfer
import FecRelay.Stream
import FecRelay.Codec.Echo
import FecRelay.Theorems.Decoder
import FecRelay.Base.OrderedMap
import FecRelay.Net
import FecRelay.Steps
import FecRelay.Theorems.Division
import FecRelay.Theorems.BlockRelay
import FecRelay.Chain
import FecRelay.Relaying
import FecRelay.Theorems.StreamRelay
import FecRelay.Base.Pacing
import FecRelay.Base.Cyclic
import FecRelay.Codec.Serializers
import FecRelay.Codec.EncoderWindow
import FecRelay.Codec.Windowing
import FecRelay.Ratio
import FecRelay.Session
import FecRelay.Theorems.Schedule
import FecRelay.Theorems.StreamOrder
import FecRelay.Theorems.Guard
import FecRelay.Theorems.Datagram
import FecRelay.Base.TwoRuns
import FecRelay.Theorems.Isolation
import FecRelay.Theorems.Resubscribe
import FecRelay.Codec.Decoding
import FecRelay.Codec.Parity
import FecRelay.Theorems.Recovery
import FecRelay.Codec.Slots
import FecRelay.Codec.Sums
import FecRelay.Draining
import FecRelay.Theorems.Capacity
import FecRelay.Network
import FecRelay.Theorems.PacketSize
import FecRelay.Theorems.Protection
import FecRelay.Theorems.Retry
import FecRelay.Theorems.Threshold
import FecRelay.Theorems.ClockStep
import FecRelay.Codec.Systematic
import FecRelay.Unseen
import FecRelay.Theorems.Unseen
import FecRelay.Theorems.Rejection
import FecRelay.Theorems.Duplicates
import FecRelay.Theorems.Wraparound
import FecRelay.Theorems.BlockNetwork
import FecRelay.Theorems.Fanout
import FecRelay.Codec.Gf256
import FecRelay.Base.Elimination
import FecRelay.Codec.Memory
import FecRelay.Codec.Rows
import FecRelay.Codec.BitSet
import FecRelay.Codec.DecoderWindow
import FecRelay.Codec.Receipt
import FecRelay.Codec.LossRanges
import FecRelay.Theorems.LossRanges
import FecRelay.Theorems.Acknowledged
import FecRelay.Codec.Deserializers
import FecRelay.Codec.Solver
import FecRelay.Codec.Substitution
import FecRelay.Theorems.Solver
import FecRelay.Base.Cauchy
import FecRelay.Codec.ByteEncoder
import FecRelay.Codec.LaneSums
import FecRelay.Codec.Carries
import FecRelay.Codec.Combines
import FecRelay.Codec.SumRows
import FecRelay.Theorems.Encoded
import FecRelay.Theorems.Windowed
import FecRelay.Codec.DecoderSums
import FecRelay.Codec.HoleSums
import FecRelay.Codec.Eliminates
import FecRelay.Theorems.CauchyRows
import FecRelay.Theorems.Collected
import FecRelay.Theorems.EndToEnd
