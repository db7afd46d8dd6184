import Ews.Loop
import Ews.Receiver
import Ews.Schedule
import Ews.Transport
import Ews.Messages
import Ews.Frames
import Ews.ReadSide
import Ews.ReadSteps
import Ews.Within
import Ews.Assemble
import Ews.Window
import Ews.Decompressor
import Ews.Inflate
import Ews.Streaming
import Ews.Modes
import Ews.Passage
import Ews.Conn
import Ews.Amid
import Ews.Deliver
import Ews.ReadPaths
import Ews.Takeover
import Ews.Retry
import Ews.Compressor
import Ews.WriteSide
import Ews.Encoding
import Ews.Shared
import Ews.Delivery
import Ews.Closing
import Ews.Changes
import Ews.History
import Ews.Faults
import Ews.Storage
import Ews.Arrival
import Ews.RoundTrip
import Ews.Text
import Ews.Digest
import Ews.Handshake
import Ews.Negotiation
import Ews.Script
import Ews.WriteFrom
import Ews.Sizing
import Ews.Utf8
import Ews.Valid
import Ews.Offers
import Ews.Memory
import Ews.Kernels
import Ews.Streams
import Ews.Portions
import Ews.Reuse
import Ews.Limit
import Ews.Bufio
import Ews.Serve
import Ews.RequestHead
import Ews.Handoff
import Ews.Cuts
import Ews.Torn
import Ews.EndOfStream
import Ews.Bufpool
import Ews.Await
import Ews.Backlog
import Ews.Upgrade
import Ews.ResponseHead
import Ews.Placement
import Ews.Coupling
import Ews.ReadOps
import Ews.Tunnel
import Ews.Lanes
import Ews.ValidSimd
import Ews.Settled
import Ews.Turns
import Ews.Heard
import Ews.ReadLoop
import Ews.Lifecycle
import Ews.Packing
import Ews.Spoken
import Ews.Voice
import Ews.Session
import Ews.EndToEnd
import Ews.Dial
import Ews.Meeting
import Ews.Progress
import Ews.Replies
