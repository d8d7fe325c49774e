import MiniUdp.Communicator.Partition
import MiniUdp.Communicator.Multi
import MiniUdp.Communicator.Checksum
import MiniUdp.Communicator.Acknowledge
import MiniUdp.RingBuffer.Refinement
import MiniUdp.RingBuffer.Order
import MiniUdp.RingBuffer.Iter
import MiniUdp.ByteReprExt
import MiniUdp.Communicator.Untrusted
import MiniUdp.Communicator.Flush
import MiniUdp.Lib.SlidingWindow
import MiniUdp.System.Endpoint
import MiniUdp.System.Network
import MiniUdp.System.Windows
import MiniUdp.System.Delivery
import MiniUdp.System.Acknowledged
import MiniUdp.System.Quiet
import MiniUdp.System.Deadlock
import MiniUdp.System.Idle
import MiniUdp.System.LifeCycle
import MiniUdp.Derive.Static
import MiniUdp.Derive.Many
import MiniUdp.Derive.Shelter
import MiniUdp.Derive.Transparent
import MiniUdp.Derive.Panic
import MiniUdp.Derive.Intended
import MiniUdp.Derive.Uncaptured
import MiniUdp.Derive.Amount
import MiniUdp.Derive.Rename
import MiniUdp.Multi.Callbacks
import MiniUdp.System.Returns
import MiniUdp.System.Crossing
import MiniUdp.Derive.Messages
import MiniUdp.System.Star
import MiniUdp.System.FakeDelay
