import SimpleTorrent.Properties.Requests
import SimpleTorrent.Properties.Reassembly
import SimpleTorrent.Properties.NoCrash
import SimpleTorrent.Properties.Progress
import SimpleTorrent.Properties.InFlight
import SimpleTorrent.Properties.Shutdown
import SimpleTorrent.Properties.Assembly
import SimpleTorrent.Properties.Delivery
import SimpleTorrent.Properties.Segments
import SimpleTorrent.Properties.Tiling
import SimpleTorrent.Properties.Availability
import SimpleTorrent.Properties.BlockFill
import SimpleTorrent.Properties.ArrivalOrder
import SimpleTorrent.Properties.Choking
import SimpleTorrent.Properties.Stall
import SimpleTorrent.Properties.Reconnection
import SimpleTorrent.Properties.TrackerPeers
import SimpleTorrent.Properties.Bitfield
import SimpleTorrent.Properties.RoundTrip
import SimpleTorrent.Properties.Handshake
import SimpleTorrent.Properties.TrackerReplies
import SimpleTorrent.Properties.AnnounceRequest
import SimpleTorrent.Properties.Reclaiming
import SimpleTorrent.Properties.Consistency
import SimpleTorrent.Properties.Containment
import SimpleTorrent.Properties.InfoHash
import SimpleTorrent.Properties.Eta
import SimpleTorrent.Properties.Checksum
import SimpleTorrent.Properties.Codec
import SimpleTorrent.Properties.Wire
import SimpleTorrent.Properties.Integrity
import SimpleTorrent.Properties.Ending
import SimpleTorrent.Properties.Seed
import SimpleTorrent.Properties.Finish
import SimpleTorrent.Properties.Program
