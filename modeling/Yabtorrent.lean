import Yabtorrent.Config
import Yabtorrent.Wire
import Yabtorrent.Piece
import Yabtorrent.Selector
import Yabtorrent.Peer
import Yabtorrent.JobQueue
import Yabtorrent.Manager.State
import Yabtorrent.Manager.Callbacks
import Yabtorrent.Manager.Connection
import Yabtorrent.Manager.Entry
import Yabtorrent.Manager.Frame
import Yabtorrent.Manager.Requests
import Yabtorrent.Manager.Completion
import Yabtorrent.Manager.Lifecycle
import Yabtorrent.Manager.Chunking
import Yabtorrent.Manager.Handshake
import Yabtorrent.Manager.Race
import Yabtorrent.Manager.Admission
import Yabtorrent.Manager.Settled
import Yabtorrent.Manager.Order
import Yabtorrent.Manager.Log
import Yabtorrent.Manager.Stats
import Yabtorrent.Manager.Seeding
import Yabtorrent.Manager.Termination
import Yabtorrent.Manager.Announce
import Yabtorrent.Manager.Jobs
import Yabtorrent.Manager.Setup
import Yabtorrent.Manager.Accounting
import Yabtorrent.Manager.Blame
import Yabtorrent.Manager.Addresses
import Yabtorrent.Url
