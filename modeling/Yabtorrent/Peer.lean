import Yabtorrent.Wire

/-! A peer of the download manager: its record, its connection and the parser its inbound
bytes go to.

`bt_peer_t` is the manager's record of a peer. Its connection (`pwp_conn`), handshaker
(`pwp_handshaker`) and message handler (`pwp_msghandler`) are not among the sources: their
state, and the handshaker's parsing, are modelled from the spec (§3, §4.2, §4.3). Time is
not modelled, so neither are the connection's rates and idle timers. -/
namespace Yabtorrent

/-- Modelled from the spec: the flags of a peer connection (§3). -/
inductive Flag where
  | handshakeSent
  | handshakeReceived
  | imChoking
  | imInterested
  | peerChoking
  | peerInterested
  | failedConnection
  deriving DecidableEq, Repr

/-- Modelled from the spec: the state of a peer connection (`pwp_conn`). -/
structure Conn where
  handshakeSent : Bool
  handshakeReceived : Bool
  imChoking : Bool
  imInterested : Bool
  peerChoking : Bool
  peerInterested : Bool
  failedConnection : Bool
  /-- Whether a message has arrived since the handshake: a BITFIELD is accepted only first. -/
  heard : Bool
  /-- The pieces the remote peer has. -/
  peerHave : List Nat
  /-- Our requests not yet answered, oldest first. -/
  pending : List Block
  npieces : Nat
  pieceLength : Nat
  /-- The request pipeline depth the connection's periodic step keeps. The manager never
  passes it the configured `max_pending_requests`; it holds the spec's default. -/
  maxPendingRequests : Nat
  deriving DecidableEq, Repr

namespace Conn

/-- Modelled from the spec: `pwp_conn_new` followed by `pwp_conn_set_piece_info`, choking
and choked, not interested, nothing pending. -/
def new (npieces pieceLength : Nat) : Conn :=
  ⟨false, false, true, false, true, false, false, false, [], [], npieces, pieceLength, 10⟩

/-- Modelled from the spec: `pwp_conn_flag_is_set`. -/
def flagIsSet (c : Conn) : Flag → Bool
  | .handshakeSent => c.handshakeSent
  | .handshakeReceived => c.handshakeReceived
  | .imChoking => c.imChoking
  | .imInterested => c.imInterested
  | .peerChoking => c.peerChoking
  | .peerInterested => c.peerInterested
  | .failedConnection => c.failedConnection

/-- Modelled from the spec: `pwp_conn_set_state`, one flag set. -/
def setState (c : Conn) : Flag → Conn
  | .handshakeSent => { c with handshakeSent := true }
  | .handshakeReceived => { c with handshakeReceived := true }
  | .imChoking => { c with imChoking := true }
  | .imInterested => { c with imInterested := true }
  | .peerChoking => { c with peerChoking := true }
  | .peerInterested => { c with peerInterested := true }
  | .failedConnection => { c with failedConnection := true }

@[simp] theorem flagIsSet_setState (c : Conn) (f : Flag) : (c.setState f).flagIsSet f = true := by
  cases f <;> rfl

end Conn

/-- Modelled from the spec: the handshaker's state, what it expects and the handshake bytes
received so far. -/
structure Handshaker where
  infohash : List UInt8
  myPeerId : List UInt8
  got : List UInt8
  deriving DecidableEq, Repr

namespace Handshaker

/-- Modelled from the spec: `pwp_handshaker_new`. -/
def new (infohash myPeerId : List UInt8) : Handshaker := ⟨infohash, myPeerId, []⟩

/-- Modelled from the spec: `pwp_handshaker_dispatch_from_buffer`. It takes bytes up to the
handshake's 68 and answers 1 when the handshake is whole and valid, 0 when it needs more and
-1 when it is whole and invalid, together with the bytes that follow the handshake. -/
def dispatch (h : Handshaker) (buf : List UInt8) : Handshaker × Int × List UInt8 :=
  let h' := { h with got := h.got ++ buf.take (68 - h.got.length) }
  (h', if h'.got.length < 68 then 0 else if Wire.validHandshake h.infohash h'.got then 1 else -1,
    buf.drop (68 - h.got.length))

end Handshaker

/-- Modelled from the spec: the message handler's state, the bytes of a message not yet
whole. -/
structure MsgHandler where
  buf : List UInt8
  deriving DecidableEq, Repr

/-- What a peer's inbound bytes go to: the handshaker, then the message handler. -/
inductive Handler where
  | handshaker (h : Handshaker)
  | msghandler (m : MsgHandler)
  deriving DecidableEq, Repr

/-- `bt_peer_t`; `ptr` is its identity (the address of the record). -/
structure Peer where
  ptr : Nat
  peerId : String
  ip : String
  port : Int
  nethandle : Option Nat
  pc : Conn
  mh : Option Handler
  deriving DecidableEq, Repr

end Yabtorrent
