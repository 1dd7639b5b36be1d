import Yabtorrent.Manager.Connection

/-! The download manager's entry points, and its runs.

`bt_dm_new`, the setters, `bt_dm_add_peer`, `bt_dm_remove_peer`, `bt_dm_peer_connect`,
`bt_dm_peer_connect_fail`, `bt_dm_dispatch_from_buffer` and `bt_dm_periodic` as the source
writes them. An `Op` is one call of the host into the manager, `step` performs it and `run`
performs a list of them; a state is `Reachable` when some run from `Dm.new` leads to it. -/
namespace Yabtorrent

/-- One entry of the stats array (`bt_dm_peer_stats_t`); rates need time and are left out. -/
structure PeerStats where
  choked : Bool
  choking : Bool
  connected : Bool
  failedConnection : Bool
  deriving DecidableEq, Repr

instance : Inhabited PeerStats := ⟨⟨false, false, false, false⟩⟩

/-- `bt_dm_stats_t`, owned by the caller of `bt_dm_periodic`; `peers` is its allocation. -/
structure Stats where
  npeers : Nat
  npeersSize : Nat
  peers : List PeerStats
  deriving DecidableEq, Repr

namespace Dm
variable {σ : Type} (S : PieceSelector σ)

/-- `bt_dm_new`: the default configuration, nothing installed, no peers. -/
def new : Dm σ :=
  ⟨none, ⟨none, none, false, false⟩, [], Config.defaults, [], Blacklist.empty, [], none, false, [], 0, []⟩

def setPieceDb (s : Dm σ) (db : PieceDb) : Dm σ := { s with pdb := some db }

/-- `bt_dm_set_piece_selector`: the given selector state, or a new one of size 0, then
`bt_dm_check_pieces`. -/
def setPieceSelector (s : Dm σ) (given : Option σ) : Dm σ :=
  checkPieces S { s with pselector := some (given.getD (S.new 0)) }

def setCbs (s : Dm σ) (cb : Callbacks) : Dm σ := { s with cb := cb }

def handshakeMsg (s : Dm σ) : Msg :=
  .handshake (Wire.bytesOf ((s.cfg.get "infohash").getD ""))
    (Wire.bytesOf ((s.cfg.get "my_peerid").getD ""))

/-- The end of a successful `bt_dm_add_peer`: the handshaker, and the leeching choker. -/
def accept (s : Dm σ) (q : Peer) : Dm σ × Option Peer :=
  let q := { q with mh := some (.handshaker (Handshaker.new
    (Wire.bytesOf ((s.cfg.get "infohash").getD "")) (Wire.bytesOf ((s.cfg.get "my_peerid").getD "")))) }
  ({ s.setPeer q with lchoke := s.lchoke ++ [q.ptr] }, some q)

/-- The middle of `bt_dm_add_peer`: the peer manager remembers the new peer, and an installed
selector is told of it. -/
def remember (s : Dm σ) (q : Peer) : Dm σ :=
  let s := { s with peers := s.peers ++ [q], nextPeer := s.nextPeer + 1 }
  if s.pselector.isSome then s.select (.addPeer q.ptr) (S.addPeer · q.ptr) else s

/-- `bt_dm_add_peer`: `none` for the self address, for an (ip, port) the peer manager already
holds, when no `peer_connect` callback is installed, and when an outbound `peer_connect`
fails. The last two exits come after the peer manager and the selector have the peer. -/
def addPeer (s : Dm σ) (peerId : String) (peerIdLen : Nat) (ip : String) (ipLen : Nat)
    (port : Int) (nethandle : Option Nat) : Dm σ × Option Peer :=
  if strncmp ip.toList ((s.cfg.get "my_ip").getD "").toList ipLen = 0 ∧
      port = s.cfg.getInt "pwp_listen_port" then (s, none)
  else
    let ip := String.mk (ip.toList.take ipLen)
    if s.peers.any (fun r => r.ip == ip && r.port == port) then (s, none)
    else
      let q : Peer := ⟨s.nextPeer, String.mk (peerId.toList.take peerIdLen), ip, port, nethandle,
        Conn.new (s.cfg.getInt "npieces").toNat (s.cfg.getInt "piece_length").toNat, none⟩
      let s := remember S s q
      match s.cb.peerConnect, nethandle with
      | none, _ => (s, none)
      | some _, some _ => s.accept q
      | some connect, none =>
        match connect q.ip q.port with
        | some h => (s.setPeer { q with nethandle := some h }).accept { q with nethandle := some h }
        | none => (s, none)

/-- `bt_dm_peer_connect`: a connection is up. An unknown net-handle is an inbound peer, added
first; then the handshake goes out. False when the peer could not be added. -/
def peerConnect (s : Dm σ) (h : Nat) (ip : String) (port : Int) : Dm σ × Bool :=
  match s.byNethandle h with
  | some q => ((s.sendToPeer q s.handshakeMsg).1, true)
  | none =>
    match addPeer S s "" 0 ip ip.length port (some h) with
    | (s, some q) => ((s.sendToPeer q s.handshakeMsg).1, true)
    | (s, none) => (s, false)

/-- `bt_dm_peer_connect_fail`. -/
def peerConnectFail (s : Dm σ) (h : Nat) : Dm σ :=
  match s.byNethandle h with
  | some q => s.setPeer { q with pc := q.pc.setState .failedConnection }
  | none => s

/-- Modelled from the spec: `pwp_send_bitfield`. Our BITFIELD, a bit per piece below
`npieces`, set for the pieces in `pieces_completed`; the host's answer comes back. -/
def sendBitfield (s : Dm σ) (q : Peer) : Dm σ × Bool :=
  s.sendToPeer q
    (.bitfield ((List.range (s.cfg.getInt "npieces").toNat).map (decide <| · ∈ s.piecesCompleted)))

/-- The second half of `bt_dm_dispatch_from_buffer`: the bytes go to the peer's message
handler, and a failure removes the peer. -/
def dispatchMessages (s : Dm σ) (q : Peer) (bytes : List UInt8) : Dm σ × Bool :=
  match q.mh with
  | some (.msghandler m) =>
    match msghandlerDispatch S (s.emit (.fed q.ptr bytes)) q m bytes with
    | (s, q, true) => (s.setPeer q, true)
    | (s, q, false) => ((removePeer S (s.setPeer q) q.ptr).1, true)
  | _ => (s.emit (.failed .noHandler), true)

/-- `bt_dm_dispatch_from_buffer`: bytes from the peer behind net-handle `h`. Before the
handshake they go to the handshaker; when it completes, the message handler replaces it,
HANDSHAKE_RECEIVED is set and our BITFIELD is sent — a failed send removes the peer — and the
rest of the bytes go on to the message handler. False for an unknown net-handle and while
the handshake is not complete. -/
def dispatchFromBuffer (s : Dm σ) (h : Nat) (buf : List UInt8) : Dm σ × Bool :=
  match s.byNethandle h with
  | none => (s, false)
  | some q =>
    if q.pc.flagIsSet .handshakeReceived then dispatchMessages S s q buf
    else
      match q.mh with
      | some (.handshaker hs) =>
        match hs.dispatch buf with
        | (_, 1, rest) =>
          let q := { q with mh := some (.msghandler ⟨[]⟩), pc := q.pc.setState .handshakeReceived }
          match ((s.emit (.shook q.ptr buf)).setPeer q).sendBitfield q with
          | (s, true) => dispatchMessages S s q rest
          | (s, false) => dispatchMessages S (removePeer S s q.ptr).1 q rest
        | (hs, _, _) => ((s.emit (.shook q.ptr buf)).setPeer { q with mh := some (.handshaker hs) }, false)
      | _ => (s.emit (.failed .noHandler), false)

/-- The job loop of `bt_dm_periodic`: while `llqueue_count` is positive, poll a job through
`call_exclusively` and `__poll_job`, assert it, and dispatch it. Dispatching queues no job,
so the queue's length bounds the rounds. -/
def drain (s : Dm σ) : Nat → Dm σ
  | 0 => s
  | fuel + 1 =>
    if s.jobs.length = 0 then s
    else if s.cb.callExclusively then
      match JobQueue.pollJob s.jobs with
      | (some j, rest) => drain (dispatchJob S { s with jobs := rest } j) fuel
      | (none, rest) => { s with jobs := rest }.emit (.failed .noJob)
    else s.emit (.failed .noCallExclusively)

/-- `__FUNC_peer_periodic`: a connection is stepped only when it has not failed and its
handshake has been received. -/
def peerPeriodic (s : Dm σ) (q : Peer) : Dm σ :=
  if q.pc.flagIsSet .failedConnection then s
  else if !q.pc.flagIsSet .handshakeReceived then s
  else connPeriodic (s.emit (.stepped q.ptr)) q

/-- `__FUNC_peer_stats_visitor`: the next entry of the stats array. -/
def statsVisit (p : Dm σ × Stats) (q : Peer) : Dm σ × Stats :=
  let e : PeerStats :=
    ⟨q.pc.peerChoking, q.pc.imChoking, q.pc.handshakeReceived, q.pc.failedConnection⟩
  if p.2.npeers < p.2.peers.length then
    (p.1, { p.2 with peers := p.2.peers.set p.2.npeers e, npeers := p.2.npeers + 1 })
  else (p.1.emit (.failed .statsOverflow), { p.2 with npeers := p.2.npeers + 1 })

/-- The stats part of `bt_dm_periodic`: the array grows to the peer count, never shrinks,
and gets an entry per peer. -/
def collectStats (s : Dm σ) (st : Stats) : Dm σ × Stats :=
  let n := s.peers.length
  let st := if st.npeersSize < n then
      ⟨st.npeers, n, st.peers.take n ++ List.replicate (n - st.peers.length) default⟩
    else st
  s.peers.foldl statsVisit (s, { st with npeers := 0 })

/-- `bt_dm_periodic`: unless seeding with `shutdown_when_complete`, drain the job queue and
step every peer's connection; then the stats. -/
def periodic (s : Dm σ) (stats : Option Stats) : Dm σ × Option Stats :=
  let s := if s.amSeeding ∧ s.cfg.getInt "shutdown_when_complete" = 1 then s
    else
      let s := drain S s s.jobs.length
      s.peers.foldl peerPeriodic s
  match stats with
  | some st => (collectStats s st).map id some
  | none => (s, none)

end Dm

/-- A call of the host into the download manager. -/
inductive Op (σ : Type) where
  | setPieceDb (db : PieceDb)
  | setPieceSelector (given : Option σ)
  | setCbs (cb : Callbacks)
  | configSet (key value : String)
  | addPeer (peerId : String) (peerIdLen : Nat) (ip : String) (ipLen : Nat) (port : Int)
      (nethandle : Option Nat)
  | removePeer (ptr : Nat)
  | peerConnect (nethandle : Nat) (ip : String) (port : Int)
  | peerConnectFail (nethandle : Nat)
  | dispatchFromBuffer (nethandle : Nat) (buf : List UInt8)
  | periodic (stats : Option Stats)

namespace Dm
variable {σ : Type} (S : PieceSelector σ)

def step (s : Dm σ) : Op σ → Dm σ
  | .setPieceDb db => s.setPieceDb db
  | .setPieceSelector given => setPieceSelector S s given
  | .setCbs cb => s.setCbs cb
  | .configSet k v => { s with cfg := s.cfg.set k v }
  | .addPeer peerId peerIdLen ip ipLen port h => (addPeer S s peerId peerIdLen ip ipLen port h).1
  | .removePeer ptr => (removePeer S s ptr).1
  | .peerConnect h ip port => (peerConnect S s h ip port).1
  | .peerConnectFail h => s.peerConnectFail h
  | .dispatchFromBuffer h buf => (dispatchFromBuffer S s h buf).1
  | .periodic stats => (periodic S s stats).1

def run (s : Dm σ) : List (Op σ) → Dm σ
  | [] => s
  | op :: ops => run (step S s op) ops

theorem run_append (s : Dm σ) (a b : List (Op σ)) : run S s (a ++ b) = run S (run S s a) b := by
  induction a generalizing s with
  | nil => rfl
  | cons op ops ih => exact ih _

inductive Reachable : Dm σ → Prop where
  | new : Reachable new
  | step {s : Dm σ} (op : Op σ) : Reachable s → Reachable (step S s op)

theorem Reachable.run {s : Dm σ} (h : Reachable S s) (ops : List (Op σ)) :
    Reachable S (run S s ops) := by
  induction ops generalizing s with
  | nil => exact h
  | cons op ops ih => exact ih (.step op h)

end Dm

end Yabtorrent
