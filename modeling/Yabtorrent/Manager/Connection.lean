import Yabtorrent.Manager.Callbacks

/-! A peer connection driven by the download manager.

The connection's message handlers (`pwp_conn`) and the message handler's loop
(`pwp_msghandler`) are not among the sources. They are modelled from the spec's table of
events (§4.2) and its account of the message handler (§4.3), and they reach the manager only
through the callbacks of `Yabtorrent.Manager.Callbacks`. -/
namespace Yabtorrent

namespace Dm
variable {σ : Type} (S : PieceSelector σ)

/-- Modelled from the spec: a connection's answer to one message (§4.2), which is the
manager after the callbacks it made, the peer record with the connection's new state, and
false on a protocol error. -/
def connMsg (s : Dm σ) (q : Peer) (m : Msg) : Dm σ × Peer × Bool :=
  let c := { q.pc with heard := true }
  match m with
  | .keepAlive => (s, { q with pc := c }, true)
  | .choke =>
    (q.pc.pending.foldl (fun s b => givebackBlock S s q.ptr b) s,
      { q with pc := { c with peerChoking := true, pending := [] } }, true)
  | .unchoke => (pollblock s q.ptr, { q with pc := { c with peerChoking := false } }, true)
  | .interested => (s, { q with pc := { c with peerInterested := true } }, true)
  | .notInterested => (s, { q with pc := { c with peerInterested := false } }, true)
  | .have i =>
    let s := peerHavePiece S s q.ptr i
    let c := { c with peerHave := c.peerHave ++ [i] }
    if !c.imInterested && decide (i ∉ s.piecesCompleted) then
      ((s.sendToPeer q .interested).1, { q with pc := { c with imInterested := true } }, true)
    else (s, { q with pc := c }, true)
  | .bitfield bits =>
    if q.pc.heard then (s, q, false)
    else
      let idxs := (List.range (min bits.length c.npieces)).filter (bits.getD · false)
      (idxs.foldl (fun s i => peerHavePiece S s q.ptr i) s,
        { q with pc := { c with peerHave := idxs } }, true)
  | .request b =>
    if c.imChoking then (s, { q with pc := c }, true)
    else
      match writeBlockToStream s b with
      | (s, some data) =>
        ((s.sendToPeer q (.piece b.pieceIdx b.offset data)).1, { q with pc := c }, true)
      | (s, none) => (s, { q with pc := c }, true)
  | .piece i off data =>
    let b : Block := ⟨i, off, data.length⟩
    (pollblock (pushblock S s q.ptr b data) q.ptr,
      { q with pc := { c with pending := c.pending.erase b } }, true)
  | .cancel _ => (s, { q with pc := c }, true)
  | .handshake _ _ => (s, q, false)

/-- Modelled from the spec: the message handler's loop (§4.3). Each whole message in the
buffer goes to the connection in turn. It stops with false at a length prefix over the
bound, a malformed message or a protocol error, and with true at a message not yet whole,
whose bytes stay buffered. Each round takes at least four bytes, so the buffer's length
bounds the rounds. -/
def msgLoop (s : Dm σ) (q : Peer) : List UInt8 → Nat → Dm σ × Peer × List UInt8 × Bool
  | buf, 0 => (s, q, buf, true)
  | buf, fuel + 1 =>
    match Wire.cut buf with
    | .short => (s, q, buf, true)
    | .tooLong => (s, q, buf, false)
    | .frame body rest =>
      match Wire.decode body with
      | none => (s, q, rest, false)
      | some m =>
        match connMsg S s q m with
        | (s, q, true) => msgLoop s q rest fuel
        | (s, q, false) => (s, q, rest, false)

/-- Modelled from the spec: `pwp_msghandler_dispatch_from_buffer`. The bytes join what is
buffered and the loop runs; true when no error was found. -/
def msghandlerDispatch (s : Dm σ) (q : Peer) (m : MsgHandler) (bytes : List UInt8) :
    Dm σ × Peer × Bool :=
  match msgLoop S s q (m.buf ++ bytes) (m.buf ++ bytes).length with
  | (s, q, rest, ok) => (s, { q with mh := some (.msghandler ⟨rest⟩) }, ok)

/-- Modelled from the spec: `pwp_conn_periodic` (§4.2). An unchoked connection below its
pipeline depth asks for blocks. The table's handshake branch applies only before the
handshake is received, and the manager steps a connection only after; idle keep-alives need
time and are left out. -/
def connPeriodic (s : Dm σ) (q : Peer) : Dm σ :=
  if !q.pc.peerChoking && decide (q.pc.pending.length < q.pc.maxPendingRequests) then
    pollblock s q.ptr
  else s

end Dm

end Yabtorrent
