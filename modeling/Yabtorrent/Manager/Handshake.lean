import Yabtorrent.Manager.Chunking

/-! The handshake phase.

Until a peer's handshake is received, `bt_dm_dispatch_from_buffer` hands its bytes to the
handshaker and, unless the handshaker answers that the handshake is whole and valid, returns 0
and keeps the peer with its handshaker (`dispatchFromBuffer_unshaken`). An incomplete handshake
and an invalid one end there alike: an invalid handshake does not disconnect the peer, later
bytes for its net-handle still go to the handshaker, and the caller gets the 0 it gets for a
handshake not yet whole (`bad_handshake_kept`).

Our own handshake goes out from `bt_dm_peer_connect`, on every call, for a peer known or new;
nothing records that it was sent. A connection reported up twice gets two handshakes, and a
peer added with its net-handle gets our BITFIELD with no handshake before it
(`handshake_not_once`). -/
namespace Yabtorrent

namespace Dm
variable {σ : Type} (S : PieceSelector σ)

/-- **Short or invalid, the same answer.** Bytes for a peer whose handshake is not received go
to its handshaker; unless the handshaker answers 1, the call returns 0 and the peer stays, with
the handshaker as the bytes left it. -/
theorem dispatchFromBuffer_unshaken {s : Dm σ} {h : Nat} {buf : List UInt8} {q : Peer}
    {hs : Handshaker} (hq : s.byNethandle h = some q)
    (hr : q.pc.flagIsSet .handshakeReceived = false) (hmh : q.mh = some (.handshaker hs))
    (hd : (hs.dispatch buf).2.1 ≠ 1) :
    dispatchFromBuffer S s h buf =
      ((s.emit (.shook q.ptr buf)).setPeer { q with mh := some (.handshaker (hs.dispatch buf).1) },
        false) := by
  simp only [dispatchFromBuffer, hq, hr, hmh, hd, Bool.false_eq_true, if_false]

/-- A peer of the one-piece torrent, connected out at 10.0.0.2 with net-handle 7, whose
handshake has not arrived. -/
def awaiting : Dm Sequential :=
  run sequential new (configure onePiece "2" host ++ [.addPeer "" 0 "10.0.0.2" 8 6881 none])

/-- The record of the peer of `awaiting`. -/
def racer : Peer :=
  ⟨0, "", "10.0.0.2", 6881, some 7, Conn.new 1 2,
    some (.handshaker (Handshaker.new (Wire.bytesOf "00000000000000000000") []))⟩

/-- A handshake for another torrent. -/
def strangerHandshake : List UInt8 :=
  Msg.encode (.handshake (Wire.bytesOf "11111111111111111111") (Wire.bytesOf "ABCDEFGHIJKLMNOPQRST"))

/-- The stranger's handshake leaves `racer` waiting, with what its handshaker made of it. -/
theorem dispatchFromBuffer_unshaken_stranger :
    dispatchFromBuffer sequential awaiting 7 strangerHandshake =
      ((awaiting.emit (.shook 0 strangerHandshake)).setPeer { racer with mh := some (.handshaker
        ((Handshaker.new (Wire.bytesOf "00000000000000000000") []).dispatch strangerHandshake).1) },
        false) :=
  dispatchFromBuffer_unshaken sequential (q := racer) (by decide) (by decide) rfl (by decide)

/-- A handshake for another info-hash gets the answer of the first 30 bytes of a good one, the
peer stays, and the next byte from its net-handle goes to its handshaker. -/
theorem bad_handshake_kept :
    (dispatchFromBuffer sequential awaiting 7 strangerHandshake).2 =
        (dispatchFromBuffer sequential awaiting 7 (remoteHandshake.take 30)).2 ∧
      (dispatchFromBuffer sequential awaiting 7 strangerHandshake).1.peers.map (·.ptr) = [0] ∧
      .shook 0 [0] ∈ (step sequential (dispatchFromBuffer sequential awaiting 7 strangerHandshake).1
        (.dispatchFromBuffer 7 [0])).trace := by
  decide

/-- The connection to 10.0.0.2 reported up twice. -/
def connectedTwice : Dm Sequential :=
  run sequential awaiting [.peerConnect 7 "10.0.0.2" 6881, .peerConnect 7 "10.0.0.2" 6881]

/-- A peer added with its net-handle 9, whose handshake then arrives. -/
def addedInbound : Dm Sequential :=
  run sequential new (configure onePiece "2" host ++
    [.addPeer "" 0 "10.0.0.2" 8 6881 (some 9), .dispatchFromBuffer 9 remoteHandshake])

/-- A connection reported up twice is sent two handshakes; a peer added with its net-handle is
sent our BITFIELD and no handshake. -/
theorem handshake_not_once :
    connectedTwice.trace.count (.sent 0 connectedTwice.handshakeMsg) = 2 ∧
      .sent 0 (.bitfield [false]) ∈ addedInbound.trace ∧
      addedInbound.trace.count (.sent 0 addedInbound.handshakeMsg) = 0 := by
  decide

end Dm

end Yabtorrent
