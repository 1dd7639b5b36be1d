import Yabtorrent.Manager.State
import Yabtorrent.JobQueue

/-! The download manager's callbacks, as `bt_download_manager.c` writes them.

A peer connection reaches the rest of the client only through these: removing a peer,
queueing a PollBlock job, giving a block back, telling the selector what a peer has, pushing
a received block, and reading a block to upload. `dispatchJob` is `__dispatch_job`, which
runs a queued PollBlock job against the selector and the piece database, and
`checkPieces` is `bt_dm_check_pieces`. The manager is generic in the selector `S`. -/
namespace Yabtorrent

namespace Dm
variable {σ : Type} (S : PieceSelector σ)

/-- `bt_dm_remove_peer`: false when the peer manager does not hold the peer; otherwise the
peer leaves the peer manager and the selector. Its pending requests are not given back. -/
def removePeer (s : Dm σ) (ptr : Nat) : Dm σ × Bool :=
  if s.peers.any (·.ptr == ptr) then
    (({ s with peers := s.peers.filter (·.ptr != ptr) }.select (.removePeer ptr)
      (S.removePeer · ptr)).emit (.removed ptr), true)
  else (s, false)

/-- `__FUNC_peerconn_pollblock`: a PollBlock job for the peer, offered to the job queue through
`call_exclusively` and `__offer_job`. -/
def pollblock (s : Dm σ) (ptr : Nat) : Dm σ :=
  if s.cb.callExclusively then { s with jobs := JobQueue.offerJob s.jobs (.pollblock ptr) }
  else s.emit (.failed .noCallExclusively)

/-- `__FUNC_peerconn_peer_have_piece`. -/
def peerHavePiece (s : Dm σ) (ptr idx : Nat) : Dm σ :=
  s.select (.peerHavePiece ptr idx) (S.peerHavePiece · ptr idx)

/-- `__FUNC_peerconn_giveback_block` (a block's length is never negative here). -/
def givebackBlock (s : Dm σ) (ptr : Nat) (b : Block) : Dm σ :=
  match s.getPiece b.pieceIdx with
  | (s, some _) =>
    (s.modifyPiece b.pieceIdx (·.givebackBlock b) fun _ => rfl).select
      (.peerGivebackPiece (some ptr) b.pieceIdx) (S.peerGivebackPiece · (some ptr) b.pieceIdx)
  | (s, none) => s.emit (.failed (.noPiece b.pieceIdx))

/-- `__FUNC_peerconn_send_have`: HAVE goes to a peer only once its handshake is received. -/
def sendHave (s : Dm σ) (q : Peer) (idx : Nat) : Dm σ :=
  if q.pc.handshakeReceived then (s.sendToPeer q (.have idx)).1 else s

/-- `__FUNC_peerconn_pushblock`: the block is written to its piece. A completed piece is
told to the selector, marked in `pieces_completed` and announced to every peer; an invalid
one bans its only contributor, or else suspects every contributor, drops the piece's progress
and gives it back to the selector. -/
def pushblock (s : Dm σ) (ptr : Nat) (b : Block) (data : List UInt8) : Dm σ :=
  match s.pdb with
  | none => s.emit (.failed .noPieceDb)
  | some db =>
    match db.pieces[b.pieceIdx]? with
    | none => s.emit (.failed (.noPiece b.pieceIdx))
    | some p =>
      let w := p.writeBlock (db.disk b data) b data ptr
      let s := (s.modifyPiece b.pieceIdx (fun q => (q.writeBlock (db.disk b data) b data ptr).1)
        (Piece.writeBlock_idx · _ _ _ _)).emit (.wrote ptr b)
      if w.2 = 2 then
        let s := (s.select (.havePiece b.pieceIdx) (S.havePiece · b.pieceIdx)).markComplete b.pieceIdx
        s.peers.foldl (fun s q => s.sendHave q p.idx) s
      else if w.2 = -1 then
        if w.1.peers.length = 1 then { s with blacklist := s.blacklist.addPeer p.idx ptr }
        else
          let s := w.1.peers.foldl (fun s q =>
            { s with blacklist := s.blacklist.addPeerAsPotentiallyBlacklisted p.idx q }) s
          (s.modifyPiece p.idx (·.dropDownloadProgress) fun _ => rfl).select
            (.peerGivebackPiece none p.idx) (S.peerGivebackPiece · none p.idx)
      else s

/-- `__FUNC_peerconn_write_block_to_stream`: the bytes of a block to upload, if its piece has
them. -/
def writeBlockToStream (s : Dm σ) (b : Block) : Dm σ × Option (List UInt8) :=
  match s.getPiece b.pieceIdx with
  | (s, some p) => (s, p.writeBlockToStream b)
  | (s, none) => (s, none)

/-- Modelled from the spec: `pwp_conn_offer_block` on the peer's connection (§4.2). The block
joins its pending requests and a REQUEST goes out. A peer the peer manager no longer holds
has no connection left to record it. -/
def offerBlock (s : Dm σ) (ptr : Nat) (b : Block) : Dm σ :=
  match s.peers.find? (·.ptr == ptr) with
  | some q =>
    let q := { q with pc := { q.pc with pending := q.pc.pending ++ [b] } }
    ((s.emit (.offered ptr b)).setPeer q |>.sendToPeer q (.request b)).1
  | none => s.emit (.offered ptr b)

/-- The inner loop of `__dispatch_job`: while piece `i` is not fully requested, poll a block
request from it and offer the block to the peer's connection. Each round turns a MISSING
block REQUESTED, so the piece's block count bounds the rounds. -/
def requestBlocks (s : Dm σ) (ptr i : Nat) : Nat → Dm σ
  | 0 => s
  | fuel + 1 =>
    match s.pdb.bind (·.pieces[i]?) with
    | some p =>
      if p.isFullyRequested then s
      else
        match p.pollBlockRequest with
        | some (b, _) =>
          requestBlocks ((s.modifyPiece i (·.polled) fun _ => by simp).offerBlock ptr b) ptr i fuel
        | none => s
    | none => s

/-- The selector loop of `__dispatch_job`, given `fuel` rounds: poll a piece for the peer;
tell the selector again about a piece already complete and poll once more; request the
blocks of any other piece. -/
def pollLoop (s : Dm σ) (ptr : Nat) : Nat → Dm σ
  | 0 => s.emit (.failed .pollLoop)
  | fuel + 1 =>
    match s.pselector with
    | none => s.emit (.failed .noSelector)
    | some st =>
      let s' := { s with pselector := some (S.pollPiece st ptr).1 }.emit (.selected (.pollPiece ptr))
      match (S.pollPiece st ptr).2 with
      | none => s'
      | some i =>
        match s'.getPiece i with
        | (s', some p) =>
          if p.isComplete then pollLoop (s'.select (.havePiece i) (S.havePiece · i)) ptr fuel
          else requestBlocks s' ptr i p.slots.length
        | (s', none) => s'.emit (.failed (.noPiece i))

def pieceCount (s : Dm σ) : Nat := (s.pdb.map (·.pieces.length)).getD 0

/-- `__dispatch_job`. The selector loop is given a round per piece and one more. -/
def dispatchJob (s : Dm σ) : Job → Dm σ
  | .pollblock ptr => pollLoop S s ptr (s.pieceCount + 1)

/-- `bt_dm_check_pieces`: every complete piece below `npieces` is told to the selector and
marked in `pieces_completed`. -/
def checkPieces (s : Dm σ) : Dm σ :=
  (List.range (s.cfg.getInt "npieces").toNat).foldl (fun s i =>
    match s.getPiece i with
    | (s, some p) =>
      if p.isComplete then (s.select (.havePiece i) (S.havePiece · i)).markComplete i else s
    | (s, none) => s) s

end Dm

end Yabtorrent
