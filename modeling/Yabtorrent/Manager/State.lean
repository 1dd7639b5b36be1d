import Yabtorrent.Config
import Yabtorrent.Piece
import Yabtorrent.Selector
import Yabtorrent.Peer
import Mathlib.Tactic.Simps.Basic

/-! The download manager's state (`bt_dm_private_t`) and the record of what it does.

The manager holds the piece database, the host's callbacks, the job queue, the
configuration, the peer manager's peers, the blacklist, the connections registered with the
leeching choker, the piece selector's state (present once `bt_dm_set_piece_selector` has
installed one) and the pieces it has completed (`pieces_completed`). The event timer is left
out: nothing ever steps it.

What the manager does towards the outside is appended to `trace`: bytes handed to the host's
`peer_send`, calls through the selector interface, blocks written to pieces or offered to
connections, bytes given to a peer's handshaker or message handler, connection steps and
removals, and every place where the C program fails an assertion or calls through a null
pointer. -/
namespace Yabtorrent

/-- The host's callbacks (`bt_dm_cbs_t`). `peerConnect` starts an outbound connection and
answers the net-handle it set up, `none` standing for a return of 0; `peerSend` answers
whether the host took the bytes; `log` is whether the host takes log lines. -/
structure Callbacks where
  peerConnect : Option (String → Int → Option Nat)
  peerSend : Option (Option Nat → Msg → Bool)
  callExclusively : Bool
  log : Bool

/-- `bt_job_t`. -/
inductive Job where
  | pollblock (peer : Nat)
  deriving DecidableEq, Repr

/-- A call through the selector interface. -/
inductive Call where
  | addPeer (peer : Nat)
  | removePeer (peer : Nat)
  | havePiece (idx : Nat)
  | peerHavePiece (peer idx : Nat)
  | peerGivebackPiece (peer : Option Nat) (idx : Nat)
  | pollPiece (peer : Nat)
  deriving DecidableEq, Repr

/-- Where the C program stops: a failed `assert`, a call through a null function pointer or
a null peer handler, a write past the stats array, or a selector loop that does not end. -/
inductive Site where
  | noPieceDb
  | noPiece (idx : Nat)
  | noSelector
  | noPeerSend
  | noCallExclusively
  | noHandler
  | noJob
  | statsOverflow
  | pollLoop
  deriving DecidableEq, Repr

inductive Event where
  | sent (peer : Nat) (m : Msg)
  | selected (c : Call)
  | wrote (peer : Nat) (b : Block)
  | offered (peer : Nat) (b : Block)
  | shook (peer : Nat) (bytes : List UInt8)
  | fed (peer : Nat) (bytes : List UInt8)
  | stepped (peer : Nat)
  | removed (peer : Nat)
  | failed (site : Site)
  deriving DecidableEq, Repr

/-- `bt_dm_private_t`; `nextPeer` is the identity the next peer record gets. -/
structure Dm (σ : Type) where
  pdb : Option PieceDb
  cb : Callbacks
  jobs : List Job
  cfg : Config
  peers : List Peer
  blacklist : Blacklist
  lchoke : List Nat
  pselector : Option σ
  amSeeding : Bool
  piecesCompleted : List Nat
  nextPeer : Nat
  trace : List Event

namespace Dm
variable {σ : Type}

@[simps] def emit (s : Dm σ) (e : Event) : Dm σ := { s with trace := s.trace ++ [e] }

/-- `bt_peermanager_nethandle_to_peer`. -/
def byNethandle (s : Dm σ) (h : Nat) : Option Peer := s.peers.find? (·.nethandle == some h)

/-- The peer manager's record of a peer replaced by `q`, if it still holds that peer. -/
@[simps] def setPeer (s : Dm σ) (q : Peer) : Dm σ :=
  { s with peers := s.peers.map fun r => if r.ptr = q.ptr then q else r }

/-- A call through the selector interface: a null-pointer call when none is installed. -/
@[simps] def select (s : Dm σ) (c : Call) (f : σ → σ) : Dm σ :=
  { s with pselector := s.pselector.map f,
           trace := s.trace ++ [if s.pselector.isSome then .selected c else .failed .noSelector] }

/-- `me->ipdb.get_piece(me->pdb, i)`: a null-pointer call when no database is installed. -/
def getPiece (s : Dm σ) (i : Nat) : Dm σ × Option Piece :=
  match s.pdb with
  | some db => (s, db.pieces[i]?)
  | none => (s.emit (.failed .noPieceDb), none)

/-- Piece `i` of the database changed in place by `f`, which keeps its index. -/
@[simps] def modifyPiece (s : Dm σ) (i : Nat) (f : Piece → Piece) (hf : ∀ p, (f p).idx = p.idx) :
    Dm σ :=
  { s with pdb := s.pdb.map (·.modify i f hf) }

/-- `sc_mark_complete(me->pieces_completed, i, 1)`. -/
@[simps] def markComplete (s : Dm σ) (i : Nat) : Dm σ :=
  { s with piecesCompleted := if i ∈ s.piecesCompleted then s.piecesCompleted
                              else s.piecesCompleted ++ [i] }

/-- `__FUNC_peerconn_send_to_peer`: the bytes go to the host's `peer_send` for the peer's
net-handle, and its answer comes back. -/
def sendToPeer (s : Dm σ) (q : Peer) (m : Msg) : Dm σ × Bool :=
  match s.cb.peerSend with
  | some send => (s.emit (.sent q.ptr m), send q.nethandle m)
  | none => (s.emit (.failed .noPeerSend), false)

theorem mem_markComplete (s : Dm σ) (i : Nat) : i ∈ (s.markComplete i).piecesCompleted := by
  simp only [markComplete_piecesCompleted]
  split <;> simp_all

theorem markComplete_keeps_marks (s : Dm σ) (i : Nat) :
    s.piecesCompleted <+: (s.markComplete i).piecesCompleted := by
  simp only [markComplete_piecesCompleted]
  split
  · exact List.prefix_refl _
  · exact List.prefix_append _ _

theorem getPiece_fst (s : Dm σ) (i : Nat) :
    (s.getPiece i).1 = if s.pdb.isSome then s else s.emit (.failed .noPieceDb) := by
  unfold getPiece; split <;> simp_all

@[simp] theorem sendToPeer_fst (s : Dm σ) (q : Peer) (m : Msg) :
    (s.sendToPeer q m).1 =
      s.emit (if s.cb.peerSend.isSome then .sent q.ptr m else .failed .noPeerSend) := by
  unfold sendToPeer; split <;> simp_all

end Dm

end Yabtorrent
