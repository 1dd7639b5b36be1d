import Yabtorrent.Manager.Settled

/-! Seeding.

`bt_dm_periodic` goes straight to the stats when `am_seeding` is set and
`shutdown_when_complete` is 1. The one assignment of `am_seeding` in the source, where
`__FUNC_peerconn_pushblock` would find the whole download complete, stands between `#if 0` and
`#endif`, and nothing else writes the flag: no call of the host changes it (`step_amSeeding`,
read off `Settled`). `bt_dm_new` clears it, so every reachable manager leeches
(`reachable_leeching`), and every tick drains the job queue and steps the connections, whatever
the pieces and the configuration (`periodic_reachable`). A run that completes the one piece of
its torrent with `shutdown_when_complete` set goes on dispatching jobs and stepping its peer
(`completion_keeps_leeching`). -/
namespace Yabtorrent

namespace Dm
variable {σ : Type} (S : PieceSelector σ)

/-- **No call of the host sets `am_seeding`.** -/
theorem step_amSeeding (s : Dm σ) (op : Op σ) : (step S s op).amSeeding = s.amSeeding := by
  cases op with
  | setPieceDb _ | setCbs _ | configSet _ _ => rfl
  | setPieceSelector given => exact (settled_checkPieces S _).amSeeding
  | addPeer peerId peerIdLen ip ipLen port nh =>
    exact (settled_addPeer S s peerId peerIdLen ip ipLen port nh).amSeeding
  | removePeer ptr => exact (settled_removePeer S s ptr).amSeeding
  | peerConnect nh ip port => exact (settled_peerConnect S s nh ip port).amSeeding
  | peerConnectFail nh => exact (settled_peerConnectFail s nh).amSeeding
  | dispatchFromBuffer nh buf => exact (settled_dispatchFromBuffer S s nh buf).amSeeding
  | periodic stats => exact (settled_periodic S s stats).amSeeding

/-- Every reachable manager leeches. -/
theorem reachable_leeching {s : Dm σ} (h : Reachable S s) : s.amSeeding = false := by
  induction h with
  | new => rfl
  | step op _ ih => exact (step_amSeeding S _ op).trans ih

/-- **Every tick of a reachable manager drains the job queue and steps every connection**,
whatever its pieces and `shutdown_when_complete`: the shutdown exit of `bt_dm_periodic` is
never taken. -/
theorem periodic_reachable {s : Dm σ} (h : Reachable S s) :
    (periodic S s none).1 = (drain S s s.jobs.length).peers.foldl peerPeriodic (drain S s s.jobs.length) := by
  simp [periodic, reachable_leeching S h]

/-! ### A completed download -/

/-- The peer is handed the one piece of the torrent, with `shutdown_when_complete` set, and
delivers it. -/
def completedDownload : Dm Sequential :=
  run sequential new (configure onePiece "2" host ++ [.configSet "shutdown_when_complete" "1"] ++
    unchokedBy ++ [.periodic none, .dispatchFromBuffer 7 (Msg.encode (.piece 0 0 [1, 2]))])

/-- Every piece of the torrent is complete and marked and `shutdown_when_complete` is 1, yet
`am_seeding` is clear: the next tick dispatches the two queued PollBlock jobs and steps the
peer's connection. -/
theorem completion_keeps_leeching :
    completedDownload.pdb.map (·.pieces.map (·.isComplete)) = some [true] ∧
      completedDownload.piecesCompleted = [0] ∧
      completedDownload.cfg.getInt "shutdown_when_complete" = 1 ∧
      completedDownload.amSeeding = false ∧
      (step sequential completedDownload (.periodic none)).trace.drop completedDownload.trace.length =
        [.selected (.pollPiece 0), .selected (.pollPiece 0), .stepped 0] := by
  decide

/-- The tick after the download completes is the job queue drained and every connection
stepped. -/
theorem periodic_reachable_completed :
    (periodic sequential completedDownload none).1 =
      (drain sequential completedDownload completedDownload.jobs.length).peers.foldl peerPeriodic
        (drain sequential completedDownload completedDownload.jobs.length) :=
  periodic_reachable sequential (Reachable.run sequential .new _)

end Dm

end Yabtorrent
