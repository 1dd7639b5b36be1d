import Yabtorrent.Manager.Lifecycle

/-! What only the host's setters change.

`Settled s s'` says that `s'` has the host's callbacks and the `am_seeding` flag of `s`. The
manager's callbacks, a connection's handling of inbound bytes, a tick, and adding or removing a
peer all settle the manager: only `bt_dm_set_cbs` changes the callbacks, and nothing changes
`am_seeding` (its one assignment in the source is under `#if 0`). One lemma per function, each
following the function's own branches. -/
namespace Yabtorrent

namespace Dm
variable {σ : Type} (S : PieceSelector σ)

/-- `s'` has the host's callbacks and the `am_seeding` flag of `s`. -/
structure Settled (s s' : Dm σ) : Prop where
  cb : s'.cb = s.cb
  amSeeding : s'.amSeeding = s.amSeeding

theorem Settled.refl (s : Dm σ) : Settled s s := ⟨rfl, rfl⟩

theorem Settled.trans {s₁ s₂ s₃ : Dm σ} (h₁ : Settled s₁ s₂) (h₂ : Settled s₂ s₃) : Settled s₁ s₃ :=
  ⟨h₂.cb.trans h₁.cb, h₂.amSeeding.trans h₁.amSeeding⟩

theorem settled_foldl {α : Type} {f : Dm σ → α → Dm σ} (hf : ∀ s a, Settled s (f s a)) :
    ∀ (xs : List α) (s : Dm σ), Settled s (xs.foldl f s)
  | [], s => .refl s
  | x :: xs, s => (hf s x).trans (settled_foldl hf xs _)

theorem settled_sendToPeer (s : Dm σ) (q : Peer) (m : Msg) : Settled s (s.sendToPeer q m).1 := by
  rw [sendToPeer_fst]
  exact ⟨rfl, rfl⟩

theorem settled_of_getPiece {s s' : Dm σ} {i : Nat} {o : Option Piece}
    (hg : s.getPiece i = (s', o)) : Settled s s' := by
  have h := congrArg Prod.fst hg
  rw [getPiece_fst] at h
  subst h
  split <;> exact ⟨rfl, rfl⟩

theorem settled_of_sendBitfield {s s' : Dm σ} {q : Peer} {ok : Bool}
    (h : s.sendBitfield q = (s', ok)) : Settled s s' := by
  have h₁ := congrArg Prod.fst h
  simp only [sendBitfield] at h₁
  exact h₁ ▸ settled_sendToPeer s q _

/-! ### The manager's callbacks -/

theorem settled_pollblock (s : Dm σ) (ptr : Nat) : Settled s (pollblock s ptr) := by
  unfold pollblock; split <;> exact ⟨rfl, rfl⟩

theorem settled_givebackBlock (s : Dm σ) (ptr : Nat) (b : Block) :
    Settled s (givebackBlock S s ptr b) := by
  unfold givebackBlock
  split <;> rename_i hg <;> exact (settled_of_getPiece hg).trans ⟨rfl, rfl⟩

theorem settled_sendHave (s : Dm σ) (q : Peer) (i : Nat) : Settled s (s.sendHave q i) := by
  unfold sendHave
  split
  · exact settled_sendToPeer s q _
  · exact .refl s

theorem settled_pushblock (s : Dm σ) (ptr : Nat) (b : Block) (data : List UInt8) :
    Settled s (pushblock S s ptr b data) := by
  unfold pushblock
  split
  · exact ⟨rfl, rfl⟩
  · split
    · exact ⟨rfl, rfl⟩
    · simp only
      split
      · refine Settled.trans ?_ (settled_foldl (fun s q => settled_sendHave s q _) _ _)
        exact ⟨rfl, rfl⟩
      · split
        · split
          · exact ⟨rfl, rfl⟩
          · rw [foldl_suspect]; exact ⟨rfl, rfl⟩
        · exact ⟨rfl, rfl⟩

theorem settled_writeBlockToStream (s : Dm σ) (b : Block) : Settled s (writeBlockToStream s b).1 := by
  unfold writeBlockToStream
  split <;> exact settled_of_getPiece ‹_›

theorem settled_removePeer (s : Dm σ) (ptr : Nat) : Settled s (removePeer S s ptr).1 := by
  unfold removePeer; split <;> exact ⟨rfl, rfl⟩

theorem settled_offerBlock (s : Dm σ) (ptr : Nat) (b : Block) : Settled s (s.offerBlock ptr b) := by
  unfold offerBlock
  split
  · exact (⟨rfl, rfl⟩ : Settled s ((s.emit _).setPeer _)).trans (settled_sendToPeer _ _ _)
  · exact ⟨rfl, rfl⟩

/-! ### Inbound bytes -/

theorem settled_connMsg (s : Dm σ) (q : Peer) (m : Msg) : Settled s (connMsg S s q m).1 := by
  cases m with
  | choke => exact settled_foldl (fun s b => settled_givebackBlock S s _ b) _ _
  | unchoke => exact settled_pollblock s _
  | «have» i =>
    simp only [connMsg]
    split
    · exact (⟨rfl, rfl⟩ : Settled s (peerHavePiece S s q.ptr i)).trans (settled_sendToPeer _ _ _)
    · exact ⟨rfl, rfl⟩
  | bitfield bits =>
    simp only [connMsg]
    split
    · exact .refl s
    · exact settled_foldl (f := fun s i => peerHavePiece S s q.ptr i) (fun _ _ => ⟨rfl, rfl⟩) _ _
  | request b =>
    simp only [connMsg]
    split
    · exact .refl s
    · have h := settled_writeBlockToStream s b
      split <;> rename_i hw <;> rw [hw] at h
      · exact h.trans (settled_sendToPeer _ _ _)
      · exact h
  | piece i off data => exact (settled_pushblock S s _ _ _).trans (settled_pollblock _ _)
  | keepAlive | interested | notInterested | cancel _ | handshake _ _ => exact .refl s

theorem settled_msgLoop : ∀ (fuel : Nat) (s : Dm σ) (q : Peer) (buf : List UInt8),
    Settled s (msgLoop S s q buf fuel).1
  | 0, s, _, _ => .refl s
  | fuel + 1, s, q, buf => by
    unfold msgLoop
    split
    · exact .refl s
    · exact .refl s
    · split
      · exact .refl s
      · rename_i m _
        have h := settled_connMsg S s q m
        split <;> rename_i hd <;> rw [hd] at h
        · exact h.trans (settled_msgLoop fuel _ _ _)
        · exact h

theorem settled_dispatchMessages (s : Dm σ) (q : Peer) (bytes : List UInt8) :
    Settled s (dispatchMessages S s q bytes).1 := by
  unfold dispatchMessages msghandlerDispatch
  split
  · rename_i mh _
    have h := (⟨rfl, rfl⟩ : Settled s (s.emit (.fed q.ptr bytes))).trans
      (settled_msgLoop S (mh.buf ++ bytes).length _ q (mh.buf ++ bytes))
    generalize msgLoop S (s.emit (.fed q.ptr bytes)) q (mh.buf ++ bytes)
      (mh.buf ++ bytes).length = r at h
    obtain ⟨s', q', rest, ok⟩ := r
    cases ok
    · refine h.trans (Settled.trans ?_ (settled_removePeer S _ _))
      exact ⟨rfl, rfl⟩
    · exact h.trans ⟨rfl, rfl⟩
  · exact ⟨rfl, rfl⟩

theorem settled_dispatchFromBuffer (s : Dm σ) (h : Nat) (buf : List UInt8) :
    Settled s (dispatchFromBuffer S s h buf).1 := by
  unfold dispatchFromBuffer
  split
  · exact .refl s
  · split
    · exact settled_dispatchMessages S s _ buf
    · split
      · split
        · simp only
          split <;> rename_i hb <;>
            have h₂ := (⟨rfl, rfl⟩ : Settled s ((s.emit _).setPeer _)).trans (settled_of_sendBitfield hb)
          · exact h₂.trans (settled_dispatchMessages S _ _ _)
          · exact (h₂.trans (settled_removePeer S _ _)).trans (settled_dispatchMessages S _ _ _)
        · exact ⟨rfl, rfl⟩
      · exact ⟨rfl, rfl⟩

/-! ### Ticks -/

theorem settled_requestBlocks (ptr i : Nat) :
    ∀ (fuel : Nat) (s : Dm σ), Settled s (requestBlocks s ptr i fuel)
  | 0, s => .refl s
  | fuel + 1, s => by
    unfold requestBlocks
    split
    · split
      · exact .refl s
      · split
        · refine (Settled.trans ?_ (settled_offerBlock _ _ _)).trans (settled_requestBlocks ptr i fuel _)
          exact ⟨rfl, rfl⟩
        · exact .refl s
    · exact .refl s

theorem settled_pollLoop (ptr : Nat) : ∀ (fuel : Nat) (s : Dm σ), Settled s (pollLoop S s ptr fuel)
  | 0, _ => ⟨rfl, rfl⟩
  | fuel + 1, s => by
    unfold pollLoop
    split
    · exact ⟨rfl, rfl⟩
    · simp only
      split
      · exact ⟨rfl, rfl⟩
      · split <;> rename_i hg <;>
          have h := (⟨rfl, rfl⟩ : Settled s ({ s with pselector := some _ }.emit _)).trans
            (settled_of_getPiece hg)
        · split
          · refine h.trans (Settled.trans ?_ (settled_pollLoop ptr fuel _))
            exact ⟨rfl, rfl⟩
          · exact h.trans (settled_requestBlocks _ _ _ _)
        · exact h.trans ⟨rfl, rfl⟩

theorem settled_dispatchJob (s : Dm σ) (j : Job) : Settled s (dispatchJob S s j) := by
  cases j
  exact settled_pollLoop S _ _ s

theorem settled_drain : ∀ (fuel : Nat) (s : Dm σ), Settled s (drain S s fuel)
  | 0, s => .refl s
  | fuel + 1, s => by
    unfold drain
    split
    · exact .refl s
    · split
      · split
        · refine (Settled.trans ?_ (settled_dispatchJob S _ _)).trans (settled_drain fuel _)
          exact ⟨rfl, rfl⟩
        · exact ⟨rfl, rfl⟩
      · exact ⟨rfl, rfl⟩

theorem settled_peerPeriodic (s : Dm σ) (q : Peer) : Settled s (peerPeriodic s q) := by
  unfold peerPeriodic connPeriodic pollblock
  split_ifs <;> exact ⟨rfl, rfl⟩

theorem settled_collectStats (s : Dm σ) (st : Stats) : Settled s (collectStats s st).1 := by
  unfold collectStats
  dsimp only
  suffices ∀ (qs : List Peer) (p : Dm σ × Stats), Settled p.1 (qs.foldl statsVisit p).1 from
    this s.peers (s, _)
  intro qs
  induction qs with
  | nil => exact fun p => .refl p.1
  | cons q qs ih =>
    intro p
    refine Settled.trans ?_ (ih _)
    unfold statsVisit
    split <;> exact ⟨rfl, rfl⟩

theorem settled_periodic (s : Dm σ) (stats : Option Stats) : Settled s (periodic S s stats).1 := by
  have h : Settled s (if s.amSeeding ∧ s.cfg.getInt "shutdown_when_complete" = 1 then s
      else (drain S s s.jobs.length).peers.foldl peerPeriodic (drain S s s.jobs.length)) := by
    split
    · exact .refl s
    · exact (settled_drain S _ s).trans (settled_foldl settled_peerPeriodic _ _)
  unfold periodic
  simp only
  split
  · exact h.trans (settled_collectStats _ _)
  · exact h

/-! ### Peers and the selector -/

theorem settled_checkPieces (s : Dm σ) : Settled s (checkPieces S s) := by
  refine settled_foldl (fun s i => ?_) _ s
  split <;> rename_i hg <;> have h := settled_of_getPiece hg
  · split
    · exact h.trans ⟨rfl, rfl⟩
    · exact h
  · exact h

theorem settled_addPeer (s : Dm σ) (peerId : String) (peerIdLen : Nat) (ip : String) (ipLen : Nat)
    (port : Int) (nh : Option Nat) : Settled s (addPeer S s peerId peerIdLen ip ipLen port nh).1 := by
  rcases addPeer_cases S s peerId peerIdLen ip ipLen port nh with
    he | ⟨q, -, -, -, he | he | ⟨_, he⟩⟩ <;> rw [he] <;> exact ⟨by simp [remember_eq, accept],
      by simp [remember_eq, accept]⟩

theorem settled_peerConnect (s : Dm σ) (h : Nat) (ip : String) (port : Int) :
    Settled s (peerConnect S s h ip port).1 := by
  unfold peerConnect
  split
  · exact settled_sendToPeer _ _ _
  · have ha := settled_addPeer S s "" 0 ip ip.length port (some h)
    split <;> rename_i he <;> rw [he] at ha
    · exact ha.trans (settled_sendToPeer _ _ _)
    · exact ha

theorem settled_peerConnectFail (s : Dm σ) (h : Nat) : Settled s (s.peerConnectFail h) := by
  unfold peerConnectFail; split <;> exact ⟨rfl, rfl⟩

end Dm

end Yabtorrent
