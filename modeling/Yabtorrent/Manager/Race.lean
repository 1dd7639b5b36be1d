import Yabtorrent.Manager.Handshake

/-! Two dispatch threads and one announcement.

A piece can complete on one I/O thread while a peer finishes its handshake on another. Thread
A, in `bt_dm_dispatch_from_buffer`, sets the peer's HANDSHAKE_RECEIVED and then sends our
BITFIELD, built from `pieces_completed`; thread B, in `__FUNC_peerconn_pushblock`, tells the
selector of the piece and marks it in `pieces_completed`, and then sends HAVE to every peer
whose handshake is received. Each thread's two steps are the code's own (`Atom.run`;
`dispatchFromBuffer_handshake` and `pushblock_completing` show they are what the two entry
points do), and a schedule is any interleaving of the two threads (`Interleave`).

* `announced_in_any_interleaving`: for a piece of the file (an index below `npieces`), under
  every schedule the peer learns of the piece, from the BITFIELD or from a HAVE: the BITFIELD is
  built after the mark, or the HAVE is sent after the flag. -/
namespace Yabtorrent

/-- `Interleave xs ys zs`: `zs` runs the steps of `xs` and of `ys`, each in its own order. -/
inductive Interleave {α : Type} : List α → List α → List α → Prop where
  | nil : Interleave [] [] []
  | left {x : α} {xs ys zs : List α} : Interleave xs ys zs → Interleave (x :: xs) ys (x :: zs)
  | right {y : α} {xs ys zs : List α} : Interleave xs ys zs → Interleave xs (y :: ys) (y :: zs)

/-- Every interleaving of `xs` and `ys`, the left thread's step first. -/
def interleavings {α : Type} : List α → List α → List (List α)
  | [], ys => [ys]
  | xs, [] => [xs]
  | x :: xs, y :: ys =>
    (interleavings xs (y :: ys)).map (x :: ·) ++ (interleavings (x :: xs) ys).map (y :: ·)

@[simp] theorem interleavings_nil_right {α : Type} (xs : List α) : interleavings xs [] = [xs] := by
  cases xs <;> simp [interleavings]

/-- `interleavings` lists every schedule. -/
theorem Interleave.mem_interleavings {α : Type} {xs ys zs : List α} (h : Interleave xs ys zs) :
    zs ∈ interleavings xs ys := by
  induction h with
  | nil => simp [interleavings]
  | @left _ _ ys _ _ _ => cases ys <;> simp_all [interleavings]
  | @right _ xs _ _ _ _ => cases xs <;> simp_all [interleavings]

/-- The six schedules of two threads of two steps each. -/
theorem Interleave.two_two {α : Type} {a b c d : α} {zs : List α}
    (h : Interleave [a, b] [c, d] zs) :
    zs = [a, b, c, d] ∨ zs = [a, c, b, d] ∨ zs = [a, c, d, b] ∨ zs = [c, a, b, d] ∨
      zs = [c, a, d, b] ∨ zs = [c, d, a, b] := by
  simpa [interleavings] using h.mem_interleavings

namespace Dm
variable {σ : Type} (S : PieceSelector σ)

/-- A peer whose handshake is whole: the message handler replaces its handshaker, and
HANDSHAKE_RECEIVED is set. -/
def handshaken (q : Peer) : Peer :=
  { q with mh := some (.msghandler ⟨[]⟩), pc := q.pc.setState .handshakeReceived }

/-- The atomic steps of the two threads. -/
inductive Atom where
  /-- Thread A: peer `q`'s handshake is whole and HANDSHAKE_RECEIVED is set. -/
  | received
  /-- Thread A: our BITFIELD, built from `pieces_completed`, sent to `q`. -/
  | bitfield
  /-- Thread B: the selector told of piece `i`, and `i` marked in `pieces_completed`. -/
  | marked
  /-- Thread B: HAVE(`i`) to every peer whose handshake is received. -/
  | announced
  deriving DecidableEq, Repr

section
variable (q : Peer) (buf : List UInt8) (i : Nat)

def Atom.run (s : Dm σ) : Atom → Dm σ
  | .received => (s.emit (.shook q.ptr buf)).setPeer (handshaken q)
  | .bitfield => (s.sendBitfield (handshaken q)).1
  | .marked => (s.select (.havePiece i) (S.havePiece · i)).markComplete i
  | .announced => s.peers.foldl (fun s r => s.sendHave r i) s

/-- Thread A's steps are those of `bt_dm_dispatch_from_buffer` on a handshake that the bytes
complete. -/
theorem dispatchFromBuffer_handshake {s : Dm σ} {h : Nat} {hs hs' : Handshaker}
    {rest : List UInt8} (hq : s.byNethandle h = some q)
    (hr : q.pc.flagIsSet .handshakeReceived = false) (hmh : q.mh = some (.handshaker hs))
    (hd : hs.dispatch buf = (hs', 1, rest)) :
    dispatchFromBuffer S s h buf =
      if ((Atom.run S q buf i s .received).sendBitfield (handshaken q)).2 then
        dispatchMessages S (Atom.run S q buf i (Atom.run S q buf i s .received) .bitfield)
          (handshaken q) rest
      else dispatchMessages S (removePeer S (Atom.run S q buf i (Atom.run S q buf i s .received)
        .bitfield) q.ptr).1 (handshaken q) rest := by
  simp only [dispatchFromBuffer, hq, hr, hmh, hd, Bool.false_eq_true, if_false, Atom.run, handshaken]
  split <;> rename_i heq <;> rw [heq] <;> rfl

/-- The remote handshake for `racer` is thread A's two steps, and then the messages after it. -/
theorem dispatchFromBuffer_handshake_racer :
    dispatchFromBuffer sequential awaiting 7 remoteHandshake =
      if ((Atom.run sequential racer remoteHandshake 0 awaiting .received).sendBitfield
          (handshaken racer)).2 then
        dispatchMessages sequential (Atom.run sequential racer remoteHandshake 0
          (Atom.run sequential racer remoteHandshake 0 awaiting .received) .bitfield) (handshaken racer) []
      else dispatchMessages sequential (removePeer sequential (Atom.run sequential racer remoteHandshake 0
        (Atom.run sequential racer remoteHandshake 0 awaiting .received) .bitfield) racer.ptr).1
          (handshaken racer) [] :=
  dispatchFromBuffer_handshake sequential racer remoteHandshake 0 (by decide) (by decide) rfl (by rfl)

/-- Thread B's steps are those of `__FUNC_peerconn_pushblock` on a block that completes its
piece. -/
theorem pushblock_completing {s : Dm σ} {ptr : Nat} {b : Block} {data : List UInt8}
    {db : PieceDb} {p : Piece} (hdb : s.pdb = some db) (hp : db.pieces[b.pieceIdx]? = some p)
    (hw : (p.writeBlock (db.disk b data) b data ptr).2 = 2) :
    pushblock S s ptr b data = Atom.run S q buf b.pieceIdx (Atom.run S q buf b.pieceIdx
      ((s.modifyPiece b.pieceIdx (fun p => (p.writeBlock (db.disk b data) b data ptr).1)
        (Piece.writeBlock_idx · _ _ _ _)).emit (.wrote ptr b)) .marked) .announced := by
  simp [pushblock, hdb, hp, hw, Atom.run, PieceDb.idx_of_getElem? hp]

/-- `racer`'s delivery of the one piece is thread B's two steps after the write. -/
theorem pushblock_completing_racer :
    pushblock sequential awaiting 0 ⟨0, 0, 2⟩ [1, 2] = Atom.run sequential racer [] 0
      (Atom.run sequential racer [] 0 ((awaiting.modifyPiece 0
        (fun p => (p.writeBlock (onePiece.disk ⟨0, 0, 2⟩ [1, 2]) ⟨0, 0, 2⟩ [1, 2] 0).1)
        (Piece.writeBlock_idx · _ _ _ _)).emit (.wrote 0 ⟨0, 0, 2⟩)) .marked) .announced :=
  pushblock_completing sequential racer [] rfl rfl (by decide)

/-! ### What the steps keep -/

/-- What every step keeps: the callbacks and the configuration, the marks, and the trace so
far. -/
structure Steady (s s' : Dm σ) : Prop where
  cb : s'.cb = s.cb
  cfg : s'.cfg = s.cfg
  completed : s.piecesCompleted ⊆ s'.piecesCompleted
  trace : s.trace <+: s'.trace

theorem Steady.refl (s : Dm σ) : Steady s s := ⟨rfl, rfl, fun _ h => h, List.prefix_refl _⟩

theorem Steady.trans {s₁ s₂ s₃ : Dm σ} (h₁ : Steady s₁ s₂) (h₂ : Steady s₂ s₃) : Steady s₁ s₃ :=
  ⟨h₂.cb.trans h₁.cb, h₂.cfg.trans h₁.cfg, fun _ h => h₂.completed (h₁.completed h),
    h₁.trace.trans h₂.trace⟩

theorem sendHave_frame (s : Dm σ) (r : Peer) : ∃ new, s.sendHave r i = { s with trace := s.trace ++ new } := by
  unfold sendHave
  split
  · exact ⟨[if s.cb.peerSend.isSome then .sent r.ptr (.have i) else .failed .noPeerSend], by simp [emit]⟩
  · exact ⟨[], by simp⟩

theorem announce_frame : ∀ (qs : List Peer) (s : Dm σ),
    ∃ new, qs.foldl (fun s r => s.sendHave r i) s = { s with trace := s.trace ++ new }
  | [], s => ⟨[], by simp⟩
  | r :: qs, s => by
    obtain ⟨n₁, h₁⟩ := sendHave_frame i s r
    obtain ⟨n₂, h₂⟩ := announce_frame qs (s.sendHave r i)
    rw [List.foldl_cons, h₂, h₁]
    exact ⟨n₁ ++ n₂, by simp⟩

theorem Atom.steady (s : Dm σ) : ∀ a, Steady s (Atom.run S q buf i s a)
  | .received => ⟨rfl, rfl, fun _ h => h, by simp [Atom.run]⟩
  | .bitfield => ⟨by simp [Atom.run, sendBitfield], by simp [Atom.run, sendBitfield],
      by simp [Atom.run, sendBitfield], by simp [Atom.run, sendBitfield]⟩
  | .marked => ⟨rfl, rfl, (markComplete_keeps_marks _ i).subset, by simp [Atom.run]⟩
  | .announced => by
    obtain ⟨new, h⟩ := announce_frame i s.peers s
    exact ⟨by simp [Atom.run, h], by simp [Atom.run, h], by simp [Atom.run, h], by simp [Atom.run, h]⟩

theorem Atom.steady_foldl : ∀ (zs : List Atom) (s : Dm σ), Steady s (zs.foldl (Atom.run S q buf i) s)
  | [], s => .refl s
  | a :: zs, s => (Atom.steady S q buf i s a).trans (Atom.steady_foldl zs _)

end

/-- The peer manager holds a record of `q`'s peer whose handshake is received. -/
def Received (q : Peer) (s : Dm σ) : Prop :=
  ∃ r ∈ s.peers, r.ptr = q.ptr ∧ r.pc.handshakeReceived = true

/-- Peer `p` has learnt of piece `i`: it was sent a BITFIELD with bit `i` set, or HAVE(`i`). -/
def Learns (p i : Nat) (s : Dm σ) : Prop :=
  (∃ bits, .sent p (.bitfield bits) ∈ s.trace ∧ bits.getD i false = true) ∨
    .sent p (.have i) ∈ s.trace

theorem Steady.learns {s s' : Dm σ} (h : Steady s s') {p i : Nat} (hl : Learns p i s) :
    Learns p i s' := by
  obtain ⟨new, hn⟩ := h.trace
  rcases hl with ⟨bits, hb, hi⟩ | hh
  · exact .inl ⟨bits, hn ▸ List.mem_append_left _ hb, hi⟩
  · exact .inr (hn ▸ List.mem_append_left _ hh)

section
variable (q : Peer) (buf : List UInt8) (i : Nat)

theorem Atom.foldl_keeps (P : Dm σ → Prop) (hP : ∀ s a, P s → P (Atom.run S q buf i s a)) :
    ∀ (zs : List Atom) (s : Dm σ), P s → P (zs.foldl (Atom.run S q buf i) s)
  | [], _, h => h
  | a :: zs, s, h => Atom.foldl_keeps P hP zs _ (hP s a h)

theorem Atom.run_peers (s : Dm σ) : ∀ a, a ≠ .received → (Atom.run S q buf i s a).peers = s.peers
  | .received, h => absurd rfl h
  | .bitfield, _ => by simp [Atom.run, sendBitfield]
  | .marked, _ => rfl
  | .announced, _ => by
    obtain ⟨new, h⟩ := announce_frame i s.peers s
    simp [Atom.run, h]

/-- Thread A's first step leaves a peer the peer manager holds with its handshake received. -/
theorem received_of_held (s : Dm σ) (h : ∃ r ∈ s.peers, r.ptr = q.ptr) :
    Received q (Atom.run S q buf i s .received) := by
  obtain ⟨r, hr, hp⟩ := h
  exact ⟨handshaken q, List.mem_map.mpr ⟨r, hr, by simp [hp, handshaken]⟩, rfl, rfl⟩

theorem held_run (s : Dm σ) (a : Atom) (h : ∃ r ∈ s.peers, r.ptr = q.ptr) :
    ∃ r ∈ (Atom.run S q buf i s a).peers, r.ptr = q.ptr := by
  by_cases ha : a = .received
  · subst ha
    obtain ⟨r, hr, hp, -⟩ := received_of_held S q buf i s h
    exact ⟨r, hr, hp⟩
  · rwa [Atom.run_peers S q buf i s a ha]

theorem received_run (s : Dm σ) (a : Atom) (h : Received q s) :
    Received q (Atom.run S q buf i s a) := by
  by_cases ha : a = .received
  · obtain ⟨r, hr, hp, -⟩ := h
    exact ha ▸ received_of_held S q buf i s ⟨r, hr, hp⟩
  · unfold Received
    rwa [Atom.run_peers S q buf i s a ha]

/-- Our BITFIELD built after the mark has the piece. -/
theorem learns_bitfield (s : Dm σ) (hm : i ∈ s.piecesCompleted) (hsend : s.cb.peerSend.isSome)
    (hi : i < (s.cfg.getInt "npieces").toNat) : Learns q.ptr i (Atom.run S q buf i s .bitfield) :=
  .inl ⟨(List.range (s.cfg.getInt "npieces").toNat).map (decide <| · ∈ s.piecesCompleted),
    by simp [Atom.run, sendBitfield, hsend, handshaken], by simp [hi, hm]⟩

/-- The HAVE broadcast after the flag reaches the peer. -/
theorem learns_announced (s : Dm σ) (hr : Received q s) (hsend : s.cb.peerSend.isSome) :
    Learns q.ptr i (Atom.run S q buf i s .announced) := by
  obtain ⟨r, hr, hp, hs⟩ := hr
  refine .inr ?_
  rw [Atom.run, foldl_sendHave i s.peers s hsend]
  simpa using Or.inr ⟨r, ⟨hr, hs⟩, hp⟩

/-- A schedule in which the flag is set before the HAVE broadcast. -/
theorem learns_of_received_first (s : Dm σ) (hq : ∃ r ∈ s.peers, r.ptr = q.ptr)
    (hsend : s.cb.peerSend.isSome) (pre mid post : List Atom) :
    Learns q.ptr i ((pre ++ .received :: mid ++ .announced :: post).foldl (Atom.run S q buf i) s) := by
  have hst := Atom.steady_foldl S q buf i (pre ++ .received :: mid) s
  simp only [List.foldl_append, List.foldl_cons] at hst ⊢
  refine (Atom.steady_foldl S q buf i post _).learns (learns_announced S q buf i _ ?_
    (by rw [hst.cb]; exact hsend))
  exact Atom.foldl_keeps S q buf i _ (received_run S q buf i) mid _
    (received_of_held S q buf i _ (Atom.foldl_keeps S q buf i _ (held_run S q buf i) pre s hq))

/-- A schedule in which the piece is marked before the BITFIELD is built. -/
theorem learns_of_marked_first (s : Dm σ) (hsend : s.cb.peerSend.isSome)
    (hi : i < (s.cfg.getInt "npieces").toNat) (pre mid post : List Atom) :
    Learns q.ptr i ((pre ++ .marked :: mid ++ .bitfield :: post).foldl (Atom.run S q buf i) s) := by
  have hst := Atom.steady_foldl S q buf i (pre ++ .marked :: mid) s
  have hmid := Atom.steady_foldl S q buf i mid
    (Atom.run S q buf i (pre.foldl (Atom.run S q buf i) s) .marked)
  simp only [List.foldl_append, List.foldl_cons] at hst ⊢
  exact (Atom.steady_foldl S q buf i post _).learns (learns_bitfield S q buf i _
    (hmid.completed (mem_markComplete _ i)) (by rw [hst.cb]; exact hsend) (by rw [hst.cfg]; exact hi))

end

/-- **No missed announcement.** For a peer the peer manager holds and a piece `i` of the file
(`i < npieces`, the range of indices a piece can have), under every schedule of the two threads
the peer is sent our BITFIELD with the piece set or HAVE for it. -/
theorem announced_in_any_interleaving (s : Dm σ) (q : Peer) (buf : List UInt8) (i : Nat)
    (hq : q ∈ s.peers) (hsend : s.cb.peerSend.isSome) (hi : i < (s.cfg.getInt "npieces").toNat)
    (sched : List Atom) (h : Interleave [.received, .bitfield] [.marked, .announced] sched) :
    Learns q.ptr i (sched.foldl (Atom.run S q buf i) s) := by
  have hheld : ∃ r ∈ s.peers, r.ptr = q.ptr := ⟨q, hq, rfl⟩
  rcases h.two_two with rfl | rfl | rfl | rfl | rfl | rfl
  · exact learns_of_received_first S q buf i s hheld hsend [] [.bitfield, .marked] []
  · exact learns_of_received_first S q buf i s hheld hsend [] [.marked, .bitfield] []
  · exact learns_of_received_first S q buf i s hheld hsend [] [.marked] [.bitfield]
  · exact learns_of_received_first S q buf i s hheld hsend [.marked] [.bitfield] []
  · exact learns_of_received_first S q buf i s hheld hsend [.marked] [] [.bitfield]
  · exact learns_of_marked_first S q buf i s hsend hi [] [.announced, .received] []

/-- The piece is marked and announced before the peer's handshake completes: our BITFIELD
carries it. -/
theorem announced_when_marked_first :
    racer ∈ awaiting.peers ∧ awaiting.cb.peerSend.isSome = true ∧
      0 < (awaiting.cfg.getInt "npieces").toNat ∧
      Learns racer.ptr 0 ([.marked, .announced, .received, .bitfield].foldl
        (Atom.run sequential racer remoteHandshake 0) awaiting) :=
  ⟨by decide, by decide, by decide, announced_in_any_interleaving sequential awaiting racer
    remoteHandshake 0 (by decide) (by decide) (by decide) _ (.right (.right (.left (.left .nil))))⟩

end Dm

end Yabtorrent
