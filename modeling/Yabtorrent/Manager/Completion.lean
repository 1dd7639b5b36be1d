import Yabtorrent.Manager.Requests

/-! What a completed piece leads to.

`__FUNC_peerconn_pushblock` is the one place a piece is marked in `pieces_completed`: a write
that completes and verifies a piece tells the selector, marks the piece and sends HAVE to every
peer whose handshake is received, once each (`pushblock_complete`). Nothing guards that branch
against a piece that was complete already, and a complete piece written again with the bytes it
holds verifies again (`Piece.writeBlock_rewrite`): a block of a complete piece delivered again
announces the piece again to every peer whose handshake is received (`pushblock_reannounces`),
and a block delivered twice announces its piece twice (`have_sent_twice`). Nor is a mark ever
cleared: a write that leaves a piece invalid keeps its mark (`pushblock_invalid_keeps_mark`), so
a piece can be marked, known to the selector, and incomplete (`completed_but_invalid`).

An invalid piece with several contributors is reset and given back to the selector
(`pushblock_invalid_shared`). With one contributor only the ban is made: the corrupt block stays
RECEIVED and the selector keeps the piece as handed out (`single_contributor_not_reset`). A
PIECE for an index the database has no piece for reaches `assert(p)`
(`stray_piece_fails_assert`), where `__FUNC_peerconn_write_block_to_stream` logs and returns. -/
namespace Yabtorrent
namespace Piece

theorem block_offset_div (p : Piece) (k : Nat) : (p.block k).offset / blockSize = k :=
  Nat.mul_div_cancel_left k (by decide)

/-- Writing a complete piece's block again with the bytes it holds leaves its blocks as they
were, so the piece verifies again. -/
theorem writeBlock_rewrite {p : Piece} (hc : p.isComplete = true) {k : Nat}
    (hk : k < p.slots.length) (hlen : p.slots[k].data.length = (p.block k).len) (peer : Nat) :
    (p.writeBlock true (p.block k) p.slots[k].data peer).2 = 2 := by
  obtain ⟨hr, hv⟩ : p.allReceived = true ∧ p.valid = true := by simpa [isComplete] using hc
  simp only [allReceived, valid] at hr hv
  have hslot : p.slots[k] = ⟨.received, p.slots[k].data⟩ := by
    have := List.all_eq_true.mp hr _ (List.getElem_mem hk)
    cases h : p.slots[k]
    simp_all
  have hsame : p.slots.modify (fun _ => ⟨.received, p.slots[k].data⟩) k = p.slots := by
    apply List.ext_getElem (by simp)
    intro j h1 h2
    rw [List.getElem_modify]
    split
    · subst j; exact hslot.symm
    · rfl
  simp [writeBlock, block_offset_div, hk, hlen, setSlot, hsame, allReceived, valid, hr, hv]

/-- A write that leaves the piece invalid was a write: the piece has a block, every block is
received, and the checksum fails. -/
theorem writeBlock_invalid {p : Piece} {ok : Bool} {b : Block} {data : List UInt8} {peer : Nat}
    (h : (p.writeBlock ok b data peer).2 = -1) :
    (p.writeBlock ok b data peer).1.isComplete = false ∧ (p.writeBlock ok b data peer).1.slots ≠ [] := by
  by_cases hw : ok = true ∧ b.offset / blockSize < p.slots.length ∧
      b = p.block (b.offset / blockSize) ∧ data.length = b.len
  · simp only [writeBlock, if_pos hw] at h ⊢
    refine ⟨?_, ?_⟩
    swap
    · simp only [setSlot, ne_eq, ← List.length_eq_zero, List.length_modify]
      exact Nat.pos_iff_ne_zero.mp (Nat.zero_lt_of_lt hw.2.1)
    revert h
    generalize { p.setSlot (b.offset / blockSize) (fun _ => ⟨.received, data⟩) with
      peers := if peer ∈ p.peers then p.peers else p.peers ++ [peer] } = q
    cases ha : q.allReceived <;> cases hv : q.valid <;> simp [isComplete, ha, hv]
  · simp [writeBlock, if_neg hw] at h

theorem dropDownloadProgress_not_complete {p : Piece} (h : p.slots ≠ []) :
    p.dropDownloadProgress.isComplete = false := by
  obtain ⟨sl, hsl⟩ := List.exists_mem_of_ne_nil _ h
  simp only [isComplete, allReceived, dropDownloadProgress, Bool.and_eq_false_iff]
  left
  simp only [List.all_map, List.all_eq_false]
  exact ⟨sl, hsl, by simp⟩

end Piece

namespace Dm
variable {σ : Type} (S : PieceSelector σ)

/-- The HAVE broadcast of `__FUNC_peerconn_pushblock`: one HAVE to each peer whose handshake
is received, in the peer manager's order. -/
theorem foldl_sendHave (i : Nat) (qs : List Peer) (s : Dm σ) (hsend : s.cb.peerSend.isSome) :
    qs.foldl (fun s q => s.sendHave q i) s =
      { s with trace := s.trace ++ (qs.filter (·.pc.handshakeReceived)).map (.sent ·.ptr (.have i)) } := by
  induction qs generalizing s with
  | nil => simp
  | cons q qs ih =>
    rw [List.foldl_cons]
    by_cases hq : q.pc.handshakeReceived = true
    · rw [show s.sendHave q i = s.emit (.sent q.ptr (.have i)) by simp [sendHave, hq, hsend],
        ih (s.emit _) hsend]
      simp [hq]
    · rw [show s.sendHave q i = s by simp [sendHave, hq], ih _ hsend]
      simp [hq]

/-- **A completing write is announced.** A block that completes and verifies its piece makes
`__FUNC_peerconn_pushblock` tell the selector, mark the piece in `pieces_completed`, and send
HAVE to every peer whose handshake is received, once each. -/
theorem pushblock_complete (s : Dm σ) (ptr : Nat) (b : Block) (data : List UInt8) {db : PieceDb}
    {p : Piece} (hdb : s.pdb = some db) (hp : db.pieces[b.pieceIdx]? = some p)
    (hw : (p.writeBlock (db.disk b data) b data ptr).2 = 2) (hsend : s.cb.peerSend.isSome) :
    b.pieceIdx ∈ (pushblock S s ptr b data).piecesCompleted ∧
      (pushblock S s ptr b data).trace = s.trace ++
        [.wrote ptr b, if s.pselector.isSome then .selected (.havePiece b.pieceIdx) else .failed .noSelector] ++
        (s.peers.filter (·.pc.handshakeReceived)).map (.sent ·.ptr (.have b.pieceIdx)) := by
  have hidx := PieceDb.idx_of_getElem? hp
  simp only [pushblock, hdb, hp, hw, if_true]
  simp [foldl_sendHave, hsend, hidx, mem_markComplete, -markComplete_piecesCompleted]

/-- **A complete piece is announced again.** `__FUNC_peerconn_pushblock` does not ask whether
the piece was complete before the write: a block of a complete piece delivered again with the
bytes it holds, to a disk that takes it, completes the piece once more, and every peer whose
handshake is received is sent HAVE for it again. -/
theorem pushblock_reannounces (s : Dm σ) (ptr : Nat) {db : PieceDb} {p : Piece} {k : Nat}
    (hdb : s.pdb = some db) (hp : db.pieces[p.idx]? = some p) (hc : p.isComplete = true)
    (hk : k < p.slots.length) (hlen : p.slots[k].data.length = (p.block k).len)
    (hdisk : db.disk (p.block k) p.slots[k].data = true) (hsend : s.cb.peerSend.isSome) :
    ∀ q ∈ s.peers, q.pc.handshakeReceived = true → .sent q.ptr (.have p.idx) ∈
      (pushblock S s ptr (p.block k) p.slots[k].data).trace.drop s.trace.length := by
  have hw : (p.writeBlock (db.disk (p.block k) p.slots[k].data) (p.block k) p.slots[k].data ptr).2 = 2 := by
    rw [hdisk]
    exact p.writeBlock_rewrite hc hk hlen ptr
  rw [(pushblock_complete S s ptr (p.block k) p.slots[k].data hdb hp hw hsend).2, List.append_assoc,
    List.drop_left]
  intro q hq hr
  exact List.mem_append_right _ (List.mem_map.mpr ⟨q, List.mem_filter.mpr ⟨hq, by simpa using hr⟩, rfl⟩)

/-- **An invalid write keeps the mark.** A write that leaves its piece invalid leaves
`pieces_completed` as it was and the piece incomplete, whether it bans the only contributor or
drops the piece's progress. -/
theorem pushblock_invalid_keeps_mark (s : Dm σ) (ptr : Nat) (b : Block) (data : List UInt8)
    {db : PieceDb} {p : Piece} (hdb : s.pdb = some db) (hp : db.pieces[b.pieceIdx]? = some p)
    (hw : (p.writeBlock (db.disk b data) b data ptr).2 = -1) :
    (pushblock S s ptr b data).piecesCompleted = s.piecesCompleted ∧
      ((pushblock S s ptr b data).pdb.bind (·.pieces[b.pieceIdx]?)).map (·.isComplete) = some false := by
  have hidx := PieceDb.idx_of_getElem? hp
  obtain ⟨hinc, hne⟩ := Piece.writeBlock_invalid hw
  simp [pushblock, hdb, hp, hw]
  split
  · simp [modifyPiece_lookup, hdb, hp, hinc]
  · rw [foldl_suspect]
    simp [modifyPiece_lookup, hdb, hp, hidx, Piece.dropDownloadProgress_not_complete hne]

/-- **Several contributors: the piece is reset.** A write that leaves its piece invalid with
other than exactly one contributor drops the piece's progress, so that every block is MISSING
again, and gives the piece back to an installed selector. -/
theorem pushblock_invalid_shared (s : Dm σ) (ptr : Nat) (b : Block) (data : List UInt8)
    {db : PieceDb} {p : Piece} (hdb : s.pdb = some db) (hp : db.pieces[b.pieceIdx]? = some p)
    (hw : (p.writeBlock (db.disk b data) b data ptr).2 = -1)
    (hn : (p.writeBlock (db.disk b data) b data ptr).1.peers.length ≠ 1)
    (hsel : s.pselector.isSome) :
    (∃ p', (pushblock S s ptr b data).pdb.bind (·.pieces[b.pieceIdx]?) = some p' ∧
      ∀ sl ∈ p'.slots, sl.state = .missing) ∧
      .selected (.peerGivebackPiece none b.pieceIdx) ∈ (pushblock S s ptr b data).trace := by
  have hidx := PieceDb.idx_of_getElem? hp
  simp [pushblock, hdb, hp, hw, hn, foldl_suspect, modifyPiece_lookup, hidx, hsel,
    Piece.dropDownloadProgress]

/-! ### Runs -/

/-- A piece of one block received with the bytes of its checksum. -/
def completePiece : Piece := ⟨0, 2, [1, 2], [⟨.received, [1, 2]⟩], [], by decide⟩

/-- A database of that one piece. -/
def completeDb : PieceDb := ⟨[completePiece], fun _ _ => true, by decide⟩

/-- The complete piece of `completeDb` installed, and a peer at 10.0.0.2 whose handshake has
been received. -/
def shookComplete : Dm Sequential :=
  run sequential new (configure completeDb "2" host ++
    [.addPeer "" 0 "10.0.0.2" 8 6881 none, .dispatchFromBuffer 7 remoteHandshake])

/-- Its one block delivered again is announced to the peer again. -/
theorem pushblock_reannounces_shook :
    .sent 0 (.have 0) ∈ (pushblock sequential shookComplete 0 (completePiece.block 0) [1, 2]).trace.drop
      shookComplete.trace.length := by
  obtain ⟨q, hq, hr, h0⟩ : ∃ q ∈ shookComplete.peers, q.pc.handshakeReceived = true ∧ q.ptr = 0 := by
    decide
  have h := pushblock_reannounces sequential shookComplete 0 (p := completePiece) (k := 0) rfl rfl
    (by decide) (by decide) (by decide) rfl rfl q hq hr
  rw [h0] at h
  exact h

/-- The peer at 10.0.0.2 has delivered the one piece of the torrent, which is marked. -/
def deliveredOnce : Dm Sequential :=
  run sequential new (configure onePiece "2" host ++ [.addPeer "" 0 "10.0.0.2" 8 6881 none,
    .dispatchFromBuffer 7 (remoteHandshake ++ Msg.encode (.piece 0 0 [1, 2]))])

/-- Its block written again with bytes that fail the checksum leaves the mark and the piece
incomplete. -/
theorem pushblock_invalid_keeps_mark_delivered :
    deliveredOnce.piecesCompleted = [0] ∧
      (pushblock sequential deliveredOnce 0 ⟨0, 0, 2⟩ [9, 9]).piecesCompleted = deliveredOnce.piecesCompleted ∧
      ((pushblock sequential deliveredOnce 0 ⟨0, 0, 2⟩ [9, 9]).pdb.bind (·.pieces[0]?)).map
        (·.isComplete) = some false :=
  ⟨by decide, pushblock_invalid_keeps_mark sequential deliveredOnce 0 ⟨0, 0, 2⟩ [9, 9] rfl rfl (by decide)⟩

/-- A piece peers 5 and 6 wrote to and that was reset: its block MISSING, its contributors
kept. -/
def sharedDb : PieceDb := ⟨[⟨0, 2, [1, 2], [⟨.missing, []⟩], [5, 6], by decide⟩], fun _ _ => true, by decide⟩

/-- A third peer's corrupt block resets the piece again and gives it back to the selector. -/
theorem pushblock_invalid_shared_third :
    (∃ p', (pushblock sequential (run sequential new (configure sharedDb "2" host)) 0 ⟨0, 0, 2⟩ [9, 9]).pdb.bind
        (·.pieces[0]?) = some p' ∧ ∀ sl ∈ p'.slots, sl.state = .missing) ∧
      .selected (.peerGivebackPiece none 0) ∈
        (pushblock sequential (run sequential new (configure sharedDb "2" host)) 0 ⟨0, 0, 2⟩ [9, 9]).trace :=
  pushblock_invalid_shared sequential _ 0 ⟨0, 0, 2⟩ [9, 9] rfl rfl (by decide) (by decide) rfl

/-- The peer at 10.0.0.2 delivers the piece, then its one block again with other bytes: the
piece is marked complete and the selector has it, yet the database holds it incomplete. -/
def rewrittenCorrupt : Dm Sequential :=
  run sequential new (configure onePiece "2" host ++ [.addPeer "" 0 "10.0.0.2" 8 6881 none,
    .dispatchFromBuffer 7 (remoteHandshake ++ Msg.encode (.piece 0 0 [1, 2]) ++
      Msg.encode (.piece 0 0 [9, 9]))])

theorem completed_but_invalid :
    rewrittenCorrupt.piecesCompleted = [0] ∧
      rewrittenCorrupt.pselector.map (·.owned) = some [0] ∧
      rewrittenCorrupt.pdb.map (·.pieces.map (·.isComplete)) = some [false] := by
  decide

/-- A host whose connections to 10.0.0.2 get net-handle 7, and to anyone else 8. -/
def twoHosts : Callbacks :=
  ⟨some (fun ip _ => if ip = "10.0.0.2" then some 7 else some 8), some (fun _ _ => true), true,
    false⟩

/-- Peers at 10.0.0.2 and 10.0.0.3 shake hands, and the first delivers the piece twice. -/
def deliveredTwice : Dm Sequential :=
  run sequential new (configure onePiece "2" twoHosts ++
    [.addPeer "" 0 "10.0.0.2" 8 6881 none, .addPeer "" 0 "10.0.0.3" 8 6881 none,
      .dispatchFromBuffer 8 remoteHandshake,
      .dispatchFromBuffer 7 (remoteHandshake ++ Msg.encode (.piece 0 0 [1, 2]) ++
        Msg.encode (.piece 0 0 [1, 2]))])

/-- The second peer is told of the piece twice. -/
theorem have_sent_twice : deliveredTwice.trace.count (.sent 1 (.have 0)) = 2 := by
  decide

/-- The peer is handed piece 0 and sends its one block with bytes that fail the checksum. -/
def corruptSingleSource : Dm Sequential :=
  run sequential new (configure onePiece "2" host ++ unchokedBy ++
    [.periodic none, .dispatchFromBuffer 7 (Msg.encode (.piece 0 0 [9, 9]))])

/-- The sole contributor is banned, but its corrupt block stays RECEIVED, and the selector is
never told to give piece 0 back, so it hands the piece to no peer again. -/
theorem single_contributor_not_reset :
    corruptSingleSource.blacklist.banned = [0] ∧
      corruptSingleSource.pdb.map (·.pieces.map (·.slots.map (·.state))) = some [[.received]] ∧
      .selected (.peerGivebackPiece none 0) ∉ corruptSingleSource.trace ∧
      corruptSingleSource.pselector.map (·.polled) = some [0] := by
  decide

/-- The peer's handshake, then a PIECE for piece 5 of the one-piece torrent. -/
def strayPiece : Dm Sequential :=
  run sequential new (configure onePiece "2" host ++ [.addPeer "" 0 "10.0.0.2" 8 6881 none,
    .dispatchFromBuffer 7 (remoteHandshake ++ Msg.encode (.piece 5 0 [1, 2]))])

/-- `__FUNC_peerconn_pushblock` reaches `assert(p)` with no piece 5. -/
theorem stray_piece_fails_assert : .failed (.noPiece 5) ∈ strayPiece.trace := by
  decide

end Dm

end Yabtorrent
