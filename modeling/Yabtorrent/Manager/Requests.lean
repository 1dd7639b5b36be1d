import Yabtorrent.Manager.Frame

/-! Request book-keeping: what becomes of the blocks a peer is asked for.

`__dispatch_job` asks a peer's connection for every MISSING block of the piece the selector
picks, and nothing in the manager reads `max_pending_requests`
(`dispatchJob_requests_whole_piece`): one piece with more blocks than the ceiling overfills the
pipeline (`pending_over_ceiling`). `bt_dm_remove_peer` gives nothing back
(`removePeer_orphans`): a block pending only at the peer removed stays REQUESTED with no
connection left to deliver it or give it back (`remove_peer_orphans_request`).

The runs use a torrent of one piece, a host whose connections succeed, and the sequential
selector. -/
namespace Yabtorrent

namespace Dm
variable {σ : Type} (S : PieceSelector σ)

section Lookup
variable (s : Dm σ)

theorem modifyPiece_lookup (i : Nat) (f : Piece → Piece) (hf : ∀ p, (f p).idx = p.idx) :
    (s.modifyPiece i f hf).pdb.bind (·.pieces[i]?) = (s.pdb.bind (·.pieces[i]?)).map f := by
  cases h : s.pdb <;> simp [modifyPiece, h, List.getElem?_modify]

theorem setPeer_find (q : Peer) :
    (s.setPeer q).peers.find? (·.ptr == q.ptr) = (s.peers.find? (·.ptr == q.ptr)).map fun _ => q := by
  have hp : ((·.ptr == q.ptr) ∘ fun r : Peer => if r.ptr = q.ptr then q else r) = (·.ptr == q.ptr) := by
    funext r
    by_cases h : r.ptr = q.ptr <;> simp [h]
  simp only [setPeer_peers, List.find?_map, hp]
  cases h : s.peers.find? (·.ptr == q.ptr) with
  | none => rfl
  | some r =>
    have hr := List.find?_some h
    simp only [beq_iff_eq] at hr
    simp [hr]

theorem offerBlock_pdb (ptr : Nat) (b : Block) : (s.offerBlock ptr b).pdb = s.pdb := by
  unfold offerBlock; split <;> simp

/-- Offering a block to a connection the peer manager holds appends it to its pending
requests. -/
theorem offerBlock_find {ptr : Nat} {q : Peer} (b : Block) (hq : s.peers.find? (·.ptr == ptr) = some q) :
    (s.offerBlock ptr b).peers.find? (·.ptr == ptr) =
      some { q with pc := { q.pc with pending := q.pc.pending ++ [b] } } := by
  have hptr := List.find?_some hq
  simp only [beq_iff_eq] at hptr
  subst hptr
  have h := setPeer_find (s.emit (.offered q.ptr b))
    { q with pc := { q.pc with pending := q.pc.pending ++ [b] } }
  simp only [emit_peers, hq, Option.map_some'] at h
  simpa only [offerBlock, hq, sendToPeer_fst, emit_peers] using h

end Lookup

/-- `bt_dm_remove_peer` gives nothing back: the piece database is as it was, and every record the
peer manager keeps is one it held before, none of them the removed peer's. -/
theorem removePeer_orphans (s : Dm σ) (ptr : Nat) :
    (removePeer S s ptr).1.pdb = s.pdb ∧
      ∀ q ∈ (removePeer S s ptr).1.peers, q ∈ s.peers ∧ q.ptr ≠ ptr := by
  refine ⟨by unfold removePeer; split <;> rfl, fun q hq => ⟨?_, removePeer_gone S s ptr q hq⟩⟩
  unfold removePeer at hq
  split at hq
  · exact (List.mem_filter.mp hq).1
  · exact hq

/-- The inner loop of `__dispatch_job`, given a round per MISSING block, leaves the piece fully
requested and the peer's connection with one more pending request per block that was MISSING. -/
theorem requestBlocks_spec (ptr i : Nat) :
    ∀ (fuel : Nat) (s : Dm σ) (p : Piece) (q : Peer), s.pdb.bind (·.pieces[i]?) = some p →
      p.missingCount ≤ fuel → s.peers.find? (·.ptr == ptr) = some q →
      ∃ p' q', (requestBlocks s ptr i fuel).pdb.bind (·.pieces[i]?) = some p' ∧
        p'.isFullyRequested = true ∧
        (requestBlocks s ptr i fuel).peers.find? (·.ptr == ptr) = some q' ∧
        q'.pc.pending.length = q.pc.pending.length + p.missingCount
  | 0, s, p, q, hp, hf, hq => by
    simp only [requestBlocks]
    exact ⟨p, q, hp, (Piece.isFullyRequested_iff p).mpr (by omega), hq, by omega⟩
  | fuel + 1, s, p, q, hp, hf, hq => by
    by_cases hfr : p.isFullyRequested = true
    · simp only [requestBlocks, hp, hfr, if_true]
      exact ⟨p, q, rfl, hfr, hq, by simp [(Piece.isFullyRequested_iff p).mp hfr]⟩
    · simp only [Bool.not_eq_true] at hfr
      obtain ⟨k, hk⟩ := Piece.pollBlockRequest_of_not_fully hfr
      have hcount := Piece.missingCount_polled hfr
      simp only [requestBlocks, hp, hfr, Bool.false_eq_true, if_false, Piece.pollBlockRequest, hk,
        Option.map_some']
      have hp' : ((s.modifyPiece i (·.polled) fun _ => by simp).offerBlock ptr
          (p.block k)).pdb.bind (·.pieces[i]?) = some p.polled := by
        rw [offerBlock_pdb, modifyPiece_lookup, hp]; rfl
      obtain ⟨p', q', h1, h2, h3, h4⟩ := requestBlocks_spec ptr i fuel _ _ _ hp' (by omega)
        (offerBlock_find _ _ (by simpa using hq))
      exact ⟨p', q', h1, h2, h3, by simp at h4; omega⟩

/-- A PollBlock dispatch whose first poll gives an incomplete piece runs the inner loop on it
once, with a round per block. -/
theorem dispatchJob_of_incomplete {s : Dm σ} {ptr i : Nat} {st : σ} {p : Piece}
    (hsel : s.pselector = some st) (hpoll : (S.pollPiece st ptr).2 = some i)
    (hp : s.pdb.bind (·.pieces[i]?) = some p) (hc : p.isComplete = false) :
    dispatchJob S s (.pollblock ptr) = requestBlocks
      ({ s with pselector := some (S.pollPiece st ptr).1 }.emit (.selected (.pollPiece ptr)))
      ptr i p.slots.length := by
  obtain ⟨db, hdb, hpi⟩ := Option.bind_eq_some.mp hp
  simp [dispatchJob, pollLoop, hsel, hpoll, getPiece, hdb, hpi, hc]

/-- **A PollBlock dispatch requests the whole piece.** When the selector hands a live peer an
incomplete piece, `__dispatch_job` leaves that piece fully requested and the peer's connection
with one more pending request for each block that was MISSING, however many that is: no
ceiling is consulted. -/
theorem dispatchJob_requests_whole_piece (s : Dm σ) (ptr i : Nat) (st : σ) (p : Piece)
    (hsel : s.pselector = some st) (hpoll : (S.pollPiece st ptr).2 = some i)
    (hp : s.pdb.bind (·.pieces[i]?) = some p) (hc : p.isComplete = false)
    (hq : (s.peers.find? (·.ptr == ptr)).isSome) :
    ∃ p', (dispatchJob S s (.pollblock ptr)).pdb.bind (·.pieces[i]?) = some p' ∧
      p'.isFullyRequested = true ∧
      ∃ q q', s.peers.find? (·.ptr == ptr) = some q ∧
        (dispatchJob S s (.pollblock ptr)).peers.find? (·.ptr == ptr) = some q' ∧
        q'.pc.pending.length = q.pc.pending.length + p.missingCount := by
  obtain ⟨q, hq⟩ := Option.isSome_iff_exists.mp hq
  rw [dispatchJob_of_incomplete S hsel hpoll hp hc]
  obtain ⟨p', q', h1, h2, h3, h4⟩ := requestBlocks_spec ptr i p.slots.length
    ({ s with pselector := some (S.pollPiece st ptr).1 }.emit (.selected (.pollPiece ptr))) p q
    hp p.missingCount_le hq
  exact ⟨p', h1, h2, q, q', hq, h3, h4⟩

/-! ### Runs

A torrent of one piece, installed before the sequential selector; a host whose outbound
connections get net-handle 7 and whose sends all succeed; and a peer at 10.0.0.2:6881,
connected out, whose handshake, BITFIELD and UNCHOKE arrive in one buffer. -/

def onePiece : PieceDb := ⟨[Piece.new 0 2 [1, 2]], fun _ _ => true, by decide⟩

/-- A torrent of one piece of eleven blocks, one more than `max_pending_requests`. -/
def elevenBlocks : PieceDb := ⟨[Piece.new 0 (blockSize * 11) []], fun _ _ => true, by decide⟩

def host : Callbacks := ⟨some (fun _ _ => some 7), some (fun _ _ => true), true, false⟩

/-- The remote side's handshake for the default info-hash. -/
def remoteHandshake : List UInt8 :=
  Msg.encode (.handshake (Wire.bytesOf "00000000000000000000") (Wire.bytesOf "ABCDEFGHIJKLMNOPQRST"))

/-- Install `db` as a torrent of one piece of `len` bytes, the callbacks `cb`, and the
sequential selector. -/
def configure (db : PieceDb) (len : String) (cb : Callbacks) : List (Op Sequential) :=
  [.setPieceDb db, .configSet "npieces" "1", .configSet "piece_length" len, .setCbs cb,
    .setPieceSelector none]

def unchokedBy : List (Op Sequential) :=
  [.addPeer "" 0 "10.0.0.2" 8 6881 none,
    .dispatchFromBuffer 7 (remoteHandshake ++ Msg.encode (.bitfield [true]) ++ Msg.encode .unchoke)]

/-- The peer has unchoked us on the eleven-block piece; its PollBlock job is queued. -/
def unchokedEleven : Dm Sequential := run sequential new (configure elevenBlocks "180224" host ++ unchokedBy)

/-- On the eleven-block piece, one dispatch leaves the piece fully requested and all eleven
blocks pending at the peer. -/
theorem dispatchJob_requests_eleven :
    ∃ p', (dispatchJob sequential unchokedEleven (.pollblock 0)).pdb.bind (·.pieces[0]?) = some p' ∧
      p'.isFullyRequested = true ∧
      ∃ q q', unchokedEleven.peers.find? (·.ptr == 0) = some q ∧
        (dispatchJob sequential unchokedEleven (.pollblock 0)).peers.find? (·.ptr == 0) = some q' ∧
        q'.pc.pending.length = q.pc.pending.length + (Piece.new 0 (blockSize * 11) []).missingCount :=
  dispatchJob_requests_whole_piece sequential unchokedEleven 0 0 ⟨[(0, [0])], [], []⟩ _
    (by decide) (by decide) (by decide) (by decide) (by decide)

/-- The next tick dispatches that job, and the peer's connection has eleven requests pending
against a ceiling of ten. -/
theorem pending_over_ceiling :
    ∃ q ∈ (step sequential unchokedEleven (.periodic none)).peers,
      (unchokedEleven.cfg.getInt "max_pending_requests").toNat < q.pc.pending.length := by
  decide

/-- The peer asked for the one block of the one-piece torrent, then was removed: no peer is
left, and the block stays REQUESTED. -/
def removedAfterRequest : Dm Sequential :=
  run sequential new (configure onePiece "2" host ++ unchokedBy ++ [.periodic none, .removePeer 0])

theorem remove_peer_orphans_request :
    removedAfterRequest.peers = [] ∧
      removedAfterRequest.pdb.map (·.pieces.map (·.slots.map (·.state))) = some [[.requested]] := by
  decide

end Dm

end Yabtorrent
