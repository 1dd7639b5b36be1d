import Yabtorrent.Manager.Lifecycle

/-! Blame rests on deliveries.

`__FUNC_peerconn_pushblock` is the one place the blacklist grows: when a write leaves a piece
whole but its checksum wrong, the only contributor is banned, or else every contributor the piece
lists is suspected for it, and a peer suspected for two pieces is banned. A piece's contributors
are added only by `bt_piece_write_block`, for the peer whose block it writes; giving a block
back, polling a request and dropping a piece's progress keep them.

So in every run from `bt_dm_new`, whatever the host calls in whatever order, provided every
database it installs lists no contributors, the blacklist suspects a peer for a piece only when
the peer delivered a block of that piece, and bans a peer only when it delivered a block
(`blacklist_rests_on_deliveries`). A delivery is a `wrote` event of the trace, which only grows.

* `Spares s s'`: the trace only grew, and the blacklist and every piece's contributors are as
  they were. Every function but `pushblock` spares the manager, one lemma per function, each
  following the function's own branches.
* `Blamed s`: every contributor a piece lists delivered a block of it, and the blacklist is
  `Blacklist.Earned` by the deliveries. `pushblock` keeps it (`blamed_pushblock`), and so does
  every call (`blamed_step`). -/
namespace Yabtorrent

/-- Peer `x` delivered a block of piece `i`: `__FUNC_peerconn_pushblock` wrote it. -/
def Delivered (t : List Event) (x i : Nat) : Prop := ∃ b : Block, .wrote x b ∈ t ∧ b.pieceIdx = i

theorem Delivered.mono {t t' : List Event} {x i : Nat} (h : Delivered t x i) (ht : t <+: t') :
    Delivered t' x i :=
  let ⟨b, hb, hi⟩ := h
  ⟨b, ht.subset hb, hi⟩

namespace Piece

@[simp] theorem polled_peers (p : Piece) : p.polled.peers = p.peers := by
  unfold polled pollBlockRequest
  cases p.slots.findIdx? (·.state == .missing) <;> rfl

/-- A write adds at most the writer to the piece's contributors. -/
theorem writeBlock_peers {p : Piece} {ok : Bool} {b : Block} {data : List UInt8} {peer x : Nat}
    (hx : x ∈ (p.writeBlock ok b data peer).1.peers) : x ∈ p.peers ∨ x = peer := by
  unfold writeBlock at hx
  dsimp only at hx
  split at hx
  · split at hx
    · exact .inl hx
    · simpa using hx
  · exact .inl hx

end Piece

/-- No piece of the database lists a contributor. -/
def PieceDb.uncredited (db : PieceDb) : Bool := db.pieces.all (·.peers.isEmpty)

namespace Blacklist

/-- Each suspicion `(i, x)` rests on `D x i`, and each ban of `x` on `D x i` for some piece. -/
structure Earned (bl : Blacklist) (D : Nat → Nat → Prop) : Prop where
  suspected : ∀ i x, (i, x) ∈ bl.suspected → D x i
  banned : ∀ x ∈ bl.banned, ∃ i, D x i

variable {bl : Blacklist} {D : Nat → Nat → Prop}

theorem Earned.mono {D' : Nat → Nat → Prop} (h : bl.Earned D) (hD : ∀ x i, D x i → D' x i) :
    bl.Earned D' :=
  ⟨fun i x hs => hD x i (h.suspected i x hs),
    fun x hx => let ⟨i, hi⟩ := h.banned x hx; ⟨i, hD x i hi⟩⟩

theorem Earned.addPeer (h : bl.Earned D) {i x : Nat} (hx : D x i) : (bl.addPeer i x).Earned D := by
  refine ⟨h.suspected, fun y hy => ?_⟩
  rcases List.mem_append.mp hy with hy | hy
  · exact h.banned y hy
  · exact ⟨i, List.mem_singleton.mp hy ▸ hx⟩

theorem Earned.suspect (h : bl.Earned D) {i x : Nat} (hx : D x i) :
    (bl.addPeerAsPotentiallyBlacklisted i x).Earned D := by
  unfold addPeerAsPotentiallyBlacklisted
  dsimp only
  generalize hsus : (if (i, x) ∈ bl.suspected then bl.suspected else bl.suspected ++ [(i, x)]) = sus
  have hs : ∀ j y, (j, y) ∈ sus → D y j := fun j y hy => by
    subst hsus
    split at hy
    · exact h.suspected j y hy
    · rcases List.mem_append.mp hy with hy | hy
      · exact h.suspected j y hy
      · cases List.mem_singleton.mp hy
        exact hx
  split
  · refine ⟨hs, fun y hy => ?_⟩
    rcases List.mem_append.mp hy with hy | hy
    · exact h.banned y hy
    · exact ⟨i, List.mem_singleton.mp hy ▸ hx⟩
  · exact ⟨hs, h.banned⟩

/-- Suspecting, for piece `i`, peers that each rest on `D · i`. -/
theorem Earned.foldl {i : Nat} :
    ∀ (qs : List Nat) {bl : Blacklist}, bl.Earned D → (∀ x ∈ qs, D x i) →
      (qs.foldl (·.addPeerAsPotentiallyBlacklisted i ·) bl).Earned D
  | [], _, h, _ => h
  | q :: qs, _, h, hqs =>
    Earned.foldl qs (h.suspect (hqs q (List.mem_cons_self _ _))) fun x hx =>
      hqs x (List.mem_cons_of_mem _ hx)

end Blacklist

namespace Dm
variable {σ : Type} (S : PieceSelector σ)

/-- What blame rests on: the blacklist, and each piece's contributors. -/
def blame (s : Dm σ) : Blacklist × Option (List (List Nat)) :=
  (s.blacklist, s.pdb.map fun d => d.pieces.map (·.peers))

/-- The trace only grew, and the blacklist and every piece's contributors are as they were. -/
structure Spares (s s' : Dm σ) : Prop where
  trace : s.trace <+: s'.trace
  blame : s'.blame = s.blame

theorem Spares.refl (s : Dm σ) : Spares s s := ⟨List.prefix_refl _, rfl⟩

theorem Spares.trans {s₁ s₂ s₃ : Dm σ} (h₁ : Spares s₁ s₂) (h₂ : Spares s₂ s₃) : Spares s₁ s₃ :=
  ⟨h₁.trace.trans h₂.trace, h₂.blame.trans h₁.blame⟩

theorem spares_foldl {α : Type} {f : Dm σ → α → Dm σ} (hf : ∀ s a, Spares s (f s a)) :
    ∀ (xs : List α) (s : Dm σ), Spares s (xs.foldl f s)
  | [], s => .refl s
  | x :: xs, s => (hf s x).trans (spares_foldl hf xs _)

theorem spares_emit (s : Dm σ) (e : Event) : Spares s (s.emit e) := ⟨List.prefix_append _ _, rfl⟩

theorem spares_select (s : Dm σ) (c : Call) (f : σ → σ) : Spares s (s.select c f) :=
  ⟨List.prefix_append _ _, rfl⟩

theorem spares_peers (s : Dm σ) (l : List Peer) : Spares s { s with peers := l } :=
  ⟨List.prefix_refl _, rfl⟩

theorem spares_setPeer (s : Dm σ) (q : Peer) : Spares s (s.setPeer q) := spares_peers s _

theorem spares_jobs (s : Dm σ) (l : List Job) : Spares s { s with jobs := l } :=
  ⟨List.prefix_refl _, rfl⟩

theorem spares_pselector (s : Dm σ) (o : Option σ) : Spares s { s with pselector := o } :=
  ⟨List.prefix_refl _, rfl⟩

theorem spares_markComplete (s : Dm σ) (i : Nat) : Spares s (s.markComplete i) :=
  ⟨List.prefix_refl _, rfl⟩

/-- A change of a piece that keeps its contributors spares the manager. -/
theorem spares_modifyPiece (s : Dm σ) (i : Nat) (f : Piece → Piece) (hf : ∀ p, (f p).idx = p.idx)
    (hp : ∀ p, (f p).peers = p.peers) : Spares s (s.modifyPiece i f hf) := by
  refine ⟨List.prefix_refl _, ?_⟩
  simp only [blame, modifyPiece_blacklist, modifyPiece_pdb, Option.map_map, Prod.mk.injEq, true_and]
  congr 1
  funext d
  refine List.ext_getElem? fun j => ?_
  simp only [Function.comp_apply, PieceDb.modify_pieces, List.getElem?_map, List.getElem?_modify]
  cases d.pieces[j]? <;> simp only [Option.map_none', Option.map_some', Option.map_eq_map]
  split <;> simp [hp]

theorem spares_sendToPeer (s : Dm σ) (q : Peer) (m : Msg) : Spares s (s.sendToPeer q m).1 := by
  rw [sendToPeer_fst]
  exact spares_emit s _

theorem spares_of_getPiece {s s' : Dm σ} {i : Nat} {o : Option Piece}
    (hg : s.getPiece i = (s', o)) : Spares s s' := by
  have h := congrArg Prod.fst hg
  rw [getPiece_fst] at h
  subst h
  split
  · exact .refl s
  · exact spares_emit s _

theorem spares_of_sendBitfield {s s' : Dm σ} {q : Peer} {ok : Bool}
    (h : s.sendBitfield q = (s', ok)) : Spares s s' := by
  have h₁ := congrArg Prod.fst h
  simp only [sendBitfield] at h₁
  exact h₁ ▸ spares_sendToPeer s q _

/-! ### The manager's callbacks -/

theorem spares_pollblock (s : Dm σ) (ptr : Nat) : Spares s (pollblock s ptr) := by
  unfold pollblock
  split
  · exact spares_jobs s _
  · exact spares_emit s _

theorem spares_givebackBlock (s : Dm σ) (ptr : Nat) (b : Block) :
    Spares s (givebackBlock S s ptr b) := by
  unfold givebackBlock
  split <;> rename_i hg
  · exact (spares_of_getPiece hg).trans
      ((spares_modifyPiece _ _ (f := (·.givebackBlock b)) _ fun _ => rfl).trans (spares_select _ _ _))
  · exact (spares_of_getPiece hg).trans (spares_emit _ _)

theorem spares_sendHave (s : Dm σ) (q : Peer) (i : Nat) : Spares s (s.sendHave q i) := by
  unfold sendHave
  split
  · exact spares_sendToPeer s q _
  · exact .refl s

theorem spares_writeBlockToStream (s : Dm σ) (b : Block) : Spares s (writeBlockToStream s b).1 := by
  unfold writeBlockToStream
  split <;> exact spares_of_getPiece ‹_›

theorem spares_removePeer (s : Dm σ) (ptr : Nat) : Spares s (removePeer S s ptr).1 := by
  unfold removePeer
  split
  · exact (spares_peers s _).trans ((spares_select _ _ _).trans (spares_emit _ _))
  · exact .refl s

theorem spares_offerBlock (s : Dm σ) (ptr : Nat) (b : Block) : Spares s (s.offerBlock ptr b) := by
  unfold offerBlock
  split
  · exact (spares_emit s _).trans ((spares_setPeer _ _).trans (spares_sendToPeer _ _ _))
  · exact spares_emit s _

/-! ### Ticks -/

theorem spares_requestBlocks (ptr i : Nat) :
    ∀ (fuel : Nat) (s : Dm σ), Spares s (requestBlocks s ptr i fuel)
  | 0, s => .refl s
  | fuel + 1, s => by
    unfold requestBlocks
    split
    · split
      · exact .refl s
      · split
        · exact ((spares_modifyPiece _ _ _ _ Piece.polled_peers).trans (spares_offerBlock _ _ _)).trans
            (spares_requestBlocks ptr i fuel _)
        · exact .refl s
    · exact .refl s

theorem spares_pollLoop (ptr : Nat) : ∀ (fuel : Nat) (s : Dm σ), Spares s (pollLoop S s ptr fuel)
  | 0, s => spares_emit s _
  | fuel + 1, s => by
    unfold pollLoop
    split
    · exact spares_emit s _
    · simp only
      split
      · exact (spares_pselector s _).trans (spares_emit _ _)
      · split <;> rename_i hg <;>
          have h := ((spares_pselector s _).trans (spares_emit _ _)).trans (spares_of_getPiece hg)
        · split
          · exact (h.trans (spares_select _ _ _)).trans (spares_pollLoop ptr fuel _)
          · exact h.trans (spares_requestBlocks _ _ _ _)
        · exact h.trans (spares_emit _ _)

theorem spares_dispatchJob (s : Dm σ) (j : Job) : Spares s (dispatchJob S s j) := by
  cases j
  exact spares_pollLoop S _ _ s

theorem spares_drain : ∀ (fuel : Nat) (s : Dm σ), Spares s (drain S s fuel)
  | 0, s => .refl s
  | fuel + 1, s => by
    unfold drain
    split
    · exact .refl s
    · split
      · split
        · exact ((spares_jobs s _).trans (spares_dispatchJob S _ _)).trans (spares_drain fuel _)
        · exact (spares_jobs s _).trans (spares_emit _ _)
      · exact spares_emit s _

theorem spares_peerPeriodic (s : Dm σ) (q : Peer) : Spares s (peerPeriodic s q) := by
  unfold peerPeriodic connPeriodic
  split_ifs
  · exact .refl s
  · exact .refl s
  · exact (spares_emit s _).trans (spares_pollblock _ _)
  · exact spares_emit s _

theorem spares_collectStats (s : Dm σ) (st : Stats) : Spares s (collectStats s st).1 := by
  unfold collectStats
  dsimp only
  suffices ∀ (qs : List Peer) (p : Dm σ × Stats), Spares p.1 (qs.foldl statsVisit p).1 from
    this s.peers (s, _)
  intro qs
  induction qs with
  | nil => exact fun p => .refl p.1
  | cons q qs ih =>
    intro p
    refine Spares.trans ?_ (ih _)
    unfold statsVisit
    split
    · exact .refl p.1
    · exact spares_emit p.1 _

theorem spares_periodic (s : Dm σ) (stats : Option Stats) : Spares s (periodic S s stats).1 := by
  have h : Spares s (if s.amSeeding ∧ s.cfg.getInt "shutdown_when_complete" = 1 then s
      else (drain S s s.jobs.length).peers.foldl peerPeriodic (drain S s s.jobs.length)) := by
    split
    · exact .refl s
    · exact (spares_drain S _ s).trans (spares_foldl spares_peerPeriodic _ _)
  unfold periodic
  simp only
  split
  · exact h.trans (spares_collectStats _ _)
  · exact h

/-! ### Peers and the selector -/

theorem spares_checkPieces (s : Dm σ) : Spares s (checkPieces S s) := by
  refine spares_foldl (fun s i => ?_) _ s
  split <;> rename_i hg <;> have h := spares_of_getPiece hg
  · split
    · exact (h.trans (spares_select _ _ _)).trans (spares_markComplete _ _)
    · exact h
  · exact h

theorem spares_addPeer (s : Dm σ) (peerId : String) (peerIdLen : Nat) (ip : String) (ipLen : Nat)
    (port : Int) (nh : Option Nat) : Spares s (addPeer S s peerId peerIdLen ip ipLen port nh).1 := by
  rcases addPeer_cases S s peerId peerIdLen ip ipLen port nh with
    he | ⟨q, -, -, -, he | he | ⟨_, he⟩⟩ <;> rw [he] <;>
    exact ⟨by simp [remember_eq, accept], by simp [blame, remember_eq, accept]⟩

theorem spares_peerConnect (s : Dm σ) (h : Nat) (ip : String) (port : Int) :
    Spares s (peerConnect S s h ip port).1 := by
  unfold peerConnect
  split
  · exact spares_sendToPeer _ _ _
  · have ha := spares_addPeer S s "" 0 ip ip.length port (some h)
    split <;> rename_i he <;> rw [he] at ha
    · exact ha.trans (spares_sendToPeer _ _ _)
    · exact ha

theorem spares_peerConnectFail (s : Dm σ) (h : Nat) : Spares s (s.peerConnectFail h) := by
  unfold peerConnectFail
  split
  · exact ⟨List.prefix_refl _, rfl⟩
  · exact .refl s

/-! ### The invariant -/

/-- Every contributor a piece lists delivered a block of it, and the blacklist rests on
deliveries. -/
structure Blamed (s : Dm σ) : Prop where
  credited : ∀ d ∈ s.pdb, ∀ (i : Nat) (p : Piece), d.pieces[i]? = some p → ∀ x ∈ p.peers,
    Delivered s.trace x i
  earned : s.blacklist.Earned (Delivered s.trace)

theorem Blamed.spare {s s' : Dm σ} (h : Blamed s) (hs : Spares s s') : Blamed s' := by
  obtain ⟨hbl, hdb⟩ := Prod.mk.inj hs.blame
  refine ⟨fun d' hd' i p' hp' x hx => ?_, hbl ▸ h.earned.mono fun _ _ hd => hd.mono hs.trace⟩
  rw [Option.mem_def.mp hd', Option.map_some'] at hdb
  obtain ⟨d, hd, hg⟩ := Option.map_eq_some'.mp hdb.symm
  have hi : (d.pieces.map (·.peers))[i]? = some p'.peers := by rw [hg, List.getElem?_map, hp']; rfl
  obtain ⟨p, hp, hpp⟩ := Option.map_eq_some'.mp (List.getElem?_map _ _ _ ▸ hi)
  exact (h.credited d hd i p hp x (hpp ▸ hx)).mono hs.trace

/-- The write of `__FUNC_peerconn_pushblock`: the piece gains at most the writer as a
contributor, and the trace its delivery. -/
theorem Blamed.write {s : Dm σ} (h : Blamed s) {db : PieceDb} (hdb : s.pdb = some db) (ptr : Nat)
    (b : Block) (ok : Bool) (data : List UInt8) (hf) :
    Blamed ((s.modifyPiece b.pieceIdx (fun q => (q.writeBlock ok b data ptr).1) hf).emit
      (.wrote ptr b)) := by
  have ht : s.trace <+: s.trace ++ [.wrote ptr b] := List.prefix_append _ _
  refine ⟨fun d' hd' j p' hp' x hx => ?_, h.earned.mono fun _ _ hd => hd.mono ht⟩
  simp only [emit_pdb, modifyPiece_pdb, hdb, Option.map_some', Option.mem_def, Option.some.injEq]
    at hd'
  subst hd'
  simp only [PieceDb.modify_pieces, List.getElem?_modify] at hp'
  cases hq : db.pieces[j]? with
  | none => simp [hq] at hp'
  | some q =>
    have hc := h.credited db hdb j q hq
    simp only [hq, Option.map_eq_map, Option.map_some', Option.some.injEq] at hp'
    split at hp'
    · subst hp'
      rcases Piece.writeBlock_peers hx with hx | rfl
      · exact (hc x hx).mono ht
      · exact ⟨b, List.mem_append_right _ (List.mem_singleton_self _), ‹_›⟩
    · exact (hc x (hp' ▸ hx)).mono ht

/-- A ban of a peer that delivered a block. -/
theorem Blamed.ban {s : Dm σ} (h : Blamed s) {i x : Nat} (hx : Delivered s.trace x i) :
    Blamed { s with blacklist := s.blacklist.addPeer i x } :=
  ⟨h.credited, h.earned.addPeer hx⟩

/-- Suspicions, for piece `i`, of peers that each delivered a block of it. -/
theorem Blamed.suspect {s : Dm σ} (h : Blamed s) {i : Nat} {qs : List Nat}
    (hqs : ∀ x ∈ qs, Delivered s.trace x i) :
    Blamed { s with blacklist := qs.foldl (·.addPeerAsPotentiallyBlacklisted i ·) s.blacklist } :=
  ⟨h.credited, h.earned.foldl qs hqs⟩

theorem blamed_pushblock {s : Dm σ} (h : Blamed s) (ptr : Nat) (b : Block) (data : List UInt8) :
    Blamed (pushblock S s ptr b data) := by
  unfold pushblock
  split
  · exact h.spare (spares_emit _ _)
  · rename_i db hdb
    split
    · exact h.spare (spares_emit _ _)
    · rename_i p hp
      have hidx := PieceDb.idx_of_getElem? hp
      have hw := h.write hdb ptr b (db.disk b data) data (Piece.writeBlock_idx · _ _ _ _)
      simp only
      split
      · exact hw.spare (((spares_select _ _ _).trans (spares_markComplete _ _)).trans
          (spares_foldl (fun s q => spares_sendHave s q _) _ _))
      · split
        · split
          · exact hw.ban ⟨b, List.mem_append_right _ (List.mem_singleton_self _), hidx.symm⟩
          · rw [foldl_suspect]
            have hc : ∀ x ∈ (p.writeBlock (db.disk b data) b data ptr).1.peers,
                Delivered (s.trace ++ [.wrote ptr b]) x p.idx := by
              rw [hidx]
              exact hw.credited (db.modify b.pieceIdx (fun q => (q.writeBlock (db.disk b data) b data ptr).1)
                (Piece.writeBlock_idx · _ _ _ _)) (by simp [hdb]) b.pieceIdx _ (by simp [hp])
            exact (hw.suspect hc).spare
              ((spares_modifyPiece _ _ (f := (·.dropDownloadProgress)) _ fun _ => rfl).trans
                (spares_select _ _ _))
        · exact hw

/-! ### Inbound bytes -/

theorem blamed_connMsg {s : Dm σ} (h : Blamed s) (q : Peer) (m : Msg) :
    Blamed (connMsg S s q m).1 := by
  cases m with
  | piece i off data => exact (blamed_pushblock S h _ _ _).spare (spares_pollblock _ _)
  | choke => exact h.spare (spares_foldl (fun s b => spares_givebackBlock S s _ b) _ _)
  | unchoke => exact h.spare (spares_pollblock s _)
  | «have» i =>
    simp only [connMsg]
    split
    · exact h.spare ((spares_select _ _ _).trans (spares_sendToPeer _ _ _))
    · exact h.spare (spares_select _ _ _)
  | bitfield bits =>
    simp only [connMsg]
    split
    · exact h
    · exact h.spare (spares_foldl (f := fun s i => peerHavePiece S s q.ptr i)
        (fun _ _ => spares_select _ _ _) _ _)
  | request b =>
    simp only [connMsg]
    split
    · exact h
    · have hw := spares_writeBlockToStream s b
      split <;> rename_i he <;> rw [he] at hw
      · exact h.spare (hw.trans (spares_sendToPeer _ _ _))
      · exact h.spare hw
  | keepAlive | interested | notInterested | cancel _ | handshake _ _ => exact h

theorem blamed_msgLoop : ∀ (fuel : Nat) {s : Dm σ} (q : Peer) (buf : List UInt8), Blamed s →
    Blamed (msgLoop S s q buf fuel).1
  | 0, _, _, _, h => h
  | fuel + 1, s, q, buf, h => by
    unfold msgLoop
    split
    · exact h
    · exact h
    · split
      · exact h
      · rename_i m _
        have hm := blamed_connMsg S h q m
        split <;> rename_i hd <;> rw [hd] at hm
        · exact blamed_msgLoop fuel _ _ hm
        · exact hm

theorem blamed_dispatchMessages {s : Dm σ} (h : Blamed s) (q : Peer) (bytes : List UInt8) :
    Blamed (dispatchMessages S s q bytes).1 := by
  unfold dispatchMessages msghandlerDispatch
  split
  · rename_i mh _
    have hl := blamed_msgLoop S (mh.buf ++ bytes).length q (mh.buf ++ bytes) (h.spare (spares_emit s (.fed q.ptr bytes)))
    generalize msgLoop S (s.emit (.fed q.ptr bytes)) q (mh.buf ++ bytes) (mh.buf ++ bytes).length = r at hl
    obtain ⟨s', q', rest, ok⟩ := r
    cases ok
    · exact hl.spare ((spares_setPeer s' _).trans (spares_removePeer S _ _))
    · exact hl.spare (spares_setPeer s' _)
  · exact h.spare (spares_emit s _)

theorem blamed_dispatchFromBuffer {s : Dm σ} (h : Blamed s) (nh : Nat) (buf : List UInt8) :
    Blamed (dispatchFromBuffer S s nh buf).1 := by
  unfold dispatchFromBuffer
  split
  · exact h
  · split
    · exact blamed_dispatchMessages S h _ buf
    · split
      · split
        · simp only
          split <;> rename_i hb <;>
            have h₂ := h.spare (((spares_emit s _).trans (spares_setPeer _ _)).trans
              (spares_of_sendBitfield hb))
          · exact blamed_dispatchMessages S h₂ _ _
          · exact blamed_dispatchMessages S (h₂.spare (spares_removePeer S _ _)) _ _
        · exact h.spare ((spares_emit s _).trans (spares_setPeer _ _))
      · exact h.spare (spares_emit s _)

/-! ### Runs -/

theorem blamed_new : Blamed (new : Dm σ) :=
  ⟨fun _ hd => by simp [new] at hd, ⟨fun _ _ h => by simp [new, Blacklist.empty] at h,
    fun _ h => by simp [new, Blacklist.empty] at h⟩⟩

theorem blamed_step {s : Dm σ} (h : Blamed s) (op : Op σ)
    (hop : ∀ db, op = .setPieceDb db → db.uncredited = true) : Blamed (step S s op) := by
  cases op with
  | setPieceDb db =>
    refine ⟨fun d hd i p hp x hx => ?_, h.earned⟩
    simp only [step, setPieceDb, Option.mem_def, Option.some.injEq] at hd
    subst hd
    have hu := List.all_eq_true.mp (hop _ rfl) p (List.getElem?_mem hp)
    simp [List.isEmpty_iff.mp hu] at hx
  | setPieceSelector given =>
    exact h.spare ((spares_pselector s _).trans (spares_checkPieces S _))
  | setCbs cb => exact ⟨h.credited, h.earned⟩
  | configSet k v => exact ⟨h.credited, h.earned⟩
  | addPeer peerId peerIdLen ip ipLen port nh => exact h.spare (spares_addPeer S s _ _ _ _ _ _)
  | removePeer ptr => exact h.spare (spares_removePeer S s ptr)
  | peerConnect nh ip port => exact h.spare (spares_peerConnect S s nh ip port)
  | peerConnectFail nh => exact h.spare (spares_peerConnectFail s nh)
  | dispatchFromBuffer nh buf => exact blamed_dispatchFromBuffer S h nh buf
  | periodic stats => exact h.spare (spares_periodic S s stats)

theorem blamed_run : ∀ (ops : List (Op σ)) {s : Dm σ}, Blamed s →
    (∀ db, .setPieceDb db ∈ ops → db.uncredited = true) → Blamed (run S s ops)
  | [], _, h, _ => h
  | op :: ops, _, h, hops =>
    blamed_run ops (blamed_step S h op fun db e => hops db (e ▸ List.mem_cons_self _ _))
      fun db hd => hops db (List.mem_cons_of_mem _ hd)

/-- **The blacklist rests on deliveries.** In every run from `bt_dm_new`, whatever the host
calls in whatever order, provided every database it installs lists no contributors: the
blacklist suspects a peer for a piece only when the peer delivered a block of that piece, and
bans a peer only when it delivered a block. -/
theorem blacklist_rests_on_deliveries (ops : List (Op σ))
    (hops : ∀ db, .setPieceDb db ∈ ops → db.uncredited = true) :
    (run S new ops).blacklist.Earned (Delivered (run S new ops).trace) :=
  (blamed_run S ops blamed_new hops).earned

theorem blacklist_rests_on_deliveries_corrupt :
    (∀ db, .setPieceDb db ∈ configure onePiece "2" host ++ unchokedBy ++
      [.periodic none, .dispatchFromBuffer 7 (Msg.encode (.piece 0 0 [9, 9]))] → db.uncredited = true) ∧
      corruptSingleSource.blacklist.Earned (Delivered corruptSingleSource.trace) := by
  have hops : ∀ db, .setPieceDb db ∈ configure onePiece "2" host ++ unchokedBy ++
      [.periodic none, .dispatchFromBuffer 7 (Msg.encode (.piece 0 0 [9, 9]))] →
      db.uncredited = true := by
    intro db hdb
    simp only [configure, unchokedBy, List.cons_append, List.nil_append, List.mem_cons,
      Op.setPieceDb.injEq, reduceCtorEq, false_or, or_false, List.mem_singleton,
      List.not_mem_nil] at hdb
    subst hdb
    rfl
  exact ⟨hops, blacklist_rests_on_deliveries sequential _ hops⟩

end Dm

end Yabtorrent
