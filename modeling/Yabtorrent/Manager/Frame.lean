import Yabtorrent.Manager.Entry

/-! What no call into the download manager undoes.

`Grows s s'` is everything a callback, a connection's handling of inbound bytes, a tick or a
setter may do to the manager: the peer manager loses peers, and changes the records of the
others only as `Peer.Keeps` allows (the same peer at the same address, FAILED_CONNECTION never
cleared, a formed record still formed); no peer identity is handed out and nothing joins the
leeching choker; marks in `pieces_completed`, bans and an installed selector stay; and events
are only appended, a connection step only for a peer held and not failed, and no peer
registered with the selector (only `bt_dm_add_peer` calls `add_peer`). Every entry point but
`bt_dm_add_peer` and `bt_dm_peer_connect`, the two that add a peer, grows the manager
(`step_grows`). -/
namespace Yabtorrent

namespace Peer

/-- A record as a successful `bt_dm_add_peer` leaves it: a handshaker until
HANDSHAKE_RECEIVED, a message handler after. -/
def formed (q : Peer) : Bool :=
  match q.mh with
  | some (.handshaker _) => !q.pc.handshakeReceived
  | some (.msghandler _) => q.pc.handshakeReceived
  | none => false

/-- What may become of a record while the peer manager holds it. -/
structure Keeps (q q' : Peer) : Prop where
  ptr : q'.ptr = q.ptr
  addr : (q'.ip, q'.port) = (q.ip, q.port)
  failed : q.pc.failedConnection = true → q'.pc.failedConnection = true
  formed : q.formed = true → q'.formed = true

theorem Keeps.refl (q : Peer) : q.Keeps q := ⟨rfl, rfl, id, id⟩

theorem Keeps.trans {q₁ q₂ q₃ : Peer} (h₁ : q₁.Keeps q₂) (h₂ : q₂.Keeps q₃) : q₁.Keeps q₃ :=
  ⟨h₂.ptr.trans h₁.ptr, h₂.addr.trans h₁.addr, h₂.failed ∘ h₁.failed, h₂.formed ∘ h₁.formed⟩

/-- What a connection's handling of a message leaves as it was: the peer and its address, its
handler, and its handshake and failure flags. -/
structure Handled (q q' : Peer) : Prop where
  ptr : q'.ptr = q.ptr
  addr : (q'.ip, q'.port) = (q.ip, q.port)
  mh : q'.mh = q.mh
  received : q'.pc.handshakeReceived = q.pc.handshakeReceived
  failed : q'.pc.failedConnection = q.pc.failedConnection

theorem Handled.refl (q : Peer) : q.Handled q := ⟨rfl, rfl, rfl, rfl, rfl⟩

theorem Handled.trans {q₁ q₂ q₃ : Peer} (h₁ : q₁.Handled q₂) (h₂ : q₂.Handled q₃) :
    q₁.Handled q₃ :=
  ⟨h₂.ptr.trans h₁.ptr, h₂.addr.trans h₁.addr, h₂.mh.trans h₁.mh, h₂.received.trans h₁.received,
    h₂.failed.trans h₁.failed⟩

end Peer

namespace Dm
variable {σ : Type} (S : PieceSelector σ)

/-- `s'` is `s` after callbacks, inbound bytes, ticks or setters. -/
structure Grows (s s' : Dm σ) : Prop where
  peers : ∀ q' ∈ s'.peers, ∃ q ∈ s.peers, q.Keeps q'
  ptrs : (s'.peers.map (·.ptr)).Sublist (s.peers.map (·.ptr))
  nextPeer : s'.nextPeer = s.nextPeer
  lchoke : s'.lchoke = s.lchoke
  completed : s.piecesCompleted <+: s'.piecesCompleted
  banned : s.blacklist.banned <+: s'.blacklist.banned
  installed : s.pselector.isSome → s'.pselector.isSome
  trace : ∃ new, s'.trace = s.trace ++ new ∧
    (∀ x, .stepped x ∈ new → ∃ q ∈ s.peers, q.ptr = x ∧ q.pc.failedConnection = false) ∧
    ∀ x, .selected (.addPeer x) ∉ new

/-- Replacing a peer's record keeps its identity. -/
@[simp] theorem ptr_replace (r q : Peer) : (if r.ptr = q.ptr then q else r).ptr = r.ptr := by
  split <;> simp_all

theorem setPeer_ptrs (s : Dm σ) (q : Peer) :
    (s.setPeer q).peers.map (·.ptr) = s.peers.map (·.ptr) := by
  simp

namespace Grows

theorem refl (s : Dm σ) : Grows s s :=
  ⟨fun q h => ⟨q, h, .refl q⟩, .refl _, rfl, rfl, List.prefix_refl _, List.prefix_refl _, id,
    ⟨[], by simp, by simp, by simp⟩⟩

theorem trans {s₁ s₂ s₃ : Dm σ} (h₁ : Grows s₁ s₂) (h₂ : Grows s₂ s₃) : Grows s₁ s₃ := by
  obtain ⟨n₁, e₁, hn₁, hr₁⟩ := h₁.trace
  obtain ⟨n₂, e₂, hn₂, hr₂⟩ := h₂.trace
  refine ⟨fun q₃ h => ?_, h₂.ptrs.trans h₁.ptrs, h₂.nextPeer.trans h₁.nextPeer,
    h₂.lchoke.trans h₁.lchoke, h₁.completed.trans h₂.completed, h₁.banned.trans h₂.banned,
    h₂.installed ∘ h₁.installed, n₁ ++ n₂, by rw [e₂, e₁, List.append_assoc], fun x hx => ?_,
    fun x hx => (List.mem_append.mp hx).elim (hr₁ x) (hr₂ x)⟩
  · obtain ⟨q₂, hq₂, k₂⟩ := h₂.peers q₃ h
    obtain ⟨q₁, hq₁, k₁⟩ := h₁.peers q₂ hq₂
    exact ⟨q₁, hq₁, k₁.trans k₂⟩
  · rcases List.mem_append.mp hx with hx | hx
    · exact hn₁ x hx
    · obtain ⟨q₂, hq₂, rfl, hf⟩ := hn₂ x hx
      obtain ⟨q₁, hq₁, k⟩ := h₁.peers q₂ hq₂
      refine ⟨q₁, hq₁, k.ptr.symm, ?_⟩
      cases h : q₁.pc.failedConnection
      · rfl
      · simpa [hf] using k.failed h

/-- A change that leaves the peer manager, the identities and the choker alone, takes back no
mark, ban or selector, and appends events that are no connection step and register no peer. -/
theorem of_peers {s s' : Dm σ} (hp : s'.peers = s.peers) (hn : s'.nextPeer = s.nextPeer)
    (hl : s'.lchoke = s.lchoke) (hc : s.piecesCompleted <+: s'.piecesCompleted)
    (hb : s.blacklist.banned <+: s'.blacklist.banned)
    (hi : s.pselector.isSome → s'.pselector.isSome) (new : List Event)
    (ht : s'.trace = s.trace ++ new) (hx : ∀ x, .stepped x ∉ new ∧ .selected (.addPeer x) ∉ new) :
    Grows s s' :=
  ⟨fun q h => ⟨q, hp ▸ h, .refl q⟩, hp ▸ .refl _, hn, hl, hc, hb, hi,
    ⟨new, ht, fun x h => absurd h (hx x).1, fun x => (hx x).2⟩⟩

/-- The peer manager's record of `q`'s peer replaced by `q`, which some record of `s` becomes
when `s₁` holds that peer. -/
theorem setPeer {s s₁ : Dm σ} (h : Grows s s₁) (q : Peer)
    (hq : ∀ r ∈ s₁.peers, r.ptr = q.ptr → ∃ r₀ ∈ s.peers, r₀.Keeps q) : Grows s (s₁.setPeer q) := by
  refine ⟨fun q' hq' => ?_, ?_, h.nextPeer, h.lchoke, h.completed, h.banned, h.installed, h.trace⟩
  · obtain ⟨r, hr, rfl⟩ := List.mem_map.mp hq'
    by_cases he : r.ptr = q.ptr
    · simpa [he] using hq r hr he
    · simpa [he] using h.peers r hr
  · exact (setPeer_ptrs s₁ q).symm ▸ h.ptrs

theorem mem_trace {s s' : Dm σ} (h : Grows s s') {e : Event} (he : e ∈ s.trace) : e ∈ s'.trace := by
  obtain ⟨new, ht, -⟩ := h.trace
  simp [ht, he]

/-- No connection step is added for a peer all of whose records have failed. -/
theorem not_stepped {s s' : Dm σ} (h : Grows s s') {p : Nat}
    (hf : ∀ q ∈ s.peers, q.ptr = p → q.pc.failedConnection = true) :
    .stepped p ∉ s'.trace.drop s.trace.length := by
  obtain ⟨new, ht, hn, -⟩ := h.trace
  intro hp
  obtain ⟨q, hq, rfl, hq'⟩ := hn _ (by simpa [ht] using hp)
  simp [hf q hq rfl] at hq'

end Grows

theorem grows_emit (s : Dm σ) {e : Event} (he : ∀ x, e ≠ .stepped x ∧ e ≠ .selected (.addPeer x)) :
    Grows s (s.emit e) :=
  .of_peers rfl rfl rfl (List.prefix_refl _) (List.prefix_refl _) id [e] rfl fun x =>
    ⟨fun h => (he x).1 (List.mem_singleton.mp h).symm, fun h => (he x).2 (List.mem_singleton.mp h).symm⟩

/-- The one event a connection step adds: `__FUNC_peer_periodic` for a peer held and not
failed. -/
theorem grows_emit_stepped (s : Dm σ) {q : Peer} (hq : q ∈ s.peers)
    (hf : q.pc.failedConnection = false) : Grows s (s.emit (.stepped q.ptr)) :=
  ⟨fun q h => ⟨q, h, .refl q⟩, .refl _, rfl, rfl, List.prefix_refl _, List.prefix_refl _, id,
    ⟨[_], rfl, fun x h => ⟨q, hq, by simpa [eq_comm] using h, hf⟩, by simp⟩⟩

/-- A call into the selector other than `add_peer`. -/
theorem grows_select (s : Dm σ) (c : Call) (f : σ → σ) (hc : ∀ x, c ≠ .addPeer x) :
    Grows s (s.select c f) :=
  .of_peers rfl rfl rfl (List.prefix_refl _) (List.prefix_refl _) (by simp) [_] rfl
    fun x => by split <;> simp [Ne.symm (hc x)]

theorem grows_markComplete (s : Dm σ) (i : Nat) : Grows s (s.markComplete i) :=
  .of_peers rfl rfl rfl (markComplete_keeps_marks s i) (List.prefix_refl _) id [] (by simp) (by simp)

theorem grows_modifyPiece (s : Dm σ) (i : Nat) (f : Piece → Piece) (hf : ∀ p, (f p).idx = p.idx) :
    Grows s (s.modifyPiece i f hf) :=
  .of_peers rfl rfl rfl (List.prefix_refl _) (List.prefix_refl _) id [] (by simp) (by simp)

theorem grows_jobs (s : Dm σ) (jobs : List Job) : Grows s { s with jobs := jobs } :=
  .of_peers rfl rfl rfl (List.prefix_refl _) (List.prefix_refl _) id [] (by simp) (by simp)

theorem grows_blacklist (s : Dm σ) {bl : Blacklist} (h : s.blacklist.banned <+: bl.banned) :
    Grows s { s with blacklist := bl } :=
  .of_peers rfl rfl rfl (List.prefix_refl _) h id [] (by simp) (by simp)

theorem grows_pselector (s : Dm σ) (st : σ) : Grows s { s with pselector := some st } :=
  .of_peers rfl rfl rfl (List.prefix_refl _) (List.prefix_refl _) (by simp) [] (by simp) (by simp)

theorem grows_sendToPeer (s : Dm σ) (q : Peer) (m : Msg) : Grows s (s.sendToPeer q m).1 := by
  rw [sendToPeer_fst]
  exact grows_emit s fun x => by split <;> simp

theorem grows_getPiece (s : Dm σ) (i : Nat) : Grows s (s.getPiece i).1 := by
  rw [getPiece_fst]
  split
  · exact .refl s
  · exact grows_emit s (by simp)

theorem peers_of_getPiece {s s' : Dm σ} {i : Nat} {o : Option Piece} (h : s.getPiece i = (s', o)) :
    s'.peers = s.peers := by
  have h' : (if s.pdb.isSome then s else s.emit (.failed .noPieceDb)) = s' := by
    simpa [getPiece_fst] using congrArg Prod.fst h
  subst h'
  split <;> rfl

theorem grows_of_getPiece {s s' : Dm σ} {i : Nat} {o : Option Piece} (h : s.getPiece i = (s', o)) :
    Grows s s' := by
  simpa [h] using grows_getPiece s i

theorem grows_foldl {α : Type} (f : Dm σ → α → Dm σ) (hf : ∀ s a, Grows s (f s a)) :
    ∀ (xs : List α) (s : Dm σ), Grows s (xs.foldl f s)
  | [], s => .refl s
  | x :: xs, s => (hf s x).trans (grows_foldl f hf xs _)

@[simp] theorem sendToPeer_peers (s : Dm σ) (q : Peer) (m : Msg) :
    (s.sendToPeer q m).1.peers = s.peers := by
  simp

/-! ### Callbacks -/

/-- After `bt_dm_remove_peer`, no record of the peer is left. -/
theorem removePeer_gone (s : Dm σ) (ptr : Nat) : ∀ r ∈ (removePeer S s ptr).1.peers, r.ptr ≠ ptr := by
  unfold removePeer
  split
  · intro r hr
    simpa using (List.mem_filter.mp hr).2
  · rename_i h
    simp only [List.any_eq_true, beq_iff_eq, not_exists, not_and] at h
    exact h

theorem grows_removePeer (s : Dm σ) (ptr : Nat) : Grows s (removePeer S s ptr).1 := by
  unfold removePeer
  split
  · have hf : Grows s { s with peers := s.peers.filter (·.ptr != ptr) } :=
      ⟨fun q h => ⟨q, (List.mem_filter.mp h).1, .refl q⟩, (List.filter_sublist _).map _, rfl, rfl,
        List.prefix_refl _, List.prefix_refl _, id, ⟨[], by simp, by simp, by simp⟩⟩
    exact (hf.trans (grows_select _ _ _ (by simp))).trans (grows_emit _ (by simp))
  · exact .refl s

theorem grows_pollblock (s : Dm σ) (ptr : Nat) : Grows s (pollblock s ptr) := by
  unfold pollblock
  split
  · exact grows_jobs s _
  · exact grows_emit s (by simp)

theorem grows_peerHavePiece (s : Dm σ) (ptr idx : Nat) : Grows s (peerHavePiece S s ptr idx) :=
  grows_select s _ _ (by simp)

theorem grows_givebackBlock (s : Dm σ) (ptr : Nat) (b : Block) :
    Grows s (givebackBlock S s ptr b) := by
  unfold givebackBlock
  split <;> rename_i h
  · exact ((grows_of_getPiece h).trans (grows_modifyPiece _ _ _ _)).trans (grows_select _ _ _ (by simp))
  · exact (grows_of_getPiece h).trans (grows_emit _ (by simp))

theorem grows_sendHave (s : Dm σ) (q : Peer) (idx : Nat) : Grows s (s.sendHave q idx) := by
  unfold sendHave
  split
  · exact grows_sendToPeer s q _
  · exact .refl s

/-- The suspicions of `__FUNC_peerconn_pushblock`'s invalid-piece branch touch the blacklist
only. -/
theorem foldl_suspect (i : Nat) (qs : List Nat) (s : Dm σ) :
    qs.foldl (fun s q => { s with blacklist := s.blacklist.addPeerAsPotentiallyBlacklisted i q }) s =
      { s with blacklist := qs.foldl (·.addPeerAsPotentiallyBlacklisted i ·) s.blacklist } := by
  induction qs generalizing s with
  | nil => rfl
  | cons q qs ih => exact ih _

theorem grows_pushblock (s : Dm σ) (ptr : Nat) (b : Block) (data : List UInt8) :
    Grows s (pushblock S s ptr b data) := by
  unfold pushblock
  split
  · exact grows_emit _ (by simp)
  · split
    · exact grows_emit _ (by simp)
    · have h₁ : ∀ f hf, Grows s ((s.modifyPiece b.pieceIdx f hf).emit (.wrote ptr b)) :=
        fun f hf => (grows_modifyPiece s _ f hf).trans (grows_emit _ (by simp))
      simp only
      split
      · exact ((h₁ _ _).trans ((grows_select _ _ _ (by simp)).trans (grows_markComplete _ _))).trans
          (grows_foldl _ (fun s q => grows_sendHave s q _) _ _)
      · split
        · split
          · exact (h₁ _ _).trans (grows_blacklist _ (List.prefix_append _ _))
          · rw [foldl_suspect]
            exact (((h₁ _ _).trans (grows_blacklist _ (Blacklist.banned_prefix_foldl _ _ _))).trans
              (grows_modifyPiece _ _ _ _)).trans (grows_select _ _ _ (by simp))
        · exact h₁ _ _

theorem grows_writeBlockToStream (s : Dm σ) (b : Block) : Grows s (writeBlockToStream s b).1 := by
  unfold writeBlockToStream
  split <;> exact grows_of_getPiece ‹_›

theorem grows_offerBlock (s : Dm σ) (ptr : Nat) (b : Block) : Grows s (s.offerBlock ptr b) := by
  unfold offerBlock
  split
  · rename_i q hq
    refine Grows.trans ?_ (grows_sendToPeer _ _ _)
    exact (grows_emit s (by simp)).setPeer _ fun _ _ _ =>
      ⟨q, List.mem_of_find?_eq_some hq, ⟨rfl, rfl, id, id⟩⟩
  · exact grows_emit s (by simp)

/-! ### Dispatching a job -/

theorem grows_requestBlocks (ptr i : Nat) :
    ∀ (fuel : Nat) (s : Dm σ), Grows s (requestBlocks s ptr i fuel)
  | 0, s => .refl s
  | fuel + 1, s => by
    unfold requestBlocks
    split
    · split
      · exact .refl s
      · split
        · exact ((grows_modifyPiece _ _ _ _).trans (grows_offerBlock _ _ _)).trans
            (grows_requestBlocks ptr i fuel _)
        · exact .refl s
    · exact .refl s

theorem grows_pollLoop (ptr : Nat) : ∀ (fuel : Nat) (s : Dm σ), Grows s (pollLoop S s ptr fuel)
  | 0, s => grows_emit s (by simp)
  | fuel + 1, s => by
    unfold pollLoop
    split
    · exact grows_emit s (by simp)
    · rename_i st _
      have h₁ : Grows s ({ s with pselector := some (S.pollPiece st ptr).1 }.emit
          (.selected (.pollPiece ptr))) :=
        (grows_pselector s _).trans (grows_emit _ (by simp))
      simp only
      split
      · exact h₁
      · split <;> rename_i hg
        · have h₂ := h₁.trans (grows_of_getPiece hg)
          split
          · exact (h₂.trans (grows_select _ _ _ (by simp))).trans (grows_pollLoop ptr fuel _)
          · exact h₂.trans (grows_requestBlocks _ _ _ _)
        · exact (h₁.trans (grows_of_getPiece hg)).trans (grows_emit _ (by simp))

theorem grows_dispatchJob (s : Dm σ) (j : Job) : Grows s (dispatchJob S s j) := by
  cases j
  exact grows_pollLoop S _ _ s

theorem grows_checkPieces (s : Dm σ) : Grows s (checkPieces S s) := by
  refine grows_foldl _ (fun s i => ?_) _ s
  split <;> rename_i hg
  · split
    · exact ((grows_of_getPiece hg).trans (grows_select _ _ _ (by simp))).trans (grows_markComplete _ _)
    · exact grows_of_getPiece hg
  · exact grows_of_getPiece hg

/-! ### Inbound bytes -/

/-- A connection's answer to one message grows the manager and keeps the peer's handler and
flags. -/
theorem grows_connMsg (s : Dm σ) (q : Peer) (m : Msg) :
    Grows s (connMsg S s q m).1 ∧ q.Handled (connMsg S s q m).2.1 := by
  match m with
  | .keepAlive | .interested | .notInterested | .cancel _ => exact ⟨.refl s, ⟨rfl, rfl, rfl, rfl, rfl⟩⟩
  | .handshake _ _ => exact ⟨.refl s, .refl q⟩
  | .choke =>
    exact ⟨grows_foldl _ (fun s b => grows_givebackBlock S s q.ptr b) _ _, ⟨rfl, rfl, rfl, rfl, rfl⟩⟩
  | .unchoke => exact ⟨grows_pollblock s q.ptr, ⟨rfl, rfl, rfl, rfl, rfl⟩⟩
  | .have i =>
    simp only [connMsg]
    split
    · exact ⟨(grows_peerHavePiece S s _ _).trans (grows_sendToPeer _ _ _), ⟨rfl, rfl, rfl, rfl, rfl⟩⟩
    · exact ⟨grows_peerHavePiece S s _ _, ⟨rfl, rfl, rfl, rfl, rfl⟩⟩
  | .bitfield bits =>
    simp only [connMsg]
    split
    · exact ⟨.refl s, .refl q⟩
    · exact ⟨grows_foldl _ (fun s i => grows_peerHavePiece S s q.ptr i) _ _, ⟨rfl, rfl, rfl, rfl, rfl⟩⟩
  | .request b =>
    simp only [connMsg]
    split
    · exact ⟨.refl s, ⟨rfl, rfl, rfl, rfl, rfl⟩⟩
    · have h := grows_writeBlockToStream s b
      split <;> rename_i hw <;> rw [hw] at h
      · exact ⟨h.trans (grows_sendToPeer _ _ _), ⟨rfl, rfl, rfl, rfl, rfl⟩⟩
      · exact ⟨h, ⟨rfl, rfl, rfl, rfl, rfl⟩⟩
  | .piece i off data =>
    exact ⟨(grows_pushblock S s _ _ _).trans (grows_pollblock _ _), ⟨rfl, rfl, rfl, rfl, rfl⟩⟩

theorem grows_msgLoop (s : Dm σ) (q : Peer) (buf : List UInt8) (fuel : Nat) :
    Grows s (msgLoop S s q buf fuel).1 ∧ q.Handled (msgLoop S s q buf fuel).2.1 := by
  induction fuel generalizing s q buf with
  | zero => exact ⟨.refl s, .refl q⟩
  | succ fuel ih =>
    unfold msgLoop
    split
    · exact ⟨.refl s, .refl q⟩
    · exact ⟨.refl s, .refl q⟩
    · split
      · exact ⟨.refl s, .refl q⟩
      · rename_i m _
        have h := grows_connMsg S s q m
        split <;> rename_i hc <;> rw [hc] at h
        · exact ⟨h.1.trans (ih _ _ _).1, h.2.trans (ih _ _ _).2⟩
        · exact h

/-- The message handler's run on a peer that has one keeps its record. -/
theorem grows_msghandlerDispatch (s : Dm σ) {q : Peer} {m : MsgHandler} (bytes : List UInt8)
    (hm : q.mh = some (.msghandler m)) :
    Grows s (msghandlerDispatch S s q m bytes).1 ∧ q.Keeps (msghandlerDispatch S s q m bytes).2.1 := by
  have h := grows_msgLoop S s q (m.buf ++ bytes) (m.buf ++ bytes).length
  unfold msghandlerDispatch
  generalize msgLoop S s q (m.buf ++ bytes) (m.buf ++ bytes).length = r at h
  obtain ⟨s', q', rest, ok⟩ := r
  refine ⟨h.1, h.2.ptr, h.2.addr, fun hf => h.2.failed.trans hf, fun hf => ?_⟩
  have : q.pc.handshakeReceived = true := by simpa [Peer.formed, hm] using hf
  simpa [Peer.formed] using h.2.received.trans this

/-- The second half of `bt_dm_dispatch_from_buffer` grows the manager when the peer is held, or
when no record of it is left. -/
theorem grows_dispatchMessages (s : Dm σ) (q : Peer) (bytes : List UInt8)
    (hq : q ∈ s.peers ∨ ∀ r ∈ s.peers, r.ptr ≠ q.ptr) : Grows s (dispatchMessages S s q bytes).1 := by
  unfold dispatchMessages
  split
  · rename_i m hm
    have h := grows_msghandlerDispatch S (s.emit (.fed q.ptr bytes)) bytes hm
    have hset : ∀ {s' : Dm σ} {q' : Peer}, Grows s s' → q.Keeps q' →
        ∀ r ∈ s'.peers, r.ptr = q'.ptr → ∃ r₀ ∈ s.peers, r₀.Keeps q' := by
      intro s' q' g k r hr he
      rcases hq with hq | hq
      · exact ⟨q, hq, k⟩
      · obtain ⟨r₀, hr₀, k₀⟩ := g.peers r hr
        exact absurd (k₀.ptr.symm.trans (he.trans k.ptr)) (hq r₀ hr₀)
    split <;> rename_i hd <;> rw [hd] at h
    · have g := (grows_emit s (by simp)).trans h.1
      exact g.setPeer _ (hset g h.2)
    · have g := (grows_emit s (by simp)).trans h.1
      exact (g.setPeer _ (hset g h.2)).trans (grows_removePeer S _ _)
  · exact grows_emit s (by simp)

theorem grows_sendBitfield {s s' : Dm σ} {q : Peer} {ok : Bool} (h : s.sendBitfield q = (s', ok)) :
    Grows s s' ∧ s'.peers = s.peers := by
  have h₁ := congrArg Prod.fst h
  simp only [sendBitfield] at h₁
  subst h₁
  exact ⟨grows_sendToPeer _ _ _, sendToPeer_peers _ _ _⟩

theorem grows_dispatchFromBuffer (s : Dm σ) (h : Nat) (buf : List UInt8) :
    Grows s (dispatchFromBuffer S s h buf).1 := by
  unfold dispatchFromBuffer
  split
  · exact .refl s
  · rename_i q hq
    have hmem : q ∈ s.peers := List.mem_of_find?_eq_some hq
    split
    · exact grows_dispatchMessages S s q buf (.inl hmem)
    · split
      · rename_i hs hmh
        split
        · rename_i rest _
          simp only
          set q' : Peer := { q with mh := some (.msghandler ⟨[]⟩), pc := q.pc.setState .handshakeReceived }
          have g₁ : Grows s ((s.emit (.shook q.ptr buf)).setPeer q') :=
            (grows_emit s (by simp)).setPeer _ fun _ _ _ => ⟨q, hmem, rfl, rfl, id, fun _ => rfl⟩
          have hq₁ : q' ∈ ((s.emit (.shook q.ptr buf)).setPeer q').peers :=
            List.mem_map.mpr ⟨q, hmem, by simp [q']⟩
          split <;> rename_i hb <;> obtain ⟨g₂, hp₂⟩ := grows_sendBitfield hb
          · exact (g₁.trans g₂).trans (grows_dispatchMessages S _ _ _ (.inl (hp₂ ▸ hq₁)))
          · exact ((g₁.trans g₂).trans (grows_removePeer S _ _)).trans
              (grows_dispatchMessages S _ _ _ (.inr (removePeer_gone S _ _)))
        · exact (grows_emit s (by simp)).setPeer _ fun _ _ _ =>
            ⟨q, hmem, rfl, rfl, id, fun hf => by simpa [Peer.formed, hmh] using hf⟩
      · exact grows_emit s (by simp)

/-! ### Ticks -/

theorem grows_drain : ∀ (fuel : Nat) (s : Dm σ), Grows s (drain S s fuel)
  | 0, s => .refl s
  | fuel + 1, s => by
    unfold drain
    split
    · exact .refl s
    · split
      · split
        · exact ((grows_jobs s _).trans (grows_dispatchJob S _ _)).trans (grows_drain fuel _)
        · exact (grows_jobs s _).trans (grows_emit _ (by simp))
      · exact grows_emit s (by simp)

@[simp] theorem peerPeriodic_peers (s : Dm σ) (q : Peer) : (peerPeriodic s q).peers = s.peers := by
  unfold peerPeriodic connPeriodic pollblock
  split_ifs <;> simp

theorem grows_peerPeriodic (s : Dm σ) {q : Peer} (hq : q ∈ s.peers) : Grows s (peerPeriodic s q) := by
  unfold peerPeriodic
  split
  · exact .refl s
  · split
    · exact .refl s
    · rename_i hf _
      refine (grows_emit_stepped s hq (by simpa [Conn.flagIsSet] using hf)).trans ?_
      unfold connPeriodic
      split
      · exact grows_pollblock _ _
      · exact .refl _

/-- `bt_peermanager_forall` with `__FUNC_peer_periodic` over peers the manager holds. -/
theorem grows_foldl_peerPeriodic :
    ∀ (qs : List Peer) (s : Dm σ), (∀ q ∈ qs, q ∈ s.peers) → Grows s (qs.foldl peerPeriodic s)
  | [], s, _ => .refl s
  | q :: qs, s, h =>
    (grows_peerPeriodic s (h q (List.mem_cons_self _ _))).trans
      (grows_foldl_peerPeriodic qs _ fun r hr => by simpa using h r (List.mem_cons_of_mem _ hr))

theorem grows_collectStats (s : Dm σ) (st : Stats) : Grows s (collectStats s st).1 := by
  unfold collectStats
  dsimp only
  suffices ∀ (qs : List Peer) (p : Dm σ × Stats), Grows p.1 (qs.foldl statsVisit p).1 from this s.peers (s, _)
  intro qs
  induction qs with
  | nil => exact fun p => .refl _
  | cons q qs ih =>
    refine fun p => Grows.trans ?_ (ih _)
    unfold statsVisit
    split
    · exact .refl _
    · exact grows_emit _ (by simp)

theorem grows_periodic (s : Dm σ) (stats : Option Stats) : Grows s (periodic S s stats).1 := by
  have h : Grows s (if s.amSeeding ∧ s.cfg.getInt "shutdown_when_complete" = 1 then s
      else (drain S s s.jobs.length).peers.foldl peerPeriodic (drain S s s.jobs.length)) := by
    split
    · exact .refl s
    · exact (grows_drain S _ s).trans (grows_foldl_peerPeriodic _ _ fun _ => id)
  unfold periodic
  simp only
  split
  · exact h.trans (grows_collectStats _ _)
  · exact h

/-! ### Entry points -/

theorem grows_peerConnectFail (s : Dm σ) (h : Nat) : Grows s (s.peerConnectFail h) := by
  unfold peerConnectFail
  split
  · rename_i q hq
    exact (Grows.refl s).setPeer _ fun _ _ _ =>
      ⟨q, List.mem_of_find?_eq_some hq, rfl, rfl, fun _ => rfl, id⟩
  · exact .refl s

/-! ### What a tick keeps -/

theorem offerBlock_ptrs (s : Dm σ) (ptr : Nat) (b : Block) :
    (s.offerBlock ptr b).peers.map (·.ptr) = s.peers.map (·.ptr) := by
  unfold offerBlock
  split
  · simp only [sendToPeer_fst, emit_peers]
    exact setPeer_ptrs _ _
  · rfl

theorem requestBlocks_ptrs (ptr i : Nat) : ∀ (fuel : Nat) (s : Dm σ),
    (requestBlocks s ptr i fuel).peers.map (·.ptr) = s.peers.map (·.ptr)
  | 0, _ => rfl
  | fuel + 1, s => by
    unfold requestBlocks
    split
    · split
      · rfl
      · split
        · rw [requestBlocks_ptrs ptr i fuel, offerBlock_ptrs, modifyPiece_peers]
        · rfl
    · rfl

theorem pollLoop_ptrs (ptr : Nat) : ∀ (fuel : Nat) (s : Dm σ),
    (pollLoop S s ptr fuel).peers.map (·.ptr) = s.peers.map (·.ptr)
  | 0, _ => rfl
  | fuel + 1, s => by
    unfold pollLoop
    split
    · rfl
    · simp only
      split
      · rfl
      · split <;> rename_i hg <;> have hp := peers_of_getPiece hg
        · split
          · rw [pollLoop_ptrs ptr fuel]
            simp [hp]
          · rw [requestBlocks_ptrs]
            simp [hp]
        · simp [hp]

theorem drain_ptrs : ∀ (fuel : Nat) (s : Dm σ),
    (drain S s fuel).peers.map (·.ptr) = s.peers.map (·.ptr)
  | 0, _ => rfl
  | fuel + 1, s => by
    unfold drain
    split
    · rfl
    · split
      · split
        · rw [drain_ptrs fuel]
          cases ‹Job›
          exact pollLoop_ptrs S _ _ _
        · rfl
      · rfl

theorem collectStats_peers (s : Dm σ) (st : Stats) : (collectStats s st).1.peers = s.peers := by
  unfold collectStats
  dsimp only
  suffices ∀ (qs : List Peer) (p : Dm σ × Stats), (qs.foldl statsVisit p).1.peers = p.1.peers from
    this s.peers (s, _)
  intro qs
  induction qs with
  | nil => exact fun _ => rfl
  | cons q qs ih =>
    intro p
    rw [List.foldl_cons, ih]
    unfold statsVisit
    split <;> rfl

@[simp] theorem foldl_peerPeriodic_peers :
    ∀ (qs : List Peer) (s : Dm σ), (qs.foldl peerPeriodic s).peers = s.peers
  | [], _ => rfl
  | q :: qs, s => (foldl_peerPeriodic_peers qs _).trans (peerPeriodic_peers s q)

/-- **A tick removes no peer.** -/
theorem periodic_ptrs (s : Dm σ) (stats : Option Stats) :
    (periodic S s stats).1.peers.map (·.ptr) = s.peers.map (·.ptr) := by
  unfold periodic
  simp only
  split <;> split <;> simp [collectStats_peers, drain_ptrs]

end Dm

/-- The calls of the host that may add a peer. -/
def Op.adds {σ : Type} : Op σ → Bool
  | .addPeer .. | .peerConnect .. => true
  | _ => false

namespace Dm
variable {σ : Type} (S : PieceSelector σ)

/-- **Every call that adds no peer grows the manager.** -/
theorem step_grows (s : Dm σ) (op : Op σ) (h : op.adds = false) : Grows s (step S s op) := by
  cases op with
  | setPieceDb db =>
    exact .of_peers rfl rfl rfl (List.prefix_refl _) (List.prefix_refl _) id [] (by simp [step, setPieceDb])
      (by simp)
  | setPieceSelector given => exact (grows_pselector s _).trans (grows_checkPieces S _)
  | setCbs cb =>
    exact .of_peers rfl rfl rfl (List.prefix_refl _) (List.prefix_refl _) id [] (by simp [step, setCbs])
      (by simp)
  | configSet k v =>
    exact .of_peers rfl rfl rfl (List.prefix_refl _) (List.prefix_refl _) id [] (by simp [step])
      (by simp)
  | addPeer | peerConnect => simp [Op.adds] at h
  | removePeer ptr => exact grows_removePeer S s ptr
  | peerConnectFail nh => exact grows_peerConnectFail s nh
  | dispatchFromBuffer nh buf => exact grows_dispatchFromBuffer S s nh buf
  | periodic stats => exact grows_periodic S s stats

end Dm

end Yabtorrent
