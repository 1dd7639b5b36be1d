import Yabtorrent.Manager.Settled

/-! The order of what goes out to each peer.

A peer is sent our handshake when `bt_dm_peer_connect` reports its connection up, and our
BITFIELD when its handshake is received. Every other message (HAVE, INTERESTED, a REQUEST, a
PIECE) comes from a connection whose handshake has been received, from a job such a
connection queued, or from `__FUNC_peerconn_send_have`, which skips the others. `inOrder`
checks a trace for this order: a BITFIELD only to a peer that has had none, a handshake at any
time, and every other message only to a peer that has had our BITFIELD.

`Orderly` is what every reachable state keeps (`reachable_orderly`): its trace is in order; a
peer the peer manager holds has had our BITFIELD exactly when its handshake is received; the
peer of a queued job has had it unless the peer manager has let the peer go; and only
identities handed out have had one. Each function of the manager keeps it, under what its
callers guarantee. The handshake branch of `bt_dm_dispatch_from_buffer` is the one place a
BITFIELD is sent (`Orderly.announce`); when that send fails for want of a `peer_send`
callback, the peer is removed before anything else can go to it.

* `sends_in_order`: in every run, whatever the host calls in whatever order, each peer is
  sent at most one BITFIELD, and nothing but handshakes before it. -/
namespace Yabtorrent

/-- Whether `e` is our BITFIELD sent to peer `p`. -/
def bitfieldTo (p : Nat) : Event → Bool
  | .sent q (.bitfield _) => q == p
  | _ => false

/-- Whether our BITFIELD has gone to peer `p` in `tr`. -/
def announced (tr : List Event) (p : Nat) : Bool := tr.any (bitfieldTo p)

/-- Whether `e` may follow `pre`: a BITFIELD to a peer that has had none, a handshake at any
time, and any other message only to a peer that has had our BITFIELD. -/
def fits (pre : List Event) : Event → Bool
  | .sent _ (.handshake _ _) => true
  | .sent p (.bitfield _) => !announced pre p
  | .sent p _ => announced pre p
  | _ => true

/-- Whether each event of `tr` may follow `pre` and the events of `tr` before it. -/
def inOrderAfter (pre : List Event) : List Event → Bool
  | [] => true
  | e :: tr => fits pre e && inOrderAfter (pre ++ [e]) tr

/-- Whether each event of a trace may follow the events before it. -/
def inOrder (tr : List Event) : Bool := inOrderAfter [] tr

@[simp] theorem announced_append (a b : List Event) (p : Nat) :
    announced (a ++ b) p = (announced a p || announced b p) :=
  List.any_append

@[simp] theorem announced_singleton (e : Event) (p : Nat) : announced [e] p = bitfieldTo p e := by
  simp [announced]

theorem inOrderAfter_append (pre a b : List Event) :
    inOrderAfter pre (a ++ b) = (inOrderAfter pre a && inOrderAfter (pre ++ a) b) := by
  induction a generalizing pre with
  | nil => simp [inOrderAfter]
  | cons e a ih => simp [inOrderAfter, ih, Bool.and_assoc]

theorem inOrder_append_singleton (tr : List Event) (e : Event) :
    inOrder (tr ++ [e]) = (inOrder tr && fits tr e) := by
  simp [inOrder, inOrderAfter_append, inOrderAfter]

/-- `inOrder` says what it names: every event fits the events before it. -/
theorem inOrder_iff (tr : List Event) :
    inOrder tr = true ↔ ∀ pre e post, tr = pre ++ e :: post → fits pre e = true := by
  constructor
  · rintro h pre e post rfl
    simp only [inOrder, inOrderAfter_append, inOrderAfter, List.nil_append, Bool.and_eq_true] at h
    exact h.2.1
  · induction tr using List.reverseRecOn with
    | nil => intro; rfl
    | append_singleton tr e ih =>
      intro h
      rw [inOrder_append_singleton, ih fun pre e' post he => h pre e' (post ++ [e]) (by simp [he]),
        h tr e [] rfl]
      rfl

/-- A second BITFIELD to a peer, and a HAVE before the first, are out of order. -/
example : inOrder [.sent 0 (.bitfield []), .sent 0 (.bitfield [])] = false ∧
    inOrder [.sent 0 (.have 1), .sent 0 (.bitfield [])] = false := by decide

/-- A BITFIELD fits only where its peer has had none. -/
theorem fits_of_bitfieldTo {p : Nat} {e : Event} (h : bitfieldTo p e = true) (pre : List Event) :
    fits pre e = !announced pre p := by
  cases e with
  | sent q m => cases m <;> simp_all [bitfieldTo, fits]
  | _ => simp [bitfieldTo] at h

/-- After `pre`, a trace in order sends peer `p` one BITFIELD at most, and none if `pre` has. -/
theorem countP_bitfieldTo_le (p : Nat) :
    ∀ (pre tr : List Event), inOrderAfter pre tr = true →
      tr.countP (bitfieldTo p) + (if announced pre p then 1 else 0) ≤ 1
  | pre, [], _ => by split <;> simp
  | pre, e :: tr, h => by
    simp only [inOrderAfter, Bool.and_eq_true] at h
    have ih := countP_bitfieldTo_le p _ tr h.2
    rw [List.countP_cons]
    by_cases hb : bitfieldTo p e = true
    · have hn : announced pre p = false := by simpa [fits_of_bitfieldTo hb] using h.1
      simp_all
    · simp_all

namespace Dm
variable {σ : Type} (S : PieceSelector σ)

/-- Peer `p` may be sent messages from now on: an identity handed out, and, while the peer
manager holds it, one that has had our BITFIELD. -/
def Ready (s : Dm σ) (p : Nat) : Prop :=
  p < s.nextPeer ∧ (p ∈ s.peers.map (·.ptr) → announced s.trace p = true)

/-- What keeps the order of sends from one call to the next. -/
structure Orderly (s : Dm σ) : Prop where
  inOrder : inOrder s.trace = true
  /-- A held peer has had our BITFIELD exactly when its handshake is received. -/
  flag : ∀ q ∈ s.peers, announced s.trace q.ptr = q.pc.handshakeReceived
  /-- A queued PollBlock job is for a peer that may be sent messages. -/
  jobs : ∀ p, Job.pollblock p ∈ s.jobs → Ready s p
  /-- Only identities handed out have had our BITFIELD. -/
  fresh : ∀ p, announced s.trace p = true → p < s.nextPeer

theorem Grows.announces {s s' : Dm σ} (g : Grows s s') {p : Nat}
    (h : announced s.trace p = true) : announced s'.trace p = true := by
  obtain ⟨new, ht, -⟩ := g.trace
  simp [ht, h]

theorem Grows.ready {s s' : Dm σ} (g : Grows s s') {p : Nat} (h : Ready s p) : Ready s' p :=
  ⟨g.nextPeer ▸ h.1, fun hp => g.announces (h.2 (g.ptrs.subset hp))⟩

/-! ### The host's callbacks stay

Only `bt_dm_set_cbs` changes them; what the connections and the manager's callbacks do leaves
`peer_send` as it was (`Settled`). -/

@[simp] theorem pollblock_cb (s : Dm σ) (ptr : Nat) : (pollblock s ptr).cb = s.cb :=
  (settled_pollblock s ptr).cb

@[simp] theorem givebackBlock_cb (s : Dm σ) (ptr : Nat) (b : Block) :
    (givebackBlock S s ptr b).cb = s.cb :=
  (settled_givebackBlock S s ptr b).cb

@[simp] theorem sendHave_cb (s : Dm σ) (q : Peer) (i : Nat) : (s.sendHave q i).cb = s.cb :=
  (settled_sendHave s q i).cb

@[simp] theorem pushblock_cb (s : Dm σ) (ptr : Nat) (b : Block) (data : List UInt8) :
    (pushblock S s ptr b data).cb = s.cb :=
  (settled_pushblock S s ptr b data).cb

@[simp] theorem writeBlockToStream_cb (s : Dm σ) (b : Block) :
    (writeBlockToStream s b).1.cb = s.cb :=
  (settled_writeBlockToStream s b).cb

@[simp] theorem connMsg_cb (s : Dm σ) (q : Peer) (m : Msg) : (connMsg S s q m).1.cb = s.cb :=
  (settled_connMsg S s q m).cb

@[simp] theorem removePeer_cb (s : Dm σ) (ptr : Nat) : (removePeer S s ptr).1.cb = s.cb :=
  (settled_removePeer S s ptr).cb

theorem filter_replace (l : List Peer) (q : Peer) :
    (l.map fun r => if r.ptr = q.ptr then q else r).filter (·.ptr != q.ptr) =
      l.filter (·.ptr != q.ptr) := by
  induction l with
  | nil => rfl
  | cons r l ih => by_cases h : r.ptr = q.ptr <;> simp [h, ih]

/-- Removing a peer forgets how its records were last replaced. -/
theorem removePeer_setPeer (t : Dm σ) (q : Peer) (e : Event) {p : Nat} (hp : q.ptr = p) :
    (removePeer S ((t.setPeer q).emit e) p).1 = (removePeer S (t.emit e) p).1 := by
  subst hp
  unfold removePeer
  by_cases hh : (t.emit e).peers.any (·.ptr == q.ptr)
  · have hh' : ((t.setPeer q).emit e).peers.any (·.ptr == q.ptr) = true := by
      simpa [List.any_map, Function.comp_def] using hh
    rw [if_pos hh', if_pos hh]
    simp only [emit_peers, setPeer_peers, filter_replace]
    rfl
  · have hn : ∀ r ∈ t.peers, r.ptr ≠ q.ptr := by simpa using hh
    have hs : t.setPeer q = t := by
      have : (t.peers.map fun r => if r.ptr = q.ptr then q else r) = t.peers := by
        conv_rhs => rw [← List.map_id t.peers]
        exact List.map_congr_left fun r hr => if_neg (hn r hr)
      simp only [setPeer, this]
    rw [hs]

/-- Peer `q`, whose bytes are being handled, may be answered: it may be sent messages, and has
had our BITFIELD unless no `peer_send` callback is installed. -/
structure Answerable (s : Dm σ) (q : Peer) : Prop where
  ready : Ready s q.ptr
  send : s.cb.peerSend.isSome → announced s.trace q.ptr = true

theorem Answerable.grows {s s' : Dm σ} {q : Peer} (h : Answerable s q) (g : Grows s s')
    (hc : s'.cb = s.cb) {q' : Peer} (hp : q'.ptr = q.ptr) : Answerable s' q' :=
  ⟨hp ▸ g.ready h.ready, fun hs => hp ▸ g.announces (h.send (hc ▸ hs))⟩

namespace Orderly
variable {S} {s : Dm σ}

/-- The order reads only the trace, the peers, the jobs and the next identity. -/
theorem of_eq (h : Orderly s) {t : Dm σ} (ht : t.trace = s.trace) (hp : t.peers = s.peers)
    (hn : t.nextPeer = s.nextPeer) (hj : ∀ j ∈ t.jobs, j ∈ s.jobs) : Orderly t := by
  have hr : ∀ p, Ready s p → Ready t p := fun p r => by
    unfold Ready; rw [ht, hp, hn]; exact r
  refine ⟨ht ▸ h.inOrder, fun q hq => ?_, fun p hj' => hr p (h.jobs p (hj _ hj')), fun p ha => ?_⟩
  · rw [ht]; exact h.flag q (hp ▸ hq)
  · rw [hn]; exact h.fresh p (ht ▸ ha)

/-- An event other than a BITFIELD, where it fits. -/
theorem emit (h : Orderly s) {e : Event} (he : fits s.trace e = true)
    (hb : ∀ p, bitfieldTo p e = false) : Orderly (s.emit e) := by
  have ha : ∀ p, announced (s.emit e).trace p = announced s.trace p := by simp [hb]
  refine ⟨by simp [inOrder_append_singleton, h.inOrder, he], fun q hq => (ha _).trans (h.flag q hq),
    fun p hp => ?_, fun p hp => h.fresh p ((ha p).symm.trans hp)⟩
  obtain ⟨h₁, h₂⟩ := h.jobs p hp
  exact ⟨h₁, fun hm => (ha p).trans (h₂ hm)⟩

theorem select (h : Orderly s) (c : Call) (f : σ → σ) : Orderly (s.select c f) :=
  (h.of_eq (t := { s with pselector := s.pselector.map f }) rfl rfl rfl fun _ => id).emit
    (by split <;> rfl) fun _ => by split <;> rfl

theorem getPiece (h : Orderly s) (i : Nat) : Orderly (s.getPiece i).1 := by
  rw [getPiece_fst]
  split
  · exact h
  · exact h.emit rfl fun _ => rfl

theorem of_getPiece (h : Orderly s) {s' : Dm σ} {i : Nat} {o : Option Piece}
    (hg : s.getPiece i = (s', o)) : Orderly s' := by
  simpa [hg] using h.getPiece i

theorem sendToPeer (h : Orderly s) (q : Peer) {m : Msg} (hm : ∀ bits, m ≠ .bitfield bits)
    (hf : s.cb.peerSend.isSome → fits s.trace (.sent q.ptr m) = true) :
    Orderly (s.sendToPeer q m).1 := by
  rw [sendToPeer_fst]
  split
  · exact h.emit (hf ‹_›) fun p => by cases m <;> simp_all [bitfieldTo]
  · exact h.emit rfl fun _ => rfl

/-- A record replaced by one whose handshake flag says, as the peer's did, whether it has had
our BITFIELD. -/
theorem setPeer (h : Orderly s) (q : Peer)
    (hq : q.ptr ∈ s.peers.map (·.ptr) → announced s.trace q.ptr = q.pc.handshakeReceived) :
    Orderly (s.setPeer q) := by
  refine ⟨h.inOrder, fun r hr => ?_, fun p hp => ?_, h.fresh⟩
  · obtain ⟨r₀, hr₀, rfl⟩ := List.mem_map.mp hr
    by_cases he : r₀.ptr = q.ptr
    · simpa [he] using hq (List.mem_map.mpr ⟨r₀, hr₀, he⟩)
    · simpa [he] using h.flag r₀ hr₀
  · obtain ⟨h₁, h₂⟩ := h.jobs p hp
    exact ⟨h₁, fun hm => h₂ (by simpa [setPeer_ptrs] using hm)⟩

theorem modifyPiece (h : Orderly s) (i : Nat) (f : Piece → Piece) (hf : ∀ p, (f p).idx = p.idx) :
    Orderly (s.modifyPiece i f hf) :=
  h.of_eq rfl rfl rfl fun _ => id

theorem markComplete (h : Orderly s) (i : Nat) : Orderly (s.markComplete i) :=
  h.of_eq rfl rfl rfl fun _ => id

theorem foldl {α : Type} {f : Dm σ → α → Dm σ} (hf : ∀ s a, Orderly s → Orderly (f s a)) :
    ∀ (xs : List α) {s : Dm σ}, Orderly s → Orderly (xs.foldl f s)
  | [], _, h => h
  | x :: xs, s, h => foldl hf xs (hf s x h)

/-! ### Callbacks -/

theorem removePeer (h : Orderly s) (ptr : Nat) : Orderly (Dm.removePeer S s ptr).1 := by
  unfold Dm.removePeer
  split
  · have hf : Orderly { s with peers := s.peers.filter (·.ptr != ptr) } := by
      refine ⟨h.inOrder, fun q hq => h.flag q (List.mem_filter.mp hq).1, fun p hp => ?_, h.fresh⟩
      obtain ⟨h₁, h₂⟩ := h.jobs p hp
      exact ⟨h₁, fun hm => h₂ (((List.filter_sublist _).map _).subset hm)⟩
    exact (hf.select _ _).emit rfl fun _ => rfl
  · exact h

/-- A PollBlock job queued for a peer that may be sent messages. -/
theorem pollblock (h : Orderly s) {ptr : Nat} (hr : Ready s ptr) : Orderly (Dm.pollblock s ptr) := by
  unfold Dm.pollblock
  split
  · refine ⟨h.inOrder, h.flag, fun p hp => ?_, h.fresh⟩
    simp only [JobQueue.offerJob, List.mem_append, List.mem_singleton, Job.pollblock.injEq] at hp
    rcases hp with hp | rfl
    · exact h.jobs p hp
    · exact hr
  · exact h.emit rfl fun _ => rfl

theorem givebackBlock (h : Orderly s) (ptr : Nat) (b : Block) :
    Orderly (Dm.givebackBlock S s ptr b) := by
  unfold Dm.givebackBlock
  split <;> rename_i hg
  · exact ((h.of_getPiece hg).modifyPiece _ _ _).select _ _
  · exact (h.of_getPiece hg).emit rfl fun _ => rfl

/-- `__FUNC_peerconn_send_have` to a record whose handshake flag, when set, says it has had
our BITFIELD. -/
theorem sendHave (h : Orderly s) {q : Peer} (i : Nat)
    (hq : q.pc.handshakeReceived = true → announced s.trace q.ptr = true) :
    Orderly (s.sendHave q i) := by
  unfold Dm.sendHave
  split
  · exact h.sendToPeer q (by simp) fun _ => hq ‹_›
  · exact h

theorem foldl_sendHave (i : Nat) : ∀ (qs : List Peer) {s : Dm σ}, Orderly s →
    (∀ q ∈ qs, q.pc.handshakeReceived = true → announced s.trace q.ptr = true) →
    Orderly (qs.foldl (fun s q => s.sendHave q i) s)
  | [], _, h, _ => h
  | q :: qs, s, h, hq => foldl_sendHave i qs (h.sendHave i (hq q (List.mem_cons_self _ _)))
      fun r hr hf => (grows_sendHave s q i).announces (hq r (List.mem_cons_of_mem _ hr) hf)

/-- HAVE offered to every peer held: only those whose handshake is received get it, and they
have all had our BITFIELD. -/
theorem sendHave_peers (h : Orderly s) (i : Nat) :
    Orderly (s.peers.foldl (fun s q => s.sendHave q i) s) :=
  h.foldl_sendHave i _ fun q hq hf => (h.flag q hq).trans hf

theorem pushblock (h : Orderly s) (ptr : Nat) (b : Block) (data : List UInt8) :
    Orderly (Dm.pushblock S s ptr b data) := by
  unfold Dm.pushblock
  split
  · exact h.emit rfl fun _ => rfl
  · split
    · exact h.emit rfl fun _ => rfl
    · have h₁ : ∀ f hf, Orderly ((s.modifyPiece b.pieceIdx f hf).emit (.wrote ptr b)) :=
        fun f hf => (h.modifyPiece _ f hf).emit rfl fun _ => rfl
      simp only
      split
      · exact (((h₁ _ _).select _ _).markComplete _).sendHave_peers _
      · split
        · split
          · exact (h₁ _ _).of_eq rfl rfl rfl fun _ => id
          · rw [foldl_suspect]
            refine (Orderly.modifyPiece ?_ _ _ _).select _ _
            exact (h₁ _ _).of_eq rfl rfl rfl fun _ => id
        · exact h₁ _ _

theorem writeBlockToStream (h : Orderly s) (b : Block) : Orderly (Dm.writeBlockToStream s b).1 := by
  unfold Dm.writeBlockToStream
  split <;> exact h.of_getPiece ‹_›

/-- A REQUEST goes to the job's peer only while the peer manager holds it, when it has had our
BITFIELD. -/
theorem offerBlock (h : Orderly s) {ptr : Nat} (hr : Ready s ptr) (b : Block) :
    Orderly (s.offerBlock ptr b) := by
  unfold Dm.offerBlock
  split
  · rename_i q hq
    have hm : q ∈ s.peers := List.mem_of_find?_eq_some hq
    have hp : q.ptr = ptr := by simpa using List.find?_some hq
    have ha : announced s.trace ptr = true := hr.2 (List.mem_map.mpr ⟨q, hm, hp⟩)
    have h₁ := h.emit (e := .offered ptr b) rfl fun _ => rfl
    dsimp only
    refine (h₁.setPeer _ fun _ => ?_).sendToPeer _ ?_ fun _ => ?_
    · exact h₁.flag q hm
    · simp
    · simp [fits, hp, ha]
  · exact h.emit rfl fun _ => rfl

/-! ### Dispatching a job -/

theorem requestBlocks {ptr : Nat} (i : Nat) : ∀ (fuel : Nat) {s : Dm σ}, Orderly s → Ready s ptr →
    Orderly (Dm.requestBlocks s ptr i fuel)
  | 0, _, h, _ => h
  | fuel + 1, s, h, hr => by
    unfold Dm.requestBlocks
    split
    · split
      · exact h
      · split
        · exact requestBlocks i fuel ((h.modifyPiece _ _ _).offerBlock hr _)
            (((grows_modifyPiece _ _ _ _).trans (grows_offerBlock _ _ _)).ready hr)
        · exact h
    · exact h

theorem pollLoop {ptr : Nat} : ∀ (fuel : Nat) {s : Dm σ}, Orderly s → Ready s ptr →
    Orderly (Dm.pollLoop S s ptr fuel)
  | 0, _, h, _ => h.emit rfl fun _ => rfl
  | fuel + 1, s, h, hr => by
    unfold Dm.pollLoop
    split
    · exact h.emit rfl fun _ => rfl
    · rename_i st _
      have h₁ : Orderly ({ s with pselector := some (S.pollPiece st ptr).1 }.emit
          (.selected (.pollPiece ptr))) :=
        (h.of_eq (t := { s with pselector := some (S.pollPiece st ptr).1 }) rfl rfl rfl
          fun _ => id).emit rfl fun _ => rfl
      have g₁ : Grows s ({ s with pselector := some (S.pollPiece st ptr).1 }.emit
          (.selected (.pollPiece ptr))) := (grows_pselector s _).trans (grows_emit _ (by simp))
      simp only
      split
      · exact h₁
      · split <;> rename_i hg
        · have h₂ := h₁.of_getPiece hg
          have g₂ := g₁.trans (grows_of_getPiece hg)
          split
          · exact pollLoop fuel (h₂.select _ _) ((g₂.trans (grows_select _ _ _ (by simp))).ready hr)
          · exact requestBlocks _ _ h₂ (g₂.ready hr)
        · exact (h₁.of_getPiece hg).emit rfl fun _ => rfl

theorem checkPieces (h : Orderly s) : Orderly (Dm.checkPieces S s) := by
  refine foldl (fun s i h => ?_) _ h
  split <;> rename_i hg
  · split
    · exact ((h.of_getPiece hg).select _ _).markComplete _
    · exact h.of_getPiece hg
  · exact h.of_getPiece hg

/-! ### Inbound bytes -/

/-- A connection's answer to one message from a peer that may be answered. -/
theorem connMsg (h : Orderly s) {q : Peer} (hq : Answerable s q) (m : Msg) :
    Orderly (Dm.connMsg S s q m).1 := by
  cases m with
  | choke => exact h.foldl (fun s b h => h.givebackBlock _ b) _
  | unchoke => exact h.pollblock hq.ready
  | «have» i =>
    simp only [Dm.connMsg]
    split
    · exact (h.select _ _).sendToPeer q (by simp) (hq.grows (grows_select s _ _ (by simp)) rfl rfl).send
    · exact h.select _ _
  | bitfield bits =>
    simp only [Dm.connMsg]
    split
    · exact h
    · exact h.foldl (fun s i h => h.select _ _) _
  | request b =>
    simp only [Dm.connMsg]
    split
    · exact h
    · have h₁ := h.writeBlockToStream b
      have g := grows_writeBlockToStream s b
      have hc := writeBlockToStream_cb s b
      split <;> rename_i hw <;> rw [hw] at h₁ g hc
      · exact h₁.sendToPeer q (by simp) (hq.grows g hc rfl).send
      · exact h₁
  | piece i off data => exact (h.pushblock _ _ _).pollblock ((grows_pushblock S s _ _ _).ready hq.ready)
  | _ => exact h

/-- The message handler's loop, on a peer that may be answered. -/
theorem msgLoop : ∀ (fuel : Nat) {s : Dm σ} {q : Peer} (buf : List UInt8), Orderly s →
    Answerable s q → Orderly (Dm.msgLoop S s q buf fuel).1
  | 0, _, _, _, h, _ => h
  | fuel + 1, s, q, buf, h, hq => by
    unfold Dm.msgLoop
    split
    · exact h
    · exact h
    · split
      · exact h
      · rename_i m _
        have h₁ := h.connMsg (S := S) hq m
        have g := grows_connMsg S s q m
        have hc := connMsg_cb S s q m
        split <;> rename_i hd <;> rw [hd] at h₁ g hc
        · exact msgLoop fuel _ h₁ (hq.grows g.1 hc g.2.ptr)
        · exact h₁

/-- The second half of `bt_dm_dispatch_from_buffer`, for a peer whose handshake is received and
that may be answered. -/
theorem dispatchMessages (h : Orderly s) {q : Peer} (hq : Answerable s q)
    (hr : q.pc.handshakeReceived = true) (bytes : List UInt8) :
    Orderly (Dm.dispatchMessages S s q bytes).1 := by
  unfold Dm.dispatchMessages Dm.msghandlerDispatch
  split
  · rename_i mh _
    have h₁ : Orderly (s.emit (.fed q.ptr bytes)) := h.emit rfl fun _ => rfl
    have hq₁ : Answerable (s.emit (.fed q.ptr bytes)) q := hq.grows (grows_emit s (by simp)) rfl rfl
    have h₂ := Orderly.msgLoop (S := S) (mh.buf ++ bytes).length (mh.buf ++ bytes) h₁ hq₁
    have g := grows_msgLoop S (s.emit (.fed q.ptr bytes)) q (mh.buf ++ bytes) (mh.buf ++ bytes).length
    generalize Dm.msgLoop S (s.emit (.fed q.ptr bytes)) q (mh.buf ++ bytes)
      (mh.buf ++ bytes).length = r at h₂ g
    obtain ⟨s', q', rest, ok⟩ := r
    have h₃ : Orderly (s'.setPeer { q' with mh := some (.msghandler ⟨rest⟩) }) :=
      h₂.setPeer _ fun hm => by
        have hp : q'.ptr = q.ptr := g.2.ptr
        have hrq : q'.pc.handshakeReceived = true := g.2.received.trans hr
        simp only [hp, hrq] at hm ⊢
        exact (g.1.ready hq₁.ready).2 hm
    cases ok
    · exact h₃.removePeer _
    · exact h₃
  · exact h.emit rfl fun _ => rfl

/-- Our BITFIELD to a held peer whose handshake was not received, its records now marked
received. -/
theorem announce (h : Orderly s) {q : Peer} (hq : q ∈ s.peers) (hr : q.pc.handshakeReceived = false)
    (hlt : q.ptr < s.nextPeer) (q' : Peer) (hp : q'.ptr = q.ptr)
    (hr' : q'.pc.handshakeReceived = true) (bits : List Bool) :
    Orderly ((s.setPeer q').emit (.sent q.ptr (.bitfield bits))) := by
  have hn : announced s.trace q.ptr = false := (h.flag q hq).trans hr
  have ha : ∀ p, announced ((s.setPeer q').emit (.sent q.ptr (.bitfield bits))).trace p =
      (announced s.trace p || q.ptr == p) := fun p => by
    simp only [emit_trace, setPeer_trace, announced_append, announced_singleton]; rfl
  refine ⟨?_, fun r hr₁ => ?_, fun p hj => ?_, fun p hp' => ?_⟩
  · rw [emit_trace, setPeer_trace, inOrder_append_singleton, h.inOrder]
    show (!announced s.trace q.ptr) = true
    rw [hn]; rfl
  · obtain ⟨r₀, hr₀, rfl⟩ := List.mem_map.mp hr₁
    rw [ha]
    by_cases he : r₀.ptr = q'.ptr
    · rw [if_pos he, hp, hr', beq_self_eq_true, Bool.or_true]
    · have : (q.ptr == r₀.ptr) = false := beq_eq_false_iff_ne.mpr fun e => he (e ▸ hp).symm
      rw [if_neg he, this, Bool.or_false]
      exact h.flag r₀ hr₀
  · obtain ⟨h₁, h₂⟩ := h.jobs p hj
    exact ⟨h₁, fun hm => by rw [ha, h₂ (by simpa [setPeer_ptrs] using hm)]; rfl⟩
  · rw [ha] at hp'
    rcases Bool.or_eq_true_iff.mp hp' with hp' | hp'
    · exact h.fresh p hp'
    · exact (beq_iff_eq.mp hp') ▸ hlt

/-- `bt_dm_dispatch_from_buffer`. -/
theorem dispatchFromBuffer (h : Orderly s) (hw : ∀ q ∈ s.peers, q.ptr < s.nextPeer) (nh : Nat)
    (buf : List UInt8) : Orderly (Dm.dispatchFromBuffer S s nh buf).1 := by
  unfold Dm.dispatchFromBuffer
  split
  · exact h
  · rename_i q hq
    have hm : q ∈ s.peers := List.mem_of_find?_eq_some hq
    split
    · rename_i hr
      have hr' : q.pc.handshakeReceived = true := by simpa [Conn.flagIsSet] using hr
      have ha := (h.flag q hm).trans hr'
      exact h.dispatchMessages ⟨⟨hw q hm, fun _ => ha⟩, fun _ => ha⟩ hr' buf
    · rename_i hr
      have hr' : q.pc.handshakeReceived = false := by simpa [Conn.flagIsSet] using hr
      have h₀ := h.emit (e := .shook q.ptr buf) rfl fun _ => rfl
      split
      · split
        · rename_i rest _
          dsimp only
          simp only [Dm.sendBitfield, Dm.sendToPeer, setPeer_cb, emit_cb]
          have hlt := hw q hm
          rcases hps : s.cb.peerSend with _ | send
          · -- no `peer_send`: the BITFIELD is not sent, and the peer is removed
            simp only [hps]
            rw [removePeer_setPeer S _ _ _ rfl]
            have h₃ := (h₀.emit (e := .failed .noPeerSend) rfl fun _ => rfl).removePeer (S := S) q.ptr
            refine h₃.dispatchMessages ⟨⟨?_, fun hm' => ?_⟩, fun hs => ?_⟩ rfl rest
            · rw [(grows_removePeer S _ _).nextPeer]; exact hlt
            · obtain ⟨r, hr₁, hr₂⟩ := List.mem_map.mp hm'
              exact absurd hr₂ (removePeer_gone S _ q.ptr r hr₁)
            · simp [hps] at hs
          · -- the BITFIELD goes out; the peer stays or is removed, as the host answers
            simp only [hps]
            generalize List.map _ _ = bits
            set q' : Peer :=
              { q with mh := some (.msghandler ⟨[]⟩), pc := q.pc.setState .handshakeReceived }
            set s₂ := ((s.emit (.shook q.ptr buf)).setPeer q').emit (.sent q.ptr (.bitfield bits))
            have h₂ : Orderly s₂ := h₀.announce hm hr' hlt q' rfl rfl bits
            have ha : announced s₂.trace q.ptr = true := by
              simp only [s₂, emit_trace, announced_append, announced_singleton]
              simp [bitfieldTo]
            have hq₂ : Answerable s₂ q' := ⟨⟨hlt, fun _ => ha⟩, fun _ => ha⟩
            generalize send _ _ = ok
            cases ok
            · exact (h₂.removePeer q.ptr).dispatchMessages
                (hq₂.grows (grows_removePeer S s₂ q.ptr) (removePeer_cb S s₂ q.ptr) rfl) rfl rest
            · exact h₂.dispatchMessages hq₂ rfl rest
        · exact h₀.setPeer _ fun _ => h₀.flag q hm
      · exact h.emit rfl fun _ => rfl

/-! ### Ticks -/

theorem drain : ∀ (fuel : Nat) {s : Dm σ}, Orderly s → Orderly (Dm.drain S s fuel)
  | 0, _, h => h
  | fuel + 1, s, h => by
    unfold Dm.drain
    split
    · exact h
    · split
      · split <;> rename_i hp
        · rename_i j rest
          have hs : s.jobs = j :: rest := by
            revert hp; cases s.jobs <;> simp [JobQueue.pollJob]
          have h₁ : Orderly { s with jobs := rest } :=
            h.of_eq rfl rfl rfl fun x hx => hs ▸ List.mem_cons_of_mem _ hx
          cases j with
          | pollblock p => exact drain fuel (pollLoop _ h₁ (h.jobs p (hs ▸ List.mem_cons_self _ _)))
        · rename_i rest
          have hs : rest = [] := by revert hp; cases s.jobs <;> simp [JobQueue.pollJob]
          exact (h.of_eq (t := { s with jobs := rest }) rfl rfl rfl fun x hx => by
            simp [hs] at hx).emit rfl fun _ => rfl
      · exact h.emit rfl fun _ => rfl

/-- `__FUNC_peer_periodic` on a held peer: a connection is stepped only once its handshake is
received, when it has had our BITFIELD. -/
theorem peerPeriodic (h : Orderly s) {q : Peer} (hq : q ∈ s.peers) (hlt : q.ptr < s.nextPeer) :
    Orderly (Dm.peerPeriodic s q) := by
  unfold Dm.peerPeriodic
  split
  · exact h
  · split
    · exact h
    · rename_i hr
      have ha : announced s.trace q.ptr = true :=
        (h.flag q hq).trans (by simpa [Conn.flagIsSet] using hr)
      have h₁ := h.emit (e := .stepped q.ptr) rfl fun _ => rfl
      unfold Dm.connPeriodic
      split
      · exact h₁.pollblock ⟨hlt, fun _ => by simp [ha]⟩
      · exact h₁

theorem foldl_peerPeriodic : ∀ (qs : List Peer) {s : Dm σ}, Orderly s →
    (∀ q ∈ qs, q ∈ s.peers ∧ q.ptr < s.nextPeer) → Orderly (qs.foldl Dm.peerPeriodic s)
  | [], _, h, _ => h
  | q :: qs, s, h, hq => by
    obtain ⟨hm, hlt⟩ := hq q (List.mem_cons_self _ _)
    have g := grows_peerPeriodic s hm
    refine foldl_peerPeriodic qs (h.peerPeriodic hm hlt) fun r hr => ?_
    obtain ⟨hm', hlt'⟩ := hq r (List.mem_cons_of_mem _ hr)
    exact ⟨by simpa using hm', g.nextPeer ▸ hlt'⟩

theorem collectStats (h : Orderly s) (st : Stats) : Orderly (Dm.collectStats s st).1 := by
  unfold Dm.collectStats
  dsimp only
  suffices ∀ (qs : List Peer) (p : Dm σ × Stats), Orderly p.1 → Orderly (qs.foldl statsVisit p).1 from
    this _ _ h
  intro qs
  induction qs with
  | nil => exact fun _ h => h
  | cons q qs ih =>
    intro p hp
    refine ih _ ?_
    unfold statsVisit
    split
    · exact hp
    · exact hp.emit rfl fun _ => rfl

theorem periodic (h : Orderly s) (w : Wf s) (stats : Option Stats) :
    Orderly (Dm.periodic S s stats).1 := by
  have h₁ : Orderly (if s.amSeeding ∧ s.cfg.getInt "shutdown_when_complete" = 1 then s
      else (Dm.drain S s s.jobs.length).peers.foldl Dm.peerPeriodic (Dm.drain S s s.jobs.length)) := by
    split
    · exact h
    · have w' := (grows_drain S s.jobs.length s).wf w
      exact foldl_peerPeriodic _ (drain _ h) fun q hq => ⟨hq, w'.fresh q hq⟩
  unfold Dm.periodic
  simp only
  split
  · exact h₁.collectStats _
  · exact h₁

/-! ### Entry points -/

/-- A new record with the next identity, its handshake not received. -/
theorem add (h : Orderly s) {q : Peer} (hq : q.ptr = s.nextPeer)
    (hr : q.pc.handshakeReceived = false) :
    Orderly { s with peers := s.peers ++ [q], nextPeer := s.nextPeer + 1 } := by
  have hn : announced s.trace q.ptr = false := by
    cases ha : announced s.trace q.ptr
    · rfl
    · exact absurd (h.fresh _ ha) (by omega)
  refine ⟨h.inOrder, fun r hr' => ?_, fun p hp => ?_, fun p ha => Nat.lt_succ_of_lt (h.fresh p ha)⟩
  · rcases List.mem_append.mp hr' with hr' | hr'
    · exact h.flag r hr'
    · obtain rfl := List.mem_singleton.mp hr'
      exact hn.trans hr.symm
  · obtain ⟨h₁, h₂⟩ := h.jobs p hp
    refine ⟨Nat.lt_succ_of_lt h₁, fun hm => h₂ ?_⟩
    simp only [List.map_append, List.map_cons, List.map_nil, List.mem_append,
      List.mem_singleton] at hm
    rcases hm with hm | hm
    · exact hm
    · omega

theorem remember (h : Orderly s) {q : Peer} (hq : q.ptr = s.nextPeer)
    (hr : q.pc.handshakeReceived = false) : Orderly (Dm.remember S s q) := by
  unfold Dm.remember
  dsimp only
  split
  · exact (h.add hq hr).select _ _
  · exact h.add hq hr

theorem accept (h : Orderly s) (q : Peer)
    (hq : q.ptr ∈ s.peers.map (·.ptr) → announced s.trace q.ptr = q.pc.handshakeReceived) :
    Orderly (s.accept q).1 := by
  unfold Dm.accept
  dsimp only
  refine (h.setPeer _ fun hm => ?_).of_eq rfl rfl rfl fun _ => id
  exact hq hm

theorem addPeer (h : Orderly s) (peerId : String) (peerIdLen : Nat) (ip : String) (ipLen : Nat)
    (port : Int) (nh : Option Nat) : Orderly (Dm.addPeer S s peerId peerIdLen ip ipLen port nh).1 := by
  rcases addPeer_cases S s peerId peerIdLen ip ipLen port nh with
    he | ⟨q, hp, -, hr, he | he | ⟨_, he⟩⟩ <;> rw [he]
  · exact h
  · exact h.remember hp hr
  · have h₁ := h.remember (S := S) hp hr
    exact h₁.accept q fun _ => h₁.flag q (by simp [remember_eq])
  · have h₁ := h.remember (S := S) hp hr
    have hq := h₁.flag q (by simp [remember_eq])
    exact (h₁.setPeer { q with nethandle := some _ } fun _ => hq).accept _ fun _ => hq

theorem peerConnect (h : Orderly s) (nh : Nat) (ip : String) (port : Int) :
    Orderly (Dm.peerConnect S s nh ip port).1 := by
  unfold Dm.peerConnect
  split
  · exact h.sendToPeer _ (by simp [handshakeMsg]) fun _ => rfl
  · have h₁ := h.addPeer (S := S) "" 0 ip ip.length port (some nh)
    split <;> rename_i he <;> rw [he] at h₁
    · exact h₁.sendToPeer _ (by simp [handshakeMsg]) fun _ => rfl
    · exact h₁

theorem peerConnectFail (h : Orderly s) (nh : Nat) : Orderly (s.peerConnectFail nh) := by
  unfold Dm.peerConnectFail
  split
  · rename_i q hq
    exact h.setPeer _ fun _ => h.flag q (List.mem_of_find?_eq_some hq)
  · exact h

theorem step (h : Orderly s) (w : Wf s) (op : Op σ) : Orderly (Dm.step S s op) := by
  cases op with
  | setPieceDb db => exact h.of_eq rfl rfl rfl fun _ => id
  | setPieceSelector given =>
    exact (h.of_eq (t := { s with pselector := some (given.getD (S.new 0)) }) rfl rfl rfl
      fun _ => id).checkPieces
  | setCbs cb => exact h.of_eq rfl rfl rfl fun _ => id
  | configSet k v => exact h.of_eq rfl rfl rfl fun _ => id
  | addPeer peerId peerIdLen ip ipLen port nh => exact h.addPeer peerId peerIdLen ip ipLen port nh
  | removePeer ptr => exact h.removePeer ptr
  | peerConnect nh ip port => exact h.peerConnect nh ip port
  | peerConnectFail nh => exact h.peerConnectFail nh
  | dispatchFromBuffer nh buf => exact h.dispatchFromBuffer w.fresh nh buf
  | periodic stats => exact h.periodic w stats

end Orderly

theorem orderly_new : Orderly (new : Dm σ) :=
  ⟨rfl, by simp [new], by simp [new], by simp [new, announced]⟩

theorem reachable_orderly {s : Dm σ} (hs : Reachable S s) : Orderly s := by
  induction hs with
  | new => exact orderly_new
  | step op hr ih => exact ih.step (reachable_wf S hr) op

/-- **Per-peer order of what goes out.** In every run, whatever the host calls in whatever
order, each event fits the events before it (`inOrder_iff`): each peer is sent at most one
BITFIELD, only while it has had none, and every message but a handshake only after it. -/
theorem sends_in_order (ops : List (Op σ)) :
    inOrder (run S new ops).trace = true ∧
      ∀ p, (run S new ops).trace.countP (bitfieldTo p) ≤ 1 := by
  have h := reachable_orderly S (Reachable.run S .new ops)
  exact ⟨h.inOrder, fun p => by simpa using countP_bitfieldTo_le p [] _ h.inOrder⟩

end Dm

end Yabtorrent
