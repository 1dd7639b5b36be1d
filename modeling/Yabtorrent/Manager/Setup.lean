import Yabtorrent.Manager.Lifecycle

/-! A host that has set the manager up.

The manager calls through four pointers the host installs: the piece database's `get_piece`,
the selector interface, `peer_send` and `call_exclusively`. Each call site records a call
through a null pointer when its pointer is missing (`Site.isNull`). `Installed s` says that all
four are installed. `Calm s s'` is what every function does to this: it keeps all four
installed, appends no null-pointer call to a manager that has them, and never fails the
`assert(j)` of the job loop, which polls the queue only while `llqueue_count` is positive. One lemma per function, each
following the function's own branches, as for `Settled`.

* `ready_no_null_calls`: from any manager, no sequence of calls fails `assert(j)`; from one with
  all four installed, no sequence of calls that installs callbacks only with `peer_send` and
  `call_exclusively` makes a call through a null one of the four. A peer with no handler, which
  `bt_dm_add_peer` leaves when the host has no `peer_connect`, is outside this (`Site.noHandler`). -/
namespace Yabtorrent

/-- The sites that are calls through a pointer the host installs. -/
def Site.isNull : Site → Bool
  | .noPieceDb | .noSelector | .noPeerSend | .noCallExclusively => true
  | _ => false

namespace Dm
variable {σ : Type} (S : PieceSelector σ)

/-- The host has installed a piece database, a selector, `peer_send` and `call_exclusively`. -/
structure Installed (s : Dm σ) : Prop where
  pdb : s.pdb.isSome
  selector : s.pselector.isSome
  send : s.cb.peerSend.isSome
  exclusive : s.cb.callExclusively = true

theorem Installed.of_eq {s s' : Dm σ} (h : Installed s) (hp : s'.pdb.isSome = s.pdb.isSome)
    (hs : s'.pselector.isSome = s.pselector.isSome) (hc : s'.cb = s.cb) : Installed s' :=
  ⟨hp ▸ h.pdb, hs ▸ h.selector, hc ▸ h.send, hc ▸ h.exclusive⟩

/-- `s'` keeps what `s` has installed, and the events appended since fail no `assert(j)` and,
when `s` has everything installed, call through no null pointer. -/
structure Calm (s s' : Dm σ) : Prop where
  installed : Installed s → Installed s'
  trace : ∃ new, s'.trace = s.trace ++ new ∧ .failed .noJob ∉ new ∧
    (Installed s → ∀ x, x.isNull = true → .failed x ∉ new)

namespace Calm

theorem refl (s : Dm σ) : Calm s s := ⟨id, [], by simp, by simp, by simp⟩

theorem trans {s₁ s₂ s₃ : Dm σ} (h₁ : Calm s₁ s₂) (h₂ : Calm s₂ s₃) : Calm s₁ s₃ := by
  obtain ⟨n₁, e₁, j₁, hn₁⟩ := h₁.trace
  obtain ⟨n₂, e₂, j₂, hn₂⟩ := h₂.trace
  refine ⟨h₂.installed ∘ h₁.installed, n₁ ++ n₂, by rw [e₂, e₁, List.append_assoc], by simp [j₁, j₂],
    fun h x hx => ?_⟩
  simp [hn₁ h x hx, hn₂ (h₁.installed h) x hx]

/-- A change that keeps what is installed and the trace. -/
theorem of_eq {s s' : Dm σ} (hp : s'.pdb.isSome = s.pdb.isSome)
    (hs : s'.pselector.isSome = s.pselector.isSome) (hc : s'.cb = s.cb) (ht : s'.trace = s.trace) :
    Calm s s' :=
  ⟨fun h => h.of_eq hp hs hc, [], by simp [ht], by simp, by simp⟩

end Calm

/-- One event, which is no failed `assert(j)` and, from a set-up manager, no null-pointer
call. -/
theorem calm_emit (s : Dm σ) {e : Event} (hj : e ≠ .failed .noJob)
    (hn : Installed s → ∀ x, x.isNull = true → e ≠ .failed x) : Calm s (s.emit e) :=
  ⟨fun h => h.of_eq rfl rfl rfl, [e], rfl, by simpa [eq_comm] using hj,
    fun h x hx => by simpa [eq_comm] using hn h x hx⟩

/-- An event that is no failure. -/
theorem calm_emit_of (s : Dm σ) {e : Event} (he : ∀ x, e ≠ .failed x) : Calm s (s.emit e) :=
  calm_emit s (he _) fun _ x _ => he x

/-- A null-pointer call, made only where its pointer is missing. -/
theorem calm_emit_null (s : Dm σ) {x : Site} (hx : x ≠ .noJob) (h : ¬ Installed s) :
    Calm s (s.emit (.failed x)) :=
  calm_emit s (by simpa using hx) fun hr => absurd hr h

/-- A failure that is no failed `assert(j)` and no null-pointer call. -/
theorem calm_emit_fail (s : Dm σ) {x : Site} (hx : x.isNull = false) (hj : x ≠ .noJob) :
    Calm s (s.emit (.failed x)) :=
  calm_emit s (by simpa using hj) fun _ y hy h => by
    rw [Event.failed.inj h] at hx
    simp_all

theorem calm_pselector (s : Dm σ) (st : σ) : Calm s { s with pselector := some st } :=
  ⟨fun h => ⟨h.pdb, rfl, h.send, h.exclusive⟩, [], by simp, by simp, by simp⟩

theorem calm_select (s : Dm σ) (c : Call) (f : σ → σ) : Calm s (s.select c f) := by
  refine ⟨fun h => h.of_eq rfl (by simp [select]) rfl, [_], rfl, ?_, fun h x _ => ?_⟩ <;>
    split <;> simp_all [Installed.selector]

theorem calm_markComplete (s : Dm σ) (i : Nat) : Calm s (s.markComplete i) :=
  .of_eq rfl rfl rfl rfl

theorem calm_modifyPiece (s : Dm σ) (i : Nat) (f : Piece → Piece) (hf : ∀ p, (f p).idx = p.idx) :
    Calm s (s.modifyPiece i f hf) :=
  .of_eq (by simp) rfl rfl rfl

theorem calm_setPeer (s : Dm σ) (q : Peer) : Calm s (s.setPeer q) := .of_eq rfl rfl rfl rfl

theorem calm_sendToPeer (s : Dm σ) (q : Peer) (m : Msg) : Calm s (s.sendToPeer q m).1 := by
  rw [sendToPeer_fst]
  split
  · exact calm_emit_of s (by simp)
  · exact calm_emit_null s (by simp) fun h => by simp_all [h.send]

theorem calm_of_getPiece {s s' : Dm σ} {i : Nat} {o : Option Piece}
    (hg : s.getPiece i = (s', o)) : Calm s s' := by
  have h := congrArg Prod.fst hg
  rw [getPiece_fst] at h
  subst h
  split
  · exact .refl s
  · exact calm_emit_null s (by simp) fun h => by simp_all [h.pdb]

theorem calm_foldl {α : Type} {f : Dm σ → α → Dm σ} (hf : ∀ s a, Calm s (f s a)) :
    ∀ (xs : List α) (s : Dm σ), Calm s (xs.foldl f s)
  | [], s => .refl s
  | x :: xs, s => (hf s x).trans (calm_foldl hf xs _)

theorem calm_of_sendBitfield {s s' : Dm σ} {q : Peer} {ok : Bool}
    (h : s.sendBitfield q = (s', ok)) : Calm s s' := by
  have h₁ := congrArg Prod.fst h
  simp only [sendBitfield] at h₁
  exact h₁ ▸ calm_sendToPeer s q _

/-! ### The manager's callbacks -/

theorem calm_pollblock (s : Dm σ) (ptr : Nat) : Calm s (pollblock s ptr) := by
  unfold pollblock
  split
  · exact .of_eq rfl rfl rfl rfl
  · rename_i hx
    exact calm_emit_null s (by simp) fun h => by simp [h.exclusive] at hx

theorem calm_givebackBlock (s : Dm σ) (ptr : Nat) (b : Block) :
    Calm s (givebackBlock S s ptr b) := by
  unfold givebackBlock
  split <;> rename_i hg
  · exact ((calm_of_getPiece hg).trans (calm_modifyPiece _ _ _ _)).trans (calm_select _ _ _)
  · exact (calm_of_getPiece hg).trans (calm_emit_fail _ rfl (by simp))

theorem calm_sendHave (s : Dm σ) (q : Peer) (i : Nat) : Calm s (s.sendHave q i) := by
  unfold sendHave
  split
  · exact calm_sendToPeer s q _
  · exact .refl s

theorem calm_pushblock (s : Dm σ) (ptr : Nat) (b : Block) (data : List UInt8) :
    Calm s (pushblock S s ptr b data) := by
  unfold pushblock
  split
  · rename_i hp
    exact calm_emit_null s (by simp) fun h => by simpa [hp] using h.pdb
  · split
    · exact calm_emit_fail s rfl (by simp)
    · rename_i db _ _ p hp
      simp only
      have hw := (calm_modifyPiece s b.pieceIdx _ (Piece.writeBlock_idx · (db.disk b data) b data ptr)).trans
        (calm_emit_of _ (e := .wrote ptr b) (by simp))
      split
      · exact (hw.trans ((calm_select _ _ _).trans (calm_markComplete _ _))).trans
          (calm_foldl (fun s q => calm_sendHave s q _) _ _)
      · split
        · split
          · exact hw.trans (.of_eq rfl rfl rfl rfl)
          · rw [foldl_suspect]
            refine hw.trans (Calm.trans ?_ ((calm_modifyPiece _ _ _ _).trans (calm_select _ _ _)))
            exact .of_eq rfl rfl rfl rfl
        · exact hw

theorem calm_writeBlockToStream (s : Dm σ) (b : Block) : Calm s (writeBlockToStream s b).1 := by
  unfold writeBlockToStream
  split <;> exact calm_of_getPiece ‹_›

theorem calm_removePeer (s : Dm σ) (ptr : Nat) : Calm s (removePeer S s ptr).1 := by
  unfold removePeer
  split
  · refine Calm.trans (Calm.trans ?_ (calm_select _ _ _)) (calm_emit_of _ (by simp))
    exact .of_eq rfl rfl rfl rfl
  · exact .refl s

theorem calm_offerBlock (s : Dm σ) (ptr : Nat) (b : Block) : Calm s (s.offerBlock ptr b) := by
  unfold offerBlock
  split
  · exact ((calm_emit_of s (by simp)).trans (calm_setPeer _ _)).trans (calm_sendToPeer _ _ _)
  · exact calm_emit_of s (by simp)

/-! ### Inbound bytes -/

theorem calm_connMsg (s : Dm σ) (q : Peer) (m : Msg) : Calm s (connMsg S s q m).1 := by
  cases m with
  | choke => exact calm_foldl (fun s b => calm_givebackBlock S s _ b) _ _
  | unchoke => exact calm_pollblock s _
  | «have» i =>
    simp only [connMsg]
    split
    · exact (calm_select _ _ _).trans (calm_sendToPeer _ _ _)
    · exact calm_select _ _ _
  | bitfield bits =>
    simp only [connMsg]
    split
    · exact .refl s
    · exact calm_foldl (f := fun s i => peerHavePiece S s q.ptr i) (fun _ _ => calm_select _ _ _) _ _
  | request b =>
    simp only [connMsg]
    split
    · exact .refl s
    · have h := calm_writeBlockToStream s b
      split <;> rename_i hw <;> rw [hw] at h
      · exact h.trans (calm_sendToPeer _ _ _)
      · exact h
  | piece i off data => exact (calm_pushblock S s _ _ _).trans (calm_pollblock _ _)
  | keepAlive | interested | notInterested | cancel _ | handshake _ _ => exact .refl s

theorem calm_msgLoop : ∀ (fuel : Nat) (s : Dm σ) (q : Peer) (buf : List UInt8),
    Calm s (msgLoop S s q buf fuel).1
  | 0, s, _, _ => .refl s
  | fuel + 1, s, q, buf => by
    unfold msgLoop
    split
    · exact .refl s
    · exact .refl s
    · split
      · exact .refl s
      · rename_i m _
        have h := calm_connMsg S s q m
        split <;> rename_i hd <;> rw [hd] at h
        · exact h.trans (calm_msgLoop fuel _ _ _)
        · exact h

theorem calm_dispatchMessages (s : Dm σ) (q : Peer) (bytes : List UInt8) :
    Calm s (dispatchMessages S s q bytes).1 := by
  unfold dispatchMessages msghandlerDispatch
  split
  · rename_i mh _
    have h := (calm_emit_of s (e := .fed q.ptr bytes) (by simp)).trans
      (calm_msgLoop S (mh.buf ++ bytes).length _ q (mh.buf ++ bytes))
    generalize msgLoop S (s.emit (.fed q.ptr bytes)) q (mh.buf ++ bytes)
      (mh.buf ++ bytes).length = r at h
    obtain ⟨s', q', rest, ok⟩ := r
    cases ok
    · exact h.trans ((calm_setPeer _ _).trans (calm_removePeer S _ _))
    · exact h.trans (calm_setPeer _ _)
  · exact calm_emit_fail s rfl (by simp)

theorem calm_dispatchFromBuffer (s : Dm σ) (h : Nat) (buf : List UInt8) :
    Calm s (dispatchFromBuffer S s h buf).1 := by
  unfold dispatchFromBuffer
  split
  · exact .refl s
  · split
    · exact calm_dispatchMessages S s _ buf
    · split
      · split
        · simp only
          split <;> rename_i hb <;>
            have h₂ := ((calm_emit_of s (by simp)).trans (calm_setPeer _ _)).trans (calm_of_sendBitfield hb)
          · exact h₂.trans (calm_dispatchMessages S _ _ _)
          · exact (h₂.trans (calm_removePeer S _ _)).trans (calm_dispatchMessages S _ _ _)
        · exact (calm_emit_of s (by simp)).trans (calm_setPeer _ _)
      · exact calm_emit_fail s rfl (by simp)

/-! ### Ticks -/

theorem calm_requestBlocks (ptr i : Nat) :
    ∀ (fuel : Nat) (s : Dm σ), Calm s (requestBlocks s ptr i fuel)
  | 0, s => .refl s
  | fuel + 1, s => by
    unfold requestBlocks
    split
    · split
      · exact .refl s
      · split
        · exact ((calm_modifyPiece _ _ _ _).trans (calm_offerBlock _ _ _)).trans
            (calm_requestBlocks ptr i fuel _)
        · exact .refl s
    · exact .refl s

theorem calm_pollLoop (ptr : Nat) : ∀ (fuel : Nat) (s : Dm σ), Calm s (pollLoop S s ptr fuel)
  | 0, s => calm_emit_fail s rfl (by simp)
  | fuel + 1, s => by
    unfold pollLoop
    split
    · rename_i hs
      exact calm_emit_null s (by simp) fun h => by simpa [hs] using h.selector
    · simp only
      split
      · exact (calm_pselector s _).trans (calm_emit_of _ (by simp))
      · split <;> rename_i hg <;>
          have h := ((calm_pselector s _).trans (calm_emit_of _ (by simp))).trans (calm_of_getPiece hg)
        · split
          · exact (h.trans (calm_select _ _ _)).trans (calm_pollLoop ptr fuel _)
          · exact h.trans (calm_requestBlocks _ _ _ _)
        · exact h.trans (calm_emit_fail _ rfl (by simp))

theorem calm_dispatchJob (s : Dm σ) (j : Job) : Calm s (dispatchJob S s j) := by
  cases j
  exact calm_pollLoop S _ _ s

/-- The job loop polls the queue only while it holds a job, so `assert(j)` never fails. -/
theorem calm_drain : ∀ (fuel : Nat) (s : Dm σ), Calm s (drain S s fuel)
  | 0, s => .refl s
  | fuel + 1, s => by
    unfold drain
    split
    · exact .refl s
    · rename_i hn
      split
      · split
        · refine (Calm.trans ?_ (calm_dispatchJob S _ _)).trans (calm_drain fuel _)
          exact .of_eq rfl rfl rfl rfl
        · rename_i rest hp
          cases hj : s.jobs with
          | nil => simp [hj] at hn
          | cons j js => simp [hj, JobQueue.pollJob] at hp
      · rename_i hx
        exact calm_emit_null s (by simp) fun h => by simp [h.exclusive] at hx

theorem calm_peerPeriodic (s : Dm σ) (q : Peer) : Calm s (peerPeriodic s q) := by
  unfold peerPeriodic connPeriodic
  split_ifs
  · exact .refl s
  · exact .refl s
  · exact (calm_emit_of s (by simp)).trans (calm_pollblock _ _)
  · exact calm_emit_of s (by simp)

theorem calm_collectStats (s : Dm σ) (st : Stats) : Calm s (collectStats s st).1 := by
  unfold collectStats
  dsimp only
  suffices ∀ (qs : List Peer) (p : Dm σ × Stats), Calm p.1 (qs.foldl statsVisit p).1 from
    this s.peers (s, _)
  intro qs
  induction qs with
  | nil => exact fun p => .refl p.1
  | cons q qs ih =>
    intro p
    refine Calm.trans ?_ (ih _)
    unfold statsVisit
    split
    · exact .refl _
    · exact calm_emit_fail _ rfl (by simp)

theorem calm_periodic (s : Dm σ) (stats : Option Stats) : Calm s (periodic S s stats).1 := by
  have h : Calm s (if s.amSeeding ∧ s.cfg.getInt "shutdown_when_complete" = 1 then s
      else (drain S s s.jobs.length).peers.foldl peerPeriodic (drain S s s.jobs.length)) := by
    split
    · exact .refl s
    · exact (calm_drain S _ s).trans (calm_foldl calm_peerPeriodic _ _)
  unfold periodic
  simp only
  split
  · exact h.trans (calm_collectStats _ _)
  · exact h

/-! ### Peers and the selector -/

theorem calm_checkPieces (s : Dm σ) : Calm s (checkPieces S s) := by
  refine calm_foldl (fun s i => ?_) _ s
  split <;> rename_i hg <;> have h := calm_of_getPiece hg
  · split
    · exact (h.trans (calm_select _ _ _)).trans (calm_markComplete _ _)
    · exact h
  · exact h

theorem calm_addPeer (s : Dm σ) (peerId : String) (peerIdLen : Nat) (ip : String) (ipLen : Nat)
    (port : Int) (nh : Option Nat) : Calm s (addPeer S s peerId peerIdLen ip ipLen port nh).1 := by
  rcases addPeer_cases S s peerId peerIdLen ip ipLen port nh with
    he | ⟨q, -, -, -, he | he | ⟨_, he⟩⟩ <;> rw [he]
  · exact .refl s
  all_goals
    refine ⟨fun h => h.of_eq (by simp [remember_eq, accept]) (by simp [remember_eq, accept])
      (by simp [remember_eq, accept]), _, (by simp [remember_eq, accept]; rfl), ?_, ?_⟩ <;>
    split <;> simp

theorem calm_peerConnect (s : Dm σ) (h : Nat) (ip : String) (port : Int) :
    Calm s (peerConnect S s h ip port).1 := by
  unfold peerConnect
  split
  · exact calm_sendToPeer _ _ _
  · have ha := calm_addPeer S s "" 0 ip ip.length port (some h)
    split <;> rename_i he <;> rw [he] at ha
    · exact ha.trans (calm_sendToPeer _ _ _)
    · exact ha

theorem calm_peerConnectFail (s : Dm σ) (h : Nat) : Calm s (s.peerConnectFail h) := by
  unfold peerConnectFail
  split
  · exact calm_setPeer _ _
  · exact .refl s

/-- Every call of the host but one installing callbacks without `peer_send` or
`call_exclusively`. -/
theorem calm_step (s : Dm σ) (op : Op σ)
    (hop : ∀ cb, op = .setCbs cb → cb.peerSend.isSome ∧ cb.callExclusively = true) :
    Calm s (step S s op) := by
  cases op with
  | setPieceDb db => exact ⟨fun h => ⟨rfl, h.selector, h.send, h.exclusive⟩, [], by simp [step, setPieceDb], by simp, by simp⟩
  | setCbs cb =>
    obtain ⟨hs, hx⟩ := hop cb rfl
    exact ⟨fun h => ⟨h.pdb, h.selector, hs, hx⟩, [], by simp [step, setCbs], by simp, by simp⟩
  | configSet _ _ => exact .of_eq rfl rfl rfl rfl
  | setPieceSelector given =>
    refine Calm.trans ?_ (calm_checkPieces S _)
    exact ⟨fun h => ⟨h.pdb, rfl, h.send, h.exclusive⟩, [], by simp, by simp, by simp⟩
  | addPeer peerId peerIdLen ip ipLen port nh => exact calm_addPeer S s peerId peerIdLen ip ipLen port nh
  | removePeer ptr => exact calm_removePeer S s ptr
  | peerConnect nh ip port => exact calm_peerConnect S s nh ip port
  | peerConnectFail nh => exact calm_peerConnectFail s nh
  | dispatchFromBuffer nh buf => exact calm_dispatchFromBuffer S s nh buf
  | periodic stats => exact calm_periodic S s stats

theorem calm_run (ops : List (Op σ))
    (hops : ∀ cb, .setCbs cb ∈ ops → cb.peerSend.isSome ∧ cb.callExclusively = true) :
    ∀ s : Dm σ, Calm s (run S s ops) := by
  induction ops with
  | nil => exact .refl
  | cons op ops ih =>
    intro s
    exact (calm_step S s op fun cb h => hops cb (h ▸ List.mem_cons_self _ _)).trans
      (ih (fun cb h => hops cb (List.mem_cons_of_mem _ h)) _)

/-- **No failed `assert(j)`, and no call through a missing host pointer once the host has set
the manager up.** From any manager, the calls `ops` append no failure of the job loop's
`assert(j)`; from a manager with all four pointers installed, if `ops` installs callbacks only
with `peer_send` and `call_exclusively`, they append no call through a missing `get_piece`,
selector, `peer_send` or `call_exclusively` (`Site.isNull`). A peer's own handler is not among
these: with no `peer_connect` callback, `bt_dm_add_peer` leaves the peer with none, and a
dispatch to it is the null call `Site.noHandler`. -/
theorem ready_no_null_calls (s : Dm σ) (ops : List (Op σ))
    (hops : ∀ cb, .setCbs cb ∈ ops → cb.peerSend.isSome ∧ cb.callExclusively = true) :
    .failed .noJob ∉ (run S s ops).trace.drop s.trace.length ∧
      (Installed s → ∀ x, x.isNull = true → .failed x ∉ (run S s ops).trace.drop s.trace.length) := by
  obtain ⟨new, ht, hj, hn⟩ := (calm_run S ops hops s).trace
  simp only [ht, List.drop_left]
  exact ⟨hj, hn⟩

/-- The manager the eleven-block runs set up has everything installed, and its next tick makes
no null-pointer call. -/
theorem ready_no_null_calls_tick :
    Installed unchokedEleven ∧ ∀ x, x.isNull = true →
      .failed x ∉ (run sequential unchokedEleven [.periodic none]).trace.drop unchokedEleven.trace.length :=
  have hr : Installed unchokedEleven := ⟨rfl, rfl, rfl, rfl⟩
  ⟨hr, (ready_no_null_calls sequential unchokedEleven [.periodic none] fun cb h => by simp at h).2 hr⟩

end Dm

end Yabtorrent
