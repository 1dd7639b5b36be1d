import Yabtorrent.Manager.Lifecycle

/-! What the manager tells its peers it has.

Two messages claim pieces: a HAVE names one, and our BITFIELD sets a bit for each
(`Msg.claims`). `__FUNC_peerconn_pushblock` sends HAVE only after `sc_mark_complete` has marked
the piece in `pieces_completed`, `pwp_send_bitfield` reads its bits off `pieces_completed`, and
nothing clears a mark. `Backed s s'` is what every function of the manager does to this: marks
stay, and each message it appends claims only pieces marked when it returns. One lemma per
function, each following the function's own branches, as for `Settled`.

`bt_dm_set_piece_selector` is the other place marks are made: `bt_dm_check_pieces` walks the
indices below `npieces` and marks each piece the database holds complete (`checkPieces_eq`).

* `announcements_marked`: in every reachable state, every piece any peer has been told we have,
  by a HAVE or a bit of our BITFIELD, is marked in `pieces_completed`.
* `setPieceSelector_marks_complete`: installing a selector adds to the marks exactly the complete
  pieces below `npieces`, and tells the new selector of each, in index order. -/
namespace Yabtorrent

/-- Whether `m` tells its receiver that we have piece `i`: a HAVE for `i`, or a BITFIELD with
bit `i` set. -/
def Msg.claims : Msg → Nat → Bool
  | .have j, i => i == j
  | .bitfield bits, i => bits.getD i false
  | _, _ => false

namespace Dm
variable {σ : Type} (S : PieceSelector σ)

/-- Every message in the trace claims only pieces marked in `pieces_completed`. -/
def Truthful (s : Dm σ) : Prop :=
  ∀ p m i, .sent p m ∈ s.trace → m.claims i = true → i ∈ s.piecesCompleted

/-- `s'` keeps the marks of `s`, and every message appended since claims only pieces `s'`
marks. -/
structure Backed (s s' : Dm σ) : Prop where
  marks : s.piecesCompleted ⊆ s'.piecesCompleted
  sent : ∃ new, s'.trace = s.trace ++ new ∧
    ∀ p m i, .sent p m ∈ new → m.claims i = true → i ∈ s'.piecesCompleted

namespace Backed

theorem refl (s : Dm σ) : Backed s s := ⟨List.Subset.refl _, [], by simp, by simp⟩

theorem trans {s₁ s₂ s₃ : Dm σ} (h₁ : Backed s₁ s₂) (h₂ : Backed s₂ s₃) : Backed s₁ s₃ := by
  obtain ⟨n₁, e₁, hn₁⟩ := h₁.sent
  obtain ⟨n₂, e₂, hn₂⟩ := h₂.sent
  refine ⟨fun _ h => h₂.marks (h₁.marks h), n₁ ++ n₂, by rw [e₂, e₁, List.append_assoc], fun p m i h hc => ?_⟩
  rcases List.mem_append.mp h with h | h
  · exact h₂.marks (hn₁ p m i h hc)
  · exact hn₂ p m i h hc

/-- A change that keeps the marks and the trace. -/
theorem of_eq {s s' : Dm σ} (hc : s'.piecesCompleted = s.piecesCompleted) (ht : s'.trace = s.trace) :
    Backed s s' :=
  ⟨hc ▸ List.Subset.refl _, [], by simp [ht], by simp⟩

/-- A change that keeps the marks and appends no message. -/
theorem quiet {s s' : Dm σ} (hc : s'.piecesCompleted = s.piecesCompleted) (new : List Event)
    (ht : s'.trace = s.trace ++ new) (hq : ∀ p m, .sent p m ∉ new) : Backed s s' :=
  ⟨hc ▸ List.Subset.refl _, new, ht, fun p m _ h => absurd h (hq p m)⟩

theorem truthful {s s' : Dm σ} (g : Backed s s') (h : Truthful s) : Truthful s' := by
  obtain ⟨new, ht, hn⟩ := g.sent
  intro p m i hm hc
  rw [ht] at hm
  rcases List.mem_append.mp hm with hm | hm
  · exact g.marks (h p m i hm hc)
  · exact hn p m i hm hc

end Backed

theorem backed_emit (s : Dm σ) {e : Event} (he : ∀ p m, e ≠ .sent p m) : Backed s (s.emit e) :=
  .quiet rfl [e] rfl fun p m h => he p m (List.mem_singleton.mp h).symm

theorem backed_select (s : Dm σ) (c : Call) (f : σ → σ) : Backed s (s.select c f) :=
  .quiet rfl [_] rfl fun p m h => by split at h <;> simp at h

@[simp] theorem mem_markComplete_iff (s : Dm σ) (i j : Nat) :
    j ∈ (s.markComplete i).piecesCompleted ↔ j ∈ s.piecesCompleted ∨ j = i := by
  simp only [markComplete_piecesCompleted]
  split
  · simp only [iff_self_or]
    rintro rfl
    assumption
  · simp

theorem backed_markComplete (s : Dm σ) (i : Nat) : Backed s (s.markComplete i) :=
  ⟨(markComplete_keeps_marks s i).subset, [], by simp, by simp⟩

theorem backed_modifyPiece (s : Dm σ) (i : Nat) (f : Piece → Piece) (hf : ∀ p, (f p).idx = p.idx) :
    Backed s (s.modifyPiece i f hf) :=
  .of_eq rfl rfl

theorem backed_setPeer (s : Dm σ) (q : Peer) : Backed s (s.setPeer q) := .of_eq rfl rfl

theorem backed_pselector (s : Dm σ) (x : Option σ) : Backed s { s with pselector := x } :=
  .of_eq rfl rfl

/-- A message goes out that claims only marked pieces. -/
theorem backed_sendToPeer (s : Dm σ) (q : Peer) {m : Msg}
    (hm : ∀ i, m.claims i = true → i ∈ s.piecesCompleted) : Backed s (s.sendToPeer q m).1 := by
  rw [sendToPeer_fst]
  refine ⟨List.Subset.refl _, [_], rfl, fun p m' i h hc => ?_⟩
  split at h <;> simp only [List.mem_singleton, Event.sent.injEq, reduceCtorEq] at h
  exact h.2 ▸ hm i (h.2 ▸ hc)

/-- A message that claims no piece goes out. -/
theorem backed_sendToPeer_of {s : Dm σ} (q : Peer) {m : Msg} (hm : ∀ i, m.claims i = false) :
    Backed s (s.sendToPeer q m).1 :=
  backed_sendToPeer s q fun i h => absurd h (by simp [hm i])

theorem backed_of_getPiece {s s' : Dm σ} {i : Nat} {o : Option Piece}
    (hg : s.getPiece i = (s', o)) : Backed s s' := by
  have h := congrArg Prod.fst hg
  rw [getPiece_fst] at h
  subst h
  split
  · exact .refl s
  · exact backed_emit s (by simp)

theorem backed_foldl {α : Type} {f : Dm σ → α → Dm σ} (hf : ∀ s a, Backed s (f s a)) :
    ∀ (xs : List α) (s : Dm σ), Backed s (xs.foldl f s)
  | [], s => .refl s
  | x :: xs, s => (hf s x).trans (backed_foldl hf xs _)

/-- Our BITFIELD claims exactly the marked pieces below `npieces`. -/
theorem sendBitfield_claims (s : Dm σ) (i : Nat) :
    (Msg.bitfield ((List.range (s.cfg.getInt "npieces").toNat).map (decide <| · ∈ s.piecesCompleted))).claims i =
      (decide (i < (s.cfg.getInt "npieces").toNat) && decide (i ∈ s.piecesCompleted)) := by
  by_cases hi : i < (s.cfg.getInt "npieces").toNat
  · simp [Msg.claims, List.getD_eq_getElem?_getD, hi, List.getElem?_range]
  · have hn : (List.range (s.cfg.getInt "npieces").toNat)[i]? = none :=
      List.getElem?_eq_none_iff.mpr (by simpa using Nat.le_of_not_lt hi)
    simp [Msg.claims, List.getD_eq_getElem?_getD, hi, hn]

theorem backed_of_sendBitfield {s s' : Dm σ} {q : Peer} {ok : Bool}
    (h : s.sendBitfield q = (s', ok)) : Backed s s' := by
  have h₁ := congrArg Prod.fst h
  simp only [sendBitfield] at h₁
  exact h₁ ▸ backed_sendToPeer s q fun i hc => by simp_all [sendBitfield_claims]

/-! ### The manager's callbacks -/

theorem backed_pollblock (s : Dm σ) (ptr : Nat) : Backed s (pollblock s ptr) := by
  unfold pollblock
  split
  · exact .of_eq rfl rfl
  · exact backed_emit s (by simp)

theorem backed_givebackBlock (s : Dm σ) (ptr : Nat) (b : Block) :
    Backed s (givebackBlock S s ptr b) := by
  unfold givebackBlock
  split <;> rename_i hg
  · exact ((backed_of_getPiece hg).trans (backed_modifyPiece _ _ _ _)).trans (backed_select _ _ _)
  · exact (backed_of_getPiece hg).trans (backed_emit _ (by simp))

@[simp] theorem sendHave_piecesCompleted (s : Dm σ) (q : Peer) (i : Nat) :
    (s.sendHave q i).piecesCompleted = s.piecesCompleted := by
  unfold sendHave; split <;> simp

/-- HAVE for a marked piece, to each peer in turn. -/
theorem backed_foldl_sendHave {i : Nat} :
    ∀ (qs : List Peer) (s : Dm σ), i ∈ s.piecesCompleted →
      Backed s (qs.foldl (fun s q => s.sendHave q i) s)
  | [], s, _ => .refl s
  | q :: qs, s, hi => by
    have h : Backed s (s.sendHave q i) := by
      unfold sendHave
      split
      · exact backed_sendToPeer s q fun j hc => by simp_all [Msg.claims]
      · exact .refl s
    exact h.trans (backed_foldl_sendHave qs _ (by simpa using hi))

theorem backed_pushblock (s : Dm σ) (ptr : Nat) (b : Block) (data : List UInt8) :
    Backed s (pushblock S s ptr b data) := by
  unfold pushblock
  split
  · exact backed_emit s (by simp)
  · split
    · exact backed_emit s (by simp)
    · rename_i db _ _ p hp
      simp only
      have hw := (backed_modifyPiece s b.pieceIdx _ (Piece.writeBlock_idx · (db.disk b data) b data ptr)).trans
        (backed_emit _ (e := .wrote ptr b) (by simp))
      split
      · refine (hw.trans ((backed_select _ _ _).trans (backed_markComplete _ _))).trans
          (backed_foldl_sendHave _ _ ?_)
        rw [PieceDb.idx_of_getElem? hp]
        exact mem_markComplete _ _
      · split
        · split
          · exact hw.trans (.of_eq rfl rfl)
          · rw [foldl_suspect]
            refine hw.trans (Backed.trans ?_ ((backed_modifyPiece _ _ _ _).trans (backed_select _ _ _)))
            exact .of_eq rfl rfl
        · exact hw

theorem backed_writeBlockToStream (s : Dm σ) (b : Block) : Backed s (writeBlockToStream s b).1 := by
  unfold writeBlockToStream
  split <;> exact backed_of_getPiece ‹_›

theorem backed_removePeer (s : Dm σ) (ptr : Nat) : Backed s (removePeer S s ptr).1 := by
  unfold removePeer
  split
  · refine Backed.trans (Backed.trans ?_ (backed_select _ _ _)) (backed_emit _ (by simp))
    exact .of_eq rfl rfl
  · exact .refl s

theorem backed_offerBlock (s : Dm σ) (ptr : Nat) (b : Block) : Backed s (s.offerBlock ptr b) := by
  unfold offerBlock
  split
  · exact ((backed_emit s (by simp)).trans (backed_setPeer _ _)).trans
      (backed_sendToPeer_of _ fun _ => rfl)
  · exact backed_emit s (by simp)

/-! ### Inbound bytes -/

theorem backed_connMsg (s : Dm σ) (q : Peer) (m : Msg) : Backed s (connMsg S s q m).1 := by
  cases m with
  | choke => exact backed_foldl (fun s b => backed_givebackBlock S s _ b) _ _
  | unchoke => exact backed_pollblock s _
  | «have» i =>
    simp only [connMsg]
    split
    · exact (backed_select _ _ _).trans (backed_sendToPeer_of _ fun _ => rfl)
    · exact backed_select _ _ _
  | bitfield bits =>
    simp only [connMsg]
    split
    · exact .refl s
    · exact backed_foldl (f := fun s i => peerHavePiece S s q.ptr i) (fun _ _ => backed_select _ _ _) _ _
  | request b =>
    simp only [connMsg]
    split
    · exact .refl s
    · have h := backed_writeBlockToStream s b
      split <;> rename_i hw <;> rw [hw] at h
      · exact h.trans (backed_sendToPeer_of _ fun _ => rfl)
      · exact h
  | piece i off data => exact (backed_pushblock S s _ _ _).trans (backed_pollblock _ _)
  | keepAlive | interested | notInterested | cancel _ | handshake _ _ => exact .refl s

theorem backed_msgLoop : ∀ (fuel : Nat) (s : Dm σ) (q : Peer) (buf : List UInt8),
    Backed s (msgLoop S s q buf fuel).1
  | 0, s, _, _ => .refl s
  | fuel + 1, s, q, buf => by
    unfold msgLoop
    split
    · exact .refl s
    · exact .refl s
    · split
      · exact .refl s
      · rename_i m _
        have h := backed_connMsg S s q m
        split <;> rename_i hd <;> rw [hd] at h
        · exact h.trans (backed_msgLoop fuel _ _ _)
        · exact h

theorem backed_dispatchMessages (s : Dm σ) (q : Peer) (bytes : List UInt8) :
    Backed s (dispatchMessages S s q bytes).1 := by
  unfold dispatchMessages msghandlerDispatch
  split
  · rename_i mh _
    have h := (backed_emit s (e := .fed q.ptr bytes) (by simp)).trans
      (backed_msgLoop S (mh.buf ++ bytes).length _ q (mh.buf ++ bytes))
    generalize msgLoop S (s.emit (.fed q.ptr bytes)) q (mh.buf ++ bytes)
      (mh.buf ++ bytes).length = r at h
    obtain ⟨s', q', rest, ok⟩ := r
    cases ok
    · exact h.trans ((backed_setPeer _ _).trans (backed_removePeer S _ _))
    · exact h.trans (backed_setPeer _ _)
  · exact backed_emit s (by simp)

theorem backed_dispatchFromBuffer (s : Dm σ) (h : Nat) (buf : List UInt8) :
    Backed s (dispatchFromBuffer S s h buf).1 := by
  unfold dispatchFromBuffer
  split
  · exact .refl s
  · split
    · exact backed_dispatchMessages S s _ buf
    · split
      · split
        · simp only
          split <;> rename_i hb <;>
            have h₂ := ((backed_emit s (by simp)).trans (backed_setPeer _ _)).trans (backed_of_sendBitfield hb)
          · exact h₂.trans (backed_dispatchMessages S _ _ _)
          · exact (h₂.trans (backed_removePeer S _ _)).trans (backed_dispatchMessages S _ _ _)
        · exact (backed_emit s (by simp)).trans (backed_setPeer _ _)
      · exact backed_emit s (by simp)

/-! ### Ticks -/

theorem backed_requestBlocks (ptr i : Nat) :
    ∀ (fuel : Nat) (s : Dm σ), Backed s (requestBlocks s ptr i fuel)
  | 0, s => .refl s
  | fuel + 1, s => by
    unfold requestBlocks
    split
    · split
      · exact .refl s
      · split
        · exact ((backed_modifyPiece _ _ _ _).trans (backed_offerBlock _ _ _)).trans
            (backed_requestBlocks ptr i fuel _)
        · exact .refl s
    · exact .refl s

theorem backed_pollLoop (ptr : Nat) : ∀ (fuel : Nat) (s : Dm σ), Backed s (pollLoop S s ptr fuel)
  | 0, s => backed_emit s (by simp)
  | fuel + 1, s => by
    unfold pollLoop
    split
    · exact backed_emit s (by simp)
    · simp only
      split
      · exact (backed_pselector s _).trans (backed_emit _ (by simp))
      · split <;> rename_i hg <;>
          have h := ((backed_pselector s _).trans (backed_emit _ (by simp))).trans (backed_of_getPiece hg)
        · split
          · exact (h.trans (backed_select _ _ _)).trans (backed_pollLoop ptr fuel _)
          · exact h.trans (backed_requestBlocks _ _ _ _)
        · exact h.trans (backed_emit _ (by simp))

theorem backed_dispatchJob (s : Dm σ) (j : Job) : Backed s (dispatchJob S s j) := by
  cases j
  exact backed_pollLoop S _ _ s

theorem backed_drain : ∀ (fuel : Nat) (s : Dm σ), Backed s (drain S s fuel)
  | 0, s => .refl s
  | fuel + 1, s => by
    unfold drain
    split
    · exact .refl s
    · split
      · split
        · refine (Backed.trans ?_ (backed_dispatchJob S _ _)).trans (backed_drain fuel _)
          exact .of_eq rfl rfl
        · refine Backed.trans ?_ (backed_emit _ (by simp))
          exact .of_eq rfl rfl
      · exact backed_emit s (by simp)

theorem backed_peerPeriodic (s : Dm σ) (q : Peer) : Backed s (peerPeriodic s q) := by
  unfold peerPeriodic connPeriodic
  split_ifs
  · exact .refl s
  · exact .refl s
  · exact (backed_emit s (by simp)).trans (backed_pollblock _ _)
  · exact backed_emit s (by simp)

theorem backed_collectStats (s : Dm σ) (st : Stats) : Backed s (collectStats s st).1 := by
  unfold collectStats
  dsimp only
  suffices ∀ (qs : List Peer) (p : Dm σ × Stats), Backed p.1 (qs.foldl statsVisit p).1 from
    this s.peers (s, _)
  intro qs
  induction qs with
  | nil => exact fun p => .refl p.1
  | cons q qs ih =>
    intro p
    refine Backed.trans ?_ (ih _)
    unfold statsVisit
    split
    · exact .refl _
    · exact backed_emit _ (by simp)

theorem backed_periodic (s : Dm σ) (stats : Option Stats) : Backed s (periodic S s stats).1 := by
  have h : Backed s (if s.amSeeding ∧ s.cfg.getInt "shutdown_when_complete" = 1 then s
      else (drain S s s.jobs.length).peers.foldl peerPeriodic (drain S s s.jobs.length)) := by
    split
    · exact .refl s
    · exact (backed_drain S _ s).trans (backed_foldl backed_peerPeriodic _ _)
  unfold periodic
  simp only
  split
  · exact h.trans (backed_collectStats _ _)
  · exact h

/-! ### Peers and the selector -/

theorem backed_checkPieces (s : Dm σ) : Backed s (checkPieces S s) := by
  refine backed_foldl (fun s i => ?_) _ s
  split <;> rename_i hg <;> have h := backed_of_getPiece hg
  · split
    · exact (h.trans (backed_select _ _ _)).trans (backed_markComplete _ _)
    · exact h
  · exact h

theorem backed_addPeer (s : Dm σ) (peerId : String) (peerIdLen : Nat) (ip : String) (ipLen : Nat)
    (port : Int) (nh : Option Nat) : Backed s (addPeer S s peerId peerIdLen ip ipLen port nh).1 := by
  rcases addPeer_cases S s peerId peerIdLen ip ipLen port nh with
    he | ⟨q, -, -, -, he | he | ⟨_, he⟩⟩ <;> rw [he]
  · exact .refl s
  all_goals
    refine .quiet (by simp [remember_eq, accept]) _ (by simp [remember_eq, accept]; rfl) ?_
    split <;> simp

theorem backed_peerConnect (s : Dm σ) (h : Nat) (ip : String) (port : Int) :
    Backed s (peerConnect S s h ip port).1 := by
  unfold peerConnect
  split
  · exact backed_sendToPeer_of _ fun _ => rfl
  · have ha := backed_addPeer S s "" 0 ip ip.length port (some h)
    split <;> rename_i he <;> rw [he] at ha
    · exact ha.trans (backed_sendToPeer_of _ fun _ => rfl)
    · exact ha

theorem backed_peerConnectFail (s : Dm σ) (h : Nat) : Backed s (s.peerConnectFail h) := by
  unfold peerConnectFail
  split
  · exact backed_setPeer _ _
  · exact .refl s

theorem backed_step (s : Dm σ) (op : Op σ) : Backed s (step S s op) := by
  cases op with
  | setPieceDb _ | setCbs _ | configSet _ _ => exact .of_eq rfl rfl
  | setPieceSelector given =>
    refine Backed.trans ?_ (backed_checkPieces S _)
    exact .of_eq rfl rfl
  | addPeer peerId peerIdLen ip ipLen port nh => exact backed_addPeer S s peerId peerIdLen ip ipLen port nh
  | removePeer ptr => exact backed_removePeer S s ptr
  | peerConnect nh ip port => exact backed_peerConnect S s nh ip port
  | peerConnectFail nh => exact backed_peerConnectFail s nh
  | dispatchFromBuffer nh buf => exact backed_dispatchFromBuffer S s nh buf
  | periodic stats => exact backed_periodic S s stats

theorem backed_run : ∀ (ops : List (Op σ)) (s : Dm σ), Backed s (run S s ops)
  | [], s => .refl s
  | op :: ops, s => (backed_step S s op).trans (backed_run ops _)

/-- **Every piece we have claimed is marked, and marks stay.** In every reachable state,
whatever the host has called in whatever order, each HAVE and each set bit of a BITFIELD handed
to `peer_send` names a piece marked in `pieces_completed`; and whatever the host calls from
there, no mark is cleared. -/
theorem announcements_marked {s : Dm σ} (h : Reachable S s) :
    (∀ p m i, .sent p m ∈ s.trace → m.claims i = true → i ∈ s.piecesCompleted) ∧
    ∀ ops, s.piecesCompleted ⊆ (run S s ops).piecesCompleted := by
  refine ⟨?_, fun ops => (backed_run S ops s).marks⟩
  induction h with
  | new => simp [new]
  | step op _ ih => exact (backed_step S _ op).truthful ih

theorem announcements_marked_delivered :
    0 ∈ deliveredTwice.piecesCompleted ∧
      0 ∈ (run sequential deliveredTwice [.removePeer 1, .periodic none]).piecesCompleted :=
  have h := announcements_marked sequential (Reachable.run sequential .new _)
  ⟨h.1 1 (.have 0) 0 (by decide) rfl, h.2 _ (h.1 1 (.have 0) 0 (by decide) rfl)⟩

/-! ### Installing a selector -/

/-- `bt_dm_check_pieces` over a database: each complete piece below `npieces`, in order, is
told to the selector and marked; the others are passed over. -/
theorem checkPieces_eq (s : Dm σ) {db : PieceDb} (hdb : s.pdb = some db) :
    checkPieces S s = ((List.range (s.cfg.getInt "npieces").toNat).filter
        fun i => (db.pieces[i]?).any (·.isComplete)).foldl
      (fun t i => (t.select (.havePiece i) (S.havePiece · i)).markComplete i) s := by
  unfold checkPieces
  generalize List.range _ = is
  induction is generalizing s with
  | nil => rfl
  | cons i is ih =>
    cases hp : db.pieces[i]? with
    | none => simpa [getPiece, hdb, hp] using ih s hdb
    | some p =>
      cases hc : p.isComplete
      · simpa [getPiece, hdb, hp, hc] using ih s hdb
      · simpa [getPiece, hdb, hp, hc] using ih _ (by simpa using hdb)

/-- Telling the selector of pieces and marking them, one after another. -/
theorem foldl_tell (l : List Nat) : ∀ t : Dm σ,
    let u := l.foldl (fun t i => (t.select (.havePiece i) (S.havePiece · i)).markComplete i) t
    (∀ i, i ∈ u.piecesCompleted ↔ i ∈ t.piecesCompleted ∨ i ∈ l) ∧
      u.pselector = t.pselector.map (l.foldl S.havePiece ·) ∧ u.pdb = t.pdb := by
  induction l with
  | nil => simp
  | cons i l ih =>
    intro t
    obtain ⟨h₁, h₂, h₃⟩ := ih ((t.select (.havePiece i) (S.havePiece · i)).markComplete i)
    refine ⟨fun j => ?_, ?_, ?_⟩
    · rw [List.foldl_cons, h₁]
      rw [mem_markComplete_iff, select_piecesCompleted, List.mem_cons, or_assoc, or_comm (a := j = i)]
    · simp [h₂, Option.map_map, Function.comp_def]
    · simpa using h₃

/-- **Installing a selector brings the marks up to the database.** After
`bt_dm_set_piece_selector` on a manager with a piece database, `pieces_completed` holds what it
held and every piece below `npieces` that the database holds complete, and nothing else; the
new selector (the one given, or a new one) has been told `have_piece` of each of those pieces,
in index order; the database is as it was. -/
theorem setPieceSelector_marks_complete (s : Dm σ) {db : PieceDb} (hdb : s.pdb = some db)
    (given : Option σ) :
    (∀ i, i ∈ (setPieceSelector S s given).piecesCompleted ↔
      i ∈ s.piecesCompleted ∨ i < (s.cfg.getInt "npieces").toNat ∧ (db.pieces[i]?).any (·.isComplete) = true) ∧
    (setPieceSelector S s given).pselector = some (((List.range (s.cfg.getInt "npieces").toNat).filter
        fun i => (db.pieces[i]?).any (·.isComplete)).foldl S.havePiece (given.getD (S.new 0))) ∧
    (setPieceSelector S s given).pdb = s.pdb := by
  obtain ⟨h₁, h₂, h₃⟩ := foldl_tell S (((List.range (s.cfg.getInt "npieces").toNat).filter
    fun i => (db.pieces[i]?).any (·.isComplete))) { s with pselector := some (given.getD (S.new 0)) }
  rw [setPieceSelector, checkPieces_eq S { s with pselector := some (given.getD (S.new 0)) } hdb]
  exact ⟨fun i => by simpa [List.mem_filter] using h₁ i, h₂, h₃⟩

/-- A manager holding `completeDb`, configured for one piece. -/
def oneComplete : Dm Sequential :=
  run sequential new [.setPieceDb completeDb, .configSet "npieces" "1"]

theorem setPieceSelector_marks_complete_onePiece :
    (oneComplete.cfg.getInt "npieces").toNat = 1 ∧ (completeDb.pieces[0]?).any (·.isComplete) = true ∧
    ((∀ i, i ∈ (setPieceSelector sequential oneComplete none).piecesCompleted ↔
      i ∈ oneComplete.piecesCompleted ∨ i < (oneComplete.cfg.getInt "npieces").toNat ∧
        (completeDb.pieces[i]?).any (·.isComplete) = true) ∧
    (setPieceSelector sequential oneComplete none).pselector =
      some (((List.range (oneComplete.cfg.getInt "npieces").toNat).filter
        fun i => (completeDb.pieces[i]?).any (·.isComplete)).foldl sequential.havePiece
          ((none : Option Sequential).getD (sequential.new 0))) ∧
    (setPieceSelector sequential oneComplete none).pdb = oneComplete.pdb) :=
  ⟨by decide, by decide, setPieceSelector_marks_complete sequential oneComplete rfl none⟩

end Dm

end Yabtorrent
