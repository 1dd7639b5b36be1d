import Mathlib.Data.List.Nodup
import Yabtorrent.Manager.Jobs

/-! Request accounting: where every REQUESTED block is.

`__dispatch_job` turns a MISSING block REQUESTED and offers it to a peer's connection, which
keeps it pending until the block arrives (`__FUNC_peerconn_pushblock` writes it, and its slot is
REQUESTED no more), the peer chokes (`__FUNC_peerconn_giveback_block` gives it back MISSING), or
the peer is removed, which gives nothing back (`remove_peer_orphans_request`). A PollBlock job
queued for a peer outlives its removal, and a tick dispatches it: if the selector still hands
that peer a piece, its blocks go to a peer removed before they were offered. Every REQUESTED block is accounted for:

* `requested_blocks_accounted`: in every run from `bt_dm_new` whose host installs piece databases
  with no REQUESTED block, each REQUESTED block of the database is pending at a peer the peer
  manager holds, or was offered to a peer the manager has removed, before or after the offer.

The invariant behind it (`Tracked`) adds that a pending request was offered to its peer and that
a queued PollBlock job is for a peer held or removed. A connection works on a copy of its record
while callbacks change the manager: the callbacks only lower the database, leaving REQUESTED
blocks that were REQUESTED before and outside a set `B` they answer for (`Lowers`), and the copy
drops from its pending requests only blocks of `B` (`Retains`). Putting the copy back keeps the
invariant (`Tracked.putBack`); so do removal (`tracked_removePeer`) and the one place that raises
the database, a block request polled and offered in the same round (`Tracked.poll`,
`tracked_offerBlock`). -/
namespace Yabtorrent

namespace Piece

/-- Block `k` of the piece is REQUESTED. -/
def requested (p : Piece) (k : Nat) : Bool := p.slots[k]?.any (·.state == .requested)

/-- A slot set to a state other than REQUESTED: no block becomes REQUESTED, and that one is
not. -/
theorem requested_setSlot {p : Piece} {k j : Nat} {f : Slot → Slot}
    (hf : ∀ sl, (f sl).state ≠ .requested) (h : (p.setSlot k f).requested j = true) :
    j ≠ k ∧ p.requested j = true := by
  simp only [requested, setSlot, List.getElem?_modify] at h ⊢
  by_cases hk : k = j
  · subst hk
    cases hs : p.slots[k]? <;> simp_all
  · simpa [hk, Ne.symm hk] using h

theorem requested_givebackBlock {p : Piece} {b : Block} {j : Nat}
    (h : (p.givebackBlock b).requested j = true) :
    j ≠ b.offset / blockSize ∧ p.requested j = true :=
  requested_setSlot (fun sl => by split <;> simp_all) h

theorem requested_writeBlock {p : Piece} {ok : Bool} {b : Block} {data : List UInt8} {peer j : Nat}
    (h : (p.writeBlock ok b data peer).1.requested j = true) :
    j ≠ b.offset / blockSize ∧ p.requested j = true := by
  simp only [writeBlock] at h
  split at h
  · exact requested_setSlot (fun _ => by simp) h
  · exact requested_setSlot (fun _ => by simp) h

theorem requested_dropDownloadProgress (p : Piece) (j : Nat) :
    p.dropDownloadProgress.requested j = false := by
  simp only [requested, dropDownloadProgress, List.getElem?_map]
  cases p.slots[j]? <;> simp

/-- Polling a block request makes one block REQUESTED, the one it hands out. -/
theorem requested_pollBlockRequest {p p' : Piece} {b : Block} {j : Nat}
    (hp : p.pollBlockRequest = some (b, p')) (h : p'.requested j = true) :
    p.requested j = true ∨ b = p.block j := by
  simp only [pollBlockRequest, Option.map_eq_some'] at hp
  obtain ⟨k, -, hk⟩ := hp
  cases hk
  simp only [requested, setSlot, List.getElem?_modify] at h ⊢
  by_cases hkj : k = j
  · exact .inr (hkj ▸ rfl)
  · exact .inl (by simpa [hkj] using h)

@[simp] theorem block_writeBlock (p : Piece) (ok : Bool) (b : Block) (data : List UInt8)
    (peer : Nat) : (p.writeBlock ok b data peer).1.block = p.block := by
  simp only [writeBlock]
  split <;> rfl

theorem block_pollBlockRequest {p p' : Piece} {b : Block} (hp : p.pollBlockRequest = some (b, p')) :
    p'.block = p.block := by
  simp only [pollBlockRequest, Option.map_eq_some'] at hp
  obtain ⟨k, -, hk⟩ := hp
  cases hk
  rfl

end Piece

namespace PieceDb

/-- No block of any piece is REQUESTED. -/
def unrequested (db : PieceDb) : Bool :=
  db.pieces.all fun p => p.slots.all (·.state != .requested)

theorem requested_of_unrequested {db : PieceDb} (h : db.unrequested = true) {i : Nat} {p : Piece}
    (hp : db.pieces[i]? = some p) (k : Nat) : p.requested k = false := by
  simp only [unrequested, List.all_eq_true] at h
  cases hs : p.slots[k]? with
  | none => simp [Piece.requested, hs]
  | some sl =>
    simpa [Piece.requested, hs] using h p (List.getElem?_mem hp) sl (List.getElem?_mem hs)

end PieceDb

namespace Dm
variable {σ : Type} (S : PieceSelector σ)

/-! ### The invariant -/

/-- Peer `x` is held by the peer manager, or has been removed from it. -/
def Held (s : Dm σ) (x : Nat) : Prop := x ∈ s.peers.map (·.ptr) ∨ .removed x ∈ s.trace

/-- Block `c` is pending at a peer the peer manager holds, or was offered to a peer that has
been removed, before or after the offer. -/
def Covered (s : Dm σ) (c : Block) : Prop :=
  (∃ q ∈ s.peers, c ∈ q.pc.pending) ∨ ∃ x, .offered x c ∈ s.trace ∧ .removed x ∈ s.trace

/-- Every REQUESTED block of the database is covered. -/
def Accounted (s : Dm σ) : Prop :=
  ∀ d ∈ s.pdb, ∀ (i : Nat) (p : Piece), d.pieces[i]? = some p → ∀ k, p.requested k = true →
    Covered s (p.block k)

/-- What keeps the database accounted for across a run. -/
structure Tracked (s : Dm σ) : Prop where
  accounted : Accounted s
  /-- A pending request was offered to its peer. -/
  offered : ∀ q ∈ s.peers, ∀ c ∈ q.pc.pending, .offered q.ptr c ∈ s.trace
  /-- A queued PollBlock job is for a peer held or removed. -/
  jobs : ∀ x, .pollblock x ∈ s.jobs → Held s x

theorem Covered.grow {s s' : Dm σ} {c : Block} (h : Covered s c) (ht : s.trace <+: s'.trace)
    (hp : ∀ q ∈ s.peers, c ∈ q.pc.pending → Covered s' c) : Covered s' c := by
  rcases h with ⟨q, hq, hc⟩ | ⟨x, ho, hr⟩
  · exact hp q hq hc
  · exact .inr ⟨x, ht.subset ho, ht.subset hr⟩

theorem Held.grow {s s' : Dm σ} {x : Nat} (h : Held s x) (ht : s.trace <+: s'.trace)
    (hp : s'.peers.map (·.ptr) = s.peers.map (·.ptr)) : Held s' x :=
  h.imp (fun h => hp ▸ h) fun h => ht.subset h

theorem Grows.trace_extends {s s' : Dm σ} (g : Grows s s') : s.trace <+: s'.trace :=
  let ⟨new, e, _⟩ := g.trace
  ⟨new, e.symm⟩

/-! ### Lowering the database -/

/-- The REQUESTED blocks of `db'` were REQUESTED in `db`, and none of them is in `B`. -/
def Lowered (db db' : Option PieceDb) (B : Block → Prop) : Prop :=
  ∀ d' ∈ db', ∀ (i : Nat) (p' : Piece), d'.pieces[i]? = some p' → ∀ k, p'.requested k = true →
    ¬ B (p'.block k) ∧ ∃ d ∈ db, ∃ p : Piece, d.pieces[i]? = some p ∧ p.requested k = true ∧
      p.block k = p'.block k

namespace Lowered

theorem refl (db : Option PieceDb) : Lowered db db fun _ => False :=
  fun d' hd _ p' hp _ hk => ⟨id, d', hd, p', hp, hk, rfl⟩

theorem of_eq {db db' : Option PieceDb} (h : db' = db) : Lowered db db' fun _ => False :=
  h ▸ refl db

theorem trans {db₁ db₂ db₃ : Option PieceDb} {B₁ B₂ : Block → Prop} (h₁ : Lowered db₁ db₂ B₁)
    (h₂ : Lowered db₂ db₃ B₂) : Lowered db₁ db₃ fun c => B₁ c ∨ B₂ c := by
  intro d₃ hd₃ i p₃ hp₃ k hk₃
  obtain ⟨hB₂, d₂, hd₂, p₂, hp₂, hk₂, hb₂⟩ := h₂ d₃ hd₃ i p₃ hp₃ k hk₃
  obtain ⟨hB₁, d₁, hd₁, p₁, hp₁, hk₁, hb₁⟩ := h₁ d₂ hd₂ i p₂ hp₂ k hk₂
  exact ⟨fun h => h.elim (fun h => hB₁ (hb₂ ▸ h)) hB₂, d₁, hd₁, p₁, hp₁, hk₁, hb₁.trans hb₂⟩

theorem mono {db db' : Option PieceDb} {B B' : Block → Prop} (h : Lowered db db' B)
    (hB : ∀ c, B' c → B c) : Lowered db db' B' := by
  intro d' hd i p' hp k hk
  obtain ⟨hn, rest⟩ := h d' hd i p' hp k hk
  exact ⟨fun h => hn (hB _ h), rest⟩

/-- No piece at `b`'s index: no REQUESTED block is `b`. -/
theorem absent {db : Option PieceDb} {b : Block} (h : ∀ d ∈ db, d.pieces[b.pieceIdx]? = none) :
    Lowered db db (· = b) := by
  intro d hd i p hp k hk
  refine ⟨fun he => ?_, d, hd, p, hp, hk, rfl⟩
  have hi : i = b.pieceIdx := by rw [← he, ← PieceDb.idx_of_getElem? hp]; rfl
  simp [hi, h d hd] at hp

end Lowered

/-- Piece `i` changed by `f`, which keeps its blocks and makes no block REQUESTED, and not the
one `b` names. -/
theorem lowered_modify (db : Option PieceDb) (i : Nat) (f : Piece → Piece)
    (hf : ∀ p, (f p).idx = p.idx) (hb : ∀ p, (f p).block = p.block) {b : Block}
    (hbi : b.pieceIdx = i)
    (hl : ∀ p j, (f p).requested j = true → j ≠ b.offset / blockSize ∧ p.requested j = true) :
    Lowered db (db.map (·.modify i f hf)) (· = b) := by
  intro d' hd' j p' hp k hk
  obtain ⟨d, hd, rfl⟩ := Option.mem_map.mp hd'
  simp only [PieceDb.modify_pieces, List.getElem?_modify, Option.map_eq_map,
    Option.map_eq_some'] at hp
  obtain ⟨p, hp, hp'⟩ := hp
  by_cases hij : i = j
  · subst hij hp'
    simp only [if_true] at hk ⊢
    obtain ⟨hkb, hk⟩ := hl p k hk
    refine ⟨fun he => hkb ?_, d, hd, p, hp, hk, by rw [hb]⟩
    rw [← he, hb, Piece.block_offset_div]
  · simp only [hij, if_false] at hp'
    subst hp'
    refine ⟨fun he => hij ?_, d, hd, p, hp, hk, rfl⟩
    rw [← hbi, ← he, ← PieceDb.idx_of_getElem? hp]
    rfl

/-- A lowered database stays accounted for when every block pending outside `B` stays covered. -/
theorem Accounted.lower {s s' : Dm σ} {B : Block → Prop} (h : Accounted s)
    (hl : Lowered s.pdb s'.pdb B) (hc : ∀ c, Covered s c → ¬ B c → Covered s' c) :
    Accounted s' := by
  intro d' hd i p' hp k hk
  obtain ⟨hB, d, hdb, p, hp₀, hk₀, hb⟩ := hl d' hd i p' hp k hk
  rw [← hb] at hB ⊢
  exact hc _ (h d hdb i p hp₀ k hk₀) hB

/-! ### Changes that move no request -/

/-- `s'` is `s` with events appended, and maybe selector calls, marks, bans or settings: the
database, the peer manager and the queue as they were. -/
structure Quiet (s s' : Dm σ) : Prop where
  trace : s.trace <+: s'.trace
  pdb : s'.pdb = s.pdb
  peers : s'.peers = s.peers
  jobs : s'.jobs = s.jobs

namespace Quiet

theorem refl (s : Dm σ) : Quiet s s := ⟨List.prefix_refl _, rfl, rfl, rfl⟩

theorem trans {s₁ s₂ s₃ : Dm σ} (h₁ : Quiet s₁ s₂) (h₂ : Quiet s₂ s₃) : Quiet s₁ s₃ :=
  ⟨h₁.trace.trans h₂.trace, h₂.pdb.trans h₁.pdb, h₂.peers.trans h₁.peers, h₂.jobs.trans h₁.jobs⟩

theorem foldl {α : Type} (f : Dm σ → α → Dm σ) (hf : ∀ s a, Quiet s (f s a)) :
    ∀ (xs : List α) (s : Dm σ), Quiet s (xs.foldl f s)
  | [], s => .refl s
  | x :: xs, s => (hf s x).trans (foldl f hf xs _)

end Quiet

theorem quiet_emit (s : Dm σ) (e : Event) : Quiet s (s.emit e) :=
  ⟨List.prefix_append _ _, rfl, rfl, rfl⟩

theorem quiet_select (s : Dm σ) (c : Call) (f : σ → σ) : Quiet s (s.select c f) :=
  ⟨List.prefix_append _ _, rfl, rfl, rfl⟩

theorem quiet_markComplete (s : Dm σ) (i : Nat) : Quiet s (s.markComplete i) :=
  ⟨List.prefix_refl _, rfl, rfl, rfl⟩

theorem quiet_blacklist (s : Dm σ) (bl : Blacklist) : Quiet s { s with blacklist := bl } :=
  ⟨List.prefix_refl _, rfl, rfl, rfl⟩

theorem quiet_pselector (s : Dm σ) (o : Option σ) : Quiet s { s with pselector := o } :=
  ⟨List.prefix_refl _, rfl, rfl, rfl⟩

theorem quiet_lchoke (s : Dm σ) (l : List Nat) : Quiet s { s with lchoke := l } :=
  ⟨List.prefix_refl _, rfl, rfl, rfl⟩

theorem quiet_sendToPeer (s : Dm σ) (q : Peer) (m : Msg) : Quiet s (s.sendToPeer q m).1 := by
  rw [sendToPeer_fst]; exact quiet_emit s _

theorem quiet_of_getPiece {s s' : Dm σ} {i : Nat} {o : Option Piece}
    (h : s.getPiece i = (s', o)) : Quiet s s' := by
  have h' : (if s.pdb.isSome then s else s.emit (.failed .noPieceDb)) = s' := by
    simpa [getPiece_fst] using congrArg Prod.fst h
  subst h'
  split
  · exact .refl s
  · exact quiet_emit s _

theorem quiet_sendHave (s : Dm σ) (q : Peer) (i : Nat) : Quiet s (s.sendHave q i) := by
  unfold sendHave; split
  · exact quiet_sendToPeer s q _
  · exact .refl s

theorem quiet_writeBlockToStream (s : Dm σ) (b : Block) : Quiet s (writeBlockToStream s b).1 := by
  unfold writeBlockToStream
  split <;> exact quiet_of_getPiece ‹_›

theorem quiet_of_sendBitfield {s s' : Dm σ} {q : Peer} {ok : Bool}
    (h : s.sendBitfield q = (s', ok)) : Quiet s s' := by
  have hq := quiet_sendToPeer s q
    (.bitfield ((List.range (s.cfg.getInt "npieces").toNat).map (decide <| · ∈ s.piecesCompleted)))
  unfold sendBitfield at h
  rwa [h] at hq

theorem quiet_checkPieces (s : Dm σ) : Quiet s (checkPieces S s) := by
  unfold checkPieces
  refine Quiet.foldl _ (fun s i => ?_) _ _
  split <;> rename_i hg
  · split
    · exact (quiet_of_getPiece hg).trans ((quiet_select _ _ _).trans (quiet_markComplete _ _))
    · exact quiet_of_getPiece hg
  · exact quiet_of_getPiece hg

theorem quiet_collectStats (s : Dm σ) (st : Stats) : Quiet s (collectStats s st).1 := by
  suffices h : ∀ (qs : List Peer) (p : Dm σ × Stats), Quiet p.1 (qs.foldl statsVisit p).1 by
    unfold collectStats; exact h s.peers (s, _)
  intro qs
  induction qs with
  | nil => exact fun p => .refl _
  | cons q qs ih =>
    intro p
    refine Quiet.trans ?_ (ih _)
    unfold statsVisit
    split
    · exact .refl _
    · exact quiet_emit _ _

/-- A quiet change keeps the invariant. -/
theorem Tracked.quiet {s s' : Dm σ} (h : Tracked s) (hq : Quiet s s') : Tracked s' := by
  refine ⟨h.accounted.lower (.of_eq hq.pdb) fun c hc _ => hc.grow hq.trace
    fun q hq' hc => .inl ⟨q, hq.peers ▸ hq', hc⟩, fun q hq' c hc => ?_, fun x hx => ?_⟩
  · exact hq.trace.subset (h.offered q (hq.peers ▸ hq') c hc)
  · exact (h.jobs x (hq.jobs ▸ hx)).grow hq.trace (by rw [hq.peers])

/-! ### A connection's callbacks -/

/-- `s'` is `s` after callbacks of peer `ptr`'s connection that leave the peer manager alone,
leave REQUESTED only blocks REQUESTED before and outside `B`, and queue only PollBlock jobs for
`ptr`. -/
structure Lowers (ptr : Nat) (B : Block → Prop) (s s' : Dm σ) : Prop where
  pdb : Lowered s.pdb s'.pdb B
  trace : s.trace <+: s'.trace
  peers : s'.peers = s.peers
  jobs : ∀ x, .pollblock x ∈ s'.jobs → .pollblock x ∈ s.jobs ∨ x = ptr

theorem Quiet.lowers {s s' : Dm σ} (h : Quiet s s') (ptr : Nat) :
    Lowers ptr (fun _ => False) s s' :=
  ⟨.of_eq h.pdb, h.trace, h.peers, fun _ hx => .inl (h.jobs ▸ hx)⟩

namespace Lowers
variable {ptr : Nat}

theorem trans {s₁ s₂ s₃ : Dm σ} {B₁ B₂ : Block → Prop} (h₁ : Lowers ptr B₁ s₁ s₂)
    (h₂ : Lowers ptr B₂ s₂ s₃) : Lowers ptr (fun c => B₁ c ∨ B₂ c) s₁ s₃ :=
  ⟨h₁.pdb.trans h₂.pdb, h₁.trace.trans h₂.trace, h₂.peers.trans h₁.peers,
    fun x hx => (h₂.jobs x hx).elim (h₁.jobs x) .inr⟩

theorem quiet {s₁ s₂ s₃ : Dm σ} {B : Block → Prop} (h : Lowers ptr B s₁ s₂) (hq : Quiet s₂ s₃) :
    Lowers ptr B s₁ s₃ :=
  ⟨hq.pdb ▸ h.pdb, h.trace.trans hq.trace, hq.peers.trans h.peers,
    fun x hx => h.jobs x (hq.jobs ▸ hx)⟩

theorem mono {s s' : Dm σ} {B B' : Block → Prop} (h : Lowers ptr B s s') (hB : ∀ c, B' c → B c) :
    Lowers ptr B' s s' :=
  ⟨h.pdb.mono hB, h.trace, h.peers, h.jobs⟩

theorem foldl {α : Type} {B : α → Block → Prop} (f : Dm σ → α → Dm σ)
    (hf : ∀ s a, Lowers ptr (B a) s (f s a)) :
    ∀ (xs : List α) (s : Dm σ), Lowers ptr (fun c => ∃ a ∈ xs, B a c) s (xs.foldl f s)
  | [], s => (Quiet.refl s).lowers ptr |>.mono fun _ ⟨_, h, _⟩ => absurd h (List.not_mem_nil _)
  | x :: xs, s => ((hf s x).trans (foldl f hf xs _)).mono fun _ ⟨a, ha, hB⟩ => by
    rcases List.mem_cons.mp ha with rfl | ha
    · exact .inl hB
    · exact .inr ⟨a, ha, hB⟩

end Lowers

theorem lowers_pollblock (s : Dm σ) (ptr : Nat) :
    Lowers ptr (fun _ => False) s (pollblock s ptr) := by
  unfold pollblock
  split
  · exact ⟨.refl _, List.prefix_refl _, rfl, fun x hx => by
      simpa only [JobQueue.offerJob, List.mem_append, List.mem_singleton, Job.pollblock.injEq]
        using hx⟩
  · exact (quiet_emit s _).lowers ptr

/-- Piece `i` changed by `f`, which keeps its blocks and makes no block REQUESTED, and not the
one `b` names. -/
theorem lowers_modifyPiece (s : Dm σ) (ptr : Nat) {i : Nat} {f : Piece → Piece}
    (hf : ∀ p, (f p).idx = p.idx) (hb : ∀ p, (f p).block = p.block) {b : Block}
    (hbi : b.pieceIdx = i)
    (hl : ∀ p j, (f p).requested j = true → j ≠ b.offset / blockSize ∧ p.requested j = true) :
    Lowers ptr (· = b) s (s.modifyPiece i f hf) :=
  ⟨lowered_modify s.pdb i f hf hb hbi hl, List.prefix_refl _, rfl, fun _ h => .inl h⟩

/-- A lookup that finds no piece at `b`'s index: no REQUESTED block is `b`. -/
theorem lowers_of_getPiece_none {s s' : Dm σ} {b : Block} (h : s.getPiece b.pieceIdx = (s', none))
    (ptr : Nat) : Lowers ptr (· = b) s s' := by
  have ha : ∀ d ∈ s.pdb, d.pieces[b.pieceIdx]? = none := fun d hd => by
    simp only [getPiece, Option.mem_def.mp hd, Prod.mk.injEq] at h
    exact h.2
  have hq := quiet_of_getPiece h
  refine ⟨?_, hq.trace, hq.peers, fun _ hx => .inl (hq.jobs ▸ hx)⟩
  rw [hq.pdb]
  exact Lowered.absent ha

theorem lowers_givebackBlock (s : Dm σ) (ptr x : Nat) (b : Block) :
    Lowers x (· = b) s (givebackBlock S s ptr b) := by
  unfold givebackBlock
  split <;> rename_i hg
  · refine (((quiet_of_getPiece hg).lowers x).trans ?_).quiet (quiet_select _ _ _) |>.mono
      fun _ => .inr
    exact lowers_modifyPiece _ x (f := (·.givebackBlock b)) (fun _ => rfl) (fun _ => rfl) rfl
      fun _ _ h => Piece.requested_givebackBlock h
  · exact (lowers_of_getPiece_none hg x).quiet (quiet_emit _ _)

/-- `__FUNC_peerconn_pushblock` leaves REQUESTED no block it writes: the written slot is
RECEIVED or MISSING, and an invalid piece drops every slot to MISSING. -/
theorem lowers_pushblock (s : Dm σ) (ptr x : Nat) (b : Block) (data : List UInt8) :
    Lowers x (· = b) s (pushblock S s ptr b data) := by
  unfold pushblock
  split
  · exact ⟨fun _ h => by simp_all, List.prefix_append _ _, rfl, fun _ h => .inl h⟩
  · split
    · exact ⟨Lowered.absent fun _ h => by simp_all, List.prefix_append _ _, rfl, fun _ h => .inl h⟩
    · rename_i db _ _ p hp
      simp only
      have hw := (lowers_modifyPiece s x
        (f := fun q => (q.writeBlock (db.disk b data) b data ptr).1)
        (Piece.writeBlock_idx · _ _ _ _) (fun _ => Piece.block_writeBlock _ _ _ _ _) rfl
        fun _ _ h => Piece.requested_writeBlock h).quiet (quiet_emit _ (.wrote ptr b))
      split
      · exact hw.quiet (((quiet_select _ _ _).trans (quiet_markComplete _ _)).trans
          (Quiet.foldl _ (fun s q => quiet_sendHave s q _) _ _))
      · split
        · split
          · exact hw.quiet (quiet_blacklist _ _)
          · rw [foldl_suspect]
            refine ((hw.quiet (quiet_blacklist _ _)).trans (lowers_modifyPiece _ x
              (f := (·.dropDownloadProgress)) _ (fun _ => rfl) (PieceDb.idx_of_getElem? hp).symm
              fun _ _ h => ?_)).quiet (quiet_select _ _ _) |>.mono fun _ => .inl
            simp [Piece.requested_dropDownloadProgress] at h
        · exact hw

/-! ### A connection's messages -/

/-- The connection's copy `q'` of the record `q` after messages: the same peer, its pending
requests among `q`'s, and every one of those outside `B` still pending. -/
structure Retains (B : Block → Prop) (q q' : Peer) : Prop where
  ptr : q'.ptr = q.ptr
  sub : q'.pc.pending ⊆ q.pc.pending
  keep : ∀ c ∈ q.pc.pending, ¬ B c → c ∈ q'.pc.pending

theorem Retains.trans {B₁ B₂ : Block → Prop} {q₁ q₂ q₃ : Peer} (h₁ : Retains B₁ q₁ q₂)
    (h₂ : Retains B₂ q₂ q₃) : Retains (fun c => B₁ c ∨ B₂ c) q₁ q₃ :=
  ⟨h₂.ptr.trans h₁.ptr, fun _ hc => h₁.sub (h₂.sub hc),
    fun c hc hB => h₂.keep c (h₁.keep c hc fun h => hB (.inl h)) fun h => hB (.inr h)⟩

/-- Messages took the manager from `s` to `s'` and the connection's copy of peer `q`'s record to
`q'`, and every request they moved is one the database has REQUESTED no more. -/
def Answered (q : Peer) (s s' : Dm σ) (q' : Peer) : Prop :=
  ∃ B, Lowers q.ptr B s s' ∧ Retains B q q'

namespace Answered
variable {q₁ q₂ q₃ : Peer} {s₁ s₂ s₃ : Dm σ}

theorem intro {B : Block → Prop} (hl : Lowers q₁.ptr B s₁ s₂) (hr : Retains B q₁ q₂) :
    Answered q₁ s₁ s₂ q₂ :=
  ⟨B, hl, hr⟩

/-- No callback that moves a request, and the pending requests as they were. -/
theorem quiet (hq : Quiet s₁ s₂) (hp : q₂.ptr = q₁.ptr) (h : q₂.pc.pending = q₁.pc.pending) :
    Answered q₁ s₁ s₂ q₂ :=
  ⟨_, hq.lowers _, hp, h ▸ List.Subset.refl _, fun _ hc _ => h ▸ hc⟩

theorem trans (h₁ : Answered q₁ s₁ s₂ q₂) (h₂ : Answered q₂ s₂ s₃ q₃) : Answered q₁ s₁ s₃ q₃ := by
  obtain ⟨B₁, hl₁, hr₁⟩ := h₁
  obtain ⟨B₂, hl₂, hr₂⟩ := h₂
  rw [hr₁.ptr] at hl₂
  exact ⟨_, hl₁.trans hl₂, hr₁.trans hr₂⟩

end Answered

/-- A message moves a request only as a CHOKE gives pending blocks back and a PIECE delivers
one. -/
theorem answered_connMsg (s : Dm σ) (q : Peer) (m : Msg) :
    Answered q s (connMsg S s q m).1 (connMsg S s q m).2.1 := by
  cases m with
  | choke =>
    exact .intro (Lowers.foldl _ (fun s b => lowers_givebackBlock S s q.ptr q.ptr b) _ _)
      ⟨rfl, fun _ h => absurd h (List.not_mem_nil _), fun c hc hB => absurd ⟨c, hc, rfl⟩ hB⟩
  | unchoke => exact .intro (lowers_pollblock s q.ptr) ⟨rfl, List.Subset.refl _, fun _ hc _ => hc⟩
  | «have» i =>
    simp only [connMsg]
    split
    · exact .quiet ((quiet_select _ _ _).trans (quiet_sendToPeer _ _ _)) rfl rfl
    · exact .quiet (quiet_select _ _ _) rfl rfl
  | bitfield bits =>
    simp only [connMsg]
    split
    · exact .quiet (.refl s) rfl rfl
    · exact .quiet (Quiet.foldl (fun s i => peerHavePiece S s q.ptr i)
        (fun _ _ => quiet_select _ _ _) _ _) rfl rfl
  | request b =>
    simp only [connMsg]
    split
    · exact .quiet (.refl s) rfl rfl
    · have h := quiet_writeBlockToStream s b
      split <;> rename_i hw <;> rw [hw] at h
      · exact .quiet (h.trans (quiet_sendToPeer _ _ _)) rfl rfl
      · exact .quiet h rfl rfl
  | piece i off data =>
    exact .intro ((lowers_pushblock S s q.ptr q.ptr _ data).trans (lowers_pollblock _ q.ptr))
      ⟨rfl, List.erase_subset _ _, fun c hc hB => (List.mem_erase_of_ne fun h => hB (.inl h)).mpr hc⟩
  | keepAlive | interested | notInterested | cancel _ | handshake _ _ =>
    exact .quiet (.refl s) rfl rfl

theorem answered_msgLoop : ∀ (fuel : Nat) (s : Dm σ) (q : Peer) (buf : List UInt8),
    Answered q s (msgLoop S s q buf fuel).1 (msgLoop S s q buf fuel).2.1
  | 0, s, _, _ => .quiet (.refl s) rfl rfl
  | fuel + 1, s, q, buf => by
    unfold msgLoop
    split
    · exact .quiet (.refl s) rfl rfl
    · exact .quiet (.refl s) rfl rfl
    · split
      · exact .quiet (.refl s) rfl rfl
      · rename_i m _
        have h := answered_connMsg S s q m
        split <;> rename_i hd <;> rw [hd] at h
        · exact h.trans (answered_msgLoop fuel _ _ _)
        · exact h

/-! ### Putting a record back, and removing one -/

/-- The connection's copy `q` is of a record the peer manager holds, or of a peer it has
removed. -/
def Current (s : Dm σ) (q : Peer) : Prop :=
  q ∈ s.peers ∨ (∀ r ∈ s.peers, r.ptr ≠ q.ptr) ∧ .removed q.ptr ∈ s.trace

theorem mem_setPeer_self {s : Dm σ} {q : Peer} (hq : q ∈ s.peers) (q' : Peer) (hp : q'.ptr = q.ptr) :
    q' ∈ (s.setPeer q').peers :=
  List.mem_map.mpr ⟨q, hq, by simp [hp]⟩

/-- The connection's copy of a record goes back into the peer manager (or nowhere, for a peer
removed): it keeps every block pending outside what the callbacks answered for, and pends
nothing new that was not offered. -/
theorem Tracked.putBack {s s' : Dm σ} {q : Peer} {B : Block → Prop} (h : Tracked s)
    (hn : (s.peers.map (·.ptr)).Nodup) (hq : Current s q) (hl : Lowers q.ptr B s s') (q' : Peer)
    (hptr : q'.ptr = q.ptr)
    (hsub : ∀ c ∈ q'.pc.pending, c ∈ q.pc.pending ∨ .offered q.ptr c ∈ s'.trace)
    (hkeep : ∀ c ∈ q.pc.pending, ¬ B c → c ∈ q'.pc.pending) : Tracked (s'.setPeer q') := by
  have hself : ∀ r ∈ s.peers, r.ptr = q.ptr → r = q ∧ q ∈ s.peers := fun r hr he =>
    hq.elim (fun hq => ⟨List.inj_on_of_nodup_map hn hr hq he, hq⟩) fun h => absurd he (h.1 r hr)
  have hother : ∀ r ∈ s.peers, r.ptr ≠ q.ptr → r ∈ (s'.setPeer q').peers := fun r hr he =>
    List.mem_map.mpr ⟨r, hl.peers ▸ hr, by simp [hptr, he]⟩
  refine ⟨h.accounted.lower hl.pdb fun c hc hB => hc.grow hl.trace fun r hr hcr => ?_,
    fun r' hr' c hc => ?_, fun x hx => ?_⟩
  · by_cases he : r.ptr = q.ptr
    · obtain ⟨rfl, hq⟩ := hself r hr he
      exact .inl ⟨q', mem_setPeer_self (hl.peers ▸ hq) q' hptr, hkeep c hcr hB⟩
    · exact .inl ⟨r, hother r hr he, hcr⟩
  · obtain ⟨r, hr, rfl⟩ := List.mem_map.mp hr'
    rw [hl.peers] at hr
    by_cases he : r.ptr = q.ptr
    · obtain ⟨rfl, hq⟩ := hself r hr he
      simp only [hptr, if_true] at hc ⊢
      exact (hsub c hc).elim (fun hc => hl.trace.subset (h.offered r hq c hc)) id
    · simp only [hptr, he, if_false] at hc ⊢
      exact hl.trace.subset (h.offered r hr c hc)
  · rcases hl.jobs x hx with hx | rfl
    · exact (h.jobs x hx).grow hl.trace (by rw [setPeer_ptrs, hl.peers])
    · rcases hq with hq | ⟨-, hr⟩
      · exact .inl (List.mem_map.mpr ⟨q', mem_setPeer_self (hl.peers ▸ hq) q' hptr, hptr⟩)
      · exact .inr (hl.trace.subset hr)

/-- A record the peer manager holds replaced by one with the same pending requests. -/
theorem Tracked.replace {s s' : Dm σ} {q : Peer} (h : Tracked s)
    (hn : (s.peers.map (·.ptr)).Nodup) (hq : q ∈ s.peers) (hs : Quiet s s') (q' : Peer)
    (hptr : q'.ptr = q.ptr) (hp : q'.pc.pending = q.pc.pending) : Tracked (s'.setPeer q') :=
  h.putBack hn (.inl hq) (hs.lowers q.ptr) q' hptr (fun _ hc => .inl (hp ▸ hc)) fun _ hc _ => hp ▸ hc

theorem held_any {s : Dm σ} {ptr : Nat} (h : ptr ∈ s.peers.map (·.ptr)) :
    s.peers.any (·.ptr == ptr) = true := by
  obtain ⟨q, hq, rfl⟩ := List.mem_map.mp h
  exact List.any_eq_true.mpr ⟨q, hq, beq_self_eq_true _⟩

theorem removed_mem_removePeer {s : Dm σ} {ptr : Nat} (h : ptr ∈ s.peers.map (·.ptr)) :
    .removed ptr ∈ (removePeer S s ptr).1.trace := by
  rw [removePeer, if_pos (held_any h)]
  exact List.mem_append_right _ (List.mem_singleton_self _)

theorem removePeer_jobs (s : Dm σ) (ptr : Nat) : (removePeer S s ptr).1.jobs = s.jobs := by
  unfold removePeer; split <;> rfl

/-- `bt_dm_remove_peer` strands the removed peer's requests, which its removal now covers. -/
theorem tracked_removePeer {s : Dm σ} (h : Tracked s) (ptr : Nat) :
    Tracked (removePeer S s ptr).1 := by
  have ht := (grows_removePeer S s ptr).trace_extends
  obtain ⟨hpdb, hsub⟩ := removePeer_orphans S s ptr
  by_cases hp : ptr ∈ s.peers.map (·.ptr)
  · have hr := removed_mem_removePeer S hp
    have hkept : ∀ r ∈ s.peers, r.ptr ≠ ptr → r ∈ (removePeer S s ptr).1.peers :=
      fun r hr he => by simp [removePeer, held_any hp, hr, he]
    refine ⟨h.accounted.lower (.of_eq hpdb) fun c hc _ => hc.grow ht fun r hr' hcr => ?_,
      fun r hr' c hc => ht.subset (h.offered r (hsub r hr').1 c hc), fun x hx => ?_⟩
    · by_cases he : r.ptr = ptr
      · exact .inr ⟨ptr, he ▸ ht.subset (h.offered r hr' c hcr), hr⟩
      · exact .inl ⟨r, hkept r hr' he, hcr⟩
    · rcases h.jobs x (removePeer_jobs S s ptr ▸ hx) with hx | hx
      · by_cases he : x = ptr
        · exact .inr (he ▸ hr)
        · obtain ⟨r, hr', rfl⟩ := List.mem_map.mp hx
          exact .inl (List.mem_map_of_mem _ (hkept r hr' he))
      · exact .inr (ht.subset hx)
  · have hn : s.peers.any (·.ptr == ptr) = false :=
      Bool.eq_false_iff.mpr fun ha => hp <| by
        obtain ⟨r, hr, he⟩ := List.any_eq_true.mp ha
        exact List.mem_map.mpr ⟨r, hr, by simpa using he⟩
    simpa [removePeer, hn] using h

/-! ### Inbound bytes -/

/-- The second half of `bt_dm_dispatch_from_buffer`, for a peer held or one since removed. -/
theorem tracked_dispatchMessages {s : Dm σ} (h : Tracked s) (hn : (s.peers.map (·.ptr)).Nodup)
    {q : Peer} (hq : Current s q) (bytes : List UInt8) :
    Tracked (dispatchMessages S s q bytes).1 := by
  unfold dispatchMessages msghandlerDispatch
  split
  · rename_i mh _
    have ha := (show Answered q s _ q from .quiet (quiet_emit s (.fed q.ptr bytes)) rfl rfl).trans
      (answered_msgLoop S (mh.buf ++ bytes).length _ q (mh.buf ++ bytes))
    generalize msgLoop S (s.emit (.fed q.ptr bytes)) q (mh.buf ++ bytes)
      (mh.buf ++ bytes).length = r at ha
    obtain ⟨s', q', rest, ok⟩ := r
    obtain ⟨B, hl, hr⟩ := ha
    have ht := h.putBack hn hq hl { q' with mh := some (.msghandler ⟨rest⟩) } hr.ptr
      (fun c hc => .inl (hr.sub hc)) hr.keep
    cases ok
    · exact tracked_removePeer S ht _
    · exact ht
  · exact h.quiet (quiet_emit s _)

theorem tracked_dispatchFromBuffer {s : Dm σ} (h : Tracked s) (hn : (s.peers.map (·.ptr)).Nodup)
    (nh : Nat) (buf : List UInt8) : Tracked (dispatchFromBuffer S s nh buf).1 := by
  unfold dispatchFromBuffer
  split
  · exact h
  · rename_i q hq
    have hq : q ∈ s.peers := List.mem_of_find?_eq_some hq
    split
    · exact tracked_dispatchMessages S h hn (.inl hq) buf
    · split
      · split
        · simp only
          set q' : Peer := { q with mh := some (.msghandler ⟨[]⟩), pc := q.pc.setState .handshakeReceived }
          have h₂ := h.replace hn hq (quiet_emit s (.shook q.ptr buf)) q' rfl rfl
          have hn₂ := (setPeer_ptrs (s.emit (.shook q.ptr buf)) q').symm ▸ hn
          have hm₂ := mem_setPeer_self (s := s.emit (.shook q.ptr buf)) hq q' rfl
          split <;> rename_i s₃ hb <;> have hq₃ := quiet_of_sendBitfield hb
          · exact tracked_dispatchMessages S (h₂.quiet hq₃) (hq₃.peers ▸ hn₂) (.inl (hq₃.peers ▸ hm₂)) _
          · refine tracked_dispatchMessages S (tracked_removePeer S (h₂.quiet hq₃) q.ptr) (q := q')
              ((hq₃.peers ▸ hn₂).sublist (grows_removePeer S s₃ _).ptrs)
              (.inr ⟨removePeer_gone S s₃ _, removed_mem_removePeer S ?_⟩) _
            exact List.mem_map_of_mem (·.ptr) (hq₃.peers ▸ hm₂ : q' ∈ s₃.peers)
        · exact h.replace hn hq (quiet_emit s _) _ rfl rfl
      · exact h.quiet (quiet_emit s _)

/-! ### Ticks -/

/-- `pwp_conn_offer_block` to a peer held or removed: the block is covered. -/
theorem tracked_offerBlock {s : Dm σ} (h : Tracked s) (hn : (s.peers.map (·.ptr)).Nodup)
    {ptr : Nat} (hp : Held s ptr) (b : Block) :
    Tracked (s.offerBlock ptr b) ∧ Covered (s.offerBlock ptr b) b := by
  unfold offerBlock
  split <;> rename_i hf
  · rename_i q
    have hq := List.mem_of_find?_eq_some hf
    have hptr : q.ptr = ptr := by simpa using List.find?_some hf
    have ht := h.putBack hn (.inl hq) ((quiet_emit s (.offered ptr b)).lowers q.ptr)
      { q with pc := { q.pc with pending := q.pc.pending ++ [b] } } rfl
      (fun c hc => (List.mem_append.mp hc).imp id fun hc => by
        simp [List.mem_singleton.mp hc, hptr])
      fun c hc _ => List.mem_append_left _ hc
    refine ⟨ht.quiet (quiet_sendToPeer _ _ _),
      .inl ⟨{ q with pc := { q.pc with pending := q.pc.pending ++ [b] } }, ?_,
        List.mem_append_right _ (List.mem_singleton_self b)⟩⟩
    rw [(quiet_sendToPeer _ _ _).peers]
    exact mem_setPeer_self (s := s.emit _) hq _ rfl
  · have hr : .removed ptr ∈ s.trace := hp.resolve_left fun hm => by
      obtain ⟨r, hr, rfl⟩ := List.mem_map.mp hm
      simpa using List.find?_eq_none.mp hf r hr
    exact ⟨h.quiet (quiet_emit s _), .inr ⟨ptr, by simp, by simp [hr]⟩⟩

/-- `bt_piece_poll_block_request` on piece `i`: the one block it makes REQUESTED is the one it
hands out, which is covered. -/
theorem Tracked.poll {s : Dm σ} (h : Tracked s) {i : Nat} {p p' : Piece} {b : Block}
    (hp : s.pdb.bind (·.pieces[i]?) = some p) (hpoll : p.pollBlockRequest = some (b, p'))
    (hb : Covered s b) (hf : ∀ p : Piece, p.polled.idx = p.idx) :
    Tracked (s.modifyPiece i (·.polled) hf) := by
  refine ⟨fun d' hd' j p₂ hp₂ k hk => ?_, h.offered, h.jobs⟩
  obtain ⟨d, hd, rfl⟩ := Option.mem_map.mp hd'
  simp only [PieceDb.modify_pieces, List.getElem?_modify, Option.map_eq_map,
    Option.map_eq_some'] at hp₂
  obtain ⟨p₀, hp₀, rfl⟩ := hp₂
  by_cases hij : i = j
  · subst hij
    obtain rfl : p₀ = p := by simpa [Option.mem_def.mp hd, hp₀] using hp
    simp only [if_true, Piece.polled, hpoll] at hk ⊢
    rw [Piece.block_pollBlockRequest hpoll]
    rcases Piece.requested_pollBlockRequest hpoll hk with hk | rfl
    · exact h.accounted d hd i p₀ hp₀ k hk
    · exact hb
  · simp only [hij, if_false] at hk ⊢
    exact h.accounted d hd j p₀ hp₀ k hk

theorem modifyPiece_offerBlock (s : Dm σ) (i ptr : Nat) (f : Piece → Piece)
    (hf : ∀ p, (f p).idx = p.idx) (b : Block) :
    (s.modifyPiece i f hf).offerBlock ptr b = (s.offerBlock ptr b).modifyPiece i f hf := by
  cases h : s.peers.find? (·.ptr == ptr) <;>
    simp only [offerBlock, modifyPiece_peers, h, sendToPeer_fst] <;> rfl

/-- What a tick's loops for peer `ptr` carry along: the invariant, distinct identities, and
`ptr` held or removed. -/
structure Carried (ptr : Nat) (s : Dm σ) : Prop where
  tracked : Tracked s
  nodup : (s.peers.map (·.ptr)).Nodup
  held : Held s ptr

theorem Carried.quiet {ptr : Nat} {s s' : Dm σ} (h : Carried ptr s) (hq : Quiet s s') :
    Carried ptr s' :=
  ⟨h.tracked.quiet hq, hq.peers ▸ h.nodup, h.held.grow hq.trace (by rw [hq.peers])⟩

/-- The inner loop of `__dispatch_job`: each round's block is offered as it is polled. -/
theorem tracked_requestBlocks (ptr i : Nat) : ∀ (fuel : Nat) (s : Dm σ), Carried ptr s →
    Tracked (requestBlocks s ptr i fuel)
  | 0, _, h => h.tracked
  | fuel + 1, s, h => by
    unfold requestBlocks
    split
    · split
      · exact h.tracked
      · split
        · rename_i p _ _ b _ hpoll
          rw [modifyPiece_offerBlock]
          obtain ⟨ho, hb⟩ := tracked_offerBlock h.tracked h.nodup h.held b
          have hptrs := offerBlock_ptrs s ptr b
          exact tracked_requestBlocks ptr i fuel _ ⟨ho.poll (by rwa [offerBlock_pdb]) hpoll hb _,
            hptrs ▸ h.nodup, h.held.grow (grows_offerBlock s ptr b).trace_extends hptrs⟩
        · exact h.tracked
    · exact h.tracked

theorem tracked_pollLoop (ptr : Nat) : ∀ (fuel : Nat) (s : Dm σ), Carried ptr s →
    Tracked (pollLoop S s ptr fuel)
  | 0, s, h => h.tracked.quiet (quiet_emit s _)
  | fuel + 1, s, h => by
    unfold pollLoop
    split
    · exact h.tracked.quiet (quiet_emit s _)
    · rename_i st _
      simp only
      have h₁ := h.quiet ((quiet_pselector s (some (S.pollPiece st ptr).1)).trans
        (quiet_emit _ (.selected (.pollPiece ptr))))
      split
      · exact h₁.tracked
      · split <;> rename_i hg <;> have h₂ := h₁.quiet (quiet_of_getPiece hg)
        · split
          · exact tracked_pollLoop ptr fuel _ (h₂.quiet (quiet_select _ _ _))
          · exact tracked_requestBlocks ptr _ _ _ h₂
        · exact h₂.tracked.quiet (quiet_emit _ _)

/-- The job loop of `bt_dm_periodic`: each job is for a peer held or removed. -/
theorem tracked_drain : ∀ (fuel : Nat) (s : Dm σ), Tracked s → (s.peers.map (·.ptr)).Nodup →
    Tracked (drain S s fuel)
  | 0, _, h, _ => h
  | fuel + 1, s, h, hn => by
    unfold drain
    split
    · exact h
    · split
      · split <;> rename_i hj
        · rename_i j rest
          have hs : s.jobs = j :: rest := by
            cases hs : s.jobs <;> simp_all [JobQueue.pollJob]
          have h' : Tracked { s with jobs := rest } :=
            ⟨h.accounted, h.offered, fun x hx => h.jobs x (by rw [hs]; exact List.mem_cons_of_mem _ hx)⟩
          obtain ⟨x⟩ := j
          exact tracked_drain fuel _ (tracked_pollLoop S x _ _ ⟨h', hn, h.jobs x (by simp [hs])⟩)
            (by unfold dispatchJob; rw [pollLoop_ptrs]; exact hn)
        · rename_i rest
          have hs : rest = [] := by cases hs : s.jobs <;> simp_all [JobQueue.pollJob]
          subst hs
          exact (show Tracked { s with jobs := [] } from ⟨h.accounted, h.offered, by simp⟩).quiet
            (quiet_emit _ _)
      · exact h.quiet (quiet_emit s _)

theorem tracked_pollblock {s : Dm σ} (h : Tracked s) {x : Nat} (hx : Held s x) :
    Tracked (pollblock s x) := by
  unfold pollblock
  split
  · refine ⟨h.accounted, h.offered, fun y hy => ?_⟩
    rcases List.mem_append.mp hy with hy | hy
    · exact h.jobs y hy
    · obtain rfl : y = x := by simpa using hy
      exact hx
  · exact h.quiet (quiet_emit s _)

theorem tracked_foldl_peerPeriodic : ∀ (qs : List Peer) (s : Dm σ), Tracked s →
    (∀ q ∈ qs, q ∈ s.peers) → Tracked (qs.foldl peerPeriodic s)
  | [], _, h, _ => h
  | q :: qs, s, h, hqs => by
    refine tracked_foldl_peerPeriodic qs _ ?_ fun r hr => by
      rw [peerPeriodic_peers]; exact hqs r (List.mem_cons_of_mem _ hr)
    unfold peerPeriodic connPeriodic
    split
    · exact h
    · split
      · exact h
      · split
        · exact tracked_pollblock (h.quiet (quiet_emit s _))
            (.inl (List.mem_map_of_mem _ (hqs q (List.mem_cons_self _ _))))
        · exact h.quiet (quiet_emit s _)

theorem tracked_periodic {s : Dm σ} (h : Tracked s) (hn : (s.peers.map (·.ptr)).Nodup)
    (stats : Option Stats) : Tracked (periodic S s stats).1 := by
  have ht : Tracked (if s.amSeeding ∧ s.cfg.getInt "shutdown_when_complete" = 1 then s
      else (drain S s s.jobs.length).peers.foldl peerPeriodic (drain S s s.jobs.length)) := by
    split
    · exact h
    · exact tracked_foldl_peerPeriodic _ _ (tracked_drain S _ s h hn) fun _ => id
  unfold periodic
  dsimp only
  split
  · exact ht.quiet (quiet_collectStats _ _)
  · exact ht

/-! ### The manager's entry points -/

theorem tracked_accept {s : Dm σ} (h : Tracked s) (hn : (s.peers.map (·.ptr)).Nodup) {q : Peer}
    (hq : q ∈ s.peers) : Tracked (s.accept q).1 := by
  unfold Dm.accept
  dsimp only
  generalize Handshaker.new _ _ = hs
  exact (h.replace hn hq (.refl s) { q with mh := some (.handshaker hs) } rfl rfl).quiet
    (quiet_lchoke _ _)

/-- `bt_dm_add_peer`'s new record pends nothing, under the next identity. -/
theorem tracked_remember {s : Dm σ} (h : Tracked s) (hw : Wf s) {q : Peer}
    (hp : q.ptr = s.nextPeer) (hq : q.pc.pending = []) :
    Tracked (remember S s q) ∧ ((remember S s q).peers.map (·.ptr)).Nodup ∧
      q ∈ (remember S s q).peers := by
  refine ⟨?_, (hw.remember S hp).nodup, by simp [remember_eq]⟩
  have h₁ : Tracked { s with peers := s.peers ++ [q], nextPeer := s.nextPeer + 1 } := by
    refine ⟨h.accounted.lower (.of_eq rfl) fun c hc _ => hc.grow (List.prefix_refl _)
      fun r hr hcr => .inl ⟨r, List.mem_append_left _ hr, hcr⟩, fun r hr c hc => ?_,
      fun x hx => (h.jobs x hx).imp (fun hm => ?_) id⟩
    · rcases List.mem_append.mp hr with hr | hr
      · exact h.offered r hr c hc
      · rw [List.mem_singleton.mp hr, hq] at hc
        exact absurd hc (List.not_mem_nil _)
    · rw [List.map_append]; exact List.mem_append_left _ hm
  unfold remember
  dsimp only
  split
  · exact h₁.quiet (quiet_select _ _ _)
  · exact h₁

theorem tracked_addPeer {s : Dm σ} (h : Tracked s) (hw : Wf s) (peerId : String) (peerIdLen : Nat)
    (ip : String) (ipLen : Nat) (port : Int) (nh : Option Nat) :
    Tracked (addPeer S s peerId peerIdLen ip ipLen port nh).1 := by
  unfold addPeer
  split
  · exact h
  · dsimp only
    split
    · exact h
    · obtain ⟨hr, hn, hq⟩ := tracked_remember S h hw
        (q := ⟨s.nextPeer, _, _, port, nh, Conn.new _ _, none⟩) rfl rfl
      split
      · exact hr
      · exact tracked_accept hr hn hq
      · split
        · refine tracked_accept ?_ ?_ (mem_setPeer_self hq _ rfl)
          · exact hr.replace hn hq (.refl _) _ rfl rfl
          · rw [setPeer_ptrs]; exact hn
        · exact hr

theorem tracked_peerConnect {s : Dm σ} (h : Tracked s) (hw : Wf s) (nh : Nat) (ip : String)
    (port : Int) : Tracked (peerConnect S s nh ip port).1 := by
  unfold peerConnect
  split
  · exact h.quiet (quiet_sendToPeer _ _ _)
  · have ha := tracked_addPeer S h hw "" 0 ip ip.length port (some nh)
    split <;> rename_i he <;> rw [he] at ha
    · exact ha.quiet (quiet_sendToPeer _ _ _)
    · exact ha

theorem tracked_peerConnectFail {s : Dm σ} (h : Tracked s) (hn : (s.peers.map (·.ptr)).Nodup)
    (nh : Nat) : Tracked (s.peerConnectFail nh) := by
  unfold peerConnectFail
  split
  · rename_i q hq
    exact h.replace hn (List.mem_of_find?_eq_some hq) (.refl s)
      { q with pc := q.pc.setState .failedConnection } rfl rfl
  · exact h

/-- Every entry point keeps the invariant; an installed database must hold no REQUESTED block. -/
theorem tracked_step {s : Dm σ} (h : Tracked s) (hw : Wf s) (op : Op σ)
    (hop : ∀ db, op = .setPieceDb db → db.unrequested = true) : Tracked (step S s op) := by
  cases op with
  | setPieceDb db =>
    refine ⟨fun d hd i p hp k hk => ?_, h.offered, h.jobs⟩
    obtain rfl : db = d := Option.some.inj hd
    simp [PieceDb.requested_of_unrequested (hop db rfl) hp k] at hk
  | setPieceSelector given => exact h.quiet ((quiet_pselector s _).trans (quiet_checkPieces S _))
  | setCbs cb => exact h.quiet ⟨List.prefix_refl _, rfl, rfl, rfl⟩
  | configSet k v => exact h.quiet ⟨List.prefix_refl _, rfl, rfl, rfl⟩
  | addPeer peerId peerIdLen ip ipLen port nh =>
    exact tracked_addPeer S h hw peerId peerIdLen ip ipLen port nh
  | removePeer ptr => exact tracked_removePeer S h ptr
  | peerConnect nh ip port => exact tracked_peerConnect S h hw nh ip port
  | peerConnectFail nh => exact tracked_peerConnectFail h hw.nodup nh
  | dispatchFromBuffer nh buf => exact tracked_dispatchFromBuffer S h hw.nodup nh buf
  | periodic stats => exact tracked_periodic S h hw.nodup stats

theorem tracked_new : Tracked (new : Dm σ) :=
  ⟨fun _ hd => by simp [new] at hd, fun _ hq => by simp [new] at hq, fun _ hx => by simp [new] at hx⟩

theorem tracked_run : ∀ (ops : List (Op σ)) (s : Dm σ), Tracked s → Wf s →
    (∀ db, .setPieceDb db ∈ ops → db.unrequested = true) → Tracked (run S s ops)
  | [], _, h, _, _ => h
  | op :: ops, _, h, hw, hops =>
    tracked_run ops _ (tracked_step S h hw op fun db he => hops db (he ▸ List.mem_cons_self _ _))
      (hw.step S op) fun db hd => hops db (List.mem_cons_of_mem _ hd)

/-- **A request is lost only to a removal.** In every run from `bt_dm_new` whose host installs
piece databases with no REQUESTED block, each REQUESTED block of the database is pending at a
peer the peer manager holds, or was offered to a peer the manager has removed, the removal
coming before or after the offer. -/
theorem requested_blocks_accounted (ops : List (Op σ))
    (hops : ∀ db, .setPieceDb db ∈ ops → db.unrequested = true) : Accounted (run S new ops) :=
  (tracked_run S ops new tracked_new wf_new hops).accounted

theorem requested_blocks_accounted_removed :
    (∀ db, .setPieceDb db ∈ configure onePiece "2" host ++ unchokedBy ++
      [.periodic none, .removePeer 0] → db.unrequested = true) ∧ Accounted removedAfterRequest := by
  have hops : ∀ db, .setPieceDb db ∈ configure onePiece "2" host ++ unchokedBy ++
      [.periodic none, .removePeer 0] → db.unrequested = true := by
    intro db hdb
    simp only [configure, unchokedBy, List.cons_append, List.nil_append, List.mem_cons,
      Op.setPieceDb.injEq, reduceCtorEq, false_or, or_false, List.mem_singleton,
      List.not_mem_nil] at hdb
    subst hdb
    rfl
  exact ⟨hops, requested_blocks_accounted sequential _ hops⟩

end Dm

end Yabtorrent
