import Yabtorrent.Wire

/-! Pieces, the piece database and the blacklist.

The download manager calls into `bt_piece`, `bt_piecedb` and `bt_blacklist`, none of which
is among the sources; what they do is modelled from the spec (§3, §4.4, §4.7). A piece is
cut into 16 KiB blocks, each MISSING, REQUESTED or RECEIVED with the bytes written to it,
and remembers the peers that wrote to it. SHA-1 is taken to be collision-free, so a piece's
checksum is represented by the bytes it is the hash of (`Piece.expected`). -/
namespace Yabtorrent

/-- The protocol's request ceiling, and the length of every block of a piece but the last. -/
def blockSize : Nat := 16384

inductive BlockState where
  | missing
  | requested
  | received
  deriving DecidableEq, Repr

/-- A block of a piece: its state and the bytes last written to it. -/
structure Slot where
  state : BlockState
  data : List UInt8
  deriving DecidableEq, Repr

def blockCount (size : Nat) : Nat := (size + blockSize - 1) / blockSize

/-- Modelled from the spec: `bt_piece_t`. -/
structure Piece where
  idx : Nat
  size : Nat
  expected : List UInt8
  slots : List Slot
  /-- Contributing peers, by identity, in the order of their first write. -/
  peers : List Nat
  slots_length : slots.length = blockCount size
  deriving DecidableEq

/-- Changing an element that the predicate holds of into one it fails on lowers the count by one. -/
theorem countP_modify_add_one {α : Type} {P : α → Bool} {f : α → α} :
    ∀ {l : List α} {k : Nat} (hk : k < l.length), P l[k] = true → P (f l[k]) = false →
      (l.modify f k).countP P + 1 = l.countP P
  | _ :: _, 0, _, h1, h2 => by simp_all [List.countP_cons]
  | _ :: _, k + 1, hk, h1, h2 => by
    simp only [List.modify_succ_cons, List.countP_cons]
    have := countP_modify_add_one (Nat.lt_of_succ_lt_succ hk) h1 h2
    omega

namespace Piece

/-- Modelled from the spec: a piece with nothing downloaded. -/
def new (idx size : Nat) (expected : List UInt8) : Piece :=
  ⟨idx, size, expected, List.replicate (blockCount size) ⟨.missing, []⟩, [], by simp⟩

/-- Block `k`: at offset `16384 * k`, as long as the piece allows. -/
def block (p : Piece) (k : Nat) : Block :=
  ⟨p.idx, blockSize * k, min blockSize (p.size - blockSize * k)⟩

def setSlot (p : Piece) (k : Nat) (f : Slot → Slot) : Piece :=
  { p with slots := p.slots.modify f k, slots_length := by rw [List.length_modify, p.slots_length] }

def isFullyRequested (p : Piece) : Bool := p.slots.all (·.state != .missing)

def allReceived (p : Piece) : Bool := p.slots.all (·.state == .received)

/-- Modelled from the spec: the checksum test, with SHA-1 taken as collision-free. -/
def valid (p : Piece) : Bool := p.slots.flatMap Slot.data == p.expected

/-- The number of MISSING blocks. -/
def missingCount (p : Piece) : Nat := p.slots.countP (·.state == .missing)

/-- Modelled from the spec: `bt_piece_is_complete`, every block received and the checksum right. -/
def isComplete (p : Piece) : Bool := p.allReceived && p.valid

/-- Modelled from the spec: `bt_piece_poll_block_request`, the first MISSING block, now
REQUESTED. -/
def pollBlockRequest (p : Piece) : Option (Block × Piece) :=
  (p.slots.findIdx? (·.state == .missing)).map fun k =>
    (p.block k, p.setSlot k fun sl => { sl with state := .requested })

/-- The piece as `bt_piece_poll_block_request` leaves it. -/
def polled (p : Piece) : Piece :=
  match p.pollBlockRequest with
  | some (_, q) => q
  | none => p

/-- Modelled from the spec: `bt_piece_giveback_block`, a REQUESTED block back to MISSING. -/
def givebackBlock (p : Piece) (b : Block) : Piece :=
  p.setSlot (b.offset / blockSize) fun sl =>
    if sl.state = .requested then { sl with state := .missing } else sl

/-- Modelled from the spec: `bt_piece_write_block` with the disk's answer `ok`. The result is
2 when the piece is complete and verified, 1 when the block is accepted and the piece still
incomplete, 0 on a write error (the block is left MISSING) and -1 when every block is received
but the checksum fails. A block that is not one of the piece's is a write error too. -/
def writeBlock (p : Piece) (ok : Bool) (b : Block) (data : List UInt8) (peer : Nat) :
    Piece × Int :=
  let k := b.offset / blockSize
  if ok ∧ k < p.slots.length ∧ b = p.block k ∧ data.length = b.len then
    let p := { p.setSlot k (fun _ => ⟨.received, data⟩) with
      peers := if peer ∈ p.peers then p.peers else p.peers ++ [peer] }
    (p, if !p.allReceived then 1 else if p.valid then 2 else -1)
  else (p.setSlot k fun sl => { sl with state := .missing }, 0)

/-- Modelled from the spec: `bt_piece_drop_download_progress`, every block MISSING again. -/
def dropDownloadProgress (p : Piece) : Piece :=
  { p with slots := p.slots.map fun _ => ⟨.missing, []⟩,
           slots_length := by rw [List.length_map, p.slots_length] }

/-- Modelled from the spec: `bt_piece_write_block_to_stream`, the bytes of a received block. -/
def writeBlockToStream (p : Piece) (b : Block) : Option (List UInt8) :=
  match p.slots[b.offset / blockSize]? with
  | some ⟨.received, data⟩ => if b = p.block (b.offset / blockSize) then some data else none
  | _ => none

@[simp] theorem setSlot_idx (p : Piece) (k : Nat) (f : Slot → Slot) : (p.setSlot k f).idx = p.idx :=
  rfl

@[simp] theorem givebackBlock_idx (p : Piece) (b : Block) : (p.givebackBlock b).idx = p.idx := rfl

@[simp] theorem dropDownloadProgress_idx (p : Piece) : p.dropDownloadProgress.idx = p.idx := rfl

theorem writeBlock_idx (p : Piece) (ok : Bool) (b : Block) (data : List UInt8) (peer : Nat) :
    (p.writeBlock ok b data peer).1.idx = p.idx := by
  simp only [writeBlock]
  split <;> rfl

theorem pollBlockRequest_idx {p q : Piece} {b : Block} (h : p.pollBlockRequest = some (b, q)) :
    q.idx = p.idx := by
  simp only [pollBlockRequest, Option.map_eq_some'] at h
  obtain ⟨k, -, h⟩ := h
  cases h
  rfl

@[simp] theorem polled_idx (p : Piece) : p.polled.idx = p.idx := by
  unfold polled
  split
  · exact pollBlockRequest_idx ‹_›
  · rfl

theorem isFullyRequested_iff (p : Piece) : p.isFullyRequested = true ↔ p.missingCount = 0 := by
  simp [isFullyRequested, missingCount, List.countP_eq_zero]

theorem missingCount_le (p : Piece) : p.missingCount ≤ p.slots.length := List.countP_le_length _

theorem pollBlockRequest_of_not_fully {p : Piece} (h : p.isFullyRequested = false) :
    ∃ k, p.slots.findIdx? (·.state == .missing) = some k := by
  cases hk : p.slots.findIdx? (·.state == .missing) with
  | some k => exact ⟨k, rfl⟩
  | none =>
    rw [List.findIdx?_eq_none_iff] at hk
    obtain ⟨x, hx, hm⟩ : ∃ x ∈ p.slots, x.state = .missing := by simpa [isFullyRequested] using h
    simpa [hm] using hk x hx

/-- Polling a block request turns exactly one MISSING block REQUESTED. -/
theorem missingCount_polled {p : Piece} (h : p.isFullyRequested = false) :
    p.polled.missingCount + 1 = p.missingCount := by
  obtain ⟨k, hk⟩ := pollBlockRequest_of_not_fully h
  obtain ⟨hlt, hmiss, -⟩ := List.findIdx?_eq_some_iff_getElem.mp hk
  simp only [polled, pollBlockRequest, hk, Option.map_some', missingCount, setSlot]
  exact countP_modify_add_one hlt hmiss (by simp)

end Piece

/-- Modelled from the spec: the piece database behind `bt_piecedb_i`, pieces by index and
whether the disk accepts a write. -/
structure PieceDb where
  pieces : List Piece
  disk : Block → List UInt8 → Bool
  indexed : ∀ i (h : i < pieces.length), pieces[i].idx = i

namespace PieceDb

/-- Piece `i` replaced by `f` of it; `f` keeps the index. -/
def modify (db : PieceDb) (i : Nat) (f : Piece → Piece) (hf : ∀ p, (f p).idx = p.idx) :
    PieceDb :=
  { db with
    pieces := db.pieces.modify f i
    indexed := fun j h => by
      rw [List.getElem_modify]
      split
      · subst i; rw [hf]; exact db.indexed j (by simpa using h)
      · exact db.indexed j (by simpa using h) }

theorem idx_of_getElem? {db : PieceDb} {i : Nat} {p : Piece} (h : db.pieces[i]? = some p) :
    p.idx = i := by
  obtain ⟨hi, rfl⟩ := List.getElem?_eq_some_iff.mp h
  exact db.indexed i hi

@[simp] theorem modify_pieces (db : PieceDb) (i : Nat) (f : Piece → Piece)
    (hf : ∀ p, (f p).idx = p.idx) : (db.modify i f hf).pieces = db.pieces.modify f i := rfl

@[simp] theorem modify_disk (db : PieceDb) (i : Nat) (f : Piece → Piece)
    (hf : ∀ p, (f p).idx = p.idx) : (db.modify i f hf).disk = db.disk := rfl

end PieceDb

/-- Modelled from the spec: the blacklist (`bt_blacklist`), banned peers and suspicion edges
(piece, peer). -/
structure Blacklist where
  banned : List Nat
  suspected : List (Nat × Nat)
  deriving DecidableEq, Repr

namespace Blacklist

def empty : Blacklist := ⟨[], []⟩

/-- Modelled from the spec: `bt_blacklist_add_peer`, a ban outright. -/
def addPeer (bl : Blacklist) (_piece peer : Nat) : Blacklist :=
  { bl with banned := bl.banned ++ [peer], suspected := bl.suspected }

/-- Modelled from the spec: `bt_blacklist_add_peer_as_potentially_blacklisted`, a suspicion
edge; a peer suspected for two distinct pieces is banned. -/
def addPeerAsPotentiallyBlacklisted (bl : Blacklist) (piece peer : Nat) : Blacklist :=
  let sus := if (piece, peer) ∈ bl.suspected then bl.suspected else bl.suspected ++ [(piece, peer)]
  if 2 ≤ (sus.filter (·.2 == peer)).length then ⟨bl.banned ++ [peer], sus⟩ else ⟨bl.banned, sus⟩

theorem banned_prefix_addPeerAsPotentiallyBlacklisted (bl : Blacklist) (piece peer : Nat) :
    bl.banned <+: (bl.addPeerAsPotentiallyBlacklisted piece peer).banned := by
  unfold addPeerAsPotentiallyBlacklisted
  dsimp only
  split_ifs <;> simp

/-- Suspicions never lift a ban. -/
theorem banned_prefix_foldl (piece : Nat) :
    ∀ (peers : List Nat) (bl : Blacklist),
      bl.banned <+: (peers.foldl (·.addPeerAsPotentiallyBlacklisted piece ·) bl).banned
  | [], _ => List.prefix_refl _
  | q :: qs, bl =>
    (banned_prefix_addPeerAsPotentiallyBlacklisted bl piece q).trans (banned_prefix_foldl piece qs _)

end Blacklist

end Yabtorrent
