import Yabtorrent.Manager.Lifecycle

/-! Inbound bytes cut into calls.

The handshaker buffers what it is given: bytes handed to it in two calls, the first not
completing the handshake, leave it where the same bytes in one call would, with the same answer
and the same bytes after the handshake (`Handshaker.dispatch_append`). What follows the
handshake is not so kept. When sending our BITFIELD fails, `bt_dm_dispatch_from_buffer`
removes the peer and still hands the rest of the buffer to its message handler, while a later
call finds no peer for the net-handle and drops its bytes: an UNCHOKE in the handshake's buffer
reaches the connection and queues a PollBlock job, and the same bytes in the next call do not
(`split_after_handshake_differs`).

The message handler itself does keep what it is given. Its loop reads whole messages off its
buffer and leaves a message not yet whole buffered (`Wire.cut_append_frame`), and given a round
per byte it never runs short (`msgLoop_succ`). So bytes handed to it in two calls are read as the
same bytes in one call are: when the first call finds no error, the one call makes the callbacks
the two make and ends where the second ends; when the first call finds an error, the one call
finds the same error after the same callbacks (`msghandler_reads_across_calls`). Only the
manager's record of what it fed differs, one `fed` event per call.

And it reads the wire as it was written. A message that fits the format is cut off the wire whole
and decodes to itself (`Wire.cut_encode`), so the handler `bt_dm_dispatch_from_buffer` creates
when the handshake completes, given the encodings of such messages and the start of one more,
hands the connection exactly those messages in order up to the first protocol error, and keeps
the rest buffered (`msghandler_delivers`). -/
namespace Yabtorrent

namespace Handshaker

/-- Feeding the handshaker in two calls, the first short of the 68 bytes, is feeding it once. -/
theorem dispatch_append (h : Handshaker) (b₁ b₂ : List UInt8) (hb : h.got.length + b₁.length < 68) :
    (h.dispatch b₁).2.1 = 0 ∧ (h.dispatch b₁).1.dispatch b₂ = h.dispatch (b₁ ++ b₂) := by
  have ht : b₁.take (68 - h.got.length) = b₁ := List.take_of_length_le (by omega)
  refine ⟨by simp [dispatch, ht]; omega, ?_⟩
  simp only [dispatch, ht, List.take_append_eq_append_take, List.drop_append_eq_append_drop,
    List.append_assoc, List.length_append, List.drop_eq_nil_of_le (by omega : b₁.length ≤ 68 - h.got.length),
    List.nil_append, Nat.sub_sub]

/-- The remote handshake fed in 30 bytes and then the rest is the handshake fed at once. -/
theorem dispatch_append_split :
    ((new (Wire.bytesOf "00000000000000000000") []).dispatch (Dm.remoteHandshake.take 30)).2.1 = 0 ∧
      ((new (Wire.bytesOf "00000000000000000000") []).dispatch (Dm.remoteHandshake.take 30)).1.dispatch
          (Dm.remoteHandshake.drop 30) =
        (new (Wire.bytesOf "00000000000000000000") []).dispatch (Dm.remoteHandshake.take 30 ++ Dm.remoteHandshake.drop 30) :=
  dispatch_append _ _ _ (by decide)

end Handshaker

namespace Wire

theorem cut_append_frame {x body rest : List UInt8} (h : cut x = .frame body rest) (y : List UInt8) :
    cut (x ++ y) = .frame body (rest ++ y) := by
  rcases x with _ | ⟨a, _ | ⟨b, _ | ⟨c, _ | ⟨d, tail⟩⟩⟩⟩ <;> simp only [cut, reduceCtorEq] at h
  simp only [List.cons_append, cut]
  split_ifs at h with h₁ h₂
  cases h
  simp [h₁, List.take_append_of_le_length h₂, List.drop_append_of_le_length h₂, Nat.le_add_right_of_le h₂]

theorem cut_append_tooLong {x : List UInt8} (h : cut x = .tooLong) (y : List UInt8) :
    cut (x ++ y) = .tooLong := by
  rcases x with _ | ⟨a, _ | ⟨b, _ | ⟨c, _ | ⟨d, tail⟩⟩⟩⟩ <;> simp only [cut, reduceCtorEq] at h
  simp only [List.cons_append, cut]
  split_ifs at h with h₁
  simp [h₁]

/-- A frame takes its length prefix and its body off the buffer. -/
theorem cut_frame_length {x body rest : List UInt8} (h : cut x = .frame body rest) :
    rest.length + 4 ≤ x.length := by
  rcases x with _ | ⟨a, _ | ⟨b, _ | ⟨c, _ | ⟨d, tail⟩⟩⟩⟩ <;> simp only [cut, reduceCtorEq] at h
  split_ifs at h
  cases h
  simp

end Wire

namespace Dm
variable {σ : Type} (S : PieceSelector σ)

/-! ### The message handler's loop -/

/-- A round of the message handler's loop that hands a whole message to the connection, which
takes it. -/
theorem msgLoop_frame {s s' : Dm σ} {q q' : Peer} {buf body rest : List UInt8} {m : Msg}
    (hc : Wire.cut buf = .frame body rest) (hd : Wire.decode body = some m)
    (hm : connMsg S s q m = (s', q', true)) (fuel : Nat) :
    msgLoop S s q buf (fuel + 1) = msgLoop S s' q' rest fuel := by
  simp only [msgLoop, hc, hd, hm]

/-- Given a round per byte of its buffer, the loop has all it needs: one more changes nothing. -/
theorem msgLoop_succ : ∀ (fuel : Nat) (s : Dm σ) (q : Peer) (buf : List UInt8), buf.length ≤ fuel →
    msgLoop S s q buf (fuel + 1) = msgLoop S s q buf fuel
  | 0, s, q, buf, h => by
    rw [List.length_eq_zero.mp (Nat.le_zero.mp h)]
    rfl
  | fuel + 1, s, q, buf, h => by
    cases hc : Wire.cut buf with
    | short | tooLong => simp only [msgLoop, hc]
    | frame body rest =>
      cases hd : Wire.decode body with
      | none => simp only [msgLoop, hc, hd]
      | some m =>
        rcases hm : connMsg S s q m with ⟨s', q', _ | _⟩
        · simp only [msgLoop, hc, hd, hm]
        · rw [msgLoop_frame S hc hd hm, msgLoop_frame S hc hd hm]
          exact msgLoop_succ fuel s' q' rest (by have := Wire.cut_frame_length hc; omega)

theorem msgLoop_fuel (s : Dm σ) (q : Peer) (buf : List UInt8) :
    ∀ k, msgLoop S s q buf (buf.length + k) = msgLoop S s q buf buf.length
  | 0 => rfl
  | k + 1 => (msgLoop_succ S (buf.length + k) s q buf (Nat.le_add_right _ _)).trans (msgLoop_fuel s q buf k)

/-- Bytes appended to the loop's buffer: where the bytes before them end without error, the loop
goes on from what it left buffered; where they end in an error, the same error ends it. -/
theorem msgLoop_append (y : List UInt8) : ∀ (fuel : Nat) (s : Dm σ) (q : Peer) (x : List UInt8)
    {s₁ : Dm σ} {q₁ : Peer} {r₁ : List UInt8} {ok : Bool}, x.length ≤ fuel →
    msgLoop S s q x fuel = (s₁, q₁, r₁, ok) →
    msgLoop S s q (x ++ y) (x ++ y).length =
      if ok then msgLoop S s₁ q₁ (r₁ ++ y) (r₁ ++ y).length else (s₁, q₁, r₁ ++ y, false)
  | 0, s, q, x, _, _, _, _, hl, h => by
    obtain rfl := List.length_eq_zero.mp (Nat.le_zero.mp hl)
    cases h
    rfl
  | fuel + 1, s, q, x, s₁, q₁, r₁, ok, hl, h => by
    have hL := msgLoop_succ S _ s q (x ++ y) le_rfl
    cases hc : Wire.cut x with
    | short =>
      simp only [msgLoop, hc, Prod.mk.injEq] at h
      obtain ⟨rfl, rfl, rfl, rfl⟩ := h
      rfl
    | tooLong =>
      simp only [msgLoop, hc, Prod.mk.injEq] at h
      obtain ⟨rfl, rfl, rfl, rfl⟩ := h
      rw [← hL]
      simp only [msgLoop, Wire.cut_append_tooLong hc y]
      rfl
    | frame body rest =>
      have hc' := Wire.cut_append_frame hc y
      cases hd : Wire.decode body with
      | none =>
        simp only [msgLoop, hc, hd, Prod.mk.injEq] at h
        obtain ⟨rfl, rfl, rfl, rfl⟩ := h
        rw [← hL]
        simp only [msgLoop, hc', hd]
        rfl
      | some m =>
        rcases hm : connMsg S s q m with ⟨s', q', _ | _⟩
        · simp only [msgLoop, hc, hd, hm, Prod.mk.injEq] at h
          obtain ⟨rfl, rfl, rfl, rfl⟩ := h
          rw [← hL]
          simp only [msgLoop, hc', hd, hm]
          rfl
        · rw [msgLoop_frame S hc hd hm] at h
          have hr := Wire.cut_frame_length hc
          have hk : (x ++ y).length = (rest ++ y).length + ((x ++ y).length - (rest ++ y).length) := by
            simp only [List.length_append]; omega
          rw [← hL, msgLoop_frame S hc' hd hm, hk, msgLoop_fuel]
          exact msgLoop_append y fuel s' q' rest (by omega) h

/-- A connection's handling of a message does not look at the peer's handler. -/
theorem connMsg_mh (s : Dm σ) (q : Peer) (x : Option Handler) (m : Msg) :
    connMsg S s { q with mh := x } m =
      ((connMsg S s q m).1, { (connMsg S s q m).2.1 with mh := x }, (connMsg S s q m).2.2) := by
  cases m <;> simp only [connMsg] <;> (try split) <;> (try split) <;> rfl

theorem msgLoop_mh (x : Option Handler) : ∀ (fuel : Nat) (s : Dm σ) (q : Peer) (buf : List UInt8),
    msgLoop S s { q with mh := x } buf fuel =
      ((msgLoop S s q buf fuel).1, { (msgLoop S s q buf fuel).2.1 with mh := x }, (msgLoop S s q buf fuel).2.2)
  | 0, s, q, buf => rfl
  | fuel + 1, s, q, buf => by
    cases hc : Wire.cut buf with
    | short | tooLong => simp only [msgLoop, hc]
    | frame body rest =>
      cases hd : Wire.decode body with
      | none => simp only [msgLoop, hc, hd]
      | some m =>
        rcases hm : connMsg S s q m with ⟨s', q', _ | _⟩
        · simp only [msgLoop, hc, hd, connMsg_mh, hm]
        · rw [msgLoop_frame S hc hd hm, msgLoop_frame S hc hd (by rw [connMsg_mh, hm]), msgLoop_mh]

/-- **The message handler reads a byte stream the same however it is cut into calls.** When
the first call finds no error, handing it `a ++ b` at once is handing it `a` and then `b`, the
second call starting from what the first left buffered; when the first finds an error, the one
call ends with the same error, the same callbacks made and the same connection, only more bytes
left in its buffer. -/
theorem msghandler_reads_across_calls (s : Dm σ) (q : Peer) (m : MsgHandler) (a b : List UInt8)
    {s₁ : Dm σ} {q₁ : Peer} {ok : Bool} (h : msghandlerDispatch S s q m a = (s₁, q₁, ok)) :
    ∃ m₁, q₁.mh = some (.msghandler m₁) ∧
      msghandlerDispatch S s q m (a ++ b) =
        if ok then msghandlerDispatch S s₁ q₁ m₁ b
        else (s₁, { q₁ with mh := some (.msghandler ⟨m₁.buf ++ b⟩) }, false) := by
  unfold msghandlerDispatch at h ⊢
  rcases hr : msgLoop S s q (m.buf ++ a) (m.buf ++ a).length with ⟨s', q', r₁, ok'⟩
  rw [hr] at h
  simp only [Prod.mk.injEq] at h
  obtain ⟨rfl, rfl, rfl⟩ := h
  refine ⟨⟨r₁⟩, rfl, ?_⟩
  rw [← List.append_assoc, msgLoop_append S b _ s q _ le_rfl hr]
  cases ok'
  · rfl
  · simp only [if_true, msgLoop_mh]

/-- A peer whose handshake is received, with nothing buffered. -/
def shaken : Peer :=
  ⟨0, "", "10.0.0.2", 6881, some 7, (Conn.new 1 2).setState .handshakeReceived,
    some (.msghandler ⟨[]⟩)⟩

/-- An UNCHOKE cut after its three first bytes. -/
theorem msghandler_reads_unchoke_split :
    ∃ m₁, (msghandlerDispatch sequential new shaken ⟨[]⟩ [0, 0, 0]).2.1.mh = some (.msghandler m₁) ∧
      msghandlerDispatch sequential new shaken ⟨[]⟩ ([0, 0, 0] ++ [1, 1]) =
        if (msghandlerDispatch sequential new shaken ⟨[]⟩ [0, 0, 0]).2.2 then
          msghandlerDispatch sequential (msghandlerDispatch sequential new shaken ⟨[]⟩ [0, 0, 0]).1
            (msghandlerDispatch sequential new shaken ⟨[]⟩ [0, 0, 0]).2.1 m₁ [1, 1]
        else ((msghandlerDispatch sequential new shaken ⟨[]⟩ [0, 0, 0]).1,
          { (msghandlerDispatch sequential new shaken ⟨[]⟩ [0, 0, 0]).2.1 with
            mh := some (.msghandler ⟨m₁.buf ++ [1, 1]⟩) }, false) :=
  msghandler_reads_across_calls sequential new shaken ⟨[]⟩ [0, 0, 0] [1, 1] rfl

/-! ### Messages on the wire -/

/-- Messages handed to a connection one after another, stopping at the first protocol error: the
manager, the record, the messages not handed over, and false on an error. -/
def deliver (s : Dm σ) (q : Peer) : List Msg → Dm σ × Peer × List Msg × Bool
  | [] => (s, q, [], true)
  | m :: ms =>
    match connMsg S s q m with
    | (s, q, true) => deliver s q ms
    | (s, q, false) => (s, q, ms, false)

/-- The loop over the encodings of messages that fit, then the start of one more: the messages go
to the connection as `deliver` hands them, and what stays buffered is the encodings of those not
handed over, then the unfinished tail. -/
theorem msgLoop_encoded {tail : List UInt8} (ht : Wire.cut tail = .short) :
    ∀ (ms : List Msg) (s : Dm σ) (q : Peer) (fuel : Nat), (∀ m ∈ ms, m.fits = true) →
      ms.length ≤ fuel →
      msgLoop S s q (ms.flatMap Msg.encode ++ tail) fuel =
        ((deliver S s q ms).1, (deliver S s q ms).2.1,
          (deliver S s q ms).2.2.1.flatMap Msg.encode ++ tail, (deliver S s q ms).2.2.2)
  | [], s, q, fuel, _, _ => by
    cases fuel <;> simp [msgLoop, deliver, ht]
  | m :: ms, s, q, fuel + 1, hms, hl => by
    obtain ⟨body, hc, hd⟩ := Wire.cut_encode m (hms m (List.mem_cons_self _ _))
      (ms.flatMap Msg.encode ++ tail)
    rw [List.flatMap_cons, List.append_assoc]
    rcases hm : connMsg S s q m with ⟨s', q', _ | _⟩
    · simp only [msgLoop, hc, hd, hm, deliver]
    · rw [msgLoop_frame S hc hd hm, msgLoop_encoded ht ms s' q' fuel
        (fun m hm => hms m (List.mem_cons_of_mem _ hm)) (by simpa using hl)]
      simp only [deliver, hm]

theorem length_le_flatMap_encode (ms : List Msg) : ms.length ≤ (ms.flatMap Msg.encode).length := by
  induction ms with
  | nil => exact Nat.le_refl 0
  | cons m ms ih =>
    have := Wire.encode_length_ge m
    simp only [List.flatMap_cons, List.length_append, List.length_cons]
    omega

/-- **The message handler reads the wire as it was written.** A new message handler given the
encodings of messages that fit, then the start of one more, hands the connection exactly those
messages, in order, up to the first protocol error, and keeps buffered the encodings of the
messages not handed over and the unfinished tail. -/
theorem msghandler_delivers (s : Dm σ) (q : Peer) (ms : List Msg) (hms : ∀ m ∈ ms, m.fits = true)
    {tail : List UInt8} (ht : Wire.cut tail = .short) :
    msghandlerDispatch S s q ⟨[]⟩ (ms.flatMap Msg.encode ++ tail) =
      ((deliver S s q ms).1,
        { (deliver S s q ms).2.1 with
          mh := some (.msghandler ⟨(deliver S s q ms).2.2.1.flatMap Msg.encode ++ tail⟩) },
        (deliver S s q ms).2.2.2) := by
  have hl : ms.length ≤ (ms.flatMap Msg.encode ++ tail).length := by
    simpa using (length_le_flatMap_encode ms).trans (Nat.le_add_right _ tail.length)
  simp only [msghandlerDispatch, List.nil_append, msgLoop_encoded S ht ms s q _ hms hl]

/-- An UNCHOKE and a HAVE, then the first three bytes of another message. -/
theorem msghandler_delivers_unchoke_have :
    (∀ m ∈ [Msg.unchoke, .have 0], m.fits = true) ∧ Wire.cut [0, 0, 0] = .short ∧
      msghandlerDispatch sequential new shaken ⟨[]⟩ ([Msg.unchoke, .have 0].flatMap Msg.encode ++ [0, 0, 0]) =
        ((deliver sequential new shaken [.unchoke, .have 0]).1,
          { (deliver sequential new shaken [.unchoke, .have 0]).2.1 with
            mh := some (.msghandler
              ⟨(deliver sequential new shaken [.unchoke, .have 0]).2.2.1.flatMap Msg.encode ++ [0, 0, 0]⟩) },
          (deliver sequential new shaken [.unchoke, .have 0]).2.2.2) :=
  ⟨by decide, rfl, msghandler_delivers sequential new shaken _ (by decide) rfl⟩

/-! ### The handshake's buffer -/

/-- A host that refuses our BITFIELD and takes every other message. -/
def refusesBitfield : Callbacks :=
  ⟨some (fun _ _ => some 7), some (fun _ m => match m with | .bitfield _ => false | _ => true), true,
    false⟩

def bitfieldRefused : List (Op Sequential) :=
  configure onePiece "2" refusesBitfield ++ [.addPeer "" 0 "10.0.0.2" 8 6881 none]

/-- The peer's handshake and an UNCHOKE, in one call and in two. -/
theorem split_after_handshake_differs :
    (run sequential new (bitfieldRefused ++
        [.dispatchFromBuffer 7 (remoteHandshake ++ Msg.encode .unchoke)])).jobs = [.pollblock 0] ∧
      .fed 0 (Msg.encode .unchoke) ∈ (run sequential new (bitfieldRefused ++
        [.dispatchFromBuffer 7 (remoteHandshake ++ Msg.encode .unchoke)])).trace ∧
      (run sequential new (bitfieldRefused ++
        [.dispatchFromBuffer 7 remoteHandshake, .dispatchFromBuffer 7 (Msg.encode .unchoke)])).jobs = [] ∧
      .fed 0 (Msg.encode .unchoke) ∉ (run sequential new (bitfieldRefused ++
        [.dispatchFromBuffer 7 remoteHandshake, .dispatchFromBuffer 7 (Msg.encode .unchoke)])).trace := by
  decide

end Dm

end Yabtorrent
