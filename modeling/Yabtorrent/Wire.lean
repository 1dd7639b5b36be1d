import Mathlib.Data.List.Basic
import Mathlib.Algebra.Group.Nat.Basic

/-! The peer wire protocol (BEP 3) as the download manager's peers speak it.

A connection opens with a 68-byte handshake; after it every message is a big-endian `u32`
length, a message id and a payload, and length zero is a keep-alive (spec §6). The message
handler and the handshaker that read these bytes are not among the sources: `cut`, `decode`
and `Msg.encode` are modelled from the spec (§4.3, §6), and so is the bound `maxLength` on a
length prefix.

The codec round trip (`Wire.cut_encode`): a message that fits (`Msg.fits`: no handshake, every
number in 32 bits, a BITFIELD of whole bytes, a length within `maxLength`) is cut off the wire
whole, whatever follows it, and decodes to itself. -/
namespace Yabtorrent

/-- `bt_block_t`: a byte range of a piece. -/
structure Block where
  pieceIdx : Nat
  offset : Nat
  len : Nat
  deriving DecidableEq, Repr

/-- A peer wire message; `handshake` stands for the 68 bytes that open a connection. -/
inductive Msg where
  | keepAlive
  | choke
  | unchoke
  | interested
  | notInterested
  | have (idx : Nat)
  | bitfield (bits : List Bool)
  | request (b : Block)
  | piece (pieceIdx offset : Nat) (data : List UInt8)
  | cancel (b : Block)
  | handshake (infohash peerId : List UInt8)
  deriving DecidableEq, Repr

namespace Wire

/-- The bytes of a string, one per character. -/
def bytesOf (s : String) : List UInt8 := s.toList.map (fun c => c.toNat.toUInt8)

def u32 (n : Nat) : List UInt8 :=
  [(n / 2 ^ 24 % 256).toUInt8, (n / 2 ^ 16 % 256).toUInt8, (n / 2 ^ 8 % 256).toUInt8,
    (n % 256).toUInt8]

def be32 (a b c d : UInt8) : Nat := ((a.toNat * 256 + b.toNat) * 256 + c.toNat) * 256 + d.toNat

/-- Modelled from the spec: the largest length prefix accepted, one 16 KiB block's worth of `2 ^ 17` plus slack for
the PIECE header (§4.3). -/
def maxLength : Nat := 2 ^ 17 + 13

def protocol : List UInt8 := bytesOf "BitTorrent protocol"

/-- Modelled from the spec: the handshake, `pstrlen = 19`, the protocol string, 8 reserved
bytes, the infohash and the peer id. -/
def handshakeBytes (infohash peerId : List UInt8) : List UInt8 :=
  19 :: protocol ++ List.replicate 8 0 ++ infohash ++ peerId

/-- Modelled from the spec: a handshake is valid when its length byte, protocol string and
infohash are right. -/
def validHandshake (infohash : List UInt8) (bytes : List UInt8) : Bool :=
  bytes.take 20 == 19 :: protocol && (bytes.drop 28).take 20 == infohash

/-- Bits of a BITFIELD payload, most significant bit of each byte first. -/
def bitsOf (bytes : List UInt8) : List Bool :=
  bytes.flatMap fun b => (List.range 8).reverse.map b.toNat.testBit

/-- The byte whose bits, most significant first, are the given eight. -/
def byteOf (bits : List Bool) : UInt8 := (bits.foldl (fun n b => 2 * n + cond b 1 0) 0).toUInt8

/-- Bits packed eight to a byte, most significant first, the last byte padded with zeros. -/
def packBits : List Bool → List UInt8
  | [] => []
  | b0 :: b1 :: b2 :: b3 :: b4 :: b5 :: b6 :: b7 :: rest =>
    byteOf [b0, b1, b2, b3, b4, b5, b6, b7] :: packBits rest
  | bits => [byteOf (bits ++ List.replicate (8 - bits.length) false)]

/-- Modelled from the spec: one step of the message handler over its buffer, a whole message
body and what follows it, too few bytes yet, or a length prefix over `maxLength`. -/
inductive Cut where
  | frame (body rest : List UInt8)
  | short
  | tooLong
  deriving DecidableEq, Repr

/-- Modelled from the spec: the length prefix read off the buffer (§4.3, §6). -/
def cut : List UInt8 → Cut
  | a :: b :: c :: d :: tail =>
    if maxLength < be32 a b c d then .tooLong
    else if be32 a b c d ≤ tail.length then .frame (tail.take (be32 a b c d)) (tail.drop (be32 a b c d))
    else .short
  | _ => .short

/-- Modelled from the spec: a message body read as its id byte and payload (§6); `none` is a
malformed message. -/
def decode : List UInt8 → Option Msg
  | [] => some .keepAlive
  | id :: payload =>
    match id.toNat, payload with
    | 0, [] => some .choke
    | 1, [] => some .unchoke
    | 2, [] => some .interested
    | 3, [] => some .notInterested
    | 4, [a, b, c, d] => some (.have (be32 a b c d))
    | 5, bytes => some (.bitfield (bitsOf bytes))
    | 6, [a0, a1, a2, a3, b0, b1, b2, b3, c0, c1, c2, c3] =>
      some (.request ⟨be32 a0 a1 a2 a3, be32 b0 b1 b2 b3, be32 c0 c1 c2 c3⟩)
    | 7, a0 :: a1 :: a2 :: a3 :: b0 :: b1 :: b2 :: b3 :: data =>
      some (.piece (be32 a0 a1 a2 a3) (be32 b0 b1 b2 b3) data)
    | 8, [a0, a1, a2, a3, b0, b1, b2, b3, c0, c1, c2, c3] =>
      some (.cancel ⟨be32 a0 a1 a2 a3, be32 b0 b1 b2 b3, be32 c0 c1 c2 c3⟩)
    | _, _ => none

end Wire

open Wire in
/-- Modelled from the spec: the bytes of a message on the wire (§6). -/
def Msg.encode : Msg → List UInt8
  | .keepAlive => u32 0
  | .choke => u32 1 ++ [0]
  | .unchoke => u32 1 ++ [1]
  | .interested => u32 1 ++ [2]
  | .notInterested => u32 1 ++ [3]
  | .have idx => u32 5 ++ 4 :: u32 idx
  | .bitfield bits => u32 (1 + (packBits bits).length) ++ 5 :: packBits bits
  | .request b => u32 13 ++ 6 :: u32 b.pieceIdx ++ u32 b.offset ++ u32 b.len
  | .piece idx off data => u32 (9 + data.length) ++ 7 :: u32 idx ++ u32 off ++ data
  | .cancel b => u32 13 ++ 8 :: u32 b.pieceIdx ++ u32 b.offset ++ u32 b.len
  | .handshake infohash peerId => handshakeBytes infohash peerId

/-- A message its encoding carries whole: no handshake, every number below `2 ^ 32`, a BITFIELD
of whole bytes, and a length prefix within `maxLength`. -/
def Msg.fits : Msg → Bool
  | .have idx => idx < 2 ^ 32
  | .bitfield bits => bits.length % 8 == 0 && 1 + (Wire.packBits bits).length ≤ Wire.maxLength
  | .request b | .cancel b => b.pieceIdx < 2 ^ 32 && b.offset < 2 ^ 32 && b.len < 2 ^ 32
  | .piece idx off data => idx < 2 ^ 32 && off < 2 ^ 32 && 9 + data.length ≤ Wire.maxLength
  | .handshake _ _ => false
  | _ => true

namespace Wire

/-! ### The round trip -/

theorem byte_bits : ∀ b0 b1 b2 b3 b4 b5 b6 b7 : Bool,
    (List.range 8).reverse.map (byteOf [b0, b1, b2, b3, b4, b5, b6, b7]).toNat.testBit =
      [b0, b1, b2, b3, b4, b5, b6, b7] := by
  intro b0 b1 b2 b3 b4 b5 b6 b7
  cases b0 <;> cases b1 <;> cases b2 <;> cases b3 <;> cases b4 <;> cases b5 <;> cases b6 <;>
    cases b7 <;> rfl

/-- Whole bytes of bits read back as the bits packed. -/
theorem bitsOf_packBits : ∀ bits : List Bool, bits.length % 8 = 0 → bitsOf (packBits bits) = bits
  | [], _ => rfl
  | b0 :: b1 :: b2 :: b3 :: b4 :: b5 :: b6 :: b7 :: rest, h => by
    simp only [packBits, bitsOf, List.flatMap_cons, byte_bits, List.cons_append, List.nil_append]
    rw [← bitsOf, bitsOf_packBits rest (by simp only [List.length_cons] at h; omega)]
  | [_], h | [_, _], h | [_, _, _], h | [_, _, _, _], h | [_, _, _, _, _], h
  | [_, _, _, _, _, _], h | [_, _, _, _, _, _, _], h => by simp at h

theorem toNat_toUInt8_mod (n : Nat) : (n % 256).toUInt8.toNat = n % 256 :=
  UInt8.toNat_ofNat_of_lt (Nat.mod_lt _ (by decide))

/-- A number in 32 bits reads back from its four bytes. -/
theorem be32_u32 {n : Nat} (h : n < 2 ^ 32) :
    be32 (n / 2 ^ 24 % 256).toUInt8 (n / 2 ^ 16 % 256).toUInt8 (n / 2 ^ 8 % 256).toUInt8
      (n % 256).toUInt8 = n := by
  simp only [be32, toNat_toUInt8_mod]
  omega

/-- A body within `maxLength` behind its length prefix is cut off whole. -/
theorem cut_u32 {b : List UInt8} {n : Nat} (hn : b.length = n) (h : n ≤ maxLength)
    (rest : List UInt8) : cut (u32 n ++ b ++ rest) = .frame b rest := by
  subst hn
  have h32 : b.length < 2 ^ 32 := by unfold maxLength at h; omega
  simp only [u32, cut, List.cons_append, List.nil_append, List.append_assoc, be32_u32 h32]
  rw [if_neg (by omega), if_pos (by simp)]
  simp

/-- **The codec round trip.** A message that fits is cut off the wire whole, whatever follows it,
and decodes to itself. -/
theorem cut_encode (m : Msg) (hm : m.fits = true) (rest : List UInt8) :
    ∃ body, cut (m.encode ++ rest) = .frame body rest ∧ decode body = some m := by
  cases m with
  | keepAlive => exact ⟨[], cut_u32 (b := []) (n := 0) rfl (by decide) rest, rfl⟩
  | choke => exact ⟨[0], cut_u32 (b := [0]) (n := 1) rfl (by decide) rest, rfl⟩
  | unchoke => exact ⟨[1], cut_u32 (b := [1]) (n := 1) rfl (by decide) rest, rfl⟩
  | interested => exact ⟨[2], cut_u32 (b := [2]) (n := 1) rfl (by decide) rest, rfl⟩
  | notInterested => exact ⟨[3], cut_u32 (b := [3]) (n := 1) rfl (by decide) rest, rfl⟩
  | «have» idx =>
    refine ⟨_, cut_u32 (b := 4 :: u32 idx) (n := 5) rfl (by decide) rest, ?_⟩
    show some (Msg.have (be32 _ _ _ _)) = _
    rw [be32_u32 (by simpa [Msg.fits] using hm)]
  | bitfield bits =>
    simp only [Msg.fits, Bool.and_eq_true, beq_iff_eq, decide_eq_true_eq] at hm
    refine ⟨_, cut_u32 (b := 5 :: packBits bits) (n := 1 + (packBits bits).length)
      (by simp [Nat.add_comm]) hm.2 rest, ?_⟩
    show some (Msg.bitfield (bitsOf (packBits bits))) = _
    rw [bitsOf_packBits _ hm.1]
  | request b =>
    simp only [Msg.fits, Bool.and_eq_true, decide_eq_true_eq] at hm
    refine ⟨_, cut_u32 (b := 6 :: u32 b.pieceIdx ++ u32 b.offset ++ u32 b.len) (n := 13) rfl
      (by decide) rest, ?_⟩
    show some (Msg.request ⟨be32 _ _ _ _, be32 _ _ _ _, be32 _ _ _ _⟩) = _
    rw [be32_u32 hm.1.1, be32_u32 hm.1.2, be32_u32 hm.2]
  | piece idx off data =>
    simp only [Msg.fits, Bool.and_eq_true, decide_eq_true_eq] at hm
    refine ⟨_, cut_u32 (b := 7 :: u32 idx ++ u32 off ++ data) (n := 9 + data.length)
      (by simp [u32]; omega) hm.2 rest, ?_⟩
    show some (Msg.piece (be32 _ _ _ _) (be32 _ _ _ _) data) = _
    rw [be32_u32 hm.1.1, be32_u32 hm.1.2]
  | cancel b =>
    simp only [Msg.fits, Bool.and_eq_true, decide_eq_true_eq] at hm
    refine ⟨_, cut_u32 (b := 8 :: u32 b.pieceIdx ++ u32 b.offset ++ u32 b.len) (n := 13) rfl
      (by decide) rest, ?_⟩
    show some (Msg.cancel ⟨be32 _ _ _ _, be32 _ _ _ _, be32 _ _ _ _⟩) = _
    rw [be32_u32 hm.1.1, be32_u32 hm.1.2, be32_u32 hm.2]
  | handshake _ _ => simp [Msg.fits] at hm

/-- Every message takes at least its four bytes of length prefix. -/
theorem encode_length_ge (m : Msg) : 4 ≤ m.encode.length := by
  cases m <;> simp [Msg.encode, u32, handshakeBytes]
  omega

end Wire

end Yabtorrent
