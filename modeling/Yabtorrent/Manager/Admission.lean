import Yabtorrent.Manager.Lifecycle

/-! Who `bt_dm_add_peer` admits, and what a refusal leaves.

The self-check at the top of `bt_dm_add_peer` compares the address with `my_ip` by `strncmp`
over the address's own length, which for strings without NUL asks only that the first `ip_len`
characters agree (`strncmp_eq_zero_iff`): every prefix of `my_ip`, the empty address among
them, is refused on the listen port (`addPeer_refuses_prefix`, `self_check_refuses_prefix`).

A call that returns NULL has either changed nothing, at the self-check or at a duplicate, or
has already remembered the peer with the peer manager and an installed selector
(`addPeer_refused`): the exits for a missing `peer_connect` callback and for one that fails
leave the peer behind, and `bt_dm_peer_connect` then answers 0 with the peer added
(`refused_peer_kept`). Only the leeching choker is left as it was. -/
namespace Yabtorrent

/-- `strncmp` of strings without NUL is zero exactly when their first `n` characters agree. -/
theorem strncmp_eq_zero_iff : ∀ (a b : List Char) (n : Nat), (∀ c ∈ a, c.toNat ≠ 0) →
    (∀ c ∈ b, c.toNat ≠ 0) → (strncmp a b n = 0 ↔ a.take n = b.take n)
  | _, _, 0, _, _ => by simp [strncmp]
  | [], [], _ + 1, _, _ => by simp [strncmp]
  | [], d :: _, _ + 1, _, hb => by
    have : (d.toNat : Int) ≠ 0 := by exact_mod_cast hb d (List.mem_cons_self _ _)
    simpa [strncmp] using this
  | c :: _, [], _ + 1, ha, _ => by
    have : (c.toNat : Int) ≠ 0 := by exact_mod_cast ha c (List.mem_cons_self _ _)
    simpa [strncmp] using this
  | c :: cs, d :: ds, n + 1, ha, hb => by
    by_cases h : c = d
    · subst h
      simpa [strncmp] using strncmp_eq_zero_iff cs ds n (fun x hx => ha x (List.mem_cons_of_mem _ hx))
        (fun x hx => hb x (List.mem_cons_of_mem _ hx))
    · have : c.toNat ≠ d.toNat := fun e => h (Char.ext (UInt32.eq_of_val_eq (Fin.ext e)))
      simp only [strncmp, h, if_false, List.take_succ_cons, List.cons.injEq, false_and, iff_false]
      omega

namespace Dm
variable {σ : Type} (S : PieceSelector σ)

/-- **The self-check refuses a prefix.** On the listen port, `bt_dm_add_peer` refuses and
changes nothing for every address without NUL whose first `ip_len` characters are those of a
`my_ip` without NUL. -/
theorem addPeer_refuses_prefix (s : Dm σ) (peerId : String) (peerIdLen : Nat) (ip : String)
    (ipLen : Nat) (nh : Option Nat) (hip : ∀ c ∈ ip.toList, c.toNat ≠ 0)
    (hmy : ∀ c ∈ ((s.cfg.get "my_ip").getD "").toList, c.toNat ≠ 0)
    (hpre : ip.toList.take ipLen = ((s.cfg.get "my_ip").getD "").toList.take ipLen) :
    addPeer S s peerId peerIdLen ip ipLen (s.cfg.getInt "pwp_listen_port") nh = (s, none) := by
  rw [addPeer, if_pos ⟨(strncmp_eq_zero_iff _ _ _ hip hmy).mpr hpre, rfl⟩]

/-- `my_ip` set to 10.0.0.12. -/
def tenTwelve : Dm Sequential := run sequential new [.configSet "my_ip" "10.0.0.12"]

/-- 10.0.0.1 and the empty address are refused on the listen port. -/
theorem self_check_refuses_prefix :
    addPeer sequential tenTwelve "" 0 "10.0.0.1" 8 6881 none = (tenTwelve, none) ∧
      addPeer sequential tenTwelve "" 0 "" 0 6881 none = (tenTwelve, none) := by
  have hport : tenTwelve.cfg.getInt "pwp_listen_port" = 6881 := by decide
  rw [← hport]
  exact ⟨ addPeer_refuses_prefix sequential tenTwelve "" 0 "10.0.0.1" 8 none (by decide) (by decide)
    (by decide), addPeer_refuses_prefix sequential tenTwelve "" 0 "" 0 none (by decide) (by decide) (by decide)⟩

/-- Remembering a peer leaves the leeching choker alone. -/
@[simp] theorem remember_lchoke (s : Dm σ) (q : Peer) : (remember S s q).lchoke = s.lchoke := by
  simp [remember_eq]

/-- **What a refused `bt_dm_add_peer` leaves.** A call that returns NULL has changed nothing, or
has remembered the new peer with the peer manager and an installed selector; the leeching
choker is as it was. -/
theorem addPeer_refused (s : Dm σ) (peerId : String) (peerIdLen : Nat) (ip : String)
    (ipLen : Nat) (port : Int) (nh : Option Nat)
    (h : (addPeer S s peerId peerIdLen ip ipLen port nh).2 = none) :
    ((addPeer S s peerId peerIdLen ip ipLen port nh).1 = s ∨
      ∃ q : Peer, q.ptr = s.nextPeer ∧
        (addPeer S s peerId peerIdLen ip ipLen port nh).1 = remember S s q) ∧
      (addPeer S s peerId peerIdLen ip ipLen port nh).1.lchoke = s.lchoke := by
  rcases addPeer_cases S s peerId peerIdLen ip ipLen port nh with
    he | ⟨q, hp, -, -, he | he | ⟨_, he⟩⟩ <;> rw [he] at h ⊢
  · exact ⟨.inl rfl, rfl⟩
  · exact ⟨.inr ⟨q, hp, rfl⟩, remember_lchoke S s q⟩
  all_goals simp [Dm.accept] at h

/-- A selector installed, and no `peer_connect` callback. -/
def withoutConnect : Dm Sequential := run sequential new [.setPieceSelector none]

/-- A selector installed, and a host whose outbound connections fail. -/
def connectFails : Dm Sequential :=
  run sequential new [.setPieceSelector none, .setCbs ⟨some (fun _ _ => none), none, true, false⟩]

/-- `bt_dm_add_peer` returns NULL with the peer held by the peer manager and the selector, with
no `peer_connect` callback and with one that fails; `bt_dm_peer_connect` returns 0 with the
peer added. -/
theorem refused_peer_kept :
    (addPeer sequential withoutConnect "" 0 "10.0.0.2" 8 6881 none).2 = none ∧
      (addPeer sequential withoutConnect "" 0 "10.0.0.2" 8 6881 none).1.peers.map (·.ptr) = [0] ∧
      (addPeer sequential withoutConnect "" 0 "10.0.0.2" 8 6881 none).1.pselector.map (·.peers) =
        some [(0, [])] ∧
      (addPeer sequential connectFails "" 0 "10.0.0.2" 8 6881 none).2 = none ∧
      (addPeer sequential connectFails "" 0 "10.0.0.2" 8 6881 none).1.peers.map (·.ptr) = [0] ∧
      (peerConnect sequential withoutConnect 7 "10.0.0.2" 6881).2 = false ∧
      (peerConnect sequential withoutConnect 7 "10.0.0.2" 6881).1.peers.map (·.ptr) = [0] := by
  decide

/-- The refused call on `withoutConnect` remembered the peer, and the choker is as it was. -/
theorem addPeer_refused_withoutConnect :
    (∃ q : Peer, q.ptr = withoutConnect.nextPeer ∧
      (addPeer sequential withoutConnect "" 0 "10.0.0.2" 8 6881 none).1 = remember sequential withoutConnect q) ∧
    (addPeer sequential withoutConnect "" 0 "10.0.0.2" 8 6881 none).1.lchoke = withoutConnect.lchoke :=
  have h := addPeer_refused sequential withoutConnect "" 0 "10.0.0.2" 8 6881 none (by decide)
  ⟨h.1.resolve_left fun he => absurd (congrArg (fun s => s.peers.length) he) (by decide), h.2⟩

end Dm

end Yabtorrent
