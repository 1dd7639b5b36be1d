import Mathlib.Data.List.Nodup
import Yabtorrent.Manager.Lifecycle

/-! One peer per address.

`bt_dm_add_peer` hands the peer manager a new peer only at an (ip, port) it holds no peer at:
`bt_peermanager_add_peer` refuses a duplicate. `bt_dm_peer_connect` adds an inbound peer through
it. Every other call keeps each record's address (`Peer.Keeps`): a record is only replaced by one
of the same peer with a new connection state, handler or net-handle, or dropped.

* `Distinct s`: two peers the peer manager holds at one address have one identity. Calls that add
  no peer keep it because they grow the manager (`Grows.distinct`); `bt_dm_add_peer` keeps it
  because what it adds is one peer at an address nobody held (`Admits.distinct`).
* `addresses_distinct`: in every run from `bt_dm_new`, whatever the host calls in whatever
  order, the addresses of the peers the peer manager holds are pairwise distinct. -/
namespace Yabtorrent

namespace Dm
variable {σ : Type} (S : PieceSelector σ)

/-- Two peers the peer manager holds at one address have one identity. -/
def Distinct (s : Dm σ) : Prop :=
  ∀ q ∈ s.peers, ∀ r ∈ s.peers, (q.ip, q.port) = (r.ip, r.port) → q.ptr = r.ptr

theorem distinct_new : Distinct (new : Dm σ) := fun _ hq => by simp [new] at hq

theorem Distinct.of_peers {s s' : Dm σ} (h : Distinct s) (hp : s'.peers = s.peers) : Distinct s' :=
  fun q hq r hr => h q (hp ▸ hq) r (hp ▸ hr)

theorem Grows.distinct {s s' : Dm σ} (g : Grows s s') (h : Distinct s) : Distinct s' := by
  intro q' hq' r' hr' he
  obtain ⟨q, hq, kq⟩ := g.peers q' hq'
  obtain ⟨r, hr, kr⟩ := g.peers r' hr'
  rw [kq.ptr, kr.ptr]
  exact h q hq r hr (kq.addr.symm.trans (he.trans kr.addr))

/-! ### Adding a peer -/

/-- Every record of `s'` is one of `s`, or has identity `x` and address `a`. -/
def Admits (s s' : Dm σ) (x : Nat) (a : String × Int) : Prop :=
  ∀ q' ∈ s'.peers, q' ∈ s.peers ∨ q'.ptr = x ∧ (q'.ip, q'.port) = a

/-- Records of one new peer at an address nobody held keep the addresses distinct. -/
theorem Admits.distinct {s s' : Dm σ} {x : Nat} {a : String × Int} (h : Distinct s)
    (ha : Admits s s' x a) (hfresh : ∀ r ∈ s.peers, (r.ip, r.port) ≠ a) : Distinct s' := by
  intro q hq r hr he
  rcases ha q hq with hq | ⟨hqx, hqa⟩ <;> rcases ha r hr with hr | ⟨hrx, hra⟩
  · exact h q hq r hr he
  · exact absurd (he.trans hra) (hfresh q hq)
  · exact absurd (he.symm.trans hqa) (hfresh r hr)
  · exact hqx.trans hrx.symm

theorem admits_remember (s : Dm σ) (q : Peer) : Admits s (remember S s q) q.ptr (q.ip, q.port) := by
  intro q' h
  rw [remember_eq] at h
  rcases List.mem_append.mp h with h | h
  · exact .inl h
  · exact .inr (List.mem_singleton.mp h ▸ ⟨rfl, rfl⟩)

theorem Admits.setPeer {s s' : Dm σ} {x : Nat} {a : String × Int} (h : Admits s s' x a) (q : Peer)
    (hq : q.ptr = x ∧ (q.ip, q.port) = a) : Admits s (s'.setPeer q) x a := fun q' h' =>
  (mem_setPeer h').elim (fun e => .inr (e ▸ hq)) (h q')

theorem Admits.accept {s s' : Dm σ} {x : Nat} {a : String × Int} (h : Admits s s' x a) {q : Peer}
    (hq : q.ptr = x ∧ (q.ip, q.port) = a) : Admits s (s'.accept q).1 x a := by
  unfold Dm.accept
  exact h.setPeer _ hq

/-- `bt_dm_add_peer` adds at most one peer, at an address the peer manager held no peer at. -/
theorem Distinct.addPeer {s : Dm σ} (h : Distinct s) (peerId : String) (peerIdLen : Nat) (ip : String)
    (ipLen : Nat) (port : Int) (nh : Option Nat) :
    Distinct (addPeer S s peerId peerIdLen ip ipLen port nh).1 := by
  unfold Dm.addPeer
  split
  · exact h
  · dsimp only
    split
    · exact h
    · rename_i hdup
      have hfresh : ∀ r ∈ s.peers, (r.ip, r.port) ≠ (String.mk (ip.toList.take ipLen), port) := by
        intro r hr he
        simp only [Prod.mk.injEq] at he
        exact hdup (List.any_eq_true.mpr ⟨r, hr, by simp [he]⟩)
      refine Admits.distinct (x := s.nextPeer) h ?_ hfresh
      split
      · exact admits_remember S s _
      · exact (admits_remember S s _).accept ⟨rfl, rfl⟩
      · split
        · exact ((admits_remember S s _).setPeer _ ⟨by rfl, by rfl⟩).accept ⟨by rfl, by rfl⟩
        · exact admits_remember S s _

theorem Distinct.peerConnect {s : Dm σ} (h : Distinct s) (nh : Nat) (ip : String) (port : Int) :
    Distinct (peerConnect S s nh ip port).1 := by
  have ha := h.addPeer S "" 0 ip ip.length port (some nh)
  unfold Dm.peerConnect
  split
  · exact h.of_peers (sendToPeer_peers _ _ _)
  · split <;> rename_i he <;> rw [he] at ha
    · exact ha.of_peers (sendToPeer_peers _ _ _)
    · exact ha

/-! ### Runs -/

theorem Distinct.step {s : Dm σ} (h : Distinct s) (op : Op σ) : Distinct (step S s op) := by
  cases op
  case addPeer peerId peerIdLen ip ipLen port nh => exact h.addPeer S peerId peerIdLen ip ipLen port nh
  case peerConnect nh ip port => exact h.peerConnect S nh ip port
  all_goals exact (step_grows S s _ (by rfl)).distinct h

theorem distinct_run : ∀ (ops : List (Op σ)) {s : Dm σ}, Distinct s → Distinct (run S s ops)
  | [], _, h => h
  | op :: ops, _, h => distinct_run ops (h.step S op)

/-- **One peer per address.** In every run from `bt_dm_new`, whatever the host calls in whatever
order, the peers the peer manager holds are at pairwise distinct (ip, port) addresses. -/
theorem addresses_distinct (ops : List (Op σ)) :
    ((run S new ops).peers.map fun q => (q.ip, q.port)).Nodup := by
  have hw := wf_run S ops
  have hd := distinct_run S ops distinct_new
  refine (List.Nodup.of_map (·.ptr) hw.nodup).map_on fun q hq r hr he => ?_
  exact List.inj_on_of_nodup_map hw.nodup hq hr (hd q hq r hr he)

end Dm

end Yabtorrent
