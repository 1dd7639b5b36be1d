import Yabtorrent.Manager.Entry

/-! The stats array across ticks.

`bt_dm_stats_t` belongs to the caller of `bt_dm_periodic`, which hands the same record to every
tick. At the end of a tick, on the normal path and on the shutdown exit alike, the array is grown
to the peer manager's count `c` when it is shorter, `npeers` is reset, and
`__FUNC_peer_stats_visitor` fills the next entry for each peer. On a record whose array holds
`npeers_size` entries, as the first record (no array, size 0) does, this fills the array in
place: the tick leaves the manager as a tick without stats would, and the record with
`npeers = c`, the size grown to `c` if smaller, entries `0 .. c-1` written and the rest as they
were (`periodic_stats`). The array then again holds `npeers_size` entries, so for a host that
keeps one record, whatever peers come and go between ticks, every tick writes within the array
(`stats_in_bounds`). -/
namespace Yabtorrent

namespace Dm
variable {σ : Type} (S : PieceSelector σ)

/-- The entry `__FUNC_peer_stats_visitor` writes for a peer. -/
def peerStats (q : Peer) : PeerStats :=
  ⟨q.pc.peerChoking, q.pc.imChoking, q.pc.handshakeReceived, q.pc.failedConnection⟩

/-- `bt_peermanager_forall` with the stats visitor, from entry `pre.length` of an array with room
for every peer: each peer's entry is written in turn, in place, and the manager is untouched. -/
theorem foldl_statsVisit (t : Dm σ) (size : Nat) : ∀ (qs : List Peer) (pre rest : List PeerStats),
    qs.length ≤ rest.length →
    qs.foldl statsVisit (t, ⟨pre.length, size, pre ++ rest⟩) =
      (t, ⟨pre.length + qs.length, size, pre ++ qs.map peerStats ++ rest.drop qs.length⟩)
  | [], pre, rest, _ => by simp
  | _ :: _, _, [], hlen => absurd hlen (by simp)
  | q :: qs, pre, r :: rest, hlen => by
    have hv : statsVisit (t, ⟨pre.length, size, pre ++ r :: rest⟩) q =
        (t, ⟨(pre ++ [peerStats q]).length, size, (pre ++ [peerStats q]) ++ rest⟩) := by
      simp [statsVisit, List.set_append_right, peerStats]
    rw [List.foldl_cons, hv, foldl_statsVisit t size qs _ rest (by simpa using hlen)]
    simp [Nat.add_assoc, Nat.add_comm 1]

/-- The stats part of `bt_dm_periodic`, on a record whose array holds `npeers_size` entries:
the manager is untouched, and the record ends with `npeers` the peer count, the size grown to
it if smaller, an entry per peer, and the entries past the count as they were. -/
theorem collectStats_spec (s : Dm σ) (st : Stats) (h : st.peers.length = st.npeersSize) :
    collectStats s st = (s, ⟨s.peers.length, max st.npeersSize s.peers.length,
      s.peers.map peerStats ++ st.peers.drop s.peers.length⟩) := by
  unfold collectStats
  dsimp only
  split
  · rename_i hlt
    have hv := foldl_statsVisit s s.peers.length s.peers []
      (st.peers.take s.peers.length ++ List.replicate (s.peers.length - st.peers.length) default)
      (by simp; omega)
    simp only [List.length_nil, List.nil_append, Nat.zero_add] at hv
    rw [hv, List.drop_eq_nil_of_le (by simp; omega), List.drop_eq_nil_of_le (by omega),
      Nat.max_eq_right hlt.le]
  · rename_i hge
    have hv := foldl_statsVisit s st.npeersSize s.peers [] st.peers (by omega)
    simp only [List.length_nil, List.nil_append, Nat.zero_add] at hv
    rw [hv, Nat.max_eq_left (by omega)]

/-- **A tick fills the stats in place.** On a record whose array holds `npeers_size` entries,
`bt_dm_periodic` leaves the manager as the same tick without stats does, so nothing is written
past the array. The record ends with `npeers` the count `c` of peers when the stats are taken,
the size grown to `c` if smaller, entries `0 .. c-1` one per peer, and the rest as they were. -/
theorem periodic_stats (s : Dm σ) (st : Stats) (h : st.peers.length = st.npeersSize) :
    periodic S s (some st) = ((periodic S s none).1,
      some ⟨(periodic S s none).1.peers.length, max st.npeersSize (periodic S s none).1.peers.length,
        (periodic S s none).1.peers.map peerStats ++ st.peers.drop (periodic S s none).1.peers.length⟩) := by
  simp only [periodic]
  rw [collectStats_spec _ _ h]
  rfl

/-- The ticks of a host that keeps one stats record: before each tick it makes the calls of a
round, then hands the record to `bt_dm_periodic`, which fills it in place. Each entry is the
manager a tick is made on and the record it is handed. -/
def statsCalls (s : Dm σ) (st : Stats) : List (List (Op σ)) → List (Dm σ × Stats)
  | [] => []
  | ops :: rounds =>
    let t := run S s ops
    (t, st) :: statsCalls (periodic S t (some st)).1 ((periodic S t (some st)).2.getD st) rounds

/-- Every tick of the host is handed a record whose array holds `npeers_size` entries. -/
theorem statsCalls_allocated : ∀ (rounds : List (List (Op σ))) (s : Dm σ) (st : Stats),
    st.peers.length = st.npeersSize → ∀ t ∈ statsCalls S s st rounds, t.2.peers.length = t.2.npeersSize
  | [], _, _, _ => by simp [statsCalls]
  | ops :: rounds, s, st, h => by
    simp only [statsCalls, List.mem_cons, forall_eq_or_imp]
    refine ⟨h, statsCalls_allocated rounds _ _ ?_⟩
    rw [periodic_stats S _ st h]
    simp only [Option.getD_some, List.length_append, List.length_map, List.length_drop]
    omega

/-- **The stats array stays in bounds across ticks.** A host keeps one stats record, with no
array and `npeers_size` 0 at first, and makes any calls between ticks. Each tick is handed the
record the last one left, and is taken with `c` peers at its end, on the normal path or the
shutdown exit (`u` is the manager the tick without stats leaves). Then the tick writes nothing
past the array, since it leaves the manager as `u`. It ends the record with `npeers = c ≤
npeers_size`, `npeers_size` no smaller than before, an array of `npeers_size` entries, and only
entries `0 .. c-1` written. -/
theorem stats_in_bounds (s : Dm σ) (n : Nat) (rounds : List (List (Op σ))) :
    ∀ t ∈ statsCalls S s ⟨n, 0, []⟩ rounds, ∃ u st,
      periodic S t.1 none = (u, none) ∧ periodic S t.1 (some t.2) = (u, some st) ∧
        st.npeers = u.peers.length ∧ u.peers.length ≤ st.npeersSize ∧
        t.2.npeersSize ≤ st.npeersSize ∧ st.peers.length = st.npeersSize ∧
        st.peers = u.peers.map peerStats ++ t.2.peers.drop u.peers.length := by
  intro t ht
  have h := statsCalls_allocated S rounds s _ rfl t ht
  refine ⟨_, _, by simp [periodic], periodic_stats S t.1 t.2 h, rfl, le_max_right _ _,
    le_max_left _ _, ?_, rfl⟩
  simp only [List.length_append, List.length_map, List.length_drop]
  omega

/-- The first tick after a peer is added to a new manager, handed the first record. -/
theorem stats_in_bounds_one_peer :
    ∃ u st, periodic sequential (run sequential new [.addPeer "" 0 "10.0.0.2" 8 6881 (some 7)]) none =
        (u, none) ∧
      periodic sequential (run sequential new [.addPeer "" 0 "10.0.0.2" 8 6881 (some 7)])
        (some ⟨0, 0, []⟩) = (u, some st) ∧
      st.npeers = u.peers.length ∧ u.peers.length ≤ st.npeersSize ∧ 0 ≤ st.npeersSize ∧
      st.peers.length = st.npeersSize ∧
      st.peers = u.peers.map peerStats ++ ([] : List PeerStats).drop u.peers.length :=
  stats_in_bounds sequential new 0 [[.addPeer "" 0 "10.0.0.2" 8 6881 (some 7)]]
    (run sequential new [.addPeer "" 0 "10.0.0.2" 8 6881 (some 7)], ⟨0, 0, []⟩) (List.mem_cons_self _ _)

end Dm

end Yabtorrent
