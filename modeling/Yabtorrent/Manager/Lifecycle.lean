import Yabtorrent.Manager.Completion

/-! Peers from their addition to their removal.

`Wf` is what every reachable state keeps (`reachable_wf`): identities are distinct and below
`nextPeer`, the leeching choker holds only identities handed out, and every record the choker
has is formed. `Follows` is what any call does: `Grows`, except that `bt_dm_add_peer` may add
one record with the next identity, registered with an installed selector (`step_follows`).

* `peers_registered`: a peer the choker has is formed, and once a selector is installed every
  peer added after is registered with it. A peer added before never is, because only
  `bt_dm_add_peer` registers a peer and only the one it adds (`Follows.registers`), and
  `bt_dm_remove_peer` leaves the choker alone: the choker can hold a peer the selector does not
  know, or one the peer manager has let go (`choker_and_selector_disagree`).
* `ban_kept_held_refused`: no call lifts a ban, and while the peer manager holds a peer its
  (ip, port) is refused. Nothing consults the blacklist, so a banned peer once removed is
  admitted again (`banned_peer_readmitted`).
* `failed_connection_persists`: FAILED_CONNECTION stays on a peer's records for the rest of the
  run, and no tick steps the peer or removes it (`failed_peer_stays`).
* `dispatchJob_polls`: a PollBlock job asks the selector for its peer whether or not the peer
  manager still holds it (`removed_peer_polled`). -/
namespace Yabtorrent

namespace Dm
variable {σ : Type} (S : PieceSelector σ)

/-! ### Adding a peer -/

theorem remember_eq (s : Dm σ) (q : Peer) : remember S s q =
    { s with peers := s.peers ++ [q], nextPeer := s.nextPeer + 1,
             pselector := s.pselector.map (S.addPeer · q.ptr),
             trace := s.trace ++ if s.pselector.isSome then [.selected (.addPeer q.ptr)] else [] } := by
  unfold remember
  split <;> simp_all [select]

theorem mem_setPeer {s : Dm σ} {q r : Peer} (h : r ∈ (s.setPeer q).peers) : r = q ∨ r ∈ s.peers := by
  obtain ⟨r₀, hr₀, rfl⟩ := List.mem_map.mp h
  by_cases he : r₀.ptr = q.ptr <;> simp [he, hr₀]

/-- The exits of `bt_dm_add_peer`: NULL with nothing done; or a new record with the next
identity, remembered, and then NULL, or given a handshaker and the choker, with the net-handle
an outbound connection set up. -/
theorem addPeer_cases (s : Dm σ) (peerId : String) (peerIdLen : Nat) (ip : String) (ipLen : Nat)
    (port : Int) (nh : Option Nat) :
    addPeer S s peerId peerIdLen ip ipLen port nh = (s, none) ∨
    ∃ q : Peer, q.ptr = s.nextPeer ∧ q.mh = none ∧ q.pc.handshakeReceived = false ∧
      (addPeer S s peerId peerIdLen ip ipLen port nh = (remember S s q, none) ∨
        addPeer S s peerId peerIdLen ip ipLen port nh = (remember S s q).accept q ∨
        ∃ h, addPeer S s peerId peerIdLen ip ipLen port nh =
          ((remember S s q).setPeer { q with nethandle := some h }).accept
            { q with nethandle := some h }) := by
  unfold addPeer
  split
  · exact .inl rfl
  · dsimp only
    split
    · exact .inl rfl
    · right
      split
      · exact ⟨⟨s.nextPeer, _, _, port, _, Conn.new _ _, none⟩, rfl, rfl, rfl, .inl rfl⟩
      · exact ⟨⟨s.nextPeer, _, _, port, _, Conn.new _ _, none⟩, rfl, rfl, rfl, .inr (.inl rfl)⟩
      · split
        · exact ⟨⟨s.nextPeer, _, _, port, _, Conn.new _ _, none⟩, rfl, rfl, rfl, .inr (.inr ⟨_, rfl⟩)⟩
        · exact ⟨⟨s.nextPeer, _, _, port, _, Conn.new _ _, none⟩, rfl, rfl, rfl, .inl rfl⟩

/-- What any call does: the records kept as `Grows` allows, or one new record with the next
identity, registered with a selector installed before; and no other peer registered. -/
structure Follows (s s' : Dm σ) : Prop where
  peers : ∀ q' ∈ s'.peers, (∃ q ∈ s.peers, q.Keeps q') ∨
    q'.ptr = s.nextPeer ∧ (s.pselector.isSome → .selected (.addPeer q'.ptr) ∈ s'.trace)
  nextPeer : s.nextPeer ≤ s'.nextPeer
  banned : s.blacklist.banned <+: s'.blacklist.banned
  installed : s.pselector.isSome → s'.pselector.isSome
  trace : s.trace <+: s'.trace
  /-- Only the next identity is newly registered with the selector, and only with one
  installed. -/
  registers : ∀ x, .selected (.addPeer x) ∈ s'.trace →
    .selected (.addPeer x) ∈ s.trace ∨ x = s.nextPeer ∧ s.pselector.isSome = true

theorem Grows.follows {s s' : Dm σ} (g : Grows s s') : Follows s s' := by
  obtain ⟨new, ht, -, hr⟩ := g.trace
  refine ⟨fun q h => .inl (g.peers q h), g.nextPeer.ge, g.banned, g.installed,
    ht ▸ List.prefix_append _ _, fun x h => ?_⟩
  rw [ht] at h
  exact .inl ((List.mem_append.mp h).resolve_right (hr x))

theorem Follows.grows {s s' s'' : Dm σ} (f : Follows s s') (g : Grows s' s'') : Follows s s'' := by
  obtain ⟨new, ht, -, hr⟩ := g.trace
  refine ⟨fun q'' h => ?_, g.nextPeer ▸ f.nextPeer, f.banned.trans g.banned,
    g.installed ∘ f.installed, f.trace.trans (ht ▸ List.prefix_append _ _), fun x h => ?_⟩
  swap
  · rw [ht] at h
    exact f.registers x ((List.mem_append.mp h).resolve_right (hr x))
  obtain ⟨q', hq', k⟩ := g.peers q'' h
  rcases f.peers q' hq' with ⟨q, hq, k'⟩ | ⟨hn, he⟩
  · exact .inl ⟨q, hq, k'.trans k⟩
  · exact .inr ⟨k.ptr.trans hn, fun hi => k.ptr ▸ g.mem_trace (he hi)⟩

/-- A record of the new peer replaced, once the selector has been told of it. -/
theorem Follows.setPeer {s s' : Dm σ} (f : Follows s s')
    (hev : s.pselector.isSome → .selected (.addPeer s.nextPeer) ∈ s'.trace) (q : Peer)
    (hq : q.ptr = s.nextPeer) : Follows s (s'.setPeer q) :=
  ⟨fun r h => (mem_setPeer h).elim (fun e => .inr ⟨e ▸ hq, fun hi => by subst e; rw [hq]; exact hev hi⟩)
    (f.peers r), f.nextPeer, f.banned, f.installed, f.trace, f.registers⟩

theorem Follows.accept {s s' : Dm σ} (f : Follows s s')
    (hev : s.pselector.isSome → .selected (.addPeer s.nextPeer) ∈ s'.trace) {q : Peer}
    (hq : q.ptr = s.nextPeer) : Follows s (s'.accept q).1 := by
  unfold Dm.accept
  dsimp only
  exact ⟨(f.setPeer hev { q with mh := some (.handshaker (Handshaker.new
    (Wire.bytesOf ((s'.cfg.get "infohash").getD "")) (Wire.bytesOf ((s'.cfg.get "my_peerid").getD ""))))
    } hq).peers, f.nextPeer, f.banned, f.installed, f.trace, f.registers⟩

theorem follows_addPeer (s : Dm σ) (peerId : String) (peerIdLen : Nat) (ip : String) (ipLen : Nat)
    (port : Int) (nh : Option Nat) : Follows s (addPeer S s peerId peerIdLen ip ipLen port nh).1 := by
  rcases addPeer_cases S s peerId peerIdLen ip ipLen port nh with he | ⟨q, hp, -, -, he⟩
  · rw [he]
    exact (Grows.refl s).follows
  · have hr : Follows s (remember S s q) := by
      rw [remember_eq]
      refine ⟨fun q' h => ?_, by simp, List.prefix_refl _, by simp, by simp, fun x h => ?_⟩
      · rcases List.mem_append.mp h with h | h
        · exact .inl ⟨q', h, .refl q'⟩
        · obtain rfl := List.mem_singleton.mp h
          exact .inr ⟨hp, fun hi => by simp [hi]⟩
      · rcases List.mem_append.mp h with h | h
        · exact .inl h
        · split at h <;> simp_all
    have hev : s.pselector.isSome → .selected (.addPeer s.nextPeer) ∈ (remember S s q).trace := by
      intro hi
      simp [remember_eq, hi, hp]
    rcases he with he | he | ⟨h, he⟩ <;> rw [he]
    · exact hr
    · exact hr.accept hev hp
    · exact (hr.setPeer hev { q with nethandle := some h } hp).accept hev hp

theorem step_follows (s : Dm σ) (op : Op σ) : Follows s (step S s op) := by
  cases op
  case addPeer peerId peerIdLen ip ipLen port nh => exact follows_addPeer S s peerId peerIdLen ip ipLen port nh
  case peerConnect nh ip port =>
    show Follows s (peerConnect S s nh ip port).1
    unfold peerConnect
    split
    · exact (grows_sendToPeer _ _ _).follows
    · have f := follows_addPeer S s "" 0 ip ip.length port (some nh)
      split <;> rename_i he <;> rw [he] at f
      · exact f.grows (grows_sendToPeer _ _ _)
      · exact f
  all_goals exact (step_grows S s _ (by rfl)).follows

/-! ### What every reachable state keeps -/

/-- What every reachable state keeps. -/
structure Wf (s : Dm σ) : Prop where
  nodup : (s.peers.map (·.ptr)).Nodup
  fresh : ∀ q ∈ s.peers, q.ptr < s.nextPeer
  choked : ∀ x ∈ s.lchoke, x < s.nextPeer
  formed : ∀ q ∈ s.peers, q.ptr ∈ s.lchoke → q.formed = true

theorem wf_new : Wf (new : Dm σ) := ⟨List.nodup_nil, by simp [new], by simp [new], by simp [new]⟩

theorem Grows.wf {s s' : Dm σ} (g : Grows s s') (h : Wf s) : Wf s' := by
  refine ⟨h.nodup.sublist g.ptrs, fun q hq => ?_, fun x hx => g.nextPeer ▸ h.choked x (g.lchoke ▸ hx),
    fun q hq hc => ?_⟩ <;> obtain ⟨r, hr, k⟩ := g.peers q hq
  · exact k.ptr ▸ g.nextPeer ▸ h.fresh r hr
  · exact k.formed (h.formed r hr (k.ptr ▸ g.lchoke ▸ hc))

theorem Wf.remember {s : Dm σ} (h : Wf s) {q : Peer} (hq : q.ptr = s.nextPeer) :
    Wf (remember S s q) := by
  rw [remember_eq]
  refine ⟨?_, fun r hr => ?_, fun x hx => Nat.lt_succ_of_lt (h.choked x hx), fun r hr hc => ?_⟩
  · simp only [List.map_append, List.map_cons, List.map_nil]
    refine List.pairwise_append.mpr ⟨h.nodup, List.pairwise_singleton _ _, fun a ha b hb => ?_⟩
    obtain ⟨r, hr, rfl⟩ := List.mem_map.mp ha
    rw [List.mem_singleton.mp hb, hq]
    exact Nat.ne_of_lt (h.fresh r hr)
  · rcases List.mem_append.mp hr with hr | hr
    · exact Nat.lt_succ_of_lt (h.fresh r hr)
    · simp_all
  · rcases List.mem_append.mp hr with hr | hr
    · exact h.formed r hr hc
    · obtain rfl := List.mem_singleton.mp hr
      exact absurd (h.choked _ hc) (by omega)

theorem Wf.setPeer {s : Dm σ} (h : Wf s) (q : Peer) (hq : q.ptr ∈ s.lchoke → q.formed = true) :
    Wf (s.setPeer q) := by
  refine ⟨(setPeer_ptrs s q).symm ▸ h.nodup, fun r hr => ?_, h.choked, fun r hr hc => ?_⟩ <;>
    obtain ⟨r₀, hr₀, rfl⟩ := List.mem_map.mp hr
  · rw [ptr_replace]
    exact h.fresh r₀ hr₀
  · by_cases he : r₀.ptr = q.ptr <;> simp only [he, if_true, if_false] at hc ⊢
    · exact hq hc
    · exact h.formed r₀ hr₀ hc

theorem Wf.accept {s : Dm σ} (h : Wf s) {q : Peer} (hlt : q.ptr < s.nextPeer)
    (hr : q.pc.handshakeReceived = false) : Wf (s.accept q).1 := by
  unfold Dm.accept
  dsimp only
  generalize Handshaker.new _ _ = hs
  have hf : ({ q with mh := some (.handshaker hs) } : Peer).formed = true := by simp [Peer.formed, hr]
  have hw := h.setPeer { q with mh := some (.handshaker hs) } fun _ => hf
  refine ⟨hw.nodup, hw.fresh, fun x hx => ?_, fun r hr' hc => ?_⟩
  · rcases List.mem_append.mp hx with hx | hx
    · exact h.choked x hx
    · simpa [List.mem_singleton.mp hx] using hlt
  · obtain ⟨r₀, hr₀, rfl⟩ := List.mem_map.mp hr'
    by_cases he : r₀.ptr = q.ptr <;> simp only [he, if_true, if_false] at hc ⊢
    · exact hf
    · exact h.formed r₀ hr₀ (by simpa [he] using hc)

theorem Wf.addPeer {s : Dm σ} (h : Wf s) (peerId : String) (peerIdLen : Nat) (ip : String)
    (ipLen : Nat) (port : Int) (nh : Option Nat) : Wf (addPeer S s peerId peerIdLen ip ipLen port nh).1 := by
  rcases addPeer_cases S s peerId peerIdLen ip ipLen port nh with he | ⟨q, hp, -, hr, he | he | ⟨nh', he⟩⟩ <;>
    rw [he]
  · exact h
  · exact h.remember S hp
  · exact (h.remember S hp).accept (by simp [remember_eq, hp]) hr
  · exact ((h.remember S hp).setPeer _ fun hc =>
      absurd (h.choked _ (by simpa [remember_eq] using hc)) (by simp [hp])).accept
      (by simp [remember_eq, hp]) hr

theorem Wf.step {s : Dm σ} (h : Wf s) (op : Op σ) : Wf (step S s op) := by
  cases op
  case addPeer peerId peerIdLen ip ipLen port nh => exact h.addPeer S peerId peerIdLen ip ipLen port nh
  case peerConnect nh ip port =>
    show Wf (peerConnect S s nh ip port).1
    unfold peerConnect
    split
    · exact (grows_sendToPeer _ _ _).wf h
    · have w := h.addPeer S "" 0 ip ip.length port (some nh)
      split <;> rename_i he <;> rw [he] at w
      · exact (grows_sendToPeer _ _ _).wf w
      · exact w
  all_goals exact (step_grows S s _ (by rfl)).wf h

theorem reachable_wf {s : Dm σ} (h : Reachable S s) : Wf s := by
  induction h with
  | new => exact wf_new
  | step op _ ih => exact ih.step S op

theorem wf_run (ops : List (Op σ)) : Wf (run S new ops) :=
  reachable_wf S (Reachable.run S .new ops)

/-! ### Registration -/

theorem Follows.registered {s s' : Dm σ} (f : Follows s s') (hi : s.pselector.isSome) {n : Nat}
    (h : ∀ q ∈ s.peers, n ≤ q.ptr → .selected (.addPeer q.ptr) ∈ s.trace) :
    ∀ q' ∈ s'.peers, n ≤ q'.ptr → .selected (.addPeer q'.ptr) ∈ s'.trace := by
  intro q' hq' hn
  rcases f.peers q' hq' with ⟨q, hq, k⟩ | ⟨-, he⟩
  · exact k.ptr ▸ f.trace.subset (h q hq (k.ptr ▸ hn))
  · exact he hi

theorem run_registered (n : Nat) : ∀ (ops : List (Op σ)) (s : Dm σ), s.pselector.isSome →
    (∀ q ∈ s.peers, n ≤ q.ptr → .selected (.addPeer q.ptr) ∈ s.trace) →
    ∀ q ∈ (run S s ops).peers, n ≤ q.ptr → .selected (.addPeer q.ptr) ∈ (run S s ops).trace
  | [], _, _, h => h
  | op :: ops, s, hi, h =>
    run_registered n ops _ ((step_follows S s op).installed hi) ((step_follows S s op).registered hi h)

/-- A selector once installed stays. -/
theorem run_installed : ∀ (ops : List (Op σ)) {s : Dm σ}, s.pselector.isSome →
    (run S s ops).pselector.isSome
  | [], _, h => h
  | op :: ops, s, h => run_installed ops ((step_follows S s op).installed h)

/-- A run that ends with no selector installed registers no peer. -/
theorem run_registers_none : ∀ (ops : List (Op σ)) (s : Dm σ), (run S s ops).pselector = none →
    ∀ x, .selected (.addPeer x) ∈ (run S s ops).trace → .selected (.addPeer x) ∈ s.trace
  | [], _, _, _, h => h
  | op :: ops, s, hn, x, h => by
    have hn' : (run S (step S s op) ops).pselector = none := hn
    refine ((step_follows S s op).registers x (run_registers_none ops _ hn' x h)).resolve_right ?_
    rintro ⟨-, hi⟩
    simpa [hn'] using run_installed S ops ((step_follows S s op).installed hi)

/-- Once the identities below `n` are handed out, no run registers one of them anew. -/
theorem run_unregistered {n : Nat} : ∀ (ops : List (Op σ)) (s : Dm σ), n ≤ s.nextPeer →
    ∀ x < n, .selected (.addPeer x) ∈ (run S s ops).trace → .selected (.addPeer x) ∈ s.trace
  | [], _, _, _, _, h => h
  | op :: ops, s, hn, x, hx, h =>
    ((step_follows S s op).registers x
      (run_unregistered ops _ (hn.trans (step_follows S s op).nextPeer) x hx h)).resolve_right
      fun ⟨he, _⟩ => by omega

/-- **Peers as the choker and the selector have them.** In every reachable state a peer the
leeching choker has is formed: a handshaker until HANDSHAKE_RECEIVED, a message handler after.
Once a selector is installed, every peer added from then on has been registered with it; a
peer added while none was installed is never registered, whatever the host calls after. And
`bt_dm_remove_peer` leaves the leeching choker as it is. -/
theorem peers_registered (ops₁ ops₂ : List (Op σ)) :
    (∀ q ∈ (run S new (ops₁ ++ ops₂)).peers,
      q.ptr ∈ (run S new (ops₁ ++ ops₂)).lchoke → q.formed = true) ∧
    ((run S new ops₁).pselector.isSome → ∀ q ∈ (run S new (ops₁ ++ ops₂)).peers,
      (run S new ops₁).nextPeer ≤ q.ptr →
        .selected (.addPeer q.ptr) ∈ (run S new (ops₁ ++ ops₂)).trace) ∧
    ((run S new ops₁).pselector = none → ∀ x < (run S new ops₁).nextPeer,
      .selected (.addPeer x) ∉ (run S new (ops₁ ++ ops₂)).trace) ∧
    ∀ ptr, (step S (run S new (ops₁ ++ ops₂)) (.removePeer ptr)).lchoke =
      (run S new (ops₁ ++ ops₂)).lchoke := by
  refine ⟨(wf_run S _).formed, fun hi => ?_, fun hn x hx h => ?_,
    fun ptr => (grows_removePeer S _ ptr).lchoke⟩ <;> rw [run_append] at *
  · exact run_registered S _ ops₂ _ hi fun q hq hn => absurd ((wf_run S ops₁).fresh q hq) (by omega)
  · simpa [new] using run_registers_none S ops₁ new hn x (run_unregistered S ops₂ _ le_rfl x hx h)

/-- The peer at 10.0.0.2 is added before the selector is installed. -/
def addedEarly : List (Op Sequential) :=
  [.setPieceDb onePiece, .configSet "npieces" "1", .configSet "piece_length" "2", .setCbs host,
    .addPeer "" 0 "10.0.0.2" 8 6881 none, .setPieceSelector none]

/-- The choker has the peer and the installed selector does not; once removed, the peer is
still with the choker. -/
theorem choker_and_selector_disagree :
    (run sequential new addedEarly).peers.map (·.ptr) = [0] ∧
      (run sequential new addedEarly).lchoke = [0] ∧
      (run sequential new addedEarly).pselector.map (·.peers) = some [] ∧
      (run sequential new (addedEarly ++ [.removePeer 0])).peers = [] ∧
      (run sequential new (addedEarly ++ [.removePeer 0])).lchoke = [0] := by
  decide

/-! ### Bans -/

/-- `bt_dm_add_peer` given a string's own length keeps the whole string. -/
theorem mk_take_length (s : String) : String.mk (s.toList.take s.length) = s := by
  cases s
  simp only [String.toList, String.length, List.take_length]

/-- **A ban is never lifted, and a held peer's address is refused.** No call takes a peer off
the blacklist's banned list. While the peer manager holds a peer, `bt_dm_add_peer` with its
(ip, port) returns NULL and changes nothing, and so does `bt_dm_peer_connect` from an unknown
net-handle, whether the peer is banned or not. -/
theorem ban_kept_held_refused (s : Dm σ) (op : Op σ) :
    s.blacklist.banned <+: (step S s op).blacklist.banned ∧
    ∀ q ∈ s.peers, (∀ peerId peerIdLen nh,
        addPeer S s peerId peerIdLen q.ip q.ip.length q.port nh = (s, none)) ∧
      ∀ h, s.byNethandle h = none → peerConnect S s h q.ip q.port = (s, false) := by
  refine ⟨(step_follows S s op).banned, fun q hq => ?_⟩
  have ha : ∀ peerId peerIdLen nh,
      addPeer S s peerId peerIdLen q.ip q.ip.length q.port nh = (s, none) := by
    intro peerId peerIdLen nh
    unfold addPeer
    split
    · rfl
    · have : s.peers.any (fun r => r.ip == String.mk (q.ip.toList.take q.ip.length) &&
          r.port == q.port) = true := List.any_eq_true.mpr ⟨q, hq, by rw [mk_take_length]; simp⟩
      dsimp only
      rw [if_pos this]
  exact ⟨ha, fun h hn => by simp [peerConnect, hn, ha]⟩

/-- The peer at 10.0.0.2 sends a corrupt block, is banned as the piece's only contributor,
is removed, and is added again. -/
def bannedThenReadded : Dm Sequential :=
  run sequential new (configure onePiece "2" host ++ [.addPeer "" 0 "10.0.0.2" 8 6881 none,
    .dispatchFromBuffer 7 (remoteHandshake ++ Msg.encode (.piece 0 0 [9, 9])), .removePeer 0,
    .addPeer "" 0 "10.0.0.2" 8 6881 none])

theorem banned_peer_readmitted :
    bannedThenReadded.blacklist.banned = [0] ∧
      bannedThenReadded.peers.map (fun q => (q.ptr, q.ip, q.port)) = [(1, "10.0.0.2", 6881)] := by
  decide

/-! ### Failed connections -/

theorem Follows.failed {s s' : Dm σ} (f : Follows s s') {p : Nat} (hp : p < s.nextPeer)
    (hf : ∀ q ∈ s.peers, q.ptr = p → q.pc.failedConnection = true) :
    ∀ q' ∈ s'.peers, q'.ptr = p → q'.pc.failedConnection = true := by
  intro q' hq' he
  rcases f.peers q' hq' with ⟨q, hq, k⟩ | ⟨hn, -⟩
  · exact k.failed (hf q hq (k.ptr ▸ he))
  · omega

theorem run_failed {p : Nat} : ∀ (ops : List (Op σ)) (s : Dm σ), p < s.nextPeer →
    (∀ q ∈ s.peers, q.ptr = p → q.pc.failedConnection = true) →
    ∀ q ∈ (run S s ops).peers, q.ptr = p → q.pc.failedConnection = true
  | [], _, _, hf => hf
  | op :: ops, s, hp, hf =>
    run_failed ops _ (Nat.lt_of_lt_of_le hp (step_follows S s op).nextPeer)
      ((step_follows S s op).failed hp hf)

/-- **FAILED_CONNECTION is kept, and a tick neither steps nor removes a failed peer.** Once
every record of a held peer has FAILED_CONNECTION, so does every record of it for the rest of
the run; and then every `bt_dm_periodic` keeps the peer in the peer manager and makes no
connection step for it. -/
theorem failed_connection_persists (ops : List (Op σ)) (p : Nat)
    (hp : p ∈ (run S new ops).peers.map (·.ptr))
    (hf : ∀ q ∈ (run S new ops).peers, q.ptr = p → q.pc.failedConnection = true)
    (rest : List (Op σ)) :
    (∀ q ∈ (run S new (ops ++ rest)).peers, q.ptr = p → q.pc.failedConnection = true) ∧
    ∀ stats, (p ∈ (run S new (ops ++ rest)).peers.map (·.ptr) →
        p ∈ (periodic S (run S new (ops ++ rest)) stats).1.peers.map (·.ptr)) ∧
      .stepped p ∉ (periodic S (run S new (ops ++ rest)) stats).1.trace.drop
        (run S new (ops ++ rest)).trace.length := by
  obtain ⟨q, hq, rfl⟩ := List.mem_map.mp hp
  have hkeep := run_failed S rest _ ((wf_run S ops).fresh q hq) hf
  rw [← run_append] at hkeep
  exact ⟨hkeep, fun stats =>
    ⟨fun h => (periodic_ptrs S _ stats).symm ▸ h, (grows_periodic S _ stats).not_stepped hkeep⟩⟩

/-- The outbound connection to the peer at 10.0.0.2 fails. -/
def failedPeer : List (Op Sequential) :=
  configure onePiece "2" host ++ [.addPeer "" 0 "10.0.0.2" 8 6881 none, .peerConnectFail 7]

theorem failed_connection_persists_tick :
    (∀ q ∈ (run sequential new (failedPeer ++ [.periodic none])).peers, q.ptr = 0 →
        q.pc.failedConnection = true) ∧
    ∀ stats, (0 ∈ (run sequential new (failedPeer ++ [.periodic none])).peers.map (·.ptr) →
        0 ∈ (periodic sequential (run sequential new (failedPeer ++ [.periodic none])) stats).1.peers.map
          (·.ptr)) ∧
      .stepped 0 ∉ (periodic sequential (run sequential new (failedPeer ++ [.periodic none])) stats).1.trace.drop
        (run sequential new (failedPeer ++ [.periodic none])).trace.length :=
  failed_connection_persists sequential failedPeer 0 (by decide) (by decide) [.periodic none]

/-- After the next tick the failed peer is still in the peer manager. -/
theorem failed_peer_stays :
    (run sequential new (failedPeer ++ [.periodic none])).peers.map
      (fun q => (q.ptr, q.pc.failedConnection)) = [(0, true)] := by
  decide

/-! ### Jobs for removed peers -/

/-- `__dispatch_job` asks the selector for a piece for the job's peer without asking whether
the peer manager still holds that peer. -/
theorem dispatchJob_polls (s : Dm σ) (ptr : Nat) {st : σ} (h : s.pselector = some st) :
    .selected (.pollPiece ptr) ∈ (dispatchJob S s (.pollblock ptr)).trace := by
  simp only [dispatchJob, pollLoop, h]
  have hm : .selected (.pollPiece ptr) ∈
      ({ s with pselector := some (S.pollPiece st ptr).1 }.emit (.selected (.pollPiece ptr))).trace := by
    simp
  split
  · exact hm
  · split <;> rename_i hg
    · split
      · exact ((grows_of_getPiece hg).trans ((grows_select _ _ _ (by simp)).trans (grows_pollLoop S _ _ _))).mem_trace hm
      · exact ((grows_of_getPiece hg).trans (grows_requestBlocks _ _ _ _)).mem_trace hm
    · exact ((grows_of_getPiece hg).trans (grows_emit _ (by simp))).mem_trace hm

/-- The unchoking peer is removed with its PollBlock job still queued; the next tick
dispatches the job. -/
def removedThenTick : Dm Sequential :=
  run sequential new (configure onePiece "2" host ++ unchokedBy ++ [.removePeer 0, .periodic none])

theorem removed_peer_polled :
    removedThenTick.peers = [] ∧
      .selected (.pollPiece 0) ∈ removedThenTick.trace.dropWhile (· != .removed 0) := by
  decide

/-- The job of the peer removed after it unchoked us asks the selector for it. -/
theorem dispatchJob_polls_removed :
    .selected (.pollPiece 0) ∈ (dispatchJob sequential
      (run sequential new (configure onePiece "2" host ++ unchokedBy ++ [.removePeer 0])) (.pollblock 0)).trace :=
  dispatchJob_polls sequential _ 0 rfl

end Dm

end Yabtorrent
