import Yabtorrent.Manager.Requests
import Mathlib.Data.Set.Card

/-! How long a PollBlock dispatch runs.

`__dispatch_job` polls the selector in a `while (1)` loop. A piece already complete is told to
the selector again with `have_piece`, and the loop polls once more; any other piece has its
blocks requested by an inner loop, and the outer loop ends. Nothing in the source bounds the
rounds. The model gives the outer loop a round per piece and one more (`dispatchJob`), and
records running out of them as a failure, `.failed .pollLoop`.

The selector is injected, so a bound rests on its contract: once told `have_piece(i)`,
`poll_piece` never returns `i` (`PieceSelector.RespectsHave`). Then a round that finds a complete
piece takes it out of the complete pieces the selector can still return (`completeLeft`), a set
no larger than the database. The outer loop so ends within that many rounds and one more, and
never runs out of the rounds the model gives it (`dispatch_terminates`). The inner loop ends
after a round per MISSING block of its piece, since each `bt_piece_poll_block_request` turns one
MISSING block REQUESTED (`Piece.missingCount_polled`). -/
namespace Yabtorrent

namespace Dm
variable {σ : Type} (S : PieceSelector σ)

/-! ### Runs that do not stall -/

/-- `s'` is `s` with events appended, none of them the selector loop running out of rounds. -/
def LoopEnds (s s' : Dm σ) : Prop :=
  ∃ evs, s'.trace = s.trace ++ evs ∧ Event.failed .pollLoop ∉ evs

namespace LoopEnds
variable {s₀ s : Dm σ}

theorem refl (s : Dm σ) : LoopEnds s s := ⟨[], by simp, List.not_mem_nil _⟩

theorem trans {s₁ s₂ s₃ : Dm σ} (h₁ : LoopEnds s₁ s₂) (h₂ : LoopEnds s₂ s₃) : LoopEnds s₁ s₃ := by
  obtain ⟨e₁, ht₁, hn₁⟩ := h₁
  obtain ⟨e₂, ht₂, hn₂⟩ := h₂
  exact ⟨e₁ ++ e₂, by simp [ht₂, ht₁], by simp [hn₁, hn₂]⟩

theorem emit (h : LoopEnds s₀ s) {e : Event} (he : e ≠ .failed .pollLoop) : LoopEnds s₀ (s.emit e) :=
  h.trans ⟨[e], rfl, by simpa using he.symm⟩

theorem select (h : LoopEnds s₀ s) (c : Call) (f : σ → σ) : LoopEnds s₀ (s.select c f) :=
  h.trans ⟨[if s.pselector.isSome then .selected c else .failed .noSelector], rfl, by split <;> simp⟩

theorem setPeer (h : LoopEnds s₀ s) (q : Peer) : LoopEnds s₀ (s.setPeer q) := h

theorem modifyPiece (h : LoopEnds s₀ s) (i : Nat) (f : Piece → Piece) (hf : ∀ p, (f p).idx = p.idx) :
    LoopEnds s₀ (s.modifyPiece i f hf) := h

theorem pselector (h : LoopEnds s₀ s) (st : σ) : LoopEnds s₀ { s with pselector := some st } := h

theorem offerBlock (h : LoopEnds s₀ s) (ptr : Nat) (b : Block) : LoopEnds s₀ (s.offerBlock ptr b) := by
  unfold Dm.offerBlock
  split
  · rw [sendToPeer_fst]
    exact ((h.emit (by simp)).setPeer _).emit (by split <;> simp)
  · exact h.emit (by simp)

theorem requestBlocks (ptr i : Nat) :
    ∀ (fuel : Nat) {s : Dm σ}, LoopEnds s₀ s → LoopEnds s₀ (Dm.requestBlocks s ptr i fuel)
  | 0, _, h => h
  | fuel + 1, s, h => by
    unfold Dm.requestBlocks
    split
    · split
      · exact h
      · split
        · exact requestBlocks ptr i fuel ((h.modifyPiece _ _ _).offerBlock _ _)
        · exact h
    · exact h

end LoopEnds

/-! ### The inner loop -/

/-- The inner loop of `__dispatch_job` runs at most a round per MISSING block of its piece:
past that many rounds, more change nothing. -/
theorem requestBlocks_fuel (ptr i : Nat) : ∀ (m k : Nat) (s : Dm σ) (p : Piece),
    s.pdb.bind (·.pieces[i]?) = some p → p.missingCount = m →
    requestBlocks s ptr i (m + k) = requestBlocks s ptr i m
  | 0, 0, _, _, _, _ => rfl
  | 0, k + 1, s, p, hp, hm => by
    have hf : p.isFullyRequested = true := (Piece.isFullyRequested_iff p).mpr hm
    rw [Nat.zero_add]
    simp [requestBlocks, hp, hf]
  | m + 1, k, s, p, hp, hm => by
    have hfr : p.isFullyRequested = false := by
      cases h : p.isFullyRequested
      · rfl
      · have := (Piece.isFullyRequested_iff p).mp h; omega
    obtain ⟨j, hj⟩ := Piece.pollBlockRequest_of_not_fully hfr
    have hcount := Piece.missingCount_polled hfr
    rw [show m + 1 + k = m + k + 1 by omega]
    simp only [requestBlocks, hp, hfr, Bool.false_eq_true, if_false, Piece.pollBlockRequest, hj,
      Option.map_some']
    exact requestBlocks_fuel ptr i m k _ p.polled
      (by rw [offerBlock_pdb, modifyPiece_lookup, hp]; rfl) (by omega)

/-! ### The selector loop -/

/-- The complete pieces of the database that the selector can still return from `st`. -/
def completeLeft (s : Dm σ) (st : σ) : Set Nat :=
  {i | S.CanReturn st i ∧ ∃ p, s.pdb.bind (·.pieces[i]?) = some p ∧ p.isComplete = true}

theorem lt_pieceCount {s : Dm σ} {i : Nat} {p : Piece} (h : s.pdb.bind (·.pieces[i]?) = some p) :
    i < s.pieceCount := by
  obtain ⟨db, hdb, hpi⟩ := Option.bind_eq_some.mp h
  simpa [pieceCount, hdb] using (List.getElem?_eq_some_iff.mp hpi).1

theorem completeLeft_subset (s : Dm σ) (st : σ) :
    completeLeft S s st ⊆ (Finset.range s.pieceCount : Set Nat) :=
  fun _ ⟨_, _, hp, _⟩ => by simpa using lt_pieceCount hp

theorem completeLeft_finite (s : Dm σ) (st : σ) : (completeLeft S s st).Finite :=
  (Finset.finite_toSet _).subset (completeLeft_subset S s st)

/-- No more complete pieces are left than the database holds. -/
theorem ncard_completeLeft_le (s : Dm σ) (st : σ) : (completeLeft S s st).ncard ≤ s.pieceCount :=
  calc (completeLeft S s st).ncard
      ≤ (Finset.range s.pieceCount : Set Nat).ncard :=
        Set.ncard_le_ncard (completeLeft_subset S s st) (Finset.finite_toSet _)
    _ = s.pieceCount := by rw [Set.ncard_coe_Finset, Finset.card_range]

/-- A round that finds piece `i` complete and tells the selector leaves the complete pieces as
they were less `i`: it adds none, and `i` is never returned again. -/
theorem completeLeft_havePiece (hS : S.RespectsHave) {s t : Dm σ} (hdb : t.pdb = s.pdb) {st : σ}
    {ptr i : Nat} :
    completeLeft S t (S.havePiece (S.pollPiece st ptr).1 i) ⊆ completeLeft S s st \ {i} :=
  fun _ ⟨hj, hp⟩ =>
    ⟨⟨hj.of_leads (.pollPiece ptr (.havePiece i (.refl _))), hdb ▸ hp⟩,
      fun he => hS _ _ (Set.mem_singleton_iff.mp he ▸ hj)⟩

/-- The selector loop of `__dispatch_job`, given more rounds than there are complete pieces
left, ends on its own, and more rounds change nothing. -/
theorem pollLoop_ends (hS : S.RespectsHave) (ptr : Nat) : ∀ (fuel : Nat) (s : Dm σ) (st : σ),
    s.pselector = some st → (∀ i, S.CanReturn st i → ∃ p, s.pdb.bind (·.pieces[i]?) = some p) →
    (completeLeft S s st).ncard < fuel →
    LoopEnds s (pollLoop S s ptr fuel) ∧ ∀ k, pollLoop S s ptr (fuel + k) = pollLoop S s ptr fuel
  | 0, _, _, _, _, hlt => absurd hlt (Nat.not_lt_zero _)
  | fuel + 1, s, st, hsel, hdb, hlt => by
    have hpolled : LoopEnds s ({ s with pselector := some (S.pollPiece st ptr).1 }.emit
        (.selected (.pollPiece ptr))) := ((LoopEnds.refl s).pselector _).emit (by simp)
    simp only [Nat.add_right_comm fuel 1]
    cases hr : (S.pollPiece st ptr).2 with
    | none =>
      simp only [pollLoop, hsel, hr, implies_true, and_true]
      exact hpolled
    | some i =>
      obtain ⟨p, hp⟩ := hdb i (PieceSelector.canReturn_of_poll hr)
      have hg : ({ s with pselector := some (S.pollPiece st ptr).1 }.emit
          (.selected (.pollPiece ptr))).getPiece i =
          ({ s with pselector := some (S.pollPiece st ptr).1 }.emit (.selected (.pollPiece ptr)),
            some p) := by
        obtain ⟨db, hdb', hpi⟩ := Option.bind_eq_some.mp hp
        simp [getPiece, hdb', hpi]
      cases hc : p.isComplete
      · -- any other piece: the inner loop, and the outer loop is done
        simp only [pollLoop, hsel, hr, hg, hc, Bool.false_eq_true, if_false, implies_true, and_true]
        exact hpolled.requestBlocks _ _ _
      · -- a complete piece: the selector hears of it, and one piece fewer is left
        simp only [pollLoop, hsel, hr, hg, hc, if_true]
        set t := ({ s with pselector := some (S.pollPiece st ptr).1 }.emit
          (.selected (.pollPiece ptr))).select (.havePiece i) (S.havePiece · i)
        have hmem : i ∈ completeLeft S s st := ⟨PieceSelector.canReturn_of_poll hr, p, hp, hc⟩
        have hfewer : (completeLeft S t (S.havePiece (S.pollPiece st ptr).1 i)).ncard < fuel :=
          calc _ ≤ (completeLeft S s st \ {i}).ncard :=
                Set.ncard_le_ncard (completeLeft_havePiece S hS rfl)
                  ((completeLeft_finite S s st).diff _)
            _ < (completeLeft S s st).ncard :=
                Set.ncard_diff_singleton_lt_of_mem hmem (completeLeft_finite S s st)
            _ ≤ fuel := by omega
        have ih := pollLoop_ends hS ptr fuel t _ (by simp [t, hsel])
          (fun j hj => hdb j (hj.of_leads (.pollPiece ptr (.havePiece i (.refl _))))) hfewer
        exact ⟨(hpolled.select _ _).trans ih.1, ih.2⟩

/-- **A PollBlock dispatch ends.** For a selector that never returns a piece after `have_piece`
for it, and a database with a piece for each index the selector can return, `__dispatch_job`
ends without running out of rounds. Its selector loop runs at most a round per complete piece
the selector can still return, and one more: given that many rounds or more, the loop gives what
the dispatch gives. Its inner loop runs at most a round per MISSING block of its piece. -/
theorem dispatch_terminates (hS : S.RespectsHave) (s : Dm σ) (st : σ) (ptr : Nat)
    (hsel : s.pselector = some st)
    (hdb : ∀ i, S.CanReturn st i → ∃ p, s.pdb.bind (·.pieces[i]?) = some p) :
    (∃ evs, (dispatchJob S s (.pollblock ptr)).trace = s.trace ++ evs ∧
        Event.failed .pollLoop ∉ evs) ∧
      (∀ fuel, (completeLeft S s st).ncard + 1 ≤ fuel →
        pollLoop S s ptr fuel = dispatchJob S s (.pollblock ptr)) ∧
      ∀ (t : Dm σ) (i : Nat) (p : Piece), t.pdb.bind (·.pieces[i]?) = some p →
        ∀ fuel, p.missingCount ≤ fuel → requestBlocks t ptr i fuel = requestBlocks t ptr i p.missingCount := by
  obtain ⟨hends, hfuel⟩ := pollLoop_ends S hS ptr _ s st hsel hdb (Nat.lt_succ_self _)
  have hd : dispatchJob S s (.pollblock ptr) = pollLoop S s ptr ((completeLeft S s st).ncard + 1) := by
    have hle := ncard_completeLeft_le S s st
    rw [← hfuel (s.pieceCount - (completeLeft S s st).ncard)]
    simp only [dispatchJob]
    congr 1
    omega
  refine ⟨?_, fun fuel hf => ?_, fun t i p hp fuel hf => ?_⟩
  · rw [hd]
    exact hends
  · obtain ⟨k, rfl⟩ := Nat.exists_eq_add_of_le hf
    rw [hfuel k, hd]
  · obtain ⟨k, rfl⟩ := Nat.exists_eq_add_of_le hf
    exact requestBlocks_fuel ptr i _ k t p hp rfl

/-- The peer unchoked us on the eleven-block piece, and the sequential selector can return only
that piece. -/
theorem dispatch_terminates_eleven :
    (∃ evs, (dispatchJob sequential unchokedEleven (.pollblock 0)).trace = unchokedEleven.trace ++ evs ∧
        Event.failed .pollLoop ∉ evs) ∧
      (∀ fuel, (completeLeft sequential unchokedEleven ⟨[(0, [0])], [], []⟩).ncard + 1 ≤ fuel →
        pollLoop sequential unchokedEleven 0 fuel = dispatchJob sequential unchokedEleven (.pollblock 0)) ∧
      ∀ (t : Dm Sequential) (i : Nat) (p : Piece), t.pdb.bind (·.pieces[i]?) = some p →
        ∀ fuel, p.missingCount ≤ fuel → requestBlocks t 0 i fuel = requestBlocks t 0 i p.missingCount :=
  dispatch_terminates sequential PieceSelector.sequential_respectsHave unchokedEleven
    ⟨[(0, [0])], [], []⟩ 0 (by decide) fun i hi => by
      obtain ⟨e, he, hi⟩ := PieceSelector.sequential_canReturn hi
      obtain rfl : e = (0, [0]) := List.mem_singleton.mp he
      obtain rfl : i = 0 := List.mem_singleton.mp hi
      exact Option.isSome_iff_exists.mp (by decide)

end Dm

end Yabtorrent
