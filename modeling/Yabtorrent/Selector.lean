import Mathlib.Data.List.Basic

/-! The piece selector.

The download manager takes its piece selector by dependency injection: `bt_pieceselector_i`
is a constructor and six operations on an opaque state, installed by
`bt_dm_set_piece_selector`. `PieceSelector σ` is that interface and the manager is generic
in it. The strategies themselves are not among the sources; `sequential` is the spec's
sequential strategy (§4.5), used to run the manager on concrete inputs. -/
namespace Yabtorrent

/-- `bt_pieceselector_i` over a selector state `σ`; peers are passed by identity. -/
structure PieceSelector (σ : Type) where
  new : Nat → σ
  addPeer : σ → Nat → σ
  removePeer : σ → Nat → σ
  havePiece : σ → Nat → σ
  peerHavePiece : σ → Nat → Nat → σ
  peerGivebackPiece : σ → Option Nat → Nat → σ
  pollPiece : σ → Nat → σ × Option Nat

/-- The sequential selector's state: registered peers with the pieces they have, the pieces
we have, and the pieces handed out and not given back. -/
structure Sequential where
  peers : List (Nat × List Nat)
  owned : List Nat
  polled : List Nat
  deriving DecidableEq, Repr

/-- Modelled from the spec: the sequential strategy, the lowest piece the peer has that we
lack and that is not handed out already (§4.5). -/
def sequential : PieceSelector Sequential where
  new _ := ⟨[], [], []⟩
  addPeer s p := if p ∈ s.peers.map (·.1) then s else { s with peers := s.peers ++ [(p, [])] }
  removePeer s p := { s with peers := s.peers.filter (·.1 != p) }
  havePiece s i := if i ∈ s.owned then s else { s with owned := s.owned ++ [i] }
  peerHavePiece s p i :=
    { s with peers := s.peers.map fun e => if e.1 = p ∧ i ∉ e.2 then (e.1, e.2 ++ [i]) else e }
  peerGivebackPiece s _ i := { s with polled := s.polled.erase i }
  pollPiece s p :=
    match (((s.peers.lookup p).getD []).filter fun i => i ∉ s.owned ∧ i ∉ s.polled).min? with
    | some i => ({ s with polled := s.polled ++ [i] }, some i)
    | none => (s, none)

namespace PieceSelector
variable {σ : Type} (S : PieceSelector σ)

/-- The selector states that `poll_piece` and `have_piece` calls lead to from `st`: the two calls
`__dispatch_job` makes. -/
inductive Leads : σ → σ → Prop where
  | refl (st : σ) : Leads st st
  | pollPiece {st st' : σ} (ptr : Nat) : Leads (S.pollPiece st ptr).1 st' → Leads st st'
  | havePiece {st st' : σ} (i : Nat) : Leads (S.havePiece st i) st' → Leads st st'

/-- `poll_piece` can still return piece `i`: for some peer, after some calls from `st`. -/
def CanReturn (st : σ) (i : Nat) : Prop :=
  ∃ st' ptr, S.Leads st st' ∧ (S.pollPiece st' ptr).2 = some i

/-- The selector's contract that `__dispatch_job` relies on to end: once `have_piece(i)` has been
called, `poll_piece` never returns `i`. -/
def RespectsHave : Prop := ∀ st i, ¬ S.CanReturn (S.havePiece st i) i

variable {S}

theorem Leads.trans {st₁ st₂ st₃ : σ} (h₁ : S.Leads st₁ st₂) (h₂ : S.Leads st₂ st₃) :
    S.Leads st₁ st₃ := by
  induction h₁ with
  | refl => exact h₂
  | pollPiece ptr _ ih => exact .pollPiece ptr (ih h₂)
  | havePiece i _ ih => exact .havePiece i (ih h₂)

theorem CanReturn.of_leads {st st' : σ} {i : Nat} (hl : S.Leads st st') (h : S.CanReturn st' i) :
    S.CanReturn st i :=
  let ⟨st'', ptr, hl', hp⟩ := h
  ⟨st'', ptr, hl.trans hl', hp⟩

theorem canReturn_of_poll {st : σ} {ptr i : Nat} (h : (S.pollPiece st ptr).2 = some i) :
    S.CanReturn st i :=
  ⟨st, ptr, .refl st, h⟩

/-! ### The sequential selector keeps the contract -/

/-- Calls that lead from `st` keep the peers' pieces and forget no piece we have. -/
theorem sequential_leads {st st' : Sequential} (h : sequential.Leads st st') :
    st'.peers = st.peers ∧ st.owned ⊆ st'.owned := by
  induction h with
  | refl => exact ⟨rfl, fun _ => id⟩
  | pollPiece ptr _ ih =>
    simp only [sequential] at ih
    split at ih <;> exact ih
  | @havePiece st _ i _ ih =>
    simp only [sequential] at ih
    split at ih
    · exact ih
    · exact ⟨ih.1, fun j hj => ih.2 (List.mem_append_left _ hj)⟩

/-- The sequential selector returns only a piece a registered peer has and we do not. -/
theorem sequential_poll {st : Sequential} {ptr i : Nat} (h : (sequential.pollPiece st ptr).2 = some i) :
    (∃ e ∈ st.peers, i ∈ e.2) ∧ i ∉ st.owned := by
  simp only [sequential] at h
  split at h
  · rename_i j hj
    obtain rfl : j = i := Option.some.inj h
    have hmem := List.mem_filter.mp (List.min?_mem (fun a b => by omega) hj)
    have hown : j ∉ st.owned := by simp at hmem; exact hmem.2.1
    refine ⟨?_, hown⟩
    cases hl : st.peers.lookup ptr with
    | none => simp [hl] at hmem
    | some l =>
      simp only [hl, Option.getD_some] at hmem
      obtain ⟨l₁, l₂, he, -⟩ := List.lookup_eq_some_iff.mp hl
      exact ⟨(ptr, l), by simp [he], hmem.1⟩
  · cases h

theorem sequential_canReturn {st : Sequential} {i : Nat} (h : sequential.CanReturn st i) :
    ∃ e ∈ st.peers, i ∈ e.2 := by
  obtain ⟨st', ptr, hl, hp⟩ := h
  exact (sequential_leads hl).1 ▸ (sequential_poll hp).1

theorem sequential_respectsHave : sequential.RespectsHave := by
  rintro st i ⟨st', ptr, hl, hp⟩
  have hi : i ∈ (sequential.havePiece st i).owned := by
    simp only [sequential]
    split <;> simp_all
  exact (sequential_poll hp).2 ((sequential_leads hl).2 hi)

end PieceSelector

end Yabtorrent
