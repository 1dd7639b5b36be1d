import Yabtorrent.Manager.Seeding

/-! The job loop of a tick.

`bt_dm_periodic` polls the job queue through `call_exclusively` and `__poll_job` while
`llqueue_count` is positive and hands each job to `__dispatch_job`. Dispatching neither reads nor
writes the queue (`dispatchJob_jobs`): it queues no job and its work does not depend on what is
queued. So the loop, given the queue's length as its rounds, is a fold of `__dispatch_job` over
the queued jobs from a manager whose queue is already empty (`drain_eq_foldl`).

* `tick_dispatches_in_order`: a tick of a reachable manager whose host gives `call_exclusively`
  dispatches every job queued before it once, in the order queued, and then steps the
  connections. -/
namespace Yabtorrent

namespace Dm
variable {σ : Type} (S : PieceSelector σ)

/-! ### Dispatching ignores the queue -/

theorem offerBlock_jobs (s : Dm σ) (l : List Job) (ptr : Nat) (b : Block) :
    { s.offerBlock ptr b with jobs := l } = { s with jobs := l }.offerBlock ptr b := by
  cases h : s.peers.find? (·.ptr == ptr) <;> simp only [offerBlock, h, sendToPeer_fst] <;> rfl

theorem requestBlocks_jobs (l : List Job) (ptr i : Nat) : ∀ fuel (s : Dm σ),
    { requestBlocks s ptr i fuel with jobs := l } = requestBlocks { s with jobs := l } ptr i fuel
  | 0, s => rfl
  | fuel + 1, s => by
    simp only [requestBlocks]
    split
    · split
      · rfl
      · split
        · rw [requestBlocks_jobs l ptr i fuel, offerBlock_jobs]
          rfl
        · rfl
    · rfl

theorem pollLoop_jobs (ptr : Nat) (l : List Job) : ∀ fuel (s : Dm σ),
    { pollLoop S s ptr fuel with jobs := l } = pollLoop S { s with jobs := l } ptr fuel
  | 0, s => rfl
  | fuel + 1, ⟨pdb, cb, jobs, cfg, peers, bl, lc, psel, am, pc, np, tr⟩ => by
    cases psel with
    | none => rfl
    | some st =>
      cases hi : (S.pollPiece st ptr).2 with
      | none => simp only [pollLoop, hi]; rfl
      | some i =>
        cases pdb with
        | none => simp only [pollLoop, hi, getPiece]; rfl
        | some db =>
          cases hp : db.pieces[i]? with
          | none => simp only [pollLoop, hi, getPiece, emit_pdb, hp]; rfl
          | some p =>
            cases hc : p.isComplete <;>
              simp only [pollLoop, hi, getPiece, emit_pdb, hp, hc, Bool.false_eq_true, ↓reduceIte]
            · exact requestBlocks_jobs l ptr _ _ _
            · exact pollLoop_jobs ptr l fuel _

/-- `__dispatch_job` neither reads nor writes the job queue. -/
theorem dispatchJob_jobs (s : Dm σ) (l : List Job) (j : Job) :
    { dispatchJob S s j with jobs := l } = dispatchJob S { s with jobs := l } j := by
  cases j
  exact pollLoop_jobs S _ l _ s

@[simp] theorem dispatchJob_jobs_eq (s : Dm σ) (j : Job) : (dispatchJob S s j).jobs = s.jobs := by
  simpa using congrArg Dm.jobs (dispatchJob_jobs S s s.jobs j).symm

/-! ### The loop -/

/-- The job loop, given the queue's length as its rounds, dispatches the queued jobs in order
from a manager whose queue is empty. -/
theorem drain_eq_foldl (s : Dm σ) (h : s.cb.callExclusively = true) :
    drain S s s.jobs.length = s.jobs.foldl (dispatchJob S) { s with jobs := [] } := by
  generalize hn : s.jobs.length = n
  induction n generalizing s with
  | zero =>
    obtain ⟨_, _, jobs⟩ := s
    cases List.length_eq_zero.mp hn
    rfl
  | succ n ih =>
    obtain ⟨j, rest, hj⟩ := List.exists_cons_of_length_eq_add_one hn
    have ht := ih (dispatchJob S { s with jobs := rest } j)
      (by rw [(settled_dispatchJob S _ j).cb]; exact h) (by simpa [hj] using hn)
    simp only [dispatchJob_jobs_eq] at ht
    simp only [drain, hn, h, JobQueue.pollJob, hj, List.foldl_cons, ht]
    exact congrArg (rest.foldl _) (dispatchJob_jobs S _ [] j)

/-- **A tick dispatches each queued job once, in the order queued.** For a reachable manager
whose host gives `call_exclusively`, a tick is `__dispatch_job` of every job queued before it,
first queued first, from a manager with an empty queue, and then `__FUNC_peer_periodic` of every
peer the peer manager then holds. -/
theorem tick_dispatches_in_order {s : Dm σ} (h : Reachable S s) (hx : s.cb.callExclusively = true) :
    (periodic S s none).1 =
      (s.jobs.foldl (dispatchJob S) { s with jobs := [] }).peers.foldl peerPeriodic
        (s.jobs.foldl (dispatchJob S) { s with jobs := [] }) := by
  simp [periodic, reachable_leeching S h, drain_eq_foldl S s hx]

theorem tick_dispatches_in_order_unchoked :
    unchokedEleven.cb.callExclusively = true ∧
      (periodic sequential unchokedEleven none).1 =
        (unchokedEleven.jobs.foldl (dispatchJob sequential) { unchokedEleven with jobs := [] }).peers.foldl
          peerPeriodic (unchokedEleven.jobs.foldl (dispatchJob sequential) { unchokedEleven with jobs := [] }) :=
  ⟨rfl, tick_dispatches_in_order sequential (Reachable.run sequential .new _) rfl⟩

end Dm

end Yabtorrent
