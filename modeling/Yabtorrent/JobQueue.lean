import Mathlib.Data.List.Basic

/-! The job queue between I/O callbacks and the periodic tick.

A peer connection's `pollblock` callback may run on any I/O thread. It wraps the work in a
job and offers it to the manager's FIFO under `call_exclusively(&job_lock, __offer_job)`.
`bt_dm_periodic` alone consumes: it reads `llqueue_count` without the lock, polls a job under
the lock (`__poll_job`), asserts that it got one, and dispatches it, until the count reads
zero. `offerJob` and `pollJob` are the two critical sections; the manager's model uses them
for its queue.

An interleaving is a list of atomic actions: any number of offers, from any threads, between
the consumer's count test, its poll and its dispatch. `queue_safe` says that in every
interleaving the assertion holds, the jobs dispatched, the one held and the ones queued are
exactly the jobs the interleaving's offers carry (`offers`), in order, and finishing the
consumer's loop dispatches them all. What was offered is read off the schedule, not kept by
the queue, so a step that lost or duplicated an offer would break it.
-/
namespace Yabtorrent

namespace JobQueue
variable {α : Type}

/-- `__offer_job`: `llqueue_offer` at the tail. -/
def offerJob (q : List α) (j : α) : List α := q ++ [j]

/-- `__poll_job`: `llqueue_poll`, the head, or NULL on an empty queue. -/
def pollJob : List α → Option α × List α
  | [] => (none, [])
  | j :: rest => (some j, rest)

/-- Where `bt_dm_periodic`'s job loop is. -/
inductive Consumer (α : Type) where
  /-- Not in the job loop. -/
  | outside
  /-- About to read `llqueue_count`. -/
  | counting
  /-- Read a positive count; about to poll. -/
  | polling
  /-- Polled the job; about to dispatch it. -/
  | holding (j : α)
  /-- Polled NULL: `assert(j)` fails. -/
  | failed
  deriving DecidableEq, Repr

/-- The job the consumer holds, if any. -/
def Consumer.held : Consumer α → List α
  | .holding j => [j]
  | _ => []

/-- The queue and the consumer, with every job dispatched. -/
structure World (α : Type) where
  queue : List α
  consumer : Consumer α
  dispatched : List α
  deriving DecidableEq, Repr

/-- One atomic action of a producer or of the consumer. -/
inductive Action (α : Type) where
  /-- A producer's `__FUNC_peerconn_pollblock`. -/
  | offer (j : α)
  /-- `bt_dm_periodic` reaches its job loop. -/
  | tick
  /-- The consumer reads `llqueue_count`, outside the lock. -/
  | count
  /-- The consumer polls under the lock. -/
  | poll
  /-- The consumer dispatches the job it holds. -/
  | dispatch
  deriving DecidableEq, Repr

/-- The job an action offers: a producer's, none for the consumer's. -/
def Action.offered : Action α → List α
  | .offer j => [j]
  | _ => []

/-- The jobs a schedule offers, in its order. -/
def offers : List (Action α) → List α
  | [] => []
  | a :: as => a.offered ++ offers as

/-- A consumer action out of its turn does nothing: that thread is elsewhere. -/
def step (w : World α) : Action α → World α
  | .offer j => { w with queue := offerJob w.queue j }
  | .tick => match w.consumer with
    | .outside => { w with consumer := .counting }
    | _ => w
  | .count => match w.consumer with
    | .counting => { w with consumer := if 0 < w.queue.length then .polling else .outside }
    | _ => w
  | .poll => match w.consumer with
    | .polling => match pollJob w.queue with
      | (some j, q) => { w with queue := q, consumer := .holding j }
      | (none, q) => { w with queue := q, consumer := .failed }
    | _ => w
  | .dispatch => match w.consumer with
    | .holding j => { w with consumer := .counting, dispatched := w.dispatched ++ [j] }
    | _ => w

def run (w : World α) : List (Action α) → World α
  | [] => w
  | a :: as => run (step w a) as

def init : World α := ⟨[], .outside, []⟩

/-- What every interleaving keeps, `o` being the jobs offered so far. -/
structure Safe (o : List α) (w : World α) : Prop where
  conserved : w.dispatched ++ w.consumer.held ++ w.queue = o
  polling : w.consumer = .polling → w.queue ≠ []
  live : w.consumer ≠ .failed

theorem init_safe : Safe [] (init : World α) := ⟨rfl, by simp [init], by simp [init]⟩

theorem step_safe {o : List α} {w : World α} (h : Safe o w) (a : Action α) :
    Safe (o ++ a.offered) (step w a) := by
  have hc := h.conserved
  cases a with
  | offer j =>
    exact ⟨by simp [step, offerJob, Action.offered, ← hc], fun _ => by simp [step, offerJob], h.live⟩
  | tick =>
    cases hw : w.consumer <;> simp only [step, hw, Action.offered, List.append_nil] <;> try exact h
    exact ⟨by simpa [hw, Consumer.held] using hc, by simp, by simp⟩
  | count =>
    cases hw : w.consumer <;> simp only [step, hw, Action.offered, List.append_nil] <;> try exact h
    by_cases hq : 0 < w.queue.length <;> simp only [hq, if_true, if_false]
    · exact ⟨by simpa [hw, Consumer.held] using hc, fun _ => List.ne_nil_of_length_pos hq, by simp⟩
    · exact ⟨by simpa [hw, Consumer.held] using hc, by simp, by simp⟩
  | poll =>
    cases hw : w.consumer <;> simp only [step, hw, Action.offered, List.append_nil] <;> try exact h
    obtain ⟨j, q, hq⟩ := List.exists_cons_of_ne_nil (h.polling hw)
    simp only [hq, pollJob]
    exact ⟨by simpa [hq, hw, Consumer.held] using hc, by simp, by simp⟩
  | dispatch =>
    cases hw : w.consumer <;> simp only [step, hw, Action.offered, List.append_nil] <;> try exact h
    exact ⟨by simpa [hw, Consumer.held] using hc, by simp, by simp⟩

theorem run_safe {o : List α} {w : World α} (h : Safe o w) (acts : List (Action α)) :
    Safe (o ++ offers acts) (run w acts) := by
  induction acts generalizing o w with
  | nil => simpa [offers] using h
  | cons a as ih => simpa [offers] using ih (step_safe h a)

/-- The consumer going round its loop `n` times, then reading a zero count. -/
def drainActs : Nat → List (Action α)
  | 0 => [.count]
  | n + 1 => .count :: .poll :: .dispatch :: drainActs n

/-- The consumer's actions that end its job loop, no job coming in meanwhile. -/
def finish (w : World α) : List (Action α) :=
  match w.consumer with
  | .outside => .tick :: drainActs w.queue.length
  | .counting => drainActs w.queue.length
  | .polling => .poll :: .dispatch :: drainActs (w.queue.length - 1)
  | .holding _ => .dispatch :: drainActs w.queue.length
  | .failed => []

theorem run_drainActs (q d : List α) :
    run ⟨q, .counting, d⟩ (drainActs q.length) = ⟨[], .outside, d ++ q⟩ := by
  induction q generalizing d with
  | nil => simp [drainActs, run, step]
  | cons j q ih =>
    simp only [List.length_cons, drainActs, run, step, pollJob, List.length_pos, ne_eq,
      reduceCtorEq, not_false_eq_true, if_true]
    simpa using ih (d ++ [j])

theorem finish_dispatches {o : List α} {w : World α} (h : Safe o w) :
    (run w (finish w)).dispatched = o := by
  obtain ⟨q, c, d⟩ := w
  obtain ⟨hc, hp, hl⟩ := h
  dsimp only at hc hp hl ⊢
  subst hc
  cases c with
  | outside => simp [finish, run, step, run_drainActs, Consumer.held]
  | counting => simp [finish, run_drainActs, Consumer.held]
  | polling =>
    obtain ⟨j, q, rfl⟩ := List.exists_cons_of_ne_nil (hp rfl)
    simp [finish, run, step, pollJob, run_drainActs, Consumer.held]
  | holding j => simp [finish, run, step, run_drainActs, Consumer.held]
  | failed => exact absurd rfl hl

/-- **The job queue is safe under every interleaving.** Whatever producers and the consumer
do, one atomic action at a time: `assert(j)` never fails; the jobs dispatched, then the one
held, then the queue are exactly the jobs the schedule's offers carry, in their order, so no
offered job is lost, none is dispatched twice and none out of order; and once the consumer
finishes its loop with no new offers, every job offered has been dispatched. -/
theorem queue_safe (acts : List (Action α)) :
    (run init acts).consumer ≠ .failed ∧
    (run init acts).dispatched ++ (run init acts).consumer.held ++ (run init acts).queue =
      offers acts ∧
    (run (run init acts) (finish (run init acts))).dispatched = offers acts :=
  have h : Safe (offers acts) (run init acts) := by simpa using run_safe init_safe acts
  ⟨h.live, h.conserved, finish_dispatches h⟩

end JobQueue

end Yabtorrent
