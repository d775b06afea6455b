import FastRules.Foundations.Custody
import Mathlib.Data.List.Basic

/-!
# The work-stealing thread pool

`WorkStealingThreadPool` as a transition system. A step is one access to something shared: a load or
the store of the stop flag, one locked operation of one queue, or a join. The threads are the
workers, any number of threads outside that enqueue, and the one that runs the destructor. What a
task does besides enqueueing more tasks does not matter to the pool, so a running task may at any
time enqueue, or end.

Tasks are numbered in the order in which their `enqueue` pushed them. The calls that return normally
are the ones that push, so `accepted` is the number of tasks whose `enqueue` returned normally.
-/

namespace FastRules

/-! ### Queues -/

namespace SimpleWorkStealingQueue

variable {α : Type}

/-- `push`: at the back. -/
def push (queue : List α) (item : α) : List α :=
  queue ++ [item]

/-- `pop`: from the back. -/
def pop (queue : List α) : Option α × List α :=
  (queue.getLast?, queue.dropLast)

/-- `steal`: from the front. -/
def steal (queue : List α) : Option α × List α :=
  (queue.head?, queue.tail)

/-- What is popped was in the queue, and the rest still is. -/
theorem pop_eq_some {queue rest : List α} {item : α} (h : pop queue = (some item, rest)) :
    (queue : Multiset α) = rest + {item} := by
  obtain ⟨hlast, rfl⟩ := Prod.mk.inj h
  obtain ⟨front, rfl⟩ := List.getLast?_eq_some_iff.1 hlast
  rw [List.dropLast_concat, ← Multiset.coe_singleton, Multiset.coe_add]

theorem steal_eq_some {queue rest : List α} {item : α} (h : steal queue = (some item, rest)) :
    (queue : Multiset α) = rest + {item} := by
  obtain ⟨hhead, rfl⟩ := Prod.mk.inj h
  obtain ⟨back, rfl⟩ := List.head?_eq_some_iff.1 hhead
  rw [List.tail_cons, ← Multiset.cons_coe, ← Multiset.singleton_add, add_comm]

theorem push_eq (queue : List α) (item : α) :
    (push queue item : Multiset α) = queue + {item} := by
  rw [push, ← Multiset.coe_singleton, Multiset.coe_add]

end SimpleWorkStealingQueue

namespace WorkStealingThreadPool

/-- The number of a task, in the order of pushing. -/
abbrev TaskId := ℕ

/-- Where a worker is in `workerLoop`. -/
inductive WorkerState
  /-- At the head of the loop. -/
  | starting
  /-- The stop flag has been loaded. -/
  | popping (stopping : Bool)
  /-- Nothing was in its own queue. -/
  | stealing (stopping : Bool) (attempts : ℕ)
  | found (task : TaskId)
  /-- Inside a task, possibly inside an `enqueue` that has seen that the pool is not stopped. -/
  | running (task : TaskId) (enqueueing : Bool)
  | sleeping
  /-- Looking for the first queue that is not empty. -/
  | scanning (next : ℕ)
  | exited
  deriving DecidableEq, Repr

/-- The pool, with `n` workers and the threads outside. -/
structure PoolState (n : ℕ) (Caller : Type) where
  localQueues : Fin n → List TaskId
  stop : Bool
  workers : Fin n → WorkerState
  /-- The threads outside that are inside an `enqueue` that has seen that the pool is not
  stopped. -/
  enqueueing : Caller → Bool
  /-- How many workers the destructor has joined, once it has begun. -/
  joined : Option ℕ
  /-- How many calls of `enqueue` have returned normally. -/
  accepted : ℕ
  /-- The tasks that have been invoked. -/
  executed : List TaskId

/-- The number of workers the constructor starts. -/
def workerCount (numThreads : ℕ) : ℕ :=
  if numThreads = 0 then 1 else numThreads

theorem workerCount_pos (numThreads : ℕ) : 0 < workerCount numThreads := by
  rw [workerCount]
  split_ifs with h
  · exact Nat.one_pos
  · exact Nat.pos_of_ne_zero h

variable {n : ℕ} {Caller : Type}

namespace PoolState

/-- What the constructor leaves. -/
def initial (n : ℕ) (Caller : Type) : PoolState n Caller where
  localQueues _ := []
  stop := false
  workers _ := .starting
  enqueueing _ := false
  joined := none
  accepted := 0
  executed := []

def setWorker (s : PoolState n Caller) (i : Fin n) (state : WorkerState) : PoolState n Caller :=
  { s with workers := Function.update s.workers i state }

def setQueue (s : PoolState n Caller) (j : Fin n) (queue : List TaskId) : PoolState n Caller :=
  { s with localQueues := Function.update s.localQueues j queue }

/-- `localQueues_[queueIndex]->push(...)`, with which `enqueue` succeeds. -/
def pushTask (s : PoolState n Caller) (j : Fin n) : PoolState n Caller :=
  { s.setQueue j (SimpleWorkStealingQueue.push (s.localQueues j) s.accepted) with
    accepted := s.accepted + 1 }

/-- The destructor has joined all workers. -/
def Returned (s : PoolState n Caller) : Prop :=
  s.joined = some n

end PoolState

open SimpleWorkStealingQueue

/-- One access to the shared state. -/
inductive Step [DecidableEq Caller] : PoolState n Caller → PoolState n Caller → Prop
  /-- `const bool stopping = stop_.load()`. -/
  | load {s : PoolState n Caller} {i : Fin n} (h : s.workers i = .starting) :
      Step s (s.setWorker i (.popping s.stop))
  | pop {s : PoolState n Caller} {i : Fin n} {stopping : Bool} {task : TaskId} {rest : List TaskId}
      (h : s.workers i = .popping stopping) (hpop : pop (s.localQueues i) = (some task, rest)) :
      Step s ((s.setQueue i rest).setWorker i (.found task))
  | popNothing {s : PoolState n Caller} {i : Fin n} {stopping : Bool}
      (h : s.workers i = .popping stopping) (hpop : (pop (s.localQueues i)).1 = none) :
      Step s (s.setWorker i (.stealing stopping 0))
  | steal {s : PoolState n Caller} {i victim : Fin n} {stopping : Bool} {attempts : ℕ}
      {task : TaskId}
      {rest : List TaskId} (h : s.workers i = .stealing stopping attempts)
      (hattempts : attempts < n * 2) (hvictim : victim ≠ i)
      (hsteal : steal (s.localQueues victim) = (some task, rest)) :
      Step s ((s.setQueue victim rest).setWorker i (.found task))
  | stealNothing {s : PoolState n Caller} {i victim : Fin n} {stopping : Bool} {attempts : ℕ}
      (h : s.workers i = .stealing stopping attempts) (hattempts : attempts < n * 2)
      (hsteal : victim = i ∨ (steal (s.localQueues victim)).1 = none) :
      Step s (s.setWorker i (.stealing stopping (attempts + 1)))
  | giveUp {s : PoolState n Caller} {i : Fin n} {stopping : Bool}
      (h : s.workers i = .stealing stopping (n * 2)) :
      Step s (s.setWorker i (if stopping then .scanning 0 else .sleeping))
  | wake {s : PoolState n Caller} {i : Fin n} (h : s.workers i = .sleeping) :
      Step s (s.setWorker i .starting)
  /-- `task()`. -/
  | invoke {s : PoolState n Caller} {i : Fin n} {task : TaskId} (h : s.workers i = .found task) :
      Step s { s.setWorker i (.running task false) with executed := s.executed ++ [task] }
  /-- The task calls `enqueue`, which would throw if the pool were stopped. -/
  | taskEnqueues {s : PoolState n Caller} {i : Fin n} {task : TaskId}
      (h : s.workers i = .running task false) (hstop : s.stop = false) :
      Step s (s.setWorker i (.running task true))
  | taskPushes {s : PoolState n Caller} {i : Fin n} {task : TaskId}
      (h : s.workers i = .running task true) (j : Fin n) :
      Step s ((s.pushTask j).setWorker i (.running task false))
  /-- The task returns or throws. -/
  | taskEnds {s : PoolState n Caller} {i : Fin n} {task : TaskId}
      (h : s.workers i = .running task false) :
      Step s (s.setWorker i .starting)
  | scanEmpty {s : PoolState n Caller} {i : Fin n} {next : ℕ} (h : s.workers i = .scanning next)
      (hnext : next < n) (hempty : s.localQueues ⟨next, hnext⟩ = []) :
      Step s (s.setWorker i (.scanning (next + 1)))
  /-- `anyWork = true; break`. -/
  | scanWork {s : PoolState n Caller} {i : Fin n} {next : ℕ} (h : s.workers i = .scanning next)
      (hnext : next < n) (hwork : s.localQueues ⟨next, hnext⟩ ≠ []) :
      Step s (s.setWorker i .starting)
  | exit {s : PoolState n Caller} {i : Fin n} (h : s.workers i = .scanning n) :
      Step s (s.setWorker i .exited)
  /-- A thread outside calls `enqueue`, before the destructor begins. -/
  | callerEnqueues {s : PoolState n Caller} {caller : Caller} (h : s.enqueueing caller = false)
      (hjoined : s.joined = none) (hstop : s.stop = false) :
      Step s { s with enqueueing := Function.update s.enqueueing caller true }
  | callerPushes {s : PoolState n Caller} {caller : Caller} (h : s.enqueueing caller = true)
      (j : Fin n) :
      Step s { s.pushTask j with enqueueing := Function.update s.enqueueing caller false }
  /-- `stop_ = true`. No thread outside is still inside a member function. -/
  | destroy {s : PoolState n Caller} (h : s.joined = none)
      (hcallers : ∀ caller, s.enqueueing caller = false) :
      Step s { s with stop := true, joined := some 0 }
  | join {s : PoolState n Caller} {k : ℕ} (h : s.joined = some k) (hk : k < n)
      (hexited : s.workers ⟨k, hk⟩ = .exited) :
      Step s { s with joined := some (k + 1) }

/-- The runs of a pool of `n` workers. -/
def Reachable [DecidableEq Caller] (s : PoolState n Caller) : Prop :=
  Runs (· = .initial n Caller) Step s

/-! ### What every step keeps -/

namespace WorkerState

/-- The task the worker has taken from a queue and not invoked yet. -/
def inHand : WorkerState → Multiset TaskId
  | found task => {task}
  | _ => 0

/-- The worker knows that the pool is stopped. -/
def sawStop : WorkerState → Bool
  | popping stopping | stealing stopping _ => stopping
  | scanning _ | exited => true
  | _ => false

/-- The worker will not look at the queue again before it exits, unless it finds work elsewhere. -/
def Past (j : Fin n) : WorkerState → Prop
  | scanning next => j < next
  | exited => True
  | _ => False

theorem Past.sawStop {j : Fin n} {state : WorkerState} (h : state.Past j) :
    state.sawStop = true := by
  cases state with
  | scanning next => rfl
  | exited => rfl
  | _ => exact absurd h id

end WorkerState

/-- The tasks in a queue. -/
def queued (queue : List TaskId) : Multiset TaskId :=
  queue

/-- What holds in every reachable state. A task that is still in a queue has somebody who will look
there: whoever pushed it, if it was a worker, and all workers before the pool is stopped. -/
structure Invariant (s : PoolState n Caller) : Prop where
  conserved : custody queued s.localQueues +
    custody WorkerState.inHand s.workers + s.executed = Multiset.range s.accepted
  stop_eq : s.stop = s.joined.isSome
  sawStop_le : s.stop = false → ∀ i, (s.workers i).sawStop = false
  callers : s.stop = true → ∀ caller, s.enqueueing caller = false
  covered : ∀ j, s.localQueues j ≠ [] → ∃ i, ¬ (s.workers i).Past j
  joined_le : ∀ k, s.joined = some k → ∀ i : Fin n, i < k → s.workers i = .exited

theorem Invariant.initial : Invariant (.initial n Caller) where
  conserved := by
    have hqueues : custody queued (PoolState.initial n Caller).localQueues = 0 :=
      custody_eq_zero fun _ ↦ rfl
    have hhands : custody WorkerState.inHand (PoolState.initial n Caller).workers = 0 :=
      custody_eq_zero fun _ ↦ rfl
    rw [hqueues, hhands]
    rfl
  stop_eq := rfl
  sawStop_le _ _ := rfl
  callers h := absurd h Bool.false_ne_true
  covered j h := absurd rfl h
  joined_le k h := absurd h (by simp [PoolState.initial])

/-- A worker moves on, changing queues and the record as it does. -/
theorem Invariant.worker {s : PoolState n Caller} (h : Invariant s) {i : Fin n}
    {state : WorkerState}
    {localQueues : Fin n → List TaskId} {accepted : ℕ} {executed : List TaskId}
    (hworks : s.workers i ≠ .exited)
    (hconserved : custody queued localQueues +
      custody WorkerState.inHand (Function.update s.workers i state) + executed =
        Multiset.range accepted)
    (hstop : s.stop = false → state.sawStop = false)
    (hcovered : ∀ j, localQueues j ≠ [] →
      ¬ state.Past j ∨ s.localQueues j ≠ [] ∧ (s.workers i).Past j) :
    Invariant { s with
      localQueues := localQueues
      workers := Function.update s.workers i state
      accepted := accepted
      executed := executed } where
  conserved := hconserved
  stop_eq := h.stop_eq
  sawStop_le hs i' := by
    rcases eq_or_ne i' i with rfl | hne
    · exact (congrArg WorkerState.sawStop (Function.update_self _ _ _)).trans (hstop hs)
    · exact (congrArg WorkerState.sawStop (Function.update_of_ne hne _ _)).trans
        (h.sawStop_le hs i')
  callers := h.callers
  covered j hj := by
    rcases hcovered j hj with hpast | ⟨hold, hpast⟩
    · refine ⟨i, ?_⟩
      show ¬ (Function.update s.workers i state i).Past j
      rwa [Function.update_self]
    · -- The one who looked there before is another worker.
      obtain ⟨w, hw⟩ := h.covered j hold
      refine ⟨w, ?_⟩
      show ¬ (Function.update s.workers i state w).Past j
      rwa [Function.update_of_ne fun hwi : w = i ↦ hw (hwi ▸ hpast)]
  joined_le k hk i' hi' := by
    have hexited := h.joined_le k hk i' hi'
    show Function.update s.workers i state i' = .exited
    rwa [Function.update_of_ne fun hne : i' = i ↦ hworks (hne ▸ hexited)]

/-- A worker moves on without touching anything. -/
theorem Invariant.setWorker {s : PoolState n Caller} (h : Invariant s) {i : Fin n}
    {state : WorkerState} (hworks : s.workers i ≠ .exited)
    (hhand : state.inHand = (s.workers i).inHand) (hstop : s.stop = false → state.sawStop = false)
    (hcovered : ∀ j, s.localQueues j ≠ [] → ¬ state.Past j ∨ (s.workers i).Past j) :
    Invariant (s.setWorker i state) := by
  refine h.worker hworks ?_ hstop fun j hj ↦ (hcovered j hj).imp_right fun hpast ↦ ⟨hj, hpast⟩
  rw [custody_update_keep hhand]
  exact h.conserved

/-- A push adds the task to what is queued. -/
theorem conserved_push {s : PoolState n Caller} (h : Invariant s) (j : Fin n) :
    custody queued (s.pushTask j).localQueues + custody WorkerState.inHand s.workers + s.executed =
      Multiset.range (s.accepted + 1) := by
  have hqueues : custody queued (s.pushTask j).localQueues =
      custody queued s.localQueues + {s.accepted} :=
    custody_update_take (push_eq _ _)
  rw [hqueues, add_right_comm (custody queued s.localQueues), add_right_comm, h.conserved,
    Multiset.range_succ, ← Multiset.singleton_add, add_comm]

/-- A worker takes a task out of a queue. -/
theorem Invariant.take {s : PoolState n Caller} (h : Invariant s) {i j : Fin n} {task : TaskId}
    {rest : List TaskId} (hworks : s.workers i ≠ .exited) (hhand : (s.workers i).inHand = 0)
    (hqueue : queued (s.localQueues j) = queued rest + {task}) :
    Invariant ((s.setQueue j rest).setWorker i (.found task)) := by
  refine h.worker hworks ?_ (fun _ ↦ rfl) fun _ _ ↦ .inl id
  have hqueues : custody queued (s.setQueue j rest).localQueues + {task} =
      custody queued s.localQueues := custody_update_give hqueue
  have hhands : custody WorkerState.inHand (Function.update s.workers i (.found task)) =
      custody WorkerState.inHand s.workers + {task} :=
    custody_update_take (by rw [hhand, zero_add]; rfl)
  show _ = Multiset.range s.accepted
  rw [hhands, ← h.conserved, ← hqueues]
  show custody queued (s.setQueue j rest).localQueues + _ + (s.executed : Multiset TaskId) = _
  ac_rfl

/-- A thread outside pushes its task. The pool is not stopped yet, so everybody will look again. -/
theorem Invariant.callerPushes [DecidableEq Caller] (hn : 0 < n) {s : PoolState n Caller}
    (h : Invariant s) {caller : Caller} (hcaller : s.enqueueing caller = true) (j : Fin n) :
    Invariant { s.pushTask j with enqueueing := Function.update s.enqueueing caller false } := by
  have hstop : s.stop = false := by
    by_contra hstop
    exact absurd (h.callers (Bool.eq_true_of_not_eq_false hstop) caller) (by simp [hcaller])
  refine ⟨conserved_push h j, h.stop_eq, h.sawStop_le, fun hs ↦ absurd (hstop.symm.trans hs)
    Bool.false_ne_true,
    fun k _ ↦ ⟨⟨0, hn⟩, fun hpast ↦ ?_⟩, h.joined_le⟩
  exact absurd ((h.sawStop_le hstop ⟨0, hn⟩).symm.trans (WorkerState.Past.sawStop hpast))
    Bool.false_ne_true

/-- What a worker knows of the stop flag is not ahead of the flag. -/
theorem Invariant.sawStop_of {s : PoolState n Caller} (h : Invariant s) {i : Fin n}
    {state : WorkerState} (hi : s.workers i = state) (hs : s.stop = false) :
    state.sawStop = false :=
  hi ▸ h.sawStop_le hs i

theorem Invariant.step [DecidableEq Caller] (hn : 0 < n) {s s' : PoolState n Caller}
    (h : Invariant s) (hstep : Step s s') : Invariant s' := by
  cases hstep with
  | load hi => exact h.setWorker (by simp [hi]) (by rw [hi]; rfl) id fun _ _ ↦ .inl id
  | pop hi hpop => exact h.take (by simp [hi]) (by rw [hi]; rfl) (pop_eq_some hpop)
  | popNothing hi hpop =>
    exact h.setWorker (by simp [hi]) (by rw [hi]; rfl) (fun hs ↦ (h.sawStop_of hi hs :))
      fun _ _ ↦ .inl id
  | steal hi _ _ hsteal => exact h.take (by simp [hi]) (by rw [hi]; rfl) (steal_eq_some hsteal)
  | stealNothing hi _ _ =>
    exact h.setWorker (by simp [hi]) (by rw [hi]; rfl) (fun hs ↦ (h.sawStop_of hi hs :))
      fun _ _ ↦ .inl id
  | @giveUp i stopping hi =>
    -- A worker that has not seen the stop flag goes to sleep.
    cases stopping with
    | false => exact h.setWorker (by simp [hi]) (by rw [hi]; rfl) (fun _ ↦ rfl) fun _ _ ↦ .inl id
    | true =>
      exact h.setWorker (by simp [hi]) (by rw [hi]; rfl) (fun hs ↦ (h.sawStop_of hi hs :))
        fun j _ ↦ .inl (Nat.not_lt_zero j)
  | wake hi =>
    exact h.setWorker (by simp [hi]) (by rw [hi]; rfl) (fun _ ↦ rfl) fun _ _ ↦ .inl id
  | @invoke i task hi =>
    refine h.worker (by simp [hi]) ?_ (fun _ ↦ rfl) fun _ _ ↦ .inl id
    have hhands : custody WorkerState.inHand (Function.update s.workers i (.running task false)) +
        {task} = custody WorkerState.inHand s.workers :=
      custody_update_give (by rw [hi]; exact (zero_add _).symm)
    show custody queued s.localQueues + _ +
      ((s.executed ++ [task] : List TaskId) : Multiset TaskId) =
      Multiset.range s.accepted
    rw [← h.conserved, ← hhands, ← Multiset.coe_add, Multiset.coe_singleton]
    ac_rfl
  | taskEnqueues hi _ =>
    exact h.setWorker (by simp [hi]) (by rw [hi]; rfl) (fun _ ↦ rfl) fun _ _ ↦ .inl id
  | taskPushes hi j =>
    refine h.worker (by simp [hi]) ?_ (fun _ ↦ rfl) fun _ _ ↦ .inl id
    rw [custody_update_keep (by rw [hi]; rfl)]
    exact conserved_push h j
  | taskEnds hi =>
    exact h.setWorker (by simp [hi]) (by rw [hi]; rfl) (fun _ ↦ rfl) fun _ _ ↦ .inl id
  | @scanEmpty i next hi hnext hempty =>
    refine h.setWorker (by simp [hi]) (by rw [hi]; rfl) (fun hs ↦ (h.sawStop_of hi hs :))
      fun j hj ↦ ?_
    -- It is past one more queue, and that one is empty.
    have hne : (j : ℕ) ≠ next := by
      rintro rfl
      exact hj hempty
    rw [hi]
    show ¬ (j : ℕ) < next + 1 ∨ (j : ℕ) < next
    omega
  | scanWork hi _ hwork =>
    exact h.setWorker (by simp [hi]) (by rw [hi]; rfl) (fun _ ↦ rfl) fun _ _ ↦ .inl id
  | exit hi =>
    exact h.setWorker (by simp [hi]) (by rw [hi]; rfl) (fun hs ↦ (h.sawStop_of hi hs :))
      fun j _ ↦ .inr (by rw [hi]; exact j.isLt)
  | callerEnqueues hcaller hjoined hstop =>
    exact ⟨h.conserved, h.stop_eq, h.sawStop_le, fun hs ↦ absurd (hstop.symm.trans hs)
      Bool.false_ne_true,
      h.covered, h.joined_le⟩
  | callerPushes hcaller j => exact h.callerPushes hn hcaller j
  | destroy hjoined hcallers =>
    exact ⟨h.conserved, rfl, fun hs ↦ absurd hs (by simp), fun _ ↦ hcallers, h.covered,
      fun k hk i hi ↦
        absurd hi (by obtain rfl : 0 = k := Option.some.inj hk; exact Nat.not_lt_zero _)⟩
  | @join k hjoined hk hexited =>
    refine ⟨h.conserved, ?_, h.sawStop_le, h.callers, h.covered, fun k' hk' i hi ↦ ?_⟩
    · show s.stop = true
      rw [h.stop_eq, hjoined]
      rfl
    · obtain rfl : k + 1 = k' := Option.some.inj hk'
      rcases Nat.lt_succ_iff_lt_or_eq.1 hi with hlt | heq
      · exact h.joined_le k hjoined i hlt
      · rwa [show i = ⟨k, hk⟩ from Fin.ext heq]

/-- The invariant holds in every reachable state. -/
theorem Reachable.invariant [DecidableEq Caller] (hn : 0 < n) {s : PoolState n Caller}
    (h : Reachable s) : Invariant s :=
  Runs.invariant (fun _ hs ↦ hs ▸ .initial) (fun _ _ hs hstep ↦ hs.step hn hstep) h

/-- Nothing is invoked twice, and nothing that was not accepted. -/
theorem Invariant.executed_le {s : PoolState n Caller} (h : Invariant s) :
    (s.executed : Multiset TaskId) ≤ Multiset.range s.accepted :=
  h.conserved ▸ Multiset.le_add_left _ _

theorem Reachable.executed_nodup [DecidableEq Caller] (hn : 0 < n) {s : PoolState n Caller}
    (h : Reachable s) : s.executed.Nodup :=
  Multiset.coe_nodup.1 (Multiset.nodup_of_le (h.invariant hn).executed_le (Multiset.nodup_range _))

/-- When the destructor has returned, all workers have left their loops and every task whose
`enqueue` returned normally has been invoked exactly once. -/
theorem executed_exactly_once [DecidableEq Caller] (numThreads : ℕ)
    {s : PoolState (workerCount numThreads) Caller} (hreach : Reachable s)
    (hreturned : s.Returned) :
    (∀ i, s.workers i = .exited) ∧ ∀ task < s.accepted, s.executed.count task = 1 := by
  have h := hreach.invariant (workerCount_pos numThreads)
  have hexited : ∀ i, s.workers i = .exited := fun i ↦ h.joined_le _ hreturned i i.isLt
  -- Nobody would look into a queue any more, so all queues are empty.
  have hqueues : ∀ j, s.localQueues j = [] := by
    intro j
    by_contra hj
    obtain ⟨i, hi⟩ := h.covered j hj
    rw [hexited i] at hi
    exact hi trivial
  have hqueued : custody queued s.localQueues = 0 := custody_eq_zero fun j ↦ by rw [hqueues j]; rfl
  have hhands : custody WorkerState.inHand s.workers = 0 :=
    custody_eq_zero fun i ↦ by rw [hexited i]; rfl
  refine ⟨hexited, fun task htask ↦ ?_⟩
  have hall : (s.executed : Multiset TaskId) = Multiset.range s.accepted := by
    rw [← h.conserved, hqueued, hhands, zero_add, zero_add]
  rw [← Multiset.coe_count, hall]
  exact Multiset.count_eq_one_of_mem (Multiset.nodup_range _) (Multiset.mem_range.2 htask)

/-- The only worker of a pool for which no threads were asked. -/
def onlyWorker : Fin (workerCount 0) :=
  ⟨0, workerCount_pos 0⟩

/-- A run in which a thread outside enqueues one task, the worker executes it, and the destructor
joins the worker. -/
theorem exists_returned : ∃ s : PoolState (workerCount 0) Unit,
    Reachable s ∧ s.Returned ∧ s.accepted = 1 := by
  have start : Runs (· = .initial (workerCount 0) Unit) Step (.initial (workerCount 0) Unit) :=
    ⟨_, rfl, .refl⟩
  have enqueued := (start.tail (@Step.callerEnqueues _ _ _ _ () rfl rfl rfl)).tail
    (@Step.callerPushes _ _ _ _ () rfl onlyWorker)
  have executed := (((enqueued.tail (@Step.load _ _ _ _ onlyWorker rfl)).tail
    (@Step.pop _ _ _ _ onlyWorker _ _ _ rfl rfl)).tail
    (@Step.invoke _ _ _ _ onlyWorker _ rfl)).tail (@Step.taskEnds _ _ _ _ onlyWorker _ rfl)
  have stopped := ((executed.tail (.destroy rfl fun _ ↦ rfl)).tail
    (@Step.load _ _ _ _ onlyWorker rfl)).tail (@Step.popNothing _ _ _ _ onlyWorker _ rfl rfl)
  have drained := (stopped.tail
    (@Step.stealNothing _ _ _ _ onlyWorker onlyWorker _ _ rfl (by decide) (.inl rfl))).tail
    (@Step.stealNothing _ _ _ _ onlyWorker onlyWorker _ _ rfl (by decide) (.inl rfl))
  have exited := ((drained.tail (@Step.giveUp _ _ _ _ onlyWorker _ rfl)).tail
    (@Step.scanEmpty _ _ _ _ onlyWorker _ rfl (by decide) rfl)).tail
    (@Step.exit _ _ _ _ onlyWorker rfl)
  exact ⟨_, exited.tail (.join rfl (workerCount_pos 0) rfl), rfl, rfl⟩

/-- The task of that run. -/
theorem executed_once_of_exists_returned : ∃ s : PoolState (workerCount 0) Unit,
    s.Returned ∧ s.accepted = 1 ∧ s.executed.count 0 = 1 := by
  obtain ⟨s, hreach, hreturned, haccepted⟩ := exists_returned
  refine ⟨s, hreturned, haccepted, (executed_exactly_once 0 hreach hreturned).2 0 ?_⟩
  rw [haccepted]
  exact Nat.one_pos

end WorkStealingThreadPool

end FastRules
