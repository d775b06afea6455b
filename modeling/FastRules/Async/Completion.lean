import FastRules.Async.Executor
import FastRules.Parallel.Completion

/-!
# Every call of the asynchronous executor returns

There are at least as many engines as workers, so a task that finds a worker finds an engine. A task
that is waiting for a worker is waiting for tasks that have an engine, and these wait for nothing
(`Alive.exists_step`). The calling thread has finitely many levels to enter and results to collect,
so every interleaving ends, in a configuration in which the call has returned (`returns`).
-/

namespace FastRules

open Program Interleaving

namespace AsyncCall

variable {x : AsyncCall} {c : Config} {i j : ℕ}

/-- The level of task `i` has been entered. -/
def Entered (x : AsyncCall) (s : AsyncState) (i : ℕ) : Prop :=
  ∃ t, x.tasks[i]? = some t ∧ t.level < s.level

/-- There is a worker for one more task. -/
def WorkerFree (x : AsyncCall) (s : AsyncState) : Prop :=
  x.poolSize - s.pool.length < x.workers

/-- What holds in every configuration of a call. -/
structure Alive (x : AsyncCall) (c : Config) : Prop where
  reaches : x.Reaches c
  level_le : c.state.level ≤ x.levels.length
  collected_le : c.state.collected ≤ x.tasks.length
  entered : ∀ i < c.state.collected, x.Entered c.state i
  idle : ∀ i, x.tasks.length ≤ i → (c.thread i).hasReturned = true
  /-- No more engines are in use than there are workers. -/
  inUse : x.poolSize ≤ c.state.pool.length + x.workers
  engine : ∃ holds : ℕ → Bool,
    (∀ i, Ensures ParallelCall.engineInterface (fun _ b ↦ b = false) (c.thread i) (holds i)) ∧
      (x.WorkerFree c.state ∨ ∃ i, holds i = true)

/-! ### Workers and engines -/

theorem workers_pos (x : AsyncCall) : 0 < x.workers :=
  lt_max_of_lt_right Nat.one_pos

theorem workers_le_poolSize (x : AsyncCall) : x.workers ≤ x.poolSize :=
  max_le_max_left _ (Nat.le_succ 1)

/-- Where a worker is free there is an engine. -/
theorem WorkerFree.exists_engine {s : AsyncState} (h : x.WorkerFree s) :
    ∃ engine pool, s.pool = engine :: pool := by
  refine List.exists_cons_of_ne_nil fun hnil ↦ ?_
  rw [WorkerFree, hnil, List.length_nil, Nat.sub_zero] at h
  exact absurd x.workers_le_poolSize (not_le.2 h)

theorem workerFree_start (x : AsyncCall) : x.WorkerFree x.start.state := by
  have hlength : x.start.state.pool.length = x.poolSize := by simp [start]
  rw [WorkerFree, hlength, Nat.sub_self]
  exact x.workers_pos

/-! ### Steps -/

/-- What a request leaves alone. -/
theorem step_frame {op : Op} {s s' : AsyncState} {a : op.Ans} (h : x.step i op s a s') :
    s'.level = s.level ∧ s'.collected = s.collected ∧ s'.sharedContext = s.sharedContext ∧
      s'.allResults = s.allResults := by
  cases op
  case acquireEngine =>
    obtain ⟨-, -, -, rfl⟩ := h
    exact ⟨rfl, rfl, rfl, rfl⟩
  case releaseEngine | setResult | setLastError =>
    obtain rfl : s' = _ := h
    exact ⟨rfl, rfl, rfl, rfl⟩
  all_goals
    obtain ⟨-, rfl⟩ := h
    exact ⟨rfl, rfl, rfl, rfl⟩

/-- What a request does to the pool. -/
theorem pool_of_step {op : Op} {s s' : AsyncState} {a : op.Ans} (h : x.step i op s a s')
    (hinUse : x.poolSize ≤ s.pool.length + x.workers) {b : Bool}
    (hfree : x.WorkerFree s ∨ b = true) :
    x.poolSize ≤ s'.pool.length + x.workers ∧
      (x.WorkerFree s' ∨ ParallelCall.holdsAfter op a b = true) := by
  cases op
  case acquireEngine =>
    obtain ⟨-, hworker, rfl, rfl⟩ := h
    obtain ⟨engine, pool, hpool⟩ := WorkerFree.exists_engine hworker
    rw [hpool] at hworker ⊢
    rw [List.length_cons] at hworker
    exact ⟨show x.poolSize ≤ pool.length + x.workers by omega, .inr rfl⟩
  case releaseEngine engine =>
    obtain rfl : s' = _ := h
    have hpos := x.workers_pos
    refine ⟨show x.poolSize ≤ s.pool.length + 1 + x.workers by omega, .inl ?_⟩
    show x.poolSize - (s.pool.length + 1) < x.workers
    omega
  case setResult | setLastError =>
    obtain rfl : s' = _ := h
    exact ⟨hinUse, hfree⟩
  all_goals
    obtain ⟨-, rfl⟩ := h
    exact ⟨hinUse, hfree⟩

/-- A task gives its engine back. -/
theorem task_returns_engine (i : ℕ) :
    Ensures ParallelCall.engineInterface (fun _ b ↦ b = false) (x.task i) false := by
  rw [task]
  split
  · rename_i t ht
    refine ⟨fun _ ↦ rfl, fun engine b hb ↦ ?_⟩
    obtain rfl : b = engine.isSome := hb
    rcases engine with - | engine
    · exact rfl
    · refine (ensures_bind (t.rule.execute engine i x.parameters) _ _).2
        ((ParallelCall.execute_keeps engine i x.parameters t.rule true).mono fun a b _ ↦ ?_)
      exact ⟨Op.noConfusion, fun _ _ h ↦ h⟩
  · exact rfl

theorem alive_start : x.Alive x.start where
  reaches := .refl
  level_le := Nat.zero_le _
  collected_le := Nat.zero_le _
  entered _ h := absurd h (Nat.not_lt_zero _)
  idle i hi := by
    show (x.task i).hasReturned = true
    rw [task, List.getElem?_eq_none hi]
    rfl
  inUse := by
    have hlength : x.start.state.pool.length = x.poolSize := by simp [start]
    rw [hlength]
    exact Nat.le_add_right _ _
  engine := ⟨fun _ ↦ false, task_returns_engine, .inl x.workerFree_start⟩

/-- A request of a task. -/
theorem Alive.request (h : x.Alive c) {op : Op} {next : op.Ans → RuleProgram RuleResult}
    (hthread : c.thread i = .ask op next) {a : op.Ans} {s' : AsyncState}
    (hstep : x.step i op c.state a s') : x.Alive ⟨Function.update c.thread i (next a), s'⟩ := by
  obtain ⟨hlevel, hcollected, -, -⟩ := step_frame hstep
  obtain ⟨holds, hens, hfree⟩ := h.engine
  have hi := hens i
  rw [hthread] at hi
  refine ⟨h.reaches.tail (.own hthread hstep), hlevel.trans_le h.level_le,
    hcollected.trans_le h.collected_le, fun j hj ↦ ?_, fun j hj ↦ ?_, ?_, ?_⟩
  · obtain ⟨t, ht, hlt⟩ := h.entered j (hj.trans_eq hcollected)
    exact ⟨t, ht, hlt.trans_eq hlevel.symm⟩
  · have hne : j ≠ i := by
      rintro rfl
      have hreturned := h.idle j hj
      rw [hthread] at hreturned
      cases hreturned
    show (Function.update c.thread i (next a) j).hasReturned = true
    rw [Function.update_of_ne hne]
    exact h.idle j hj
  · exact (pool_of_step hstep h.inUse (b := true) (.inr rfl)).1
  · -- only the thread that made the step may have changed whether it holds an engine
    refine ⟨Function.update holds i (ParallelCall.holdsAfter op a (holds i)), fun j ↦ ?_, ?_⟩
    · show Ensures _ _ (Function.update c.thread i (next a) j) _
      rcases eq_or_ne j i with rfl | hne
      · rw [Function.update_self, Function.update_self]
        exact hi.2 a _ rfl
      · rw [Function.update_of_ne hne, Function.update_of_ne hne]
        exact hens j
    · by_cases hother : ∃ j, j ≠ i ∧ holds j = true
      · obtain ⟨j, hne, hj⟩ := hother
        exact .inr ⟨j, by rwa [Function.update_of_ne hne]⟩
      · have hown : x.WorkerFree c.state ∨ holds i = true := by
          refine hfree.imp_right fun ⟨j, hj⟩ ↦ ?_
          by_contra hnot
          exact hother ⟨j, fun he ↦ hnot (he ▸ hj), hj⟩
        exact (pool_of_step hstep h.inUse hown).2.imp_right fun hheld ↦
          ⟨i, by rwa [Function.update_self]⟩

/-- A step of the calling thread. -/
theorem Alive.supervise (h : x.Alive c) {s' : AsyncState} (hsup : x.Supervise c.thread c.state s') :
    x.Alive ⟨c.thread, s'⟩ := by
  have hreaches := h.reaches.tail (.other hsup)
  rcases hsup with ⟨hlevel, hdone⟩ | ⟨htask, hlevel, hready⟩
  · have hlt : c.state.level < x.levels.length := (List.getElem?_eq_some_iff.1 hlevel).1
    refine ⟨hreaches, hlt, h.collected_le, fun j hj ↦ ?_, h.idle, h.inUse, h.engine⟩
    obtain ⟨t, ht, hbefore⟩ := h.entered j hj
    exact ⟨t, ht, Nat.lt_succ_of_lt hbefore⟩
  · have hlt : c.state.collected < x.tasks.length := (List.getElem?_eq_some_iff.1 htask).1
    refine ⟨hreaches, h.level_le, hlt, fun j hj ↦ ?_, h.idle, h.inUse, h.engine⟩
    rcases (Nat.lt_succ_iff.1 hj).lt_or_eq with hj | rfl
    · exact h.entered j hj
    · exact ⟨_, htask, hlevel⟩

theorem Alive.step {c' : Config} (h : x.Alive c) (hstep : Step x.step x.Supervise c c') :
    x.Alive c' := by
  rcases hstep with ⟨hthread, hstep⟩ | hsup
  · exact h.request hthread hstep
  · exact h.supervise hsup

theorem Reaches.alive (h : x.Reaches c) : x.Alive c := by
  induction h with
  | refl => exact alive_start
  | tail _ hstep ih => exact ih.step hstep

/-! ### No call gets stuck -/

section Answers

variable (hanswers : ∀ op, ∃ a, x.answers op a)
include hanswers

/-- A task that does not ask for an engine can go ahead. -/
theorem exists_step_of_ask {op : Op} {next : op.Ans → RuleProgram RuleResult}
    (hthread : c.thread i = .ask op next) (hop : op ≠ .acquireEngine) :
    ∃ c', Step x.step x.Supervise c c' := by
  have hstep : ∃ a s', x.step i op c.state a s' := by
    cases op
    case acquireEngine => exact absurd rfl hop
    case releaseEngine | setResult | setLastError => exact ⟨(), _, rfl⟩
    case getResult => exact ⟨_, c.state, rfl, rfl⟩
    all_goals
      obtain ⟨a, ha⟩ := hanswers _
      exact ⟨a, c.state, ha, rfl⟩
  obtain ⟨a, s', hstep⟩ := hstep
  exact ⟨_, .own hthread hstep⟩

/-- A task whose level has been entered, and that has not returned, is no obstacle. -/
theorem Alive.exists_step_of_entered (h : x.Alive c) (hentered : x.Entered c.state i)
    (hrunning : (c.thread i).hasReturned = false) : ∃ c', Step x.step x.Supervise c c' := by
  rcases hthread : c.thread i with a | ⟨op, next⟩
  · rw [hthread] at hrunning
    cases hrunning
  · by_cases hop : op = .acquireEngine
    · subst hop
      by_cases hfree : x.WorkerFree c.state
      · obtain ⟨t, ht, hlevel⟩ := hentered
        have hin : (x.tasks[i]?.any fun t ↦ t.level < c.state.level) = true := by
          simpa [ht] using hlevel
        exact ⟨_, .own hthread ⟨hin, hfree, rfl, rfl⟩⟩
      · -- some task has an engine, and does not ask for another
        obtain ⟨holds, hens, hbusy⟩ := h.engine
        obtain ⟨j, hj⟩ := hbusy.resolve_left hfree
        have hjens := hens j
        rw [hj] at hjens
        rcases hjthread : c.thread j with b | ⟨op', next'⟩
        · rw [hjthread] at hjens
          exact absurd hjens Bool.noConfusion
        · rw [hjthread] at hjens
          exact exists_step_of_ask hanswers hjthread fun he ↦ Bool.noConfusion (hjens.1 he)
    · exact exists_step_of_ask hanswers hthread hop

/-- **No call gets stuck** before it returns. -/
theorem Alive.exists_step (h : x.Alive c) (hnot : ¬x.Returned c) :
    ∃ c', Step x.step x.Supervise c c' := by
  by_cases hrunning : ∃ i, x.Entered c.state i ∧ (c.thread i).hasReturned = false
  · obtain ⟨i, hentered, hi⟩ := hrunning
    exact h.exists_step_of_entered hanswers hentered hi
  by_cases hnext : x.Entered c.state c.state.collected
  · obtain ⟨t, ht, hlevel⟩ := id hnext
    rcases hthread : c.thread c.state.collected with a | ⟨op, next⟩
    · exact ⟨_, .other (.collect ht hlevel hthread)⟩
    · exact absurd ⟨_, hnext, by rw [hthread]; rfl⟩ hrunning
  · -- all tasks of the levels that have been entered are collected
    have hdone : ∀ i t, x.tasks[i]? = some t → t.level < c.state.level → i < c.state.collected := by
      intro i t ht hlevel
      by_contra hle
      have hi : i < x.tasks.length := (List.getElem?_eq_some_iff.1 ht).1
      have hlt : c.state.collected < x.tasks.length := (not_lt.1 hle).trans_lt hi
      have hcollected : x.tasks[c.state.collected]? = some x.tasks[c.state.collected] :=
        List.getElem?_eq_getElem hlt
      exact hnext ⟨_, hcollected, (x.level_mono (not_lt.1 hle) hcollected ht).trans_lt hlevel⟩
    rcases h.level_le.lt_or_eq with hlt | heq
    · exact ⟨_, .other (.startLevel (List.getElem?_eq_getElem hlt) hdone)⟩
    · refine absurd ⟨h.reaches, heq, ?_⟩ hnot
      refine Nat.le_antisymm h.collected_le (not_lt.1 fun hlt ↦ ?_)
      have ht : x.tasks[c.state.collected]? = some x.tasks[c.state.collected] :=
        List.getElem?_eq_getElem hlt
      obtain ⟨level, hlevel, -⟩ := mem_asyncTasks.1 (List.mem_of_getElem? ht)
      exact hnext ⟨_, ht, (List.getElem?_eq_some_iff.1 hlevel).1.trans_eq heq.symm⟩

/-- **Every call returns**, in every interleaving. -/
theorem returns : Inevitably (Step x.step x.Supervise) x.Returned x.start := by
  refine Inevitably.of_invariant x.Alive (wellFounded_step_of_measure (Finset.range x.tasks.length)
    (fun s ↦ (x.levels.length - s.level) + (x.tasks.length - s.collected)) ?_ ?_ ?_)
    (fun c c' h hstep ↦ h.step hstep) (fun c h hstuck ↦ ?_) alive_start
  · exact fun c h i hi ↦ h.idle i (not_lt.1 fun hlt ↦ hi (Finset.mem_range.2 hlt))
  · intro i op s a s' hstep
    obtain ⟨hlevel, hcollected, -, -⟩ := step_frame hstep
    rw [hlevel, hcollected]
  · rintro thread s s' (⟨hlevel, -⟩ | ⟨htask, -, -⟩)
    · have hlt : s.level < x.levels.length := (List.getElem?_eq_some_iff.1 hlevel).1
      show (x.levels.length - (s.level + 1)) + (x.tasks.length - s.collected) < _
      omega
    · have hlt : s.collected < x.tasks.length := (List.getElem?_eq_some_iff.1 htask).1
      show (x.levels.length - s.level) + (x.tasks.length - (s.collected + 1)) < _
      omega
  · by_contra hnot
    exact hstuck (h.exists_step hanswers hnot)

end Answers

end AsyncCall

end FastRules
