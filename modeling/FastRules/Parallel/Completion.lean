import FastRules.Parallel.Safety

/-!
# Every call of the parallel executor returns

A task takes one engine, gives it back before it returns and waits for nothing in between. So there
is always an engine to be had, or a task that has one and can go ahead (`Alive.exists_step`). As the
tasks are finitely many programs and the calling thread has finitely many batches to launch and
results to collect, every interleaving ends, in a configuration in which the call has returned
(`returns`).
-/

namespace FastRules

open Program Interleaving

namespace ParallelCall

variable {x : ParallelCall} {c : Config} {i j : ℕ}

/-- Whether the task has an engine after the request. -/
def holdsAfter : (op : Op) → op.Ans → Bool → Bool
  | .acquireEngine, engine, _ => engine.isSome
  | .releaseEngine _, _, _ => false
  | _, _, holds => holds

/-- A task takes an engine only if it has none. -/
def engineInterface : Program.Interface Op Op.Ans Bool where
  pre op holds := op = .acquireEngine → holds = false
  step op holds a holds' := holds' = holdsAfter op a holds

/-- What holds in every configuration of a call that has at least one engine. -/
structure Alive (x : ParallelCall) (c : Config) : Prop where
  reaches : x.Reaches c
  batch_le : c.state.batch ≤ x.batches.length
  idle : ∀ i, x.tasks.length ≤ i → (c.thread i).hasReturned = true
  engine : ∃ holds : ℕ → Bool,
    (∀ i, Ensures engineInterface (fun _ b ↦ b = false) (c.thread i) (holds i)) ∧
      (c.state.pool ≠ [] ∨ ∃ i, holds i = true)

/-! ### Steps -/

theorem dependencySatisfied_keeps (r : Rule) (b : Bool) :
    Ensures engineInterface (fun _ b' ↦ b' = b) (dependencySatisfied 0 r) b := by
  rw [dependencySatisfied]
  split
  · exact rfl
  · exact ⟨Op.noConfusion, fun _ _ h ↦ h⟩

theorem execute_keeps (engine : EnginePtr) (context : ContextPtr) (parameters : List RuleParameter)
    (r : Rule) (b : Bool) :
    Ensures engineInterface (fun _ b' ↦ b' = b) (r.execute engine context parameters) b := by
  refine (execute_asks engine context parameters r).ensures_invariant (fun op b' hop _ ↦ ?_)
    (fun op b' a b'' hop hb hstep ↦ ?_) rfl
  · rintro rfl
    exact absurd hop id
  · obtain rfl : b'' = holdsAfter op a b' := hstep
    rw [← hb]
    cases op
    case acquireEngine | releaseEngine => exact absurd hop id
    all_goals rfl

/-- A task gives its engine back. -/
theorem task_returns_engine (i : ℕ) :
    Ensures engineInterface (fun _ b ↦ b = false) (x.task i) false := by
  rw [task]
  split
  · rename_i t ht
    refine ⟨fun _ ↦ rfl, fun engine b hb ↦ ?_⟩
    obtain rfl : b = engine.isSome := hb
    rcases engine with - | engine
    · exact rfl
    · refine (ensures_bind (dependencySatisfied 0 t.rule) _ _).2
        ((dependencySatisfied_keeps t.rule true).mono fun satisfied b hb ↦ ?_)
      split_ifs
      · refine (ensures_bind _ _ _).2
          ((execute_keeps engine 0 x.parameters t.rule b).mono fun a b' _ ↦ ?_)
        exact ⟨Op.noConfusion, fun _ _ h ↦ h⟩
      · exact ⟨Op.noConfusion, fun _ _ h ↦ h⟩
  · exact rfl

theorem alive_start (hengines : x.engines ≠ []) : x.Alive x.start where
  reaches := .refl
  batch_le := Nat.zero_le _
  idle i hi := by
    show (x.task i).hasReturned = true
    rw [task, List.getElem?_eq_none hi]
    rfl
  engine := ⟨fun _ ↦ false, task_returns_engine, .inl hengines⟩

/-- What a request does to the pool. -/
theorem pool_of_effect {op : Op} {s s' : ParallelState} {a : op.Ans} (h : x.effect i op s a s')
    {b : Bool} (hpool : s.pool ≠ [] ∨ b = true) : s'.pool ≠ [] ∨ holdsAfter op a b = true := by
  cases op
  case acquireEngine =>
    obtain ⟨-, e, pool, -, rfl, -⟩ := h
    exact .inr rfl
  case releaseEngine engine =>
    obtain rfl : s' = _ := h
    exact .inl (List.cons_ne_nil engine s.pool)
  case setResult =>
    obtain rfl : s' = _ := h
    exact hpool
  case setLastError =>
    obtain rfl : s' = _ := h
    exact hpool
  all_goals
    obtain ⟨-, rfl⟩ := h
    exact hpool

theorem Alive.step {c' : Config} (h : x.Alive c) (hstep : Step x.step x.Supervise c c') :
    x.Alive c' := by
  refine ⟨h.reaches.tail hstep, ?_, ?_, ?_⟩
  · rcases hstep with ⟨-, t, heffect, rfl⟩ | hsup
    · exact (effect_frame heffect).1.trans_le h.batch_le
    · rcases hsup with ⟨hbatch, -⟩ | -
      · exact hbatch
      · exact h.batch_le
  · rcases hstep with ⟨hthread, -⟩ | -
    · rename_i i op next a s'
      intro j hj
      have hne : j ≠ i := by
        rintro rfl
        have hreturned := h.idle j hj
        rw [hthread] at hreturned
        cases hreturned
      show (Function.update c.thread i (next a) j).hasReturned = true
      rw [Function.update_of_ne hne]
      exact h.idle j hj
    · exact h.idle
  · -- only the thread that made the step may have changed whether it holds an engine
    obtain ⟨holds, hens, hpool⟩ := h.engine
    rcases hstep with ⟨hthread, t, heffect, rfl⟩ | hsup
    · rename_i i op next a
      have hi := hens i
      rw [hthread] at hi
      refine ⟨Function.update holds i (holdsAfter op a (holds i)), fun j ↦ ?_, ?_⟩
      · show Ensures _ _ (Function.update c.thread i (next a) j) _
        rcases eq_or_ne j i with rfl | hne
        · rw [Function.update_self, Function.update_self]
          exact hi.2 a _ rfl
        · rw [Function.update_of_ne hne, Function.update_of_ne hne]
          exact hens j
      · show t.pool ≠ [] ∨ _
        -- an engine that another task holds stays where it is
        by_cases hother : ∃ j, j ≠ i ∧ holds j = true
        · obtain ⟨j, hne, hj⟩ := hother
          exact .inr ⟨j, by rwa [Function.update_of_ne hne]⟩
        · have hown : c.state.pool ≠ [] ∨ holds i = true := by
            refine hpool.imp_right fun ⟨j, hj⟩ ↦ ?_
            by_contra hnot
            exact hother ⟨j, fun he ↦ hnot (he ▸ hj), hj⟩
          exact (pool_of_effect heffect hown).imp_right fun hheld ↦
            ⟨i, by rwa [Function.update_self]⟩
    · rcases hsup with - | -
      · exact ⟨holds, hens, hpool⟩
      · exact ⟨holds, hens, hpool⟩

theorem Reaches.alive (h : x.Reaches c) (hengines : x.engines ≠ []) : x.Alive c :=
  h.invariant (alive_start hengines) fun _ _ ↦ Alive.step

/-! ### No call gets stuck -/

section Answers

variable (hanswers : ∀ op, ∃ a, x.answers op a)
include hanswers

/-- Every request is answered, unless it is for an engine. -/
theorem exists_effect {op : Op} (hop : op ≠ .acquireEngine) (i : ℕ) (s : ParallelState) :
    ∃ a s', x.effect i op s a s' := by
  cases op
  case acquireEngine => exact absurd rfl hop
  case releaseEngine => exact ⟨(), _, rfl⟩
  case getResult => exact ⟨_, s, rfl, rfl⟩
  case setResult => exact ⟨(), _, rfl⟩
  case setLastError => exact ⟨(), _, rfl⟩
  all_goals
    obtain ⟨a, ha⟩ := hanswers _
    exact ⟨a, s, ha, rfl⟩

/-- A task that does not ask for an engine can go ahead. -/
theorem exists_step_of_ask {op : Op} {next : op.Ans → RuleProgram RuleResult}
    (hthread : c.thread i = .ask op next) (hop : op ≠ .acquireEngine) :
    ∃ c', Step x.step x.Supervise c c' := by
  obtain ⟨a, s', heffect⟩ := exists_effect hanswers hop i c.state
  exact ⟨_, .own hthread ⟨s', heffect, rfl⟩⟩

/-- A task that has been launched and has not returned is no obstacle. -/
theorem Alive.exists_step_of_launched (h : x.Alive c) (hlaunched : x.Launched c.state i)
    (hrunning : (c.thread i).hasReturned = false) : ∃ c', Step x.step x.Supervise c c' := by
  rcases hthread : c.thread i with a | ⟨op, next⟩
  · rw [hthread] at hrunning
    cases hrunning
  · by_cases hop : op = .acquireEngine
    · subst hop
      rcases hpool : c.state.pool with - | ⟨engine, pool⟩
      · -- some task has an engine, and does not ask for another
        obtain ⟨holds, hens, hnonempty⟩ := h.engine
        obtain ⟨j, hj⟩ := hnonempty.resolve_left (not_not.2 hpool)
        have hjens := hens j
        rw [hj] at hjens
        rcases hjthread : c.thread j with b | ⟨op', next'⟩
        · rw [hjthread] at hjens
          exact absurd hjens Bool.noConfusion
        · rw [hjthread] at hjens
          exact exists_step_of_ask hanswers hjthread fun he ↦ Bool.noConfusion (hjens.1 he)
      · exact ⟨_, .own hthread ⟨_, ⟨hlaunched, engine, pool, hpool, rfl, rfl⟩, rfl⟩⟩
    · exact exists_step_of_ask hanswers hthread hop

/-- **No call gets stuck** before it returns. -/
theorem Alive.exists_step (h : x.Alive c) (hnot : ¬x.Returned c) :
    ∃ c', Step x.step x.Supervise c c' := by
  have hprogress := h.reaches.progress
  by_cases hrunning : ∃ i, x.Launched c.state i ∧ (c.thread i).hasReturned = false
  · obtain ⟨i, hlaunched, hi⟩ := hrunning
    exact h.exists_step_of_launched hanswers hlaunched hi
  have hreturned : ∀ i, x.Launched c.state i → ∃ a, c.thread i = .ret a := by
    intro i hlaunched
    rcases hthread : c.thread i with a | ⟨op, next⟩
    · exact ⟨a, rfl⟩
    · exact absurd ⟨i, hlaunched, by rw [hthread]; rfl⟩ hrunning
  by_cases hnext : x.Launched c.state c.state.collected
  · obtain ⟨t, ht, hbatch⟩ := id hnext
    obtain ⟨a, hready⟩ := hreturned _ hnext
    exact ⟨_, .other (.collect ht hbatch hready)⟩
  · -- whatever has been launched is collected
    have hdone : ∀ i, x.Launched c.state i → i < c.state.collected := by
      rintro i ⟨t, ht, hbatch⟩
      by_contra hle
      have hi : i < x.tasks.length := (List.getElem?_eq_some_iff.1 ht).1
      have hlt : c.state.collected < x.tasks.length := (not_lt.1 hle).trans_lt hi
      have hcollected : x.tasks[c.state.collected]? = some x.tasks[c.state.collected] :=
        List.getElem?_eq_getElem hlt
      exact hnext ⟨_, hcollected, (batch_mono hcollected ht (not_lt.1 hle)).trans_lt hbatch⟩
    rcases h.batch_le.lt_or_eq with hlt | heq
    · exact ⟨_, .other (.launch hlt hdone)⟩
    · refine absurd ⟨h.reaches, heq, ?_⟩ hnot
      refine Nat.le_antisymm hprogress.collected_le (not_lt.1 fun hlt ↦ ?_)
      have ht : x.tasks[c.state.collected]? = some x.tasks[c.state.collected] :=
        List.getElem?_eq_getElem hlt
      exact hnext ⟨_, ht, (batch_lt_length ht).trans_eq heq.symm⟩

/-- **Every call returns**, in every interleaving. -/
theorem returns (hengines : x.engines ≠ []) :
    Inevitably (Step x.step x.Supervise) x.Returned x.start := by
  refine Inevitably.of_invariant x.Alive (wellFounded_step_of_measure (Finset.range x.tasks.length)
    (fun s ↦ (x.batches.length - s.batch) + (x.tasks.length - s.collected)) ?_ ?_ ?_)
    (fun c c' h hstep ↦ h.step hstep) (fun c h hstuck ↦ ?_) (alive_start hengines)
  · exact fun c h i hi ↦ h.idle i (not_lt.1 fun hlt ↦ hi (Finset.mem_range.2 hlt))
  · rintro i op s a s' ⟨t, heffect, rfl⟩
    obtain ⟨hbatch, hcollected, -⟩ := effect_frame heffect
    show (x.batches.length - t.batch) + (x.tasks.length - t.collected) = _
    rw [hbatch, hcollected]
  · rintro thread s s' (⟨hbatch, -⟩ | ⟨ht, -, -⟩)
    · show (x.batches.length - (s.batch + 1)) + (x.tasks.length - s.collected) < _
      omega
    · have hlt : s.collected < x.tasks.length := (List.getElem?_eq_some_iff.1 ht).1
      show (x.batches.length - s.batch) + (x.tasks.length - (s.collected + 1)) < _
      omega
  · by_contra hnot
    exact hstuck (h.exists_step hanswers hnot)

end Answers

end ParallelCall

end FastRules
