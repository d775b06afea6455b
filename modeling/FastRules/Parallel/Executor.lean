import FastRules.Foundations.Interleaving
import FastRules.Workflow.Sequential

/-!
# The parallel executor

`Workflow::executeParallel` after its levels are built, as an interleaving. The active rules of a
level are launched in batches no larger than the engine pool; each is a task on the one shared
context. The calling thread launches a batch when it has collected the results of the batches
before, and publishes each result it collects once more.

The tasks of a batch are launched together here. `std::async` launches them one after the other, so
a task may get ahead while others are not launched yet; then those are just not scheduled. An
acquisition that waits is not scheduled either: none times out.

What the rest of the program answers is a relation, the same at all times. The state keeps a log of
what was requested and collected, which nobody reads.
-/

namespace FastRules

open Program

/-! ### Batches -/

/-- `for (size_t offset = 0; offset < pending.size(); offset += maxConcurrency)`, the rules from
`offset` to `batchEnd`. -/
def batchesOf (maxConcurrency : ℕ) (pending : List Rule) : List (List Rule) :=
  (List.range ((pending.length + maxConcurrency - 1) / maxConcurrency)).map fun k ↦
    (pending.drop (k * maxConcurrency)).take maxConcurrency

/-- The batches of all levels, of the rules that actually run. -/
def parallelBatches (maxConcurrency : ℕ) (levels : List (List Rule)) : List (List Rule) :=
  levels.flatMap fun level ↦ batchesOf maxConcurrency (level.filter fun r ↦ r.isActive)

/-- A rule in its batch. -/
structure ParallelTask where
  batch : ℕ
  rule : Rule

/-- The tasks in the order in which they are launched, and their results collected. -/
def parallelTasks (batches : List (List Rule)) : List ParallelTask :=
  batches.zipIdx.flatMap fun x ↦ x.1.map fun rule ↦ ⟨x.2, rule⟩

theorem flatten_batches {α : Type} (n count : ℕ) (l : List α) :
    ((List.range count).map fun k ↦ (l.drop (k * n)).take n).flatten = l.take (count * n) := by
  induction count with
  | zero => simp
  | succ count ih =>
    rw [List.range_succ, List.map_append, List.flatten_append, ih, Nat.succ_mul, List.take_add]
    simp

/-- The batches of a level are the rules of the level. -/
theorem flatten_batchesOf {n : ℕ} (hn : 0 < n) (pending : List Rule) :
    (batchesOf n pending).flatten = pending := by
  have hcount : pending.length ≤ (pending.length + n - 1) / n * n := by
    have := Nat.div_add_mod (pending.length + n - 1) n
    have := Nat.mod_lt (pending.length + n - 1) hn
    rw [Nat.mul_comm]
    omega
  rw [batchesOf, flatten_batches, List.take_of_length_le hcount]

theorem length_le_of_mem_batchesOf {n : ℕ} {pending batch : List Rule}
    (h : batch ∈ batchesOf n pending) : batch.length ≤ n := by
  obtain ⟨k, -, rfl⟩ := List.mem_map.1 h
  exact List.length_take_le _ _

theorem length_le_of_mem_parallelBatches {n : ℕ} {levels : List (List Rule)} {batch : List Rule}
    (h : batch ∈ parallelBatches n levels) : batch.length ≤ n := by
  obtain ⟨level, -, hbatch⟩ := List.mem_flatMap.1 h
  exact length_le_of_mem_batchesOf hbatch

/-- All batches together are the active rules, level by level. -/
theorem flatten_parallelBatches {n : ℕ} (hn : 0 < n) (levels : List (List Rule)) :
    (parallelBatches n levels).flatten = levels.flatten.filter fun r ↦ r.isActive := by
  induction levels with
  | nil => rfl
  | cons level levels ih =>
    rw [parallelBatches] at ih ⊢
    rw [List.flatMap_cons, List.flatten_append, ih, flatten_batchesOf hn, List.flatten_cons,
      List.filter_append]

theorem map_rule_parallelTasks (batches : List (List Rule)) :
    (parallelTasks batches).map (fun t ↦ t.rule) = batches.flatten := by
  have hrules : ∀ x : List Rule × ℕ, (x.1.map fun rule ↦ (⟨x.2, rule⟩ : ParallelTask)).map
      (fun t ↦ t.rule) = x.1 := by
    intro x
    rw [List.map_map]
    exact List.map_id _
  rw [parallelTasks, List.map_flatMap, List.flatMap_congr fun x _ ↦ hrules x]
  rw [List.flatMap_def, List.zipIdx_map_fst]

/-- The batch of a task holds its rule. -/
theorem exists_batch_of_mem {batches : List (List Rule)} {t : ParallelTask}
    (ht : t ∈ parallelTasks batches) :
    ∃ batch, batches[t.batch]? = some batch ∧ t.rule ∈ batch := by
  obtain ⟨⟨batch, k⟩, hbatch, hin⟩ := List.mem_flatMap.1 ht
  obtain ⟨r, hr, rfl⟩ := List.mem_map.1 hin
  exact ⟨batch, List.mem_zipIdx_iff_getElem?.1 hbatch, hr⟩

/-- Tasks are launched batch by batch. -/
theorem parallelTasks_sorted (batches : List (List Rule)) :
    (parallelTasks batches).Pairwise fun t t' ↦ t.batch ≤ t'.batch := by
  rw [parallelTasks, List.pairwise_flatMap]
  refine ⟨fun x _ ↦ ?_, ?_⟩
  · rw [List.pairwise_map]
    exact List.pairwise_of_forall fun _ _ ↦ Nat.le_refl _
  · have hidx : (batches.zipIdx.map Prod.snd).Pairwise (· < ·) := by
      rw [List.zipIdx_map_snd]
      exact List.pairwise_lt_range'
    refine (List.pairwise_map.1 hidx).imp fun hlt t ht t' ht' ↦ ?_
    obtain ⟨r, -, rfl⟩ := List.mem_map.1 ht
    obtain ⟨r', -, rfl⟩ := List.mem_map.1 ht'
    exact hlt.le

/-- The tasks of one batch are as many as it has rules. -/
theorem countP_batch_parallelTasks (batches : List (List Rule)) (b : ℕ) :
    (parallelTasks batches).countP (fun t ↦ t.batch = b) = (batches[b]?.getD []).length := by
  have hfrom : ∀ k, ((batches.zipIdx k).flatMap fun x ↦
      x.1.map fun rule ↦ (⟨x.2, rule⟩ : ParallelTask)).countP (fun t ↦ t.batch = b) =
        if k ≤ b then (batches[b - k]?.getD []).length else 0 := by
    induction batches with
    | nil => simp
    | cons batch batches ih =>
      intro k
      have hhead : (batch.map fun rule ↦ (⟨k, rule⟩ : ParallelTask)).countP (fun t ↦ t.batch = b) =
          if k = b then batch.length else 0 := by
        rw [List.countP_map]
        split_ifs with hk
        · simp [hk, Function.comp_def]
        · simp [hk, Function.comp_def]
      rw [List.zipIdx_cons, List.flatMap_cons, List.countP_append, ih, hhead]
      rcases lt_trichotomy k b with hlt | rfl | hlt
      · obtain ⟨d, rfl⟩ : ∃ d, b = k + 1 + d := ⟨b - (k + 1), by omega⟩
        rw [if_neg hlt.ne, if_pos (by omega), if_pos hlt.le, Nat.zero_add, Nat.add_sub_cancel_left,
          show k + 1 + d - k = d + 1 by omega, List.getElem?_cons_succ]
      · simp
      · rw [if_neg hlt.ne', if_neg (by omega), if_neg (by omega)]
  have h := hfrom 0
  rwa [if_pos (Nat.zero_le b), Nat.sub_zero] at h

/-! ### Tasks -/

/-- The result of a rule whose dependency has no successful result. -/
def dependencyFailure (rule : Rule) : RuleResult where
  ruleName := rule.name
  ruleId := rule.id
  success := false
  exception := some ("Dependency failed: " ++ rule.dependsOnRuleName.getD "")

/-- The lambda that is launched for a rule. -/
def parallelTask (context : ContextPtr) (parameters : List RuleParameter) (rule : Rule) :
    RuleProgram RuleResult := do
  match ← request .acquireEngine with
  | none => return {
      ruleName := rule.name
      ruleId := rule.id
      success := false
      exception := some "Failed to acquire engine from pool - timeout or pool empty" }
  | some engine => do
    let satisfied ← dependencySatisfied context rule
    if satisfied then do
      let outcome ← rule.execute engine context parameters
      request (.releaseEngine engine)
      return outcome
    else do
      request (.releaseEngine engine)
      return dependencyFailure rule

/-! ### Calls -/

/-- What the environment may answer to a request. -/
abbrev ParallelAnswers := (op : Op) → op.Ans → Prop

/-- One call of `executeParallel`. -/
structure ParallelCall where
  levels : List (List Rule)
  /-- The engines in the pool, the next one to be handed out first. -/
  engines : List EnginePtr
  parameters : List RuleParameter
  answers : ParallelAnswers

/-- The request publishes under the key. An execution of the rule of that key ends with it. -/
def Op.endsExecution (key : String) : Op → Bool
  | setResult _ key' _ => key' = key
  | _ => false

/-- What the log tells of: a request of a task with its answer, or that the calling thread has
collected the result of a task and published it under the key. -/
inductive ParallelEvent
  | request (task : ℕ) (op : Op) (answer : op.Ans)
  | collect (task : ℕ) (key : String) (result : RuleResult)

namespace ParallelEvent

/-- The task the event is about. -/
def task : ParallelEvent → ℕ
  | request i _ _ => i
  | collect i _ _ => i

/-- The event publishes the result under the key. -/
def Publishes (key : String) (result : RuleResult) : ParallelEvent → Prop
  | request _ (.setResult _ key' result') _ => key' = key ∧ result' = result
  | collect _ key' result' => key' = key ∧ result' = result
  | _ => False

/-- A task publishes under the key. -/
def endsExecution (key : String) : ParallelEvent → Bool
  | request _ op _ => op.endsExecution key
  | collect _ _ _ => false

/-- A chunk of the rule is evaluated, its expression or its action. -/
def Evaluates (r : Rule) : ParallelEvent → Prop
  | request _ (.beginExpression _ q _) (.ok (some _)) => q = r
  | request _ (.beginAction _ q _) (.ok (some _)) => q = r
  | _ => False

end ParallelEvent

/-- The variables of the call, its tasks apart, and the log, the latest event first. -/
structure ParallelState where
  /-- How many batches have been launched. -/
  batch : ℕ := 0
  /-- How many results have been collected. -/
  collected : ℕ := 0
  context : RuleContext := {}
  pool : List EnginePtr
  results : List RuleResult := []
  log : List ParallelEvent := []

namespace ParallelState

/-- `context.setResult(key, result)`. -/
def setResult (s : ParallelState) (key : String) (result : RuleResult) : ParallelState :=
  { s with context := { s.context with
      results := Function.update s.context.results key (some result) } }

/-- Enter an event in the log. -/
def enter (s : ParallelState) (e : ParallelEvent) : ParallelState :=
  { s with log := e :: s.log }

/-- Collect the result of the next task: `results.push_back(result)`, and publish it. -/
def collect (s : ParallelState) (rule : Rule) (result : RuleResult) : ParallelState :=
  { (s.setResult rule.resultKey result).enter (.collect s.collected rule.resultKey result) with
    collected := s.collected + 1
    results := s.results ++ [result] }

end ParallelState

namespace ParallelCall

variable (x : ParallelCall)

/-- `std::max<size_t>(enginePoolStorage_.size(), 1)`. -/
def maxConcurrency : ℕ :=
  max x.engines.length 1

def batches : List (List Rule) :=
  parallelBatches x.maxConcurrency x.levels

def tasks : List ParallelTask :=
  parallelTasks x.batches

/-- The task has been launched. -/
def Launched (s : ParallelState) (i : ℕ) : Prop :=
  ∃ t, x.tasks[i]? = some t ∧ t.batch < s.batch

/-- What a request of task `i` may do to the state, the log apart. -/
def effect (i : ℕ) : (op : Op) → ParallelState → op.Ans → ParallelState → Prop
  | .acquireEngine, s, engine, s' =>
    x.Launched s i ∧ ∃ e pool, s.pool = e :: pool ∧ engine = some e ∧ s' = { s with pool }
  | .releaseEngine engine, s, _, s' => s' = { s with pool := engine :: s.pool }
  | .getResult _ key, s, found, s' => found = s.context.results key ∧ s' = s
  | .setResult _ key result, s, _, s' => s' = s.setResult key result
  | .setLastError _ key message, s, _, s' =>
    s' = { s with context := { s.context with lastError := some (key, message) } }
  | op, s, a, s' => x.answers op a ∧ s' = s

/-- A request of task `i` is answered. -/
def step (i : ℕ) (op : Op) (s : ParallelState) (a : op.Ans) (s' : ParallelState) : Prop :=
  ∃ t, x.effect i op s a t ∧ s' = t.enter (.request i op a)

/-- What the calling thread does, given what has become of the tasks. -/
inductive Supervise (thread : ℕ → RuleProgram RuleResult) : ParallelState → ParallelState → Prop
  /-- All tasks of the batches so far are collected: launch the next batch. -/
  | launch {s : ParallelState} (hbatch : s.batch < x.batches.length)
      (hdone : ∀ i, x.Launched s i → i < s.collected) :
      Supervise thread s { s with batch := s.batch + 1 }
  /-- The next future of the batch is ready. -/
  | collect {s : ParallelState} {t : ParallelTask} {result : RuleResult}
      (htask : x.tasks[s.collected]? = some t) (hbatch : t.batch < s.batch)
      (hready : thread s.collected = .ret result) : Supervise thread s (s.collect t.rule result)

abbrev Config := Interleaving.Config ℕ Op Op.Ans RuleResult ParallelState

/-- The program of a task. All of them use the one context. -/
def task (i : ℕ) : RuleProgram RuleResult :=
  match x.tasks[i]? with
  | some t => parallelTask 0 x.parameters t.rule
  | none => return {}

/-- The call when its levels have been built. -/
def start : Config where
  thread := x.task
  state := { pool := x.engines }

/-- The configurations the call can come to, in any interleaving. -/
def Reaches (c : Config) : Prop :=
  Interleaving.Reaches x.step x.Supervise x.start c

/-- The call returns `results`. -/
structure Returned (c : Config) : Prop where
  reaches : x.Reaches c
  batches : c.state.batch = x.batches.length
  collected : c.state.collected = x.tasks.length

/-- The tasks that have been launched and have not come to their end. -/
def unfinished (c : Config) : List ℕ :=
  (List.range x.tasks.length).filter fun i ↦
    (x.tasks[i]?.any fun t ↦ t.batch < c.state.batch) && !(c.thread i).hasReturned

theorem maxConcurrency_pos : 0 < x.maxConcurrency :=
  lt_of_lt_of_le Nat.zero_lt_one (le_max_right _ _)

/-- The tasks are the active rules in the order of the levels. -/
theorem map_rule_tasks :
    x.tasks.map (fun t ↦ t.rule) = x.levels.flatten.filter fun r ↦ r.isActive := by
  rw [tasks, map_rule_parallelTasks, batches, flatten_parallelBatches x.maxConcurrency_pos]

theorem countP_batch_tasks_le (b : ℕ) :
    x.tasks.countP (fun t ↦ t.batch = b) ≤ x.maxConcurrency := by
  rw [tasks, countP_batch_parallelTasks]
  rcases hb : x.batches[b]? with - | batch
  · exact Nat.zero_le _
  · exact length_le_of_mem_parallelBatches (List.mem_of_getElem? hb)

variable {x} {i j : ℕ} {t u : ParallelTask}

theorem batch_lt_length (ht : x.tasks[i]? = some t) : t.batch < x.batches.length := by
  obtain ⟨batch, hbatch, -⟩ := exists_batch_of_mem (List.mem_of_getElem? ht)
  exact (List.getElem?_eq_some_iff.1 hbatch).1

theorem batch_mono (ht : x.tasks[i]? = some t) (hu : x.tasks[j]? = some u) (hij : i ≤ j) :
    t.batch ≤ u.batch := by
  obtain ⟨hi, rfl⟩ := List.getElem?_eq_some_iff.1 ht
  obtain ⟨hj, rfl⟩ := List.getElem?_eq_some_iff.1 hu
  rcases hij.eq_or_lt with rfl | hlt
  · exact Nat.le_refl _
  · exact List.pairwise_iff_getElem.1 (parallelTasks_sorted x.batches) i j hi hj hlt

theorem lt_of_batch_lt (ht : x.tasks[i]? = some t) (hu : x.tasks[j]? = some u)
    (h : t.batch < u.batch) : i < j := by
  by_contra hle
  exact absurd (batch_mono hu ht (not_lt.1 hle)) h.not_ge

/-- What every step preserves and the call starts with holds wherever the call can come to. -/
theorem Reaches.invariant {P : Config → Prop} {c : Config} (h : x.Reaches c) (hstart : P x.start)
    (hstep : ∀ c c', P c → Interleaving.Step x.step x.Supervise c c' → P c') : P c := by
  induction h with
  | refl => exact hstart
  | tail _ hlast ih => exact hstep _ _ ih hlast

end ParallelCall

end FastRules
