import FastRules.Foundations.Interleaving
import FastRules.Rule.Frame
import Mathlib.Data.List.Sort

/-!
# The asynchronous executor

`AsyncWorkflow::executeParallelAsync` after its levels are built, as an interleaving. Each active
rule of a level is a task on a copy of the shared context; the supervisor is the calling thread,
which starts a level when it has collected the results of the levels before, and merges the results
it collects into the shared context.

A task runs when a worker of the thread pool takes it up; there are never more tasks between their
first and their last request than workers. What the rest of the program answers — caches, limiters,
the clock, the engines — is a relation here, the same at all times.
-/

namespace FastRules

open Program

/-- What the environment may answer to a request. -/
abbrev Answers := (op : Op) → op.Ans → Prop

/-- An active rule in its level. -/
structure AsyncTask where
  level : ℕ
  rule : Rule

/-- The tasks in the order in which they are enqueued, and their results collected. -/
def asyncTasks (levels : List (List Rule)) : List AsyncTask :=
  levels.zipIdx.flatMap fun x ↦ (x.1.filter fun r ↦ r.isActive).map fun rule ↦ ⟨x.2, rule⟩

/-- The lambda that is enqueued for a rule. -/
def asyncTask (context : ContextPtr) (parameters : List RuleParameter) (rule : Rule) :
    RuleProgram RuleResult := do
  match ← request .acquireEngine with
  | none => return {
      ruleName := rule.name
      success := false
      exception := some "Failed to acquire engine from pool" }
  | some engine => do
    let result ← rule.execute engine context parameters
    request (.releaseEngine engine)
    return result

/-- The result that stands for a rule that is not active. -/
def skipResult (rule : Rule) : RuleResult :=
  { ruleName := rule.name, skipped := true, success := true }

/-- One call of `executeParallelAsync`. -/
structure AsyncCall where
  levels : List (List Rule)
  threadCount : ℕ
  parameters : List RuleParameter
  answers : Answers

/-- The variables of the call, its tasks apart. A context pointer is the index of its task. -/
structure AsyncState where
  /-- How many levels have been started. -/
  level : ℕ := 0
  /-- How many results have been collected. -/
  collected : ℕ := 0
  sharedContext : RuleContext := {}
  localContexts : ContextPtr → RuleContext := fun _ ↦ {}
  pool : List EnginePtr
  allResults : List RuleResult := []

namespace AsyncState

/-- Change the context of a task. -/
def updateLocal (s : AsyncState) (i : ContextPtr) (f : RuleContext → RuleContext) : AsyncState :=
  { s with localContexts := Function.update s.localContexts i (f (s.localContexts i)) }

/-- Merge a collected result: `sharedContext.setResult(latest.ruleName, latest)`. -/
def collect (s : AsyncState) (latest : RuleResult) : AsyncState :=
  { s with
    collected := s.collected + 1
    sharedContext := { s.sharedContext with
      results := Function.update s.sharedContext.results latest.ruleName (some latest) }
    allResults := s.allResults ++ [latest] }

end AsyncState

namespace AsyncCall

variable (x : AsyncCall)

def tasks : List AsyncTask :=
  asyncTasks x.levels

/-- The threads of the thread pool: at least one. -/
def workers : ℕ :=
  max x.threadCount 1

/-- The engines of the pool: at least two. -/
def poolSize : ℕ :=
  max x.threadCount 2

/-- Enter a level: the skipped rules get their results, the tasks their copies of the context. -/
def startLevel (s : AsyncState) (level : List Rule) : AsyncState :=
  { s with
    level := s.level + 1
    localContexts := fun i ↦
      if x.tasks[i]?.any fun t ↦ t.level = s.level then s.sharedContext else s.localContexts i
    allResults := s.allResults ++ (level.filter fun r ↦ !r.isActive).map skipResult }

/-- What a request of task `i` may do. -/
def step (i : ℕ) : (op : Op) → AsyncState → op.Ans → AsyncState → Prop
  | .acquireEngine, s, engine, s' =>
    -- the level has been entered and a worker is free
    (x.tasks[i]?.any fun t ↦ t.level < s.level) = true ∧
      x.poolSize - s.pool.length < x.workers ∧
      engine = s.pool.head? ∧ s' = { s with pool := s.pool.tail }
  | .releaseEngine engine, s, _, s' => s' = { s with pool := engine :: s.pool }
  | .getResult c key, s, found, s' => found = (s.localContexts c).results key ∧ s' = s
  | .setResult c key result, s, _, s' =>
    s' = s.updateLocal c fun context ↦
      { context with results := Function.update context.results key (some result) }
  | .setLastError c key message, s, _, s' =>
    s' = s.updateLocal c fun context ↦ { context with lastError := some (key, message) }
  | op, s, a, s' => x.answers op a ∧ s' = s

/-- What the calling thread does, given what has become of the tasks. -/
inductive Supervise (thread : ℕ → RuleProgram RuleResult) : AsyncState → AsyncState → Prop
  /-- All tasks of the levels so far are collected: enter the next level. -/
  | startLevel {s : AsyncState} {level : List Rule} (hlevel : x.levels[s.level]? = some level)
      (hdone : ∀ i t, x.tasks[i]? = some t → t.level < s.level → i < s.collected) :
      Supervise thread s (x.startLevel s level)
  /-- The next future of the level is ready. -/
  | collect {s : AsyncState} {t : AsyncTask} {latest : RuleResult}
      (htask : x.tasks[s.collected]? = some t) (hlevel : t.level < s.level)
      (hready : thread s.collected = .ret latest) : Supervise thread s (s.collect latest)

abbrev Config := Interleaving.Config ℕ Op Op.Ans RuleResult AsyncState

/-- The program of a task. -/
def task (i : ℕ) : RuleProgram RuleResult :=
  match x.tasks[i]? with
  | some t => asyncTask i x.parameters t.rule
  | none => return {}

/-- The call when its levels have been built. -/
def start : Config where
  thread := x.task
  state := { pool := (List.range x.poolSize).reverse }

/-- The configurations the call can come to, in any interleaving. -/
def Reaches (c : Config) : Prop :=
  Interleaving.Reaches x.step x.Supervise x.start c

/-- The call returns `allResults`. -/
structure Returned (c : Config) : Prop where
  reaches : x.Reaches c
  levels : c.state.level = x.levels.length
  collected : c.state.collected = x.tasks.length

end AsyncCall

/-! ### Tasks -/

theorem mem_asyncTasks {levels : List (List Rule)} {t : AsyncTask} :
    t ∈ asyncTasks levels ↔
      ∃ level, levels[t.level]? = some level ∧ t.rule ∈ level ∧ t.rule.isActive = true := by
  simp only [asyncTasks, List.mem_flatMap, List.mem_map, List.mem_filter, Prod.exists,
    List.mem_zipIdx_iff_getElem?]
  constructor
  · rintro ⟨level, k, hlevel, r, hr, rfl⟩
    exact ⟨level, hlevel, hr⟩
  · rintro ⟨level, hlevel, hr⟩
    exact ⟨level, t.level, hlevel, t.rule, hr, rfl⟩

/-- The tasks are the active rules in the order of the levels. -/
theorem map_rule_asyncTasks (levels : List (List Rule)) :
    (asyncTasks levels).map (fun t ↦ t.rule) = levels.flatten.filter fun r ↦ r.isActive := by
  have hrules : ∀ x : List Rule × ℕ, ((x.1.filter fun r ↦ r.isActive).map fun rule ↦
      (⟨x.2, rule⟩ : AsyncTask)).map (fun t ↦ t.rule) = x.1.filter fun r ↦ r.isActive := by
    intro x
    rw [List.map_map]
    exact List.map_id _
  rw [asyncTasks, List.map_flatMap, List.flatMap_congr fun x _ ↦ hrules x]
  rw [← List.flatMap_map Prod.fst, List.zipIdx_map_fst, List.filter_flatten, List.flatMap_def]

/-- Tasks are enqueued level by level. -/
theorem asyncTasks_sorted (levels : List (List Rule)) :
    (asyncTasks levels).Pairwise fun t t' ↦ t.level ≤ t'.level := by
  rw [asyncTasks, List.pairwise_flatMap]
  refine ⟨fun x _ ↦ ?_, ?_⟩
  · rw [List.pairwise_map]
    exact List.pairwise_of_forall fun _ _ ↦ Nat.le_refl _
  · have hidx : (levels.zipIdx.map Prod.snd).Pairwise (· < ·) := by
      rw [List.zipIdx_map_snd]
      exact List.pairwise_lt_range'
    refine (List.pairwise_map.1 hidx).imp fun hlt t ht t' ht' ↦ ?_
    obtain ⟨r, -, rfl⟩ := List.mem_map.1 ht
    obtain ⟨r', -, rfl⟩ := List.mem_map.1 ht'
    exact hlt.le

theorem AsyncCall.level_mono (x : AsyncCall) {i j : ℕ} (hij : i ≤ j) {t u : AsyncTask}
    (ht : x.tasks[i]? = some t) (hu : x.tasks[j]? = some u) : t.level ≤ u.level := by
  obtain ⟨hi, rfl⟩ := List.getElem?_eq_some_iff.1 ht
  obtain ⟨hj, rfl⟩ := List.getElem?_eq_some_iff.1 hu
  rcases hij.eq_or_lt with rfl | hlt
  · exact Nat.le_refl _
  · exact List.pairwise_iff_getElem.1 (asyncTasks_sorted x.levels) i j hi hj hlt

end FastRules
