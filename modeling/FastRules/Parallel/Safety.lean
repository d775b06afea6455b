import FastRules.Parallel.Requests
import FastRules.Workflow.Guarantees
import Mathlib.Data.List.Flatten

/-!
# The parallel executor is safe where children are careful

A task asks for its dependency before it executes its rule; the children of the rule are executed
without being asked about (`Rule::executeChildRules` looks at no dependency). So the executor is
safe in every run in which no child with a dependency is evaluated while the context holds no
success of that dependency (`ParallelCall.CarefullyReaches`), in particular where no child has a
dependency (`ParallelCall.Reaches.carefully`).
-/

namespace FastRules

open Program

namespace ParallelCall

variable {x : ParallelCall} {c : Config} {i : ℕ}

/-! ### What a request does -/

/-- A request of a task leaves the calling thread's variables and the log alone. -/
theorem effect_frame {op : Op} {s t : ParallelState} {a : op.Ans} (h : x.effect i op s a t) :
    t.batch = s.batch ∧ t.collected = s.collected ∧ t.results = s.results ∧ t.log = s.log := by
  cases op
  case acquireEngine =>
    obtain ⟨-, e, pool, -, -, rfl⟩ := h
    exact ⟨rfl, rfl, rfl, rfl⟩
  case releaseEngine =>
    obtain rfl : t = _ := h
    exact ⟨rfl, rfl, rfl, rfl⟩
  case setResult =>
    obtain rfl : t = _ := h
    exact ⟨rfl, rfl, rfl, rfl⟩
  case setLastError =>
    obtain rfl : t = _ := h
    exact ⟨rfl, rfl, rfl, rfl⟩
  all_goals
    obtain ⟨-, rfl⟩ := h
    exact ⟨rfl, rfl, rfl, rfl⟩

/-- What is found in the context after a request was there before, or was published by it. -/
theorem effect_results {op : Op} {s t : ParallelState} {a : op.Ans} (h : x.effect i op s a t)
    {key : String} {result : RuleResult} (hfound : t.context.results key = some result) :
    s.context.results key = some result ∨ (ParallelEvent.request i op a).Publishes key result := by
  cases op
  case acquireEngine =>
    obtain ⟨-, e, pool, -, -, rfl⟩ := h
    exact .inl hfound
  case releaseEngine =>
    obtain rfl : t = _ := h
    exact .inl hfound
  case setResult c key' result' =>
    obtain rfl : t = _ := h
    change Function.update s.context.results key' (some result') key = some result at hfound
    rcases eq_or_ne key key' with rfl | hne
    · rw [Function.update_self] at hfound
      exact .inr ⟨rfl, Option.some.inj hfound⟩
    · rw [Function.update_of_ne hne] at hfound
      exact .inl hfound
  case setLastError =>
    obtain rfl : t = _ := h
    exact .inl hfound
  all_goals
    obtain ⟨-, rfl⟩ := h
    exact .inl hfound

/-- The same for the publication of the calling thread. -/
theorem collect_results {s : ParallelState} {r : Rule} {a : RuleResult} {key : String}
    {result : RuleResult} (hfound : (s.collect r a).context.results key = some result) :
    s.context.results key = some result ∨
      (ParallelEvent.collect s.collected r.resultKey a).Publishes key result := by
  change Function.update s.context.results r.resultKey (some a) key = some result at hfound
  rcases eq_or_ne key r.resultKey with rfl | hne
  · rw [Function.update_self] at hfound
    exact .inr ⟨rfl, Option.some.inj hfound⟩
  · rw [Function.update_of_ne hne] at hfound
    exact .inl hfound

/-! ### Batches follow each other -/

/-- How far the calling thread has come: it has collected all batches but the last one, and what it
has collected is what the tasks have returned. -/
structure Progress (x : ParallelCall) (c : Config) : Prop where
  collected_le : c.state.collected ≤ x.tasks.length
  length_results : c.state.results.length = c.state.collected
  returned : ∀ j < c.state.collected, ∃ result, c.thread j = .ret result ∧
    c.state.results[j]? = some result
  launched : ∀ i t, x.tasks[i]? = some t → t.batch + 1 < c.state.batch → i < c.state.collected

theorem progress_start : x.Progress x.start where
  collected_le := Nat.zero_le _
  length_results := rfl
  returned _ hj := absurd hj (Nat.not_lt_zero _)
  launched _ _ _ h := absurd h (Nat.not_lt_zero _)

/-- A step keeps what is known of the progress. -/
theorem Progress.step {c' : Config} (h : x.Progress c)
    (hstep : Interleaving.Step x.step x.Supervise c c') : x.Progress c' := by
  rcases hstep with ⟨hthread, t, heffect, rfl⟩ | hsup
  · rename_i i op next a
    obtain ⟨hbatch, hcollected, hresults, -⟩ := effect_frame heffect
    refine ⟨?_, ?_, fun j hj ↦ ?_, fun j u hu hlt ↦ ?_⟩
    · exact hcollected.le.trans h.collected_le
    · exact (congrArg List.length hresults).trans (h.length_results.trans hcollected.symm)
    · obtain ⟨result, hret, hfound⟩ := h.returned j (hj.trans_eq hcollected)
      -- a task that has been collected has returned and makes no steps
      have hne : j ≠ i := fun he ↦ by
        rw [he, hthread] at hret
        cases hret
      exact ⟨result, (Function.update_of_ne hne _ _).trans hret,
        (congrArg (·[j]?) hresults).trans hfound⟩
    · exact (h.launched j u hu (hlt.trans_eq hbatch)).trans_eq hcollected.symm
  · rename_i s'
    rcases hsup with ⟨-, hdone⟩ | ⟨htask, -, hready⟩
    · exact ⟨h.collected_le, h.length_results, h.returned, fun j u hu hlt ↦
        hdone j ⟨u, hu, Nat.lt_of_succ_lt_succ hlt⟩⟩
    · rename_i t result
      refine ⟨?_, ?_, fun j hj ↦ ?_, fun j u hu hlt ↦ Nat.lt_succ_of_lt (h.launched j u hu hlt)⟩
      · exact (List.getElem?_eq_some_iff.1 htask).1
      · show (c.state.results ++ [result]).length = c.state.collected + 1
        rw [List.length_append, h.length_results, List.length_singleton]
      · show ∃ a, c.thread j = .ret a ∧ (c.state.results ++ [result])[j]? = some a
        rcases Nat.lt_succ_iff_lt_or_eq.1 hj with hlt | rfl
        · obtain ⟨a, hret, hfound⟩ := h.returned j hlt
          exact ⟨a, hret, (List.getElem?_append_left (h.length_results.symm ▸ hlt)).trans hfound⟩
        · refine ⟨result, hready, ?_⟩
          rw [← h.length_results, List.getElem?_concat_length]

theorem Reaches.progress (h : x.Reaches c) : x.Progress c :=
  h.invariant progress_start fun _ _ ↦ Progress.step

/-- As many elements satisfy a property as indices do. -/
theorem length_filter_range {α : Type} (l : List α) (p : α → Bool) :
    ((List.range l.length).filter fun i ↦ l[i]?.any p).length = l.countP p := by
  have hsome : l.map some = (List.range l.length).map fun i ↦ l[i]? := by
    refine List.ext_getElem (by simp) fun i h₁ h₂ ↦ ?_
    simp
  have hcount : l.countP p = (l.map some).countP (Option.any p) := by
    rw [List.countP_map]
    rfl
  rw [hcount, hsome, List.countP_map, List.countP_eq_length_filter]
  rfl

/-- **No more unfinished tasks than engines.** -/
theorem Reaches.length_unfinished_le (h : x.Reaches c) :
    (x.unfinished c).length ≤ x.maxConcurrency := by
  have hprogress := h.progress
  -- all of them are tasks of the batch that was launched last
  refine le_trans ?_ (x.countP_batch_tasks_le (c.state.batch - 1))
  rw [← length_filter_range, ← List.countP_eq_length_filter, unfinished,
    ← List.countP_eq_length_filter]
  refine List.countP_mono_left fun i _ hi ↦ ?_
  obtain ⟨hany, hrunning⟩ := (Bool.and_eq_true_iff).1 hi
  obtain ⟨t, ht, hbatch⟩ := (Option.any_eq_true _ _).1 hany
  rw [ht]
  refine decide_eq_true (p := t.batch = c.state.batch - 1) ?_
  by_contra hne
  have hlt : t.batch < c.state.batch := of_decide_eq_true hbatch
  obtain ⟨result, hret, -⟩ := hprogress.returned i (hprogress.launched i t ht (by omega))
  rw [hret] at hrunning
  exact absurd hrunning (by simp [hasReturned])

/-! ### The returned vector -/

/-- Whatever the schedule, a task whose rule has no cache returns a result of its rule. -/
theorem Reaches.isOf (h : x.Reaches c) {t : ParallelTask} (ht : x.tasks[i]? = some t)
    (hcache : t.rule.isCaching = false) {result : RuleResult} (hret : c.thread i = .ret result) :
    result.IsOf t.rule := by
  have hens : Yields (fun _ _ ↦ True) (RuleResult.IsOf t.rule) (c.thread i) := by
    refine h.invariant (P := fun c ↦ Yields (fun _ _ ↦ True) (RuleResult.IsOf t.rule) (c.thread i))
      ?_ fun c c' hyields hstep ↦ ?_
    · show Yields _ _ (x.task i)
      rw [task, ht]
      exact parallelTask_isOf 0 x.parameters hcache
    · rcases hstep with ⟨hthread, -⟩ | -
      · rename_i j op next a s'
        show Yields _ _ (Function.update c.thread j (next a) i)
        rcases eq_or_ne i j with rfl | hne
        · rw [hthread] at hyields
          rw [Function.update_self]
          exact hyields.2 a () trivial
        · rwa [Function.update_of_ne hne]
      · exact hyields
  rw [hret] at hens
  exact hens

/-- **The returned vector.** It has one result for each task, in the order of the tasks. -/
theorem Returned.results (h : x.Returned c) (hcache : ∀ t ∈ x.tasks, t.rule.isCaching = false) :
    List.Forall₂ (fun t a ↦ RuleResult.IsOf t.rule a) x.tasks c.state.results := by
  have hprogress := h.reaches.progress
  have hlength : x.tasks.length = c.state.results.length := by
    rw [hprogress.length_results, h.collected]
  refine List.forall₂_iff_get.2 ⟨hlength, fun i hi hi' ↦ ?_⟩
  obtain ⟨result, hret, hfound⟩ := hprogress.returned i (h.collected.symm ▸ hi)
  have hget : c.state.results[i] = result :=
    Option.some.inj ((List.getElem?_eq_getElem hi').symm.trans hfound)
  have ht : x.tasks[i]? = some x.tasks[i] := List.getElem?_eq_getElem hi
  rw [List.get_eq_getElem, List.get_eq_getElem, hget]
  exact h.reaches.isOf ht (hcache _ (List.getElem_mem hi)) hret

/-! ### Each key belongs to one task -/

/-- No two nodes of the rules that run have the same result key. -/
def DistinctKeys (x : ParallelCall) : Prop :=
  ((nodesOf (x.tasks.map fun t ↦ t.rule)).map Rule.resultKey).Nodup

/-- The requests of a task. -/
def Owns (x : ParallelCall) (i : ℕ) (op : Op) : Prop :=
  ∃ t, x.tasks[i]? = some t ∧ op.Within t.rule.nodes t.rule.nodes

theorem task_owns (x : ParallelCall) (i : ℕ) : Asks (x.Owns i) (x.task i) := by
  rw [task]
  split
  · rename_i t ht
    exact (parallelTask_within 0 x.parameters t.rule).mono fun op hop ↦ ⟨t, ht, hop⟩
  · trivial

/-- A key leads back to the task. -/
theorem DistinctKeys.eq_of_key (h : x.DistinctKeys) {i j : ℕ} {t u : ParallelTask}
    (ht : x.tasks[i]? = some t) (hu : x.tasks[j]? = some u) {p q : Rule} (hp : p ∈ t.rule.nodes)
    (hq : q ∈ u.rule.nodes) (hkey : p.resultKey = q.resultKey) : i = j := by
  have hpairs : x.tasks.Pairwise fun t u ↦ ∀ p ∈ t.rule.nodes, ∀ q ∈ u.rule.nodes,
      p.resultKey ≠ q.resultKey := by
    rw [DistinctKeys, nodesOf_eq_flatMap, List.flatMap_map, List.map_flatMap,
      List.nodup_flatMap] at h
    refine h.2.imp fun hdisjoint p hp q hq he ↦ ?_
    exact hdisjoint (List.mem_map_of_mem hp) (he ▸ List.mem_map_of_mem hq)
  obtain ⟨hi, rfl⟩ := List.getElem?_eq_some_iff.1 ht
  obtain ⟨hj, rfl⟩ := List.getElem?_eq_some_iff.1 hu
  have hlt := List.pairwise_iff_getElem.1 hpairs
  rcases lt_trichotomy i j with hij | rfl | hji
  · exact absurd hkey (hlt i j hi hj hij p hp q hq)
  · rfl
  · exact absurd hkey.symm (hlt j i hj hi hji q hq p hp)

/-- Nothing below the rule of a task is published under the key of the rule. -/
theorem DistinctKeys.ne_below (h : x.DistinctKeys) {t : ParallelTask} (ht : x.tasks[i]? = some t) :
    ∀ q ∈ nodesOf t.rule.childRules, q.resultKey ≠ t.rule.resultKey := by
  have hnodup : (t.rule.nodes.map Rule.resultKey).Nodup := by
    rw [DistinctKeys, nodesOf_eq_flatMap, List.flatMap_map, List.map_flatMap,
      List.nodup_flatMap] at h
    exact h.1 t (List.mem_of_getElem? ht)
  rw [Rule.nodes_eq, List.map_cons, List.nodup_cons] at hnodup
  exact fun q hq he ↦ hnodup.1 (List.mem_map.2 ⟨q, hq, he⟩)

/-! ### At most one execution -/

/-- The key of the rule of a task. -/
def key (x : ParallelCall) (i : ℕ) : String :=
  x.tasks[i]?.elim "" fun t ↦ t.rule.resultKey

theorem key_eq {t : ParallelTask} (ht : x.tasks[i]? = some t) : x.key i = t.rule.resultKey := by
  rw [key, ht]
  rfl

/-- How often tasks have published under the key of task `i`. -/
def executions (x : ParallelCall) (i : ℕ) (s : ParallelState) : ℕ :=
  s.log.countP (ParallelEvent.endsExecution (x.key i))

theorem executions_request {op : Op} {a : op.Ans} {s s' : ParallelState}
    (hstep : x.step i op s a s')
    (j : ℕ) : x.executions j s' = x.executions j s + (op.endsExecution (x.key j)).toNat := by
  obtain ⟨t, heffect, rfl⟩ := hstep
  show List.countP _ (ParallelEvent.request i op a :: t.log) = _
  rw [List.countP_cons, (effect_frame heffect).2.2.2]
  show x.executions j s + (if op.endsExecution (x.key j) = true then 1 else 0) = _
  rcases op.endsExecution (x.key j) <;> rfl

theorem executions_supervise {thread : ℕ → RuleProgram RuleResult} {s s' : ParallelState}
    (hsup : x.Supervise thread s s') (j : ℕ) : x.executions j s' = x.executions j s := by
  rcases hsup with - | -
  · rfl
  · exact (List.countP_cons_of_neg (by simp [ParallelEvent.endsExecution])).trans rfl

/-- The interface of the count: a task publishes under its own key once. -/
def onceInterface (x : ParallelCall) (i : ℕ) : Program.Interface Op Op.Ans ℕ where
  pre op n := x.Owns i op ∧ (op.endsExecution (x.key i) = true → n = 0)
  step op n _ n' := n' = n + (op.endsExecution (x.key i)).toNat

/-- What a task owns is not published under the key of another one. -/
theorem Owns.not_endsExecution (hkeys : x.DistinctKeys) {op : Op} (hop : x.Owns i op) {j : ℕ}
    (hne : j ≠ i) : op.endsExecution (x.key j) = false := by
  obtain ⟨t, ht, hop⟩ := hop
  refine hop.not_endsExecution fun q hq hkey ↦ ?_
  rcases hj : x.tasks[j]? with - | u
  · rw [key, hj] at hkey
    exact q.resultKey_ne_empty hkey
  · rw [key_eq hj] at hkey
    exact hne (hkeys.eq_of_key hj ht u.rule.self_mem_nodes hq hkey.symm)

theorem task_once (hkeys : x.DistinctKeys) (i : ℕ) :
    Ensures (x.onceInterface i) (fun _ _ ↦ True) (x.task i) 0 := by
  have honce : Ensures (Interface.atMostOnce (Op.endsExecution (x.key i))) (fun _ _ ↦ True)
      (x.task i) 0 := by
    rw [task]
    split
    · rename_i t ht
      rw [key_eq ht]
      exact (parallelTask_once 0 x.parameters (hkeys.ne_below ht)).mono fun _ _ _ ↦ trivial
    · trivial
  exact honce.and_asks (x.task_owns i)

/-- **Every rule is executed at most once.** -/
theorem Reaches.executions_le_one (hkeys : x.DistinctKeys) (h : x.Reaches c) (i : ℕ) :
    x.executions i c.state ≤ 1 := by
  have hcompatible : Interleaving.Compatible x.step x.Supervise (fun s ↦ ∀ j, x.executions j s ≤ 1)
      x.executions x.onceInterface (fun _ (_ : RuleResult) _ ↦ True) := by
    refine ⟨fun i op s a s' hinv hpre hstep ↦ ⟨fun j ↦ ?_, executions_request hstep i⟩,
      fun i j op s a s' hne _ hpre hstep ↦ ?_, fun thread s s' hinv _ hsup ↦ ?_⟩
    · rw [executions_request hstep j]
      rcases eq_or_ne j i with rfl | hne
      · rcases Bool.eq_false_or_eq_true (op.endsExecution (x.key j)) with hends | hends
        · rw [hpre.2 hends, hends]
          rfl
        · rw [hends]
          exact hinv j
      · rw [hpre.1.not_endsExecution hkeys hne]
        exact hinv j
    · rw [executions_request hstep j, hpre.1.not_endsExecution hkeys hne]
      rfl
    · exact ⟨fun j ↦ (executions_supervise hsup j).trans_le (hinv j), executions_supervise hsup⟩
  exact (hcompatible.ensures (c := x.start) ⟨fun _ ↦ Nat.zero_le 1, task_once hkeys⟩ h).1 i

/-! ### The gate -/

/-- A success has been published under the key, by the task of the rule with the key. -/
def Met (x : ParallelCall) (log : List ParallelEvent) (key : String) : Prop :=
  ∃ e ∈ log, ∃ t d result, x.tasks[e.task]? = some t ∧ d ∈ t.rule.nodes ∧ d.resultKey = key ∧
    e.Publishes key result ∧ result.isSuccess = true

/-- No rule has been evaluated before a success of its dependency was published. -/
def Gated (x : ParallelCall) : List ParallelEvent → Prop
  | [] => True
  | e :: log => (∀ r n, e.Evaluates r → r.dependsOnRuleName = some n → x.Met log n) ∧ x.Gated log

theorem Gated.exists_met {log : List ParallelEvent} (h : x.Gated log) {e : ParallelEvent}
    (he : e ∈ log) {r : Rule} {n : String} (hevaluates : e.Evaluates r)
    (hn : r.dependsOnRuleName = some n) : ∃ log', x.Met log' n := by
  induction log with
  | nil => exact absurd he List.not_mem_nil
  | cons e' log ih =>
    rcases List.mem_cons.1 he with rfl | he
    · exact ⟨log, h.1 r n hevaluates hn⟩
    · exact ih h.2 he

/-- The context holds a success under the key. -/
def Holds (s : ParallelState) (key : String) : Prop :=
  (s.context.results key).any RuleResult.isSuccess = true

/-- The request makes task `i` evaluate a child although there is no success of the dependency of
the child. -/
def SkipsDependency (x : ParallelCall) (i : ℕ) (op : Op) (s : ParallelState) (a : op.Ans) : Prop :=
  ∃ t r n, x.tasks[i]? = some t ∧ r ∈ nodesOf t.rule.childRules ∧
    (ParallelEvent.request i op a).Evaluates r ∧ r.dependsOnRuleName = some n ∧ ¬Holds s n

/-- The configurations the call can come to without such requests. -/
def CarefullyReaches (x : ParallelCall) (c : Config) : Prop :=
  Interleaving.Reaches (fun i op s a s' ↦ x.step i op s a s' ∧ ¬x.SkipsDependency i op s a)
    x.Supervise
    x.start c

theorem CarefullyReaches.reaches (h : x.CarefullyReaches c) : x.Reaches c := by
  induction h with
  | refl => exact .refl
  | tail _ hlast ih =>
    refine ih.tail ?_
    rcases hlast with ⟨hthread, hstep⟩ | hsup
    · exact .own hthread hstep.1
    · exact .other hsup

/-- What is found in the context has been published by the task of the rule with the key. -/
def Published (x : ParallelCall) (s : ParallelState) : Prop :=
  ∀ key result, s.context.results key = some result → ∃ e ∈ s.log, ∃ t d,
    x.tasks[e.task]? = some t ∧ d ∈ t.rule.nodes ∧ d.resultKey = key ∧ e.Publishes key result

theorem Published.met {s : ParallelState} (h : x.Published s) {key : String}
    (hholds : Holds s key) :
    x.Met s.log key := by
  obtain ⟨result, hresult, hsuccess⟩ := (Option.any_eq_true _ _).1 hholds
  obtain ⟨e, he, t, d, ht, hd, hkey, hpublishes⟩ := h key result hresult
  exact ⟨e, he, t, d, result, ht, hd, hkey, hpublishes, hsuccess⟩

theorem Met.mono {log log' : List ParallelEvent} (hsub : ∀ e ∈ log, e ∈ log') {key : String}
    (h : x.Met log key) : x.Met log' key := by
  obtain ⟨e, he, h⟩ := h
  exact ⟨e, hsub e he, h⟩

theorem Published.request {s s' : ParallelState} {op : Op} {a : op.Ans} (h : x.Published s)
    (hop : x.Owns i op) (hstep : x.step i op s a s') : x.Published s' := by
  obtain ⟨t, heffect, rfl⟩ := hstep
  have hlog : t.log = s.log := (effect_frame heffect).2.2.2
  intro key result hfound
  show ∃ e ∈ ParallelEvent.request i op a :: t.log, _
  rcases effect_results heffect hfound with hfound | hpublishes
  · obtain ⟨e, he, hrest⟩ := h key result hfound
    exact ⟨e, List.mem_cons_of_mem _ (hlog ▸ he), hrest⟩
  · refine ⟨_, List.mem_cons_self, ?_⟩
    obtain ⟨u, hu, hop⟩ := hop
    cases op
    case setResult =>
      obtain ⟨q, hq, hkey⟩ := hop
      exact ⟨u, q, hu, hq, hkey.trans hpublishes.1, hpublishes⟩
    all_goals exact absurd hpublishes id

theorem Published.collect {s : ParallelState} (h : x.Published s) {t : ParallelTask}
    (ht : x.tasks[s.collected]? = some t) (a : RuleResult) : x.Published (s.collect t.rule a) := by
  intro key result hfound
  rcases collect_results hfound with hfound | hpublishes
  · obtain ⟨e, he, hrest⟩ := h key result hfound
    exact ⟨e, List.mem_cons_of_mem _ he, hrest⟩
  · exact ⟨_, List.mem_cons_self, t, t.rule, ht, t.rule.self_mem_nodes, hpublishes.1, hpublishes⟩

/-- What task `i` waits for has happened. -/
def DependencyMet (x : ParallelCall) (i : ℕ) (s : ParallelState) : Prop :=
  ∀ t n, x.tasks[i]? = some t → t.rule.dependsOnRuleName = some n → x.Met s.log n

/-- The interface of the gate, for all tasks. -/
def gatedInterface (x : ParallelCall) (i : ℕ) : Program.Interface Op Op.Ans Prop where
  pre op met := x.Owns i op ∧ ∀ t, x.tasks[i]? = some t → (gateInterface t.rule).pre op met
  step op met a met' := ∀ t, x.tasks[i]? = some t → (gateInterface t.rule).step op met a met'

theorem task_gated (x : ParallelCall) (i : ℕ) (met : Prop) :
    Ensures (x.gatedInterface i) (fun _ _ ↦ True) (x.task i) met := by
  have hgated : Ensures { x.gatedInterface i with
      pre := fun op met ↦ ∀ t, x.tasks[i]? = some t → (gateInterface t.rule).pre op met }
      (fun _ _ ↦ True) (x.task i) met := by
    rw [task]
    split
    · rename_i t ht
      have halone : Ensures (gateInterface t.rule) (fun _ _ ↦ True)
          (parallelTask 0 x.parameters t.rule) met := parallelTask_gated 0 x.parameters
      refine halone.of_view id (fun op met hop u hu ↦ ?_) fun op met a met' _ hstep ↦ ?_
      · obtain rfl : t = u := Option.some.inj (ht.symm.trans hu)
        exact hop
      · exact hstep t ht
    · trivial
  exact hgated.and_asks (x.task_owns i)

/-- A request after which the log is longer makes what a task waits for no less true. -/
theorem dependencyMet_mono {s s' : ParallelState} (hsub : ∀ e ∈ s.log, e ∈ s'.log) (i : ℕ)
    (h : x.DependencyMet i s) : x.DependencyMet i s' :=
  fun t n ht hn ↦ (h t n ht hn).mono hsub

theorem subset_log_of_step {s s' : ParallelState} {op : Op} {a : op.Ans}
    (hstep : x.step i op s a s') :
    ∀ e ∈ s.log, e ∈ s'.log := by
  obtain ⟨t, heffect, rfl⟩ := hstep
  intro e he
  exact List.mem_cons_of_mem _ ((effect_frame heffect).2.2.2 ▸ he)

/-- A lookup tells the task whether its dependency is met. -/
theorem gateInterface_step_of_step {s s' : ParallelState} {op : Op} {a : op.Ans}
    (hpublished : x.Published s) (hstep : x.step i op s a s') {t : ParallelTask}
    (ht : x.tasks[i]? = some t) :
    (gateInterface t.rule).step op (x.DependencyMet i s) a (x.DependencyMet i s') := by
  have hmono : x.DependencyMet i s → x.DependencyMet i s' :=
    dependencyMet_mono (subset_log_of_step hstep) i
  cases op
  case getResult c' key =>
    refine ⟨hmono, fun hdep hsuccess u n hu hn ↦ ?_⟩
    obtain rfl : t = u := Option.some.inj (ht.symm.trans hu)
    obtain rfl : key = n := Option.some.inj (hdep.symm.trans hn)
    have hfound : a = s.context.results key := by
      obtain ⟨_, heffect, -⟩ := hstep
      exact heffect.1
    have hholds : Holds s key := by
      rw [Holds, ← hfound]
      exact hsuccess
    exact (hpublished.met hholds).mono (subset_log_of_step hstep)
  all_goals exact hmono

/-- Where nothing is skipped, a request that the gate permits keeps the log gated. -/
theorem gated_of_step {s s' : ParallelState} {op : Op} {a : op.Ans} (hpublished : x.Published s)
    (hgated : x.Gated s.log) (hpre : (x.gatedInterface i).pre op (x.DependencyMet i s))
    (hstep : x.step i op s a s') (hcareful : ¬x.SkipsDependency i op s a) : x.Gated s'.log := by
  have hlog : s'.log = .request i op a :: s.log := by
    obtain ⟨t, heffect, rfl⟩ := hstep
    exact congrArg (ParallelEvent.request i op a :: ·) (effect_frame heffect).2.2.2
  rw [hlog]
  refine ⟨fun r n hevaluates hn ↦ ?_, hgated⟩
  obtain ⟨⟨t, ht, hop⟩, hpre⟩ := hpre
  have hbegins : op.Begins r ∧ r ∈ t.rule.nodes := by
    cases op
    case beginExpression =>
      rcases a with e | - | script
      · exact absurd hevaluates id
      · exact absurd hevaluates id
      · obtain rfl := hevaluates
        exact ⟨rfl, hop⟩
    case beginAction =>
      rcases a with e | - | script
      · exact absurd hevaluates id
      · exact absurd hevaluates id
      · obtain rfl := hevaluates
        exact ⟨rfl, hop⟩
    all_goals exact absurd hevaluates id
  have hmem := hbegins.2
  rw [Rule.nodes_eq, List.mem_cons] at hmem
  rcases hmem with rfl | hbelow
  · -- the rule of the task itself
    rcases hpre t ht hbegins.1 with hnone | hmet
    · rw [hnone] at hn
      cases hn
    · exact hmet t n ht hn
  · -- a child
    refine hpublished.met (not_not.1 fun hholds ↦ hcareful ?_)
    exact ⟨t, r, n, ht, hbelow, hevaluates, hn, hholds⟩

/-- **Nothing is evaluated before its dependency**, as far as children are careful. -/
theorem CarefullyReaches.gated (h : x.CarefullyReaches c) : x.Gated c.state.log := by
  have hrelying : Interleaving.Relying
      (fun i op s a s' ↦ x.step i op s a s' ∧ ¬x.SkipsDependency i op s a) x.Supervise
      (fun s ↦ x.Published s ∧ x.Gated s.log) x.DependencyMet (fun _ met met' ↦ met → met')
      x.gatedInterface (fun _ (_ : RuleResult) _ ↦ True) := by
    refine ⟨?_, ?_, ?_, ?_, ?_, fun _ _ _ _ _ _ ↦ trivial⟩
    · intro i op s a s' hinv hpre hstep
      exact ⟨⟨hinv.1.request hpre.1 hstep.1, gated_of_step hinv.1 hinv.2 hpre hstep.1 hstep.2⟩,
        fun t ht ↦ gateInterface_step_of_step hinv.1 hstep.1 ht⟩
    · exact fun i j op s a s' _ _ _ hstep ↦ dependencyMet_mono (subset_log_of_step hstep.1) j
    · intro thread s s' hinv _ hsup
      rcases hsup with - | ⟨ht, -, -⟩
      · exact ⟨hinv, fun j h ↦ h⟩
      · exact ⟨⟨hinv.1.collect ht _, fun r n hevaluates ↦ absurd hevaluates id, hinv.2⟩,
          fun j ↦ dependencyMet_mono (fun e he ↦ List.mem_cons_of_mem _ he) j⟩
    · exact fun j op met met' hmet hpre ↦
        ⟨hpre.1, fun t ht hbegins ↦ (hpre.2 t ht hbegins).imp_right hmet⟩
    · intro j op met met' a met'' hmet hstep t ht
      have h := hstep t ht
      cases op
      case getResult => exact ⟨fun hm ↦ h.1 (hmet hm), h.2⟩
      all_goals exact fun hm ↦ h (hmet hm)
  have hnone : x.Published x.start.state := fun key result hfound ↦ by
    cases hfound
  exact (hrelying.ensures (c := x.start) ⟨⟨hnone, trivial⟩, fun i ↦ task_gated x i _⟩ h).1.2

/-- Where no child has a dependency, no run skips one. -/
theorem Reaches.carefully
    (hchildren : ∀ t ∈ x.tasks, ∀ r ∈ nodesOf t.rule.childRules, r.dependsOnRuleName = none)
    (h : x.Reaches c) : x.CarefullyReaches c := by
  induction h with
  | refl => exact .refl
  | tail _ hlast ih =>
    refine ih.tail ?_
    rcases hlast with ⟨hthread, hstep⟩ | hsup
    · refine .own hthread ⟨hstep, ?_⟩
      rintro ⟨t, r, n, ht, hr, -, hn, -⟩
      rw [hchildren t (List.mem_of_getElem? ht) r hr] at hn
      cases hn
    · exact .other hsup

end ParallelCall

/-! ### Workflows -/

/-- What `executeParallel` is meant to keep on the rules of a workflow, wherever the call has come
to. -/
structure SafeRun (rules : List Rule) (x : ParallelCall) (c : ParallelCall.Config) : Prop where
  unfinished_le : (x.unfinished c).length ≤ max x.engines.length 1
  executed_once : ∀ r ∈ rules, r.isActive = true →
    c.state.log.countP (ParallelEvent.endsExecution r.resultKey) ≤ 1
  gated : x.Gated c.state.log
  /-- The entries are those of the active rules, in the order of the levels. -/
  returned : x.Returned c → List.Forall₂ RuleResult.IsOf
    (x.levels.flatten.filter fun r ↦ r.isActive) c.state.results
  /-- There is one entry for each. -/
  returned_once : x.Returned c → ∀ r ∈ rules, r.isActive = true →
    c.state.results.countP (fun a ↦ a.ruleId = r.id) = 1

section Workflow

variable {rules : List Rule} {x : ParallelCall} {c : ParallelCall.Config}

/-- The tasks of a call are the active rules of the workflow. -/
theorem tasks_perm (hlevels : x.levels.flatten.Perm rules) :
    (x.tasks.map fun t ↦ t.rule).Perm (rules.filter fun r ↦ r.isActive) := by
  rw [x.map_rule_tasks]
  exact hlevels.filter _

theorem mem_rules_of_task (hlevels : x.levels.flatten.Perm rules) {t : ParallelTask}
    (ht : t ∈ x.tasks) : t.rule ∈ rules :=
  List.mem_of_mem_filter ((tasks_perm hlevels).mem_iff.1 (List.mem_map_of_mem ht))

theorem exists_task (hlevels : x.levels.flatten.Perm rules) {r : Rule} (hr : r ∈ rules)
    (hactive : r.isActive = true) :
    ∃ (i : ℕ) (t : ParallelTask), x.tasks[i]? = some t ∧ t.rule = r := by
  obtain ⟨t, ht, rfl⟩ := List.mem_map.1
    ((tasks_perm hlevels).mem_iff.2 (List.mem_filter.2 ⟨hr, hactive⟩))
  obtain ⟨i, hi⟩ := List.mem_iff_getElem?.1 ht
  exact ⟨i, t, hi, rfl⟩

theorem distinctKeys_of_perm (hlevels : x.levels.flatten.Perm rules)
    (hkeys : ((nodesOf rules).map Rule.resultKey).Nodup) : x.DistinctKeys := by
  have hsub : ((rules.filter fun r ↦ r.isActive).flatMap Rule.nodes).Sublist
      (rules.flatMap Rule.nodes) := List.filter_sublist.flatMap Rule.nodes
  rw [nodesOf_eq_flatMap] at hkeys
  rw [ParallelCall.DistinctKeys, nodesOf_eq_flatMap]
  exact (((tasks_perm hlevels).flatMap_right Rule.nodes).map Rule.resultKey).nodup_iff.2
    (hkeys.sublist (hsub.map _))

/-- Wherever the call has come to, each active rule has been executed once at most. -/
theorem executed_once (hlevels : x.levels.flatten.Perm rules)
    (hkeys : ((nodesOf rules).map Rule.resultKey).Nodup) (h : x.Reaches c) {r : Rule}
    (hr : r ∈ rules) (hactive : r.isActive = true) :
    c.state.log.countP (ParallelEvent.endsExecution r.resultKey) ≤ 1 := by
  obtain ⟨i, t, ht, rfl⟩ := exists_task hlevels hr hactive
  rw [← ParallelCall.key_eq ht]
  exact h.executions_le_one (distinctKeys_of_perm hlevels hkeys) i

/-- The entries of the returned vector. -/
theorem returned_results (hlevels : x.levels.flatten.Perm rules)
    (hcache : ∀ q ∈ nodesOf rules, q.isCaching = false) (h : x.Returned c) :
    List.Forall₂ RuleResult.IsOf (x.levels.flatten.filter fun r ↦ r.isActive) c.state.results := by
  rw [← x.map_rule_tasks, List.forall₂_map_left_iff]
  exact h.results fun t ht ↦ hcache _ (Rule.mem_nodesOf_of_mem (mem_rules_of_task hlevels ht))

theorem countP_ruleId_of_forall₂ {l : List Rule} {results : List RuleResult}
    (h : List.Forall₂ RuleResult.IsOf l results) (i : Id) :
    results.countP (fun a ↦ a.ruleId = i) = (l.map fun r ↦ r.id).count i := by
  induction h with
  | nil => rfl
  | cons ha _ ih =>
    rw [List.countP_cons, List.map_cons, List.count_cons, ih, ha.2]
    simp

/-- A rule that a name stands for is the one that publishes under it. -/
theorem dependency_eq (haccepted : Accepted rules)
    (hkeys : ((nodesOf rules).map Rule.resultKey).Nodup) {r d : Rule} (hr : r ∈ rules) {n : String}
    (hn : r.dependsOnRuleName = some n) (hd : d ∈ nodesOf rules) (hkey : d.resultKey = n) :
    d ∈ rules ∧ d.name = n := by
  obtain ⟨q, hq, hname⟩ := haccepted.dependency_exists r hr n hn
  have hne : q.name ≠ "" := fun he ↦ d.resultKey_ne_empty (hkey.trans (hname.symm.trans he))
  have hsame : d = q := List.inj_on_of_nodup_map hkeys hd (Rule.mem_nodesOf_of_mem hq)
    (hkey.trans (hname.symm.trans (Rule.resultKey_of_named hne).symm))
  exact hsame ▸ ⟨hq, hname⟩

end Workflow

/-- **Safety of `executeParallel`.** In every interleaving in which no child with a dependency is
evaluated while the context holds no success of it: never are more tasks unfinished than there are
engines, each active rule is executed once at most, nothing is evaluated before a success of its
dependency was published, and what is returned has one entry for each active rule, level by level
and by priority inside a level. -/
theorem executeParallel_safe (idOrder : HashOrder Id) (order : HashOrder Rule) (w w' : Workflow)
    (hw : w.Fresh) (hvalid : w.validate idOrder order = (.ok (), w'))
    (hkeys : ((nodesOf w'.rules).map Rule.resultKey).Nodup)
    (hcache : ∀ q ∈ nodesOf w'.rules, q.isCaching = false) (x : ParallelCall)
    (hlevels : buildDependencyLevels order w'.rules = .ok x.levels) (c : ParallelCall.Config)
    (h : x.CarefullyReaches c) :
    SafeRun w'.rules x c ∧ x.levels.flatten.Perm w'.rules ∧
      (∀ level ∈ x.levels, level.Pairwise (PriorityOrder w'.rules)) ∧
      ∀ r ∈ w'.rules, ∀ n, r.dependsOnRuleName = some n → ∀ d ∈ nodesOf w'.rules,
        d.resultKey = n → d ∈ w'.rules ∧ d.name = n := by
  have haccepted := Workflow.validate_accepted hw hvalid
  obtain ⟨hlay, hall, -⟩ := buildDependencyLevels_ok haccepted.distinct hlevels
  have hperm : x.levels.flatten.Perm w'.rules := hlay.flatten_perm haccepted.distinct.nodup hall
  refine ⟨⟨h.reaches.length_unfinished_le, fun r hr ↦ executed_once hperm hkeys h.reaches hr,
    h.gated,
    returned_results hperm hcache, fun hreturned r hr hactive ↦ ?_⟩, hperm,
    fun level ↦ level_pairwise haccepted.distinct hlevels,
    fun r hr n hn d hd hkey ↦ dependency_eq haccepted hkeys hr hn hd hkey⟩
  rw [countP_ruleId_of_forall₂ (returned_results hperm hcache hreturned)]
  refine List.count_eq_one_of_mem ?_ (List.mem_map_of_mem ?_)
  · exact (haccepted.distinct.perm hperm).sublist List.filter_sublist
  · exact List.mem_filter.2 ⟨hperm.mem_iff.2 hr, hactive⟩

/-! ### Two calls -/

namespace ParallelCall

variable {x : ParallelCall} {c : Config} {i : ℕ}

/-- One way to answer a request: the clock stands still, nothing is limited, cached or late, every
expression is true and there are no actions. -/
def favourAnswer (s : ParallelState) : (op : Op) → op.Ans
  | .lookupCache _ _ => none
  | .storeInCache _ _ _ => ()
  | .now => (0 : Int)
  | .isAllowed _ _ => true
  | .recordExecution _ => ()
  | .recordExecutionTime _ => ()
  | .getResult _ key => s.context.results key
  | .setResult _ _ _ => ()
  | .setLastError _ _ _ => ()
  | .beginExpression _ _ _ => .ok (some (.ret (.ok true)))
  | .beginAction _ _ _ => .ok none
  | .endScript _ _ => ()
  | .deadlinePassed _ _ => false
  | .acquireEngine => s.pool.head?
  | .releaseEngine _ => ()

/-- What such a request does. -/
def favourEffect (s : ParallelState) : Op → ParallelState
  | .setResult _ key result => s.setResult key result
  | .setLastError _ key message =>
    { s with context := { s.context with lastError := some (key, message) } }
  | .acquireEngine => { s with pool := s.pool.tail }
  | .releaseEngine engine => { s with pool := engine :: s.pool }
  | _ => s

/-- The answers to task `i`. -/
def favour (i : ℕ) (op : Op) (s : ParallelState) : op.Ans × ParallelState :=
  (favourAnswer s op, (favourEffect s op).enter (.request i op (favourAnswer s op)))

/-- An engine is taken only by a task that has been launched, and only if there is one. -/
def Permitted (x : ParallelCall) (i : ℕ) (op : Op) (s : ParallelState) : Prop :=
  op = .acquireEngine → x.Launched s i ∧ s.pool ≠ []

/-- These answers are possible in a call that leaves them open. -/
theorem favour_step (hx : x.answers = fun _ _ ↦ True) (op : Op) (s : ParallelState)
    (h : x.Permitted i op s) : x.step i op s (favour i op s).1 (favour i op s).2 := by
  have hok : ∀ (op : Op) (a : op.Ans), x.answers op a := fun op a ↦ by
    rw [hx]
    trivial
  refine ⟨favourEffect s op, ?_, rfl⟩
  cases op
  case acquireEngine =>
    obtain ⟨hlaunched, hpool⟩ := h rfl
    obtain ⟨engine, pool, hcons⟩ := List.exists_cons_of_ne_nil hpool
    refine ⟨hlaunched, engine, pool, hcons, ?_, ?_⟩
    · show s.pool.head? = some engine
      rw [hcons, List.head?_cons]
    · show { s with pool := s.pool.tail } = { s with pool }
      rw [hcons, List.tail_cons]
  case releaseEngine => exact rfl
  case getResult => exact ⟨rfl, rfl⟩
  case setResult => exact rfl
  case setLastError => exact rfl
  all_goals exact ⟨hok _ _, rfl⟩

/-- A task that has been launched can run to its end. -/
theorem reaches_ret (hx : x.answers = fun _ _ ↦ True) (h : x.Reaches c)
    (hthread : c.thread i = x.task i)
    (hlaunched : x.Launched c.state i) (hpool : c.state.pool ≠ []) :
    x.Reaches ⟨Function.update c.thread i (.ret ((x.task i).run (favour i) c.state).1),
      ((x.task i).run (favour i) c.state).2⟩ := by
  have hguarded : Guarded (favour i) (x.Permitted i) (x.task i) c.state := by
    obtain ⟨t, ht, -⟩ := id hlaunched
    obtain ⟨next, hnext, hasks⟩ := parallelTask_asks_next 0 x.parameters t.rule
    rw [task, ht]
    show Guarded _ _ (parallelTask 0 x.parameters t.rule) _
    rw [hnext]
    exact ⟨fun _ ↦ ⟨hlaunched, hpool⟩,
      (hasks _).guarded (fun op s hne he ↦ absurd he hne) _⟩
  have hsteps : Steps (x.step i) _ _ := hguarded.steps fun op s ↦ favour_step hx op s
  rw [← hthread] at hsteps ⊢
  exact h.trans (Interleaving.Reaches.of_steps hsteps)

/-- The calling thread's variables are not touched by a run of a task. -/
theorem run_favour_frame {α : Type} (p : RuleProgram α) (s : ParallelState) :
    ((p.run (favour i) s).2.batch = s.batch) ∧ (p.run (favour i) s).2.collected = s.collected := by
  induction p generalizing s with
  | ret a => exact ⟨rfl, rfl⟩
  | ask op next ih =>
    obtain ⟨hbatch, hcollected⟩ := ih (favour i op s).1 (favour i op s).2
    have hframe : (favour i op s).2.batch = s.batch ∧
        (favour i op s).2.collected = s.collected := by
      cases op <;> exact ⟨rfl, rfl⟩
    exact ⟨hbatch.trans hframe.1, hcollected.trans hframe.2⟩

/-- The next task to be collected, launched before, can run to its end and is collected. -/
theorem reaches_collect (hx : x.answers = fun _ _ ↦ True) (h : x.Reaches c) {t : ParallelTask}
    (hi : c.state.collected = i) (ht : x.tasks[i]? = some t) (hbatch : t.batch < c.state.batch)
    (hthread : c.thread i = x.task i) (hpool : c.state.pool ≠ []) :
    x.Reaches ⟨Function.update c.thread i (.ret ((x.task i).run (favour i) c.state).1),
      ((x.task i).run (favour i) c.state).2.collect t.rule
        ((x.task i).run (favour i) c.state).1⟩ := by
  obtain ⟨hframe, hcollected⟩ := run_favour_frame (i := i) (x.task i) c.state
  refine (reaches_ret hx h hthread ⟨t, ht, hbatch⟩ hpool).tail (.other (.collect ?_ ?_ ?_))
  · rw [hcollected, hi, ht]
  · rwa [hframe]
  · show Function.update c.thread i _ ((x.task i).run (favour i) c.state).2.collected = _
    rw [hcollected, hi, Function.update_self]

/-- The next batch is launched when all tasks so far are collected. -/
theorem reaches_launch (h : x.Reaches c) (hbatch : c.state.batch < x.batches.length)
    (hdone : ∀ i < x.tasks.length, c.state.collected ≤ i →
      ∀ t, x.tasks[i]? = some t → c.state.batch ≤ t.batch) :
    x.Reaches ⟨c.thread, { c.state with batch := c.state.batch + 1 }⟩ := by
  refine h.tail (.other (.launch hbatch fun i hlaunched ↦ ?_))
  obtain ⟨t, ht, hlt⟩ := hlaunched
  by_contra hle
  exact absurd hlt (hdone i (List.getElem?_eq_some_iff.1 ht).1 (not_lt.1 hle) t ht).not_gt

end ParallelCall

namespace CarelessChild

def X : Rule := { id := 1, name := "X", isActive := false }

def C : Rule := { id := 3, name := "C", expression := "true", dependsOnRuleName := some "X" }

def P : Rule := { id := 2, name := "P", childRules := [C] }

/-- The validated rules. -/
def rules : List Rule := [X.markValidated, P.markValidated]

def call : ParallelCall where
  levels := [rules]
  engines := [0]
  parameters := []
  answers := fun _ _ ↦ True

/-- What `P` comes to. -/
def ran : RuleResult × ParallelState :=
  (call.task 0).run (ParallelCall.favour 0) { call.start.state with batch := 1 }

/-- The call has executed `P`. -/
def returned : ParallelCall.Config where
  thread := Function.update call.task 0 (.ret ran.1)
  state := ran.2.collect P.markValidated ran.1

theorem call_returned : call.Returned returned where
  reaches := ParallelCall.reaches_collect rfl
    (ParallelCall.reaches_launch .refl (show 0 < call.batches.length by decide)
      fun _ _ _ t _ ↦ Nat.zero_le t.batch)
    rfl rfl (Nat.one_pos : (ParallelTask.mk 0 P.markValidated).batch < 1) rfl
      (List.cons_ne_nil 0 [])
  batches := rfl
  collected := rfl

/-- The child is evaluated. -/
theorem evaluates_child : ∃ e ∈ returned.state.log, e.Evaluates C :=
  ⟨_, List.mem_of_getElem? (i := 12) rfl, rfl⟩

/-- Nobody publishes under `X`. -/
theorem not_met (log : List ParallelEvent) : ¬call.Met log "X" := by
  rintro ⟨e, -, t, d, -, ht, hd, hkey, -⟩
  have hrule : t.rule = P.markValidated :=
    List.mem_singleton.1 ((List.mem_of_getElem? (l := call.tasks.map fun t ↦ t.rule) (by
      rw [List.getElem?_map, ht]
      rfl) : t.rule ∈ [P.markValidated]))
  rw [hrule] at hd
  rcases List.mem_cons.1 hd with rfl | hd
  · exact absurd hkey (by decide)
  · obtain rfl := List.mem_singleton.1 hd
    exact absurd hkey (by decide)

/-- The expression of a child is evaluated although the rule it depends on is not even active. -/
theorem not_safe :
    Workflow.validate (HashOrder.insertion Id) (HashOrder.insertion Rule) { rules := [X, P] } =
        (.ok (), { rules, validated := true }) ∧
      ((nodesOf rules).map Rule.resultKey).Nodup ∧ (∀ q ∈ nodesOf rules, q.isCaching = false) ∧
      buildDependencyLevels (HashOrder.insertion Rule) rules = .ok call.levels ∧
      call.Returned returned ∧ ¬SafeRun rules call returned := by
  refine ⟨rfl, by decide, by decide, rfl, call_returned, fun h ↦ ?_⟩
  obtain ⟨e, he, hevaluates⟩ := evaluates_child
  obtain ⟨log, hmet⟩ := h.gated.exists_met he hevaluates rfl
  exact not_met log hmet

end CarelessChild

namespace CarefulPair

def A : Rule := { id := 1, name := "A", expression := "true" }

def B : Rule := { id := 2, name := "B", dependsOnRuleName := some "A" }

/-- The validated rules. -/
def rules : List Rule := [A.markValidated, B.markValidated]

def call : ParallelCall where
  levels := [[A.markValidated], [B.markValidated]]
  engines := [0]
  parameters := []
  answers := fun _ _ ↦ True

/-- What `A` comes to. -/
def ranA : RuleResult × ParallelState :=
  (call.task 0).run (ParallelCall.favour 0) { call.start.state with batch := 1 }

/-- The call has executed `A`. -/
def between : ParallelCall.Config where
  thread := Function.update call.task 0 (.ret ranA.1)
  state := ranA.2.collect A.markValidated ranA.1

/-- What `B` comes to. -/
def ranB : RuleResult × ParallelState :=
  (call.task 1).run (ParallelCall.favour 1) { between.state with batch := 2 }

/-- The call has executed `B`. -/
def returned : ParallelCall.Config where
  thread := Function.update between.thread 1 (.ret ranB.1)
  state := ranB.2.collect B.markValidated ranB.1

theorem reaches_between : call.Reaches between :=
  ParallelCall.reaches_collect rfl
    (ParallelCall.reaches_launch .refl (show 0 < call.batches.length by decide)
      fun _ _ _ t _ ↦ Nat.zero_le t.batch)
    rfl rfl (Nat.one_pos : (ParallelTask.mk 0 A.markValidated).batch < 1) rfl
      (List.cons_ne_nil 0 [])

theorem call_returned : call.Returned returned where
  reaches := by
    refine ParallelCall.reaches_collect (t := ⟨1, B.markValidated⟩) rfl
      (ParallelCall.reaches_launch reaches_between (show 1 < call.batches.length by decide) ?_)
      rfl rfl Nat.one_lt_two rfl (List.cons_ne_nil 0 [])
    intro i hi hle t ht
    obtain rfl : i = 1 := Nat.le_antisymm (Nat.le_of_lt_succ hi) hle
    obtain rfl : ⟨1, B.markValidated⟩ = t := Option.some.inj ht
    exact Nat.le_refl 1
  batches := rfl
  collected := rfl

theorem safe : call.Returned returned ∧ SafeRun rules call returned :=
  ⟨call_returned, (executeParallel_safe (HashOrder.insertion Id) (HashOrder.insertion Rule)
    { rules := [A, B] } { rules, validated := true } ⟨rfl, by decide⟩ rfl (by decide) (by decide)
      call rfl returned
    (call_returned.reaches.carefully (by decide))).1⟩

end CarefulPair

end FastRules
