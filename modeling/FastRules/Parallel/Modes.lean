import FastRules.Parallel.Completion
import FastRules.Parallel.Values

/-!
# The execution modes agree where every dependency succeeds

`Workflow::execute` passes over a rule whose dependency has not succeeded;
`Workflow::executeParallel` returns a failed result for it, and `Workflow::executeAdaptive` is one
of the two. So the modes return the same `(ruleId, isSuccess)` pairs exactly if every dependency of
an active rule succeeds (`execution_modes_agree_iff`), for rules whose chunks are functions of the
parameters and of results of earlier levels.
-/

namespace FastRules

open Program Interleaving Layers

/-! ### What is read, and what is depended on -/

/-- The chunks of a rule and of everything below it look up keys of the rule itself and of rules of
earlier levels. -/
def Meaning.ReadsEarlier (m : Meaning) (levels : List (List Rule)) : Prop :=
  ∀ i r, At levels i r → m.LooksUp r.nodes
    {key | ∀ j d, At levels j d → (∃ q ∈ d.nodes, q.resultKey = key) → d = r ∨ j < i}

/-- The dependencies of active rules are in earlier levels. -/
def DependenciesBefore (levels : List (List Rule)) : Prop :=
  ∀ i r, At levels i r → r.isActive = true → ∀ n, r.dependsOnRuleName = some n →
    ∃ j < i, ∃ d, At levels j d ∧ d.name = n

/-- Names without NUL bytes lead to earlier levels. -/
theorem dependenciesBefore_of_nulFree {order : HashOrder Rule} {rules : List Rule}
    {levels : List (List Rule)} (haccepted : Accepted rules)
    (hkeys : ((nodesOf rules).map Rule.resultKey).Nodup)
    (hnul : ∀ r ∈ rules, ∀ n, r.dependsOnRuleName = some n → NulFree n)
    (hlevels : buildDependencyLevels order rules = .ok levels)
    (hname : ∀ r ∈ rules, r.dependsOnRuleName ≠ some "") : DependenciesBefore levels := by
  obtain ⟨hlay, -, -⟩ := buildDependencyLevels_ok haccepted.distinct hlevels
  have hnames : UniqueDependencyNames rules := by
    refine ⟨fun r hr n hn a ha b hb haname hbname ↦ ?_, hnul⟩
    have hne : n ≠ "" := fun he ↦ hname r hr (he ▸ hn)
    have hkey : a.resultKey = b.resultKey := by
      rw [Rule.resultKey_of_named (haname ▸ hne), Rule.resultKey_of_named (hbname ▸ hne),
        haname, hbname]
    exact List.inj_on_of_nodup_map hkeys (Rule.mem_nodesOf_of_mem ha)
      (Rule.mem_nodesOf_of_mem hb) hkey
  intro i r hr _ n hn
  have hrmem := hlay.mem_nodes hr
  obtain ⟨d, hd, hdname⟩ := haccepted.dependency_exists r hrmem n hn
  obtain ⟨j, hj, hj'⟩ := dependsOn_succ_level haccepted.distinct hnames hlevels
    ⟨hrmem, hd, hdname.symm ▸ hn⟩
  obtain rfl : i = j + 1 := hlay.at_unique hr hj'
  exact ⟨j, Nat.lt_succ_self j, d, hj, hdname⟩

/-! ### Levels and batches -/

/-- Rules of earlier levels are in earlier batches. -/
theorem parallelBatches_level {n : ℕ} (hn : 0 < n) {levels : List (List Rule)}
    (hnodup : levels.flatten.Nodup) {i j b b' : ℕ} {r d : Rule} {batch batch' : List Rule}
    (hr : At levels i r) (hd : At levels j d) (hji : j < i)
    (hb : (parallelBatches n levels)[b]? = some batch) (hrb : r ∈ batch)
    (hb' : (parallelBatches n levels)[b']? = some batch') (hdb : d ∈ batch') : b' < b := by
  have hsplit : parallelBatches n levels =
      parallelBatches n (levels.take i) ++ parallelBatches n (levels.drop i) := by
    rw [parallelBatches, parallelBatches, parallelBatches, ← List.flatMap_append,
      List.take_append_drop]
  have hmem {levels' : List (List Rule)} {batch : List Rule} {q : Rule}
      (hbatch : batch ∈ parallelBatches n levels') (hq : q ∈ batch) : q ∈ levels'.flatten := by
    have hflat : q ∈ (parallelBatches n levels').flatten := List.mem_flatten.2 ⟨batch, hbatch, hq⟩
    rw [flatten_parallelBatches hn] at hflat
    exact List.mem_of_mem_filter hflat
  have hdisjoint : List.Disjoint (levels.take i).flatten (levels.drop i).flatten := by
    rw [← List.take_append_drop i levels, List.flatten_append] at hnodup
    exact List.disjoint_of_nodup_append hnodup
  have hr' : r ∈ (levels.drop i).flatten := by
    obtain ⟨level, hlevel, hin⟩ := hr
    exact List.mem_flatten.2 ⟨level, List.mem_of_getElem? (i := 0) (by
      rw [List.getElem?_drop, Nat.add_zero, hlevel]), hin⟩
  have hd' : d ∈ (levels.take i).flatten := mem_before_iff.2 ⟨j, hji, hd⟩
  rw [hsplit] at hb hb'
  -- the batches of the levels before level `i` come first
  have hlt : b' < (parallelBatches n (levels.take i)).length := by
    by_contra hle
    rw [List.getElem?_append_right (not_lt.1 hle)] at hb'
    exact hdisjoint hd' (hmem (List.mem_of_getElem? hb') hdb)
  have hge : (parallelBatches n (levels.take i)).length ≤ b := by
    by_contra hlt
    rw [List.getElem?_append_left (not_le.1 hlt)] at hb
    exact hdisjoint (hmem (List.mem_of_getElem? hb) hrb) hr'
  exact hlt.trans_le hge

namespace ParallelCall

variable {x : ParallelCall} {i j k l : ℕ} {t u : ParallelTask}

/-- Tasks of earlier levels are in earlier batches. -/
theorem batch_lt_of_level (hnodup : x.levels.flatten.Nodup) (ht : x.tasks[i]? = some t)
    (hu : x.tasks[j]? = some u) (hk : At x.levels k t.rule) (hl : At x.levels l u.rule)
    (hlk : l < k) :
    u.batch < t.batch := by
  obtain ⟨batch, hb, hrb⟩ := exists_batch_of_mem (List.mem_of_getElem? ht)
  obtain ⟨batch', hb', hdb⟩ := exists_batch_of_mem (List.mem_of_getElem? hu)
  exact parallelBatches_level x.maxConcurrency_pos hnodup hk hl hlk hb hrb hb' hdb

theorem exists_level (ht : x.tasks[i]? = some t) : ∃ k, At x.levels k t.rule := by
  have hmem : t.rule ∈ x.tasks.map fun t ↦ t.rule := List.mem_map_of_mem (List.mem_of_getElem? ht)
  rw [x.map_rule_tasks] at hmem
  exact mem_flatten_iff.1 (List.mem_of_mem_filter hmem)

/-- A call of the parallel executor is orderly where every dependency succeeds. -/
theorem orderly {m : Meaning} {order : HashOrder Rule} {rules : List Rule}
    (haccepted : Accepted rules) (hkeys : ((nodesOf rules).map Rule.resultKey).Nodup)
    (hcache : ∀ q ∈ nodesOf rules, q.isCaching = false)
    (hlevels : buildDependencyLevels order rules = .ok x.levels)
    (hx : AnswersRealize x.answers m x.parameters) (hreads : m.ReadsEarlier x.levels)
    (hbefore : DependenciesBefore x.levels)
    (hholds : DependenciesHold m x.parameters x.levels.flatten fun _ ↦ none) : x.Orderly m := by
  obtain ⟨hlay, hall, -⟩ := buildDependencyLevels_ok haccepted.distinct hlevels
  have hperm : x.levels.flatten.Perm rules := hlay.flatten_perm haccepted.distinct.nodup hall
  have hnodup : x.levels.flatten.Nodup := hperm.nodup_iff.2 haccepted.distinct.nodup
  have hdistinct : x.DistinctKeys := distinctKeys_of_perm hperm hkeys
  have hsame {i j : ℕ} {t u : ParallelTask} (ht : x.tasks[i]? = some t) (hu : x.tasks[j]? = some u)
      (h : u.rule = t.rule) : j = i :=
    hdistinct.eq_of_key hu ht u.rule.self_mem_nodes t.rule.self_mem_nodes
      (congrArg Rule.resultKey h)
  refine ⟨hx, hdistinct, fun t ht q hq ↦ ?_, fun i t ht q hq script hscript ↦ ?_,
    fun i t ht n hn ↦ ?_, fun i t ht ↦ ?_⟩
  · exact hcache q (Rule.mem_nodesOf.2 ⟨t.rule, mem_rules_of_task hperm ht, hq⟩)
  · -- an owner of a key that is read is the task itself, or is of an earlier level
    obtain ⟨k, hk⟩ := exists_level ht
    refine (hreads k t.rule hk q hq script hscript).mono fun key hkey j howns ↦ ?_
    obtain ⟨u, hu, hown⟩ := howns
    obtain ⟨l, hl⟩ := exists_level hu
    rcases hkey l u.rule hl hown with h | hlk
    · exact .inl (hsame ht hu h)
    · exact .inr ⟨t, u, ht, hu, batch_lt_of_level hnodup ht hu hk hl hlk⟩
  · -- the rule with the name is the one that publishes under it
    rintro j ⟨u, hu, q, hq, hqkey⟩
    obtain ⟨k, hk⟩ := exists_level ht
    obtain ⟨l, hlk, d, hd, hdname⟩ := hbefore k t.rule hk (isActive_of_task ht) n hn
    have hmem := mem_rules_of_task hperm (List.mem_of_getElem? ht)
    have humem := mem_rules_of_task hperm (List.mem_of_getElem? hu)
    obtain ⟨hqmem, hqname⟩ := dependency_eq haccepted hkeys hmem hn
      (Rule.mem_nodesOf.2 ⟨u.rule, humem, hq⟩) hqkey
    have hdkey : d.resultKey = q.resultKey := by
      have hne : n ≠ "" := fun he ↦ q.resultKey_ne_empty (hqkey.trans he)
      rw [Rule.resultKey_of_named (hdname ▸ hne), hdname, hqkey]
    have hdu : d = u.rule := Rule.eq_of_key_mem_nodes hkeys (hlay.mem_nodes hd) humem
      d.self_mem_nodes hq hdkey
    exact .inr ⟨t, u, ht, hu, batch_lt_of_level hnodup ht hu hk (hdu ▸ hd) hlk⟩
  · have hrules : x.rules = x.levels.flatten.filter fun r ↦ r.isActive := x.map_rule_tasks
    have hr := getElem?_rules ht
    rw [ledgerBefore]
    rw [hrules] at hr ⊢
    exact hholds.dependencyHolds hr

end ParallelCall

/-! ### Verdicts -/

/-- The values of active rules are not skipped. -/
theorem skipped_valuesOf {m : Meaning} {parameters : List RuleParameter} {rules : List Rule}
    (hactive : ∀ r ∈ rules, r.isActive = true) (ledger : Ledger) :
    ∀ o ∈ (valuesOf m parameters rules ledger).result, o.skipped = false := by
  induction rules generalizing ledger with
  | nil => exact fun o ho ↦ absurd ho List.not_mem_nil
  | cons r rules ih =>
    intro o ho
    rw [valuesOf] at ho
    rcases List.mem_cons.1 ho with rfl | ho
    · rw [Rule.value_active (hactive r List.mem_cons_self)]
      rfl
    · exact ih (fun q hq ↦ hactive q (List.mem_cons_of_mem r hq)) _ o ho

/-- Where every dependency holds the loop returns what the active rules come to. -/
theorem outcomeVerdicts_of_holds {m : Meaning} {parameters : List RuleParameter} {rules : List Rule}
    {ledger : Ledger} (h : DependenciesHold m parameters rules ledger) :
    outcomeVerdicts (loopValue m parameters rules ledger).result =
      (valuesOf m parameters (rules.filter fun r ↦ r.isActive) ledger).result.map fun o ↦
        (o.ruleId, o.isSuccess) := by
  have hskipped : ∀ o ∈ (valuesOf m parameters (rules.filter fun r ↦ r.isActive) ledger).result,
      o.skipped = false :=
    skipped_valuesOf (fun r hr ↦ (List.mem_filter.1 hr).2) ledger
  rw [outcomeVerdicts, h.loopValue_eq.1]
  refine congrArg _ (List.filter_eq_self.2 fun o ho ↦ ?_)
  rw [hskipped o ho]
  rfl

theorem verdicts_eq_map_outcome (results : List RuleResult) :
    verdicts results = (results.map RuleResult.outcome).map fun o ↦ (o.ruleId, o.isSuccess) := by
  rw [List.map_map, verdicts]
  refine List.map_congr_left fun a _ ↦ ?_
  rw [Function.comp_apply, RuleResult.isSuccess_outcome]
  rfl

/-! ### The modes -/

/-- What `executeAdaptive` goes by: the members of the workflow, and the counter of the thread. -/
structure AdaptiveState where
  adaptiveThreshold : UInt64 := 4
  autoDetectThreshold : Bool := false
  sequentialAvgTime : Float := 0.0
  parallelAvgTime : Float := 0.0
  sequentialRuns : UInt64 := 0
  parallelRuns : UInt64 := 0
  checkCounter : UInt64 := 0

namespace AdaptiveState

/-- `autoDetectThreshold_ && rules.size() > 2`. -/
def detects (s : AdaptiveState) (ruleCount : ℕ) : Bool :=
  s.autoDetectThreshold && 2 < ruleCount

/-- `++checkCounter`, where thresholds are detected. -/
def count (s : AdaptiveState) (ruleCount : ℕ) : AdaptiveState :=
  if s.detects ruleCount then { s with checkCounter := s.checkCounter + 1 } else s

/-- The call tests both strategies: `++checkCounter % 100 == 0`. -/
def tests (s : AdaptiveState) (ruleCount : ℕ) : Bool :=
  s.detects ruleCount && (s.count ruleCount).checkCounter % 100 == 0

/-- A rolling average with one more sample. -/
def roll (avgTime : Float) (runs : UInt64) (time : Float) : Float :=
  (avgTime * runs.toFloat + time) / (runs + 1).toFloat

/-- Enter the times of a test. -/
def sample (s : AdaptiveState) (seqTime parTime : Float) : AdaptiveState :=
  { s with
    sequentialAvgTime := roll s.sequentialAvgTime s.sequentialRuns seqTime
    sequentialRuns := s.sequentialRuns + 1
    parallelAvgTime := roll s.parallelAvgTime s.parallelRuns parTime
    parallelRuns := s.parallelRuns + 1 }

/-- Adjust the threshold based on which is faster. -/
def adjust (s : AdaptiveState) : AdaptiveState :=
  if s.sequentialAvgTime < s.parallelAvgTime * 0.8 then
    { s with adaptiveThreshold := min (s.adaptiveThreshold + 1) 20 }
  else if s.parallelAvgTime < s.sequentialAvgTime * 0.8 then
    { s with adaptiveThreshold := max (s.adaptiveThreshold - 1) 2 }
  else s

end AdaptiveState

section Modes

variable (m : Meaning) (parameters : List RuleParameter) (order : HashOrder Rule)
  (rules : List Rule)

/-- `Workflow::execute` may return `results`. -/
def ExecuteReturns (results : List RuleResult) : Prop :=
  ∃ (E : Type) (env : Environment E) (engine : EnginePtr) (c : ContextPtr) (world : World E)
    (program : RuleProgram (List RuleResult)), env.Realizes m parameters ∧
      Workflow.execute engine c parameters order rules = .ok program ∧
      results = (program.run env.handle (world.newContext c)).1

/-- `Workflow::executeParallel` may return `results`. -/
def ExecuteParallelReturns (results : List RuleResult) : Prop :=
  ∃ (x : ParallelCall) (c : ParallelCall.Config), AnswersRealize x.answers m parameters ∧
    x.parameters = parameters ∧ x.engines ≠ [] ∧ buildDependencyLevels order rules = .ok x.levels ∧
      x.Returned c ∧ results = c.state.results

/-- `Workflow::executeAdaptive`, called in a state, may return `results` and leave another state. -/
inductive ExecuteAdaptiveReturns (s : AdaptiveState) : List RuleResult → AdaptiveState → Prop
  | test {seqResults parResults : List RuleResult} (seqTime parTime : Float)
      (htest : s.tests rules.length = true)
      (hseq : ExecuteReturns m parameters order rules seqResults)
      (hpar : ExecuteParallelReturns m parameters order rules parResults) :
      ExecuteAdaptiveReturns s (if seqTime < parTime then seqResults else parResults)
        (((s.count rules.length).sample seqTime parTime).adjust)
  | sequential {results : List RuleResult} (htest : s.tests rules.length = false)
      (hsize : rules.length ≤ s.adaptiveThreshold.toNat)
      (h : ExecuteReturns m parameters order rules results) :
      ExecuteAdaptiveReturns s results (s.count rules.length)
  | parallel {results : List RuleResult} (htest : s.tests rules.length = false)
      (hsize : s.adaptiveThreshold.toNat < rules.length)
      (h : ExecuteParallelReturns m parameters order rules results) :
      ExecuteAdaptiveReturns s results (s.count rules.length)

variable {m parameters order rules} {levels : List (List Rule)} {results : List RuleResult}

/-- Whatever mode is chosen, it is one of the two. -/
theorem ExecuteAdaptiveReturns.cases_mode {s s' : AdaptiveState}
    (h : ExecuteAdaptiveReturns m parameters order rules s results s') :
    ExecuteReturns m parameters order rules results ∨
      ExecuteParallelReturns m parameters order rules results := by
  rcases h with ⟨seqTime, parTime, -, hseq, hpar⟩ | ⟨-, -, h⟩ | ⟨-, -, h⟩
  · split_ifs
    · exact .inl hseq
    · exact .inr hpar
  · exact .inl h
  · exact .inr h

/-- The sequential mode returns the verdicts of its loop. -/
theorem ExecuteReturns.verdicts_eq (hlevels : buildDependencyLevels order rules = .ok levels)
    (hcache : ∀ q ∈ nodesOf levels.flatten, q.isCaching = false)
    (h : ExecuteReturns m parameters order rules results) :
    verdicts results =
      outcomeVerdicts (loopValue m parameters levels.flatten fun _ ↦ none).result := by
  obtain ⟨E, env, engine, c, world, program, hE, hprogram, rfl⟩ := h
  have horder : resolveExecutionOrder order rules = .ok levels.flatten := by
    rw [resolveExecutionOrder, hlevels]
    rfl
  exact execute_verdicts hE engine c horder hcache world hprogram

/-- The parallel mode returns one result for each active rule. -/
theorem ExecuteParallelReturns.length_eq (hlevels : buildDependencyLevels order rules = .ok levels)
    (h : ExecuteParallelReturns m parameters order rules results) :
    results.length = (levels.flatten.filter fun r ↦ r.isActive).length := by
  obtain ⟨x, c, -, -, -, hx, hreturned, rfl⟩ := h
  obtain rfl : levels = x.levels := Except.ok.inj (hlevels.symm.trans hx)
  rw [hreturned.reaches.progress.length_results, hreturned.collected, ← x.map_rule_tasks,
    List.length_map]

/-- The modes can agree only if every dependency succeeds. -/
theorem dependenciesHold_of_perm (hlevels : buildDependencyLevels order rules = .ok levels)
    (hcache : ∀ q ∈ nodesOf levels.flatten, q.isCaching = false) {results' : List RuleResult}
    (h : ExecuteReturns m parameters order rules results)
    (h' : ExecuteParallelReturns m parameters order rules results')
    (hperm : (verdicts results).Perm (verdicts results')) :
    DependenciesHold m parameters levels.flatten fun _ ↦ none := by
  refine dependenciesHold_of_length ?_
  have hlength := hperm.length_eq
  rw [h.verdicts_eq hlevels hcache, verdicts, List.length_map, h'.length_eq hlevels] at hlength
  rw [← hlength, outcomeVerdicts, List.length_map]
  exact List.length_filter_le _ _

/-- Where every dependency succeeds, both modes come to the values of the active rules. -/
theorem ExecuteReturns.verdicts_of_holds (hlevels : buildDependencyLevels order rules = .ok levels)
    (hcache : ∀ q ∈ nodesOf levels.flatten, q.isCaching = false)
    (hholds : DependenciesHold m parameters levels.flatten fun _ ↦ none)
    (h : ExecuteReturns m parameters order rules results) :
    verdicts results = (valuesOf m parameters (levels.flatten.filter fun r ↦ r.isActive)
      fun _ ↦ none).result.map fun o ↦ (o.ruleId, o.isSuccess) := by
  rw [h.verdicts_eq hlevels hcache, outcomeVerdicts_of_holds hholds]

theorem ExecuteParallelReturns.verdicts_of_holds (haccepted : Accepted rules)
    (hkeys : ((nodesOf rules).map Rule.resultKey).Nodup)
    (hcache : ∀ q ∈ nodesOf rules, q.isCaching = false)
    (hlevels : buildDependencyLevels order rules = .ok levels) (hreads : m.ReadsEarlier levels)
    (hbefore : DependenciesBefore levels)
    (hholds : DependenciesHold m parameters levels.flatten fun _ ↦ none)
    (h : ExecuteParallelReturns m parameters order rules results) :
    verdicts results = (valuesOf m parameters (levels.flatten.filter fun r ↦ r.isActive)
      fun _ ↦ none).result.map fun o ↦ (o.ruleId, o.isSuccess) := by
  obtain ⟨x, c, hanswers, rfl, -, hx, hreturned, rfl⟩ := h
  obtain rfl : levels = x.levels := Except.ok.inj (hlevels.symm.trans hx)
  have horderly := ParallelCall.orderly haccepted hkeys hcache hx hanswers hreads hbefore hholds
  have hrules : x.rules = x.levels.flatten.filter fun r ↦ r.isActive := x.map_rule_tasks
  rw [verdicts_eq_map_outcome, horderly.outcomes hreturned, hrules]

end Modes

/-- **Agreement of the execution modes.** Every call of `executeParallel` returns, and what the
three modes return has the same `(ruleId, isSuccess)` pairs only if every dependency of an active
rule succeeds. If so, and if dependencies are in earlier levels, it does in every interleaving and
in every adaptive state. -/
theorem execution_modes_agree_iff (idOrder : HashOrder Id) (order : HashOrder Rule)
    (w w' : Workflow) (hw : w.Fresh) (hvalid : w.validate idOrder order = (.ok (), w'))
    (hkeys : ((nodesOf w'.rules).map Rule.resultKey).Nodup)
    (hcache : ∀ q ∈ nodesOf w'.rules, q.isCaching = false) (levels : List (List Rule))
    (hlevels : buildDependencyLevels order w'.rules = .ok levels) (m : Meaning)
    (parameters : List RuleParameter) (hreads : m.ReadsEarlier levels) :
    (∀ x : ParallelCall, x.engines ≠ [] → (∀ op, ∃ a, x.answers op a) →
      Inevitably (Step x.step x.Supervise) x.Returned x.start) ∧
    ∀ seqResults parResults adaptiveResults s s',
      ExecuteReturns m parameters order w'.rules seqResults →
      ExecuteParallelReturns m parameters order w'.rules parResults →
      ExecuteAdaptiveReturns m parameters order w'.rules s adaptiveResults s' →
      ((verdicts seqResults).Perm (verdicts parResults) ∧
          (verdicts seqResults).Perm (verdicts adaptiveResults) →
        DependenciesHold m parameters levels.flatten fun _ ↦ none) ∧
      ((DependenciesHold m parameters levels.flatten fun _ ↦ none) → DependenciesBefore levels →
        (verdicts seqResults).Perm (verdicts parResults) ∧
          (verdicts seqResults).Perm (verdicts adaptiveResults)) := by
  have haccepted := Workflow.validate_accepted hw hvalid
  obtain ⟨hlay, hall, -⟩ := buildDependencyLevels_ok haccepted.distinct hlevels
  have hperm : levels.flatten.Perm w'.rules := hlay.flatten_perm haccepted.distinct.nodup hall
  have hcache' : ∀ q ∈ nodesOf levels.flatten, q.isCaching = false := by
    intro q hq
    obtain ⟨r, hr, hqr⟩ := Rule.mem_nodesOf.1 hq
    exact hcache q (Rule.mem_nodesOf.2 ⟨r, hperm.mem_iff.1 hr, hqr⟩)
  refine ⟨fun x hengines hanswers ↦ ParallelCall.returns hanswers hengines,
    fun seqResults parResults adaptiveResults s s' hseq hpar hadaptive ↦ ⟨fun h ↦ ?_,
      fun hholds hbefore ↦ ?_⟩⟩
  · -- a rule whose dependency fails has a result in one mode only
    exact dependenciesHold_of_perm hlevels hcache' hseq hpar h.1
  · have hseq' {results : List RuleResult}
      (h : ExecuteReturns m parameters order w'.rules results) :=
      h.verdicts_of_holds hlevels hcache' hholds
    have hpar' {results : List RuleResult}
        (h : ExecuteParallelReturns m parameters order w'.rules results) :=
      h.verdicts_of_holds haccepted hkeys hcache hlevels hreads hbefore hholds
    refine ⟨.of_eq ((hseq' hseq).trans (hpar' hpar).symm), .of_eq ((hseq' hseq).trans ?_)⟩
    exact (hadaptive.cases_mode.elim hseq' hpar').symm

/-! ### Two workflows -/

/-- The least that answers have to satisfy to realize `m`. -/
def Meaning.answers (m : Meaning) : ParallelAnswers
  | .isAllowed _ _, allowed => allowed = true
  | .beginExpression _ r _, begun => begun = m.expression r.toRuleFields.uncached
  | .beginAction _ r _, begun => begun = m.action r.toRuleFields.uncached
  | .deadlinePassed _ _, late => late = false
  | _, _ => True

theorem Meaning.answers_realize (m : Meaning) (parameters : List RuleParameter) :
    AnswersRealize m.answers m parameters where
  isAllowed h := h
  beginExpression h := h
  beginAction h := h
  deadlinePassed h := h

theorem Meaning.exists_answer (m : Meaning) (op : Op) : ∃ a, m.answers op a := by
  cases op
  case isAllowed => exact ⟨true, rfl⟩
  case deadlinePassed => exact ⟨false, rfl⟩
  case beginExpression | beginAction => exact ⟨_, rfl⟩
  case lookupCache | getResult | acquireEngine => exact ⟨none, trivial⟩
  case now => exact ⟨(0 : Int), trivial⟩
  all_goals exact ⟨(), trivial⟩

/-- A call of the parallel mode with one engine. -/
theorem exists_parallelReturns (m : Meaning) (parameters : List RuleParameter)
    {order : HashOrder Rule} {rules : List Rule} {levels : List (List Rule)}
    (hlevels : buildDependencyLevels order rules = .ok levels) :
    ∃ results, ExecuteParallelReturns m parameters order rules results := by
  let x : ParallelCall := { levels, engines := [0], parameters, answers := m.answers }
  obtain ⟨c, hc⟩ := (ParallelCall.returns (x := x) m.exists_answer (List.cons_ne_nil 0 [])).exists
  exact ⟨c.state.results, x, c, m.answers_realize parameters, rfl, List.cons_ne_nil 0 [],
    hlevels, hc,
    rfl⟩

/-- A rule `A` and a rule `B` that depends on it. -/
def gatedPair (active : Bool) : Workflow where
  rules :=
    [{ id := 1, name := "A", isActive := active },
      { id := 2, name := "B", dependsOnRuleName := some "A" }]

namespace GatedPair

/-- The rules as validation leaves them. -/
def rules (active : Bool) : List Rule :=
  (gatedPair active).rules.map Rule.markValidated

/-- No rule has a chunk. -/
def meaning : Meaning :=
  .ofScripts fun _ ↦ none

def levels (active : Bool) : List (List Rule) :=
  (rules active).map fun r ↦ [r]

theorem validated (active : Bool) :
    (gatedPair active).validate (HashOrder.insertion Id) (HashOrder.insertion Rule) =
      (.ok (), { rules := rules active, validated := true }) := by
  cases active <;> rfl

theorem levels_ok (active : Bool) :
    buildDependencyLevels (HashOrder.insertion Rule) (rules active) = .ok (levels active) := by
  cases active <;> rfl

theorem readsEarlier (levels : List (List Rule)) : meaning.ReadsEarlier levels := by
  rintro i r - q - script (h | h)
  · cases h
  · cases h

/-- The sequential mode executes both rules or none. -/
theorem execute_returns (active : Bool) : ∃ results,
    ExecuteReturns meaning [] (HashOrder.insertion Rule) (rules active) results ∧
      verdicts results = if active then [(1, true), (2, true)] else [] := by
  rcases hprogram :
    Workflow.execute 0 0 [] (HashOrder.insertion Rule) (rules active) with e | program
  · cases active <;> cases hprogram
  · refine ⟨_, ⟨Unit, Environment.noScripts, 0, 0, { env := () }, program,
      Environment.ofScripts_realizes _ [], hprogram, rfl⟩, ?_⟩
    cases active <;> (obtain rfl := Except.ok.inj hprogram; rfl)

/-- If `A` is active, the modes agree. -/
theorem modes_agree : ∃ seqResults parResults adaptiveResults s',
    ExecuteReturns meaning [] (HashOrder.insertion Rule) (rules true) seqResults ∧
      ExecuteParallelReturns meaning [] (HashOrder.insertion Rule) (rules true) parResults ∧
      ExecuteAdaptiveReturns meaning [] (HashOrder.insertion Rule) (rules true)
        { adaptiveThreshold := 0 } adaptiveResults s' ∧
      verdicts seqResults = [(1, true), (2, true)] ∧
      (verdicts seqResults).Perm (verdicts parResults) ∧
      (verdicts seqResults).Perm (verdicts adaptiveResults) := by
  obtain ⟨seqResults, hseq, hverdicts⟩ := execute_returns true
  obtain ⟨parResults, hpar⟩ := exists_parallelReturns meaning [] (levels_ok true)
  have hadaptive : ExecuteAdaptiveReturns meaning [] (HashOrder.insertion Rule) (rules true)
      { adaptiveThreshold := 0 } parResults { adaptiveThreshold := 0 } :=
    .parallel rfl (show 0 < 2 by decide) hpar
  have hfresh : (gatedPair true).Fresh := ⟨rfl, by decide⟩
  have hkeys : ((nodesOf (rules true)).map Rule.resultKey).Nodup := by decide
  have haccepted := Workflow.validate_accepted hfresh (validated true)
  have hbefore : DependenciesBefore (levels true) :=
    dependenciesBefore_of_nulFree haccepted hkeys (by decide) (levels_ok true) (by decide)
  have hagree := (execution_modes_agree_iff (HashOrder.insertion Id) (HashOrder.insertion Rule)
    (gatedPair true) _ hfresh (validated true) hkeys (by decide) (levels true) (levels_ok true)
      meaning []
    (readsEarlier _)).2 seqResults parResults parResults _ _ hseq hpar hadaptive
  exact ⟨seqResults, parResults, parResults, _, hseq, hpar, hadaptive, hverdicts,
    hagree.2 ⟨fun _ ↦ rfl, fun _ ↦ rfl, trivial⟩ hbefore⟩

/-- If `A` is not active, the sequential mode passes over `B` and the parallel mode returns a result
for it. -/
theorem modes_differ :
    (gatedPair false).validate (HashOrder.insertion Id) (HashOrder.insertion Rule) =
        (.ok (), { rules := rules false, validated := true }) ∧
      ((nodesOf (rules false)).map Rule.resultKey).Nodup ∧
      (∀ q ∈ nodesOf (rules false), q.isCaching = false) ∧
      buildDependencyLevels (HashOrder.insertion Rule) (rules false) = .ok (levels false) ∧
      meaning.ReadsEarlier (levels false) ∧ DependenciesBefore (levels false) ∧
      ∃ seqResults parResults,
        ExecuteReturns meaning [] (HashOrder.insertion Rule) (rules false) seqResults ∧
          ExecuteParallelReturns meaning [] (HashOrder.insertion Rule) (rules false) parResults ∧
          seqResults = [] ∧ parResults.length = 1 ∧
          ¬(verdicts seqResults).Perm (verdicts parResults) := by
  obtain ⟨seqResults, hseq, hverdicts⟩ := execute_returns false
  obtain ⟨parResults, hpar⟩ := exists_parallelReturns meaning [] (levels_ok false)
  have hkeys : ((nodesOf (rules false)).map Rule.resultKey).Nodup := by decide
  have haccepted :=
    Workflow.validate_accepted (w := gatedPair false) ⟨rfl, by decide⟩ (validated false)
  have hbefore : DependenciesBefore (levels false) :=
    dependenciesBefore_of_nulFree haccepted hkeys (by decide) (levels_ok false) (by decide)
  have hlength : parResults.length = 1 := hpar.length_eq (levels_ok false)
  refine ⟨validated false, hkeys, by decide, levels_ok false, readsEarlier _, hbefore, seqResults,
    parResults, hseq, hpar, List.map_eq_nil_iff.1 hverdicts, hlength, fun hperm ↦ ?_⟩
  have hsame := hperm.length_eq
  rw [hverdicts, verdicts, List.length_map, hlength] at hsame
  exact absurd hsame (by decide)

end GatedPair

end FastRules
