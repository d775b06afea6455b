import FastRules.Async.Levels
import FastRules.Async.Values
import FastRules.Parallel.Modes

/-!
# What later levels of the asynchronous executor do not see

`Workflow::execute` publishes a result under the key of its rule, for children and for rules without
a name as well. `AsyncWorkflow::executeParallelAsync` merges the results of the rules of a level
under their names: later levels find neither children nor, under `#<id>`, rules without a name. So
it comes to the same verdicts exactly if hiding these results changes the success of no rule
(`async_results_visible_iff`).
-/

namespace FastRules

open Program Interleaving Layers Descent

/-! ### Statements -/

/-- The chunks of a rule and of everything below it look up keys of rules of earlier levels, and of
what is below these. -/
def Meaning.ReadsBefore (m : Meaning) (levels : List (List Rule)) : Prop :=
  ∀ i r, At levels i r → m.LooksUp r.nodes
    {key | ∃ j < i, ∃ d, At levels j d ∧ ∃ q ∈ d.nodes, q.resultKey = key}

/-- The names of the rules of the levels before level `i`. -/
def namesBefore (levels : List (List Rule)) (i : ℕ) : List String :=
  ((before levels i).map fun r ↦ r.name).filter fun n ↦ n ≠ ""

/-- What is entered under the names; everything else is hidden. -/
def Ledger.only (names : List String) (ledger : Ledger) : Ledger :=
  fun key ↦ if key ∈ names then ledger key else none

section Statements

variable (m : Meaning) (parameters : List RuleParameter)

/-- What is entered when the rules have been executed one after the other. -/
def finalLedger (rules : List Rule) : Ledger :=
  (valuesOf m parameters rules fun _ ↦ none).ledger

/-- A rule succeeds alike if it finds everything, and if it finds only the results of rules of
earlier levels that have a name. -/
def HidingIsHarmless (levels : List (List Rule)) (ledger : Ledger) : Prop :=
  ∀ i r, At levels i r →
    (r.value m parameters (Ledger.only (namesBefore levels i) ledger)).result.isSuccess =
      (r.value m parameters ledger).result.isSuccess

/-- `AsyncWorkflow::executeParallelAsync` may return `results`. -/
def ExecuteAsyncReturns (order : HashOrder Rule) (rules : List Rule) (results : List RuleResult) :
    Prop :=
  ∃ (x : AsyncCall) (c : AsyncCall.Config), AnswersRealize x.answers m parameters ∧
    x.parameters = parameters ∧ Loop.Returns asyncLevelStep (asyncLevelInit order rules) x.levels ∧
      x.Returned c ∧ results = c.state.allResults

end Statements

section Agreement

variable {m : Meaning} {parameters : List RuleParameter} {rules : List Rule}

/-! ### Outcomes -/

/-- The outcome of an active rule tells no more than whether it is a success. -/
theorem Rule.result_eq_of_isSuccess {r : Rule} (hactive : r.isActive = true)
    {ledger ledger' : Ledger}
    (h : (r.value m parameters ledger).result.isSuccess =
      (r.value m parameters ledger').result.isSuccess) :
    (r.value m parameters ledger).result = (r.value m parameters ledger').result := by
  have hexecuted (b : Bool) : (r.executedOutcome b).isSuccess = b := by cases b <;> rfl
  rw [Rule.value_active hactive, Rule.value_active hactive] at h ⊢
  dsimp only at h ⊢
  rw [hexecuted, hexecuted] at h
  rw [h]

theorem Rule.value_identity (r : Rule) (ledger : Ledger) :
    (r.value m parameters ledger).result.ruleName = r.name ∧
      (r.value m parameters ledger).result.ruleId = r.id := by
  rcases Bool.eq_false_or_eq_true r.isActive with hactive | hactive
  · rw [Rule.value_active hactive]
    exact ⟨rfl, rfl⟩
  · rw [Rule.value_inactive hactive]
    exact ⟨rfl, rfl⟩

/-! ### The sequential execution -/

section Sequential

variable (hkeys : ((nodesOf rules).map Rule.resultKey).Nodup)
include hkeys

/-- What a rule and everything below it publish stays as it is. -/
theorem finalLedger_of_mem (hnodup : rules.Nodup) {pre rest : List Rule}
    (hsplit : rules = pre ++ rest) {d q : Rule} (hd : d ∈ pre) (hq : q ∈ d.nodes) :
    finalLedger m parameters rules q.resultKey =
      (valuesOf m parameters pre fun _ ↦ none).ledger q.resultKey := by
  rw [finalLedger, hsplit, valuesOf_append]
  refine valuesOf_frame (fun r hr hin ↦ ?_) _
  obtain ⟨p, hp, hkey⟩ := r.exists_node_of_mem_keys _ hin
  have hsame : r = d := Rule.eq_of_key_mem_nodes hkeys
    (hsplit ▸ List.mem_append_right pre hr) (hsplit ▸ List.mem_append_left rest hd) hp hq hkey
  exact List.disjoint_of_nodup_append (hsplit ▸ hnodup) (hsame ▸ hd) hr

/-- Whoever has published under a key is one of the rules, or is below one. -/
theorem mem_of_published {pre : List Rule} (hpre : ∀ r ∈ pre, r ∈ rules) {d : Rule} (hd : d ∈ rules)
    (hpublished : ((valuesOf m parameters pre fun _ ↦ none).ledger d.name).isSome = true) :
    d ∈ pre := by
  have hkey : ∃ r ∈ pre, d.name ∈ r.keys := by
    by_contra hnone
    push Not at hnone
    rw [valuesOf_frame hnone] at hpublished
    cases hpublished
  obtain ⟨r, hr, hin⟩ := hkey
  obtain ⟨p, hp, hpkey⟩ := r.exists_node_of_mem_keys _ hin
  -- nothing is published under the empty name
  have hnamed : d.name ≠ "" := fun he ↦ p.resultKey_ne_empty (hpkey.trans he)
  have hsame : d = r := Rule.eq_of_key_mem_nodes hkeys hd (hpre r hr) d.self_mem_nodes hp
    ((Rule.resultKey_of_named hnamed).trans hpkey.symm)
  exact hsame ▸ hr

/-- Where every dependency holds there are no cycles. -/
theorem not_onCycle_of_holds (hactive : ∀ r ∈ rules, r.isActive = true)
    (hholds : DependenciesHold m parameters rules fun _ ↦ none) (r : Rule) :
    ¬OnCycle (DependsOn rules) r := by
  have hall : (rules.filter fun r ↦ r.isActive) = rules := List.filter_eq_self.2 hactive
  by_cases hr : r ∈ rules
  · obtain ⟨i, hi⟩ := List.mem_iff_getElem?.1 hr
    refine not_onCycle_of_rank (ρ := fun r i ↦ rules[i]? = some r) (fun r i hi d hrd ↦ ?_) hi
    have hdep := hholds.dependencyHolds (i := i) (by rwa [hall])
    rw [hall, Rule.dependencyHolds, hrd.2.2, Option.all_some] at hdep
    have hpublished :
        ((valuesOf m parameters (rules.take i) fun _ ↦ none).ledger d.name).isSome = true := by
      obtain ⟨o, ho, -⟩ := (Option.any_eq_true _ _).1 hdep
      rw [ho]
      rfl
    have hmem : d ∈ rules.take i :=
      mem_of_published hkeys (fun q hq ↦ List.mem_of_mem_take hq) hrd.2.1 hpublished
    obtain ⟨j, hj, rfl⟩ := List.mem_take_iff_getElem.1 hmem
    exact ⟨j, by omega, List.getElem?_eq_getElem _⟩
  · intro hcycle
    obtain ⟨d, hrd, -⟩ := hcycle.exists_succ
    exact hr hrd.1

end Sequential

section Levels

variable {ready : List Rule → Rule → Prop} {levels : List (List Rule)}
  (hkeys : ((nodesOf levels.flatten).map Rule.resultKey).Nodup)
  (hlay : Layering rules ready levels) (hreads : m.ReadsBefore levels)
include hkeys hlay hreads

/-- A rule that reads earlier levels only has the value it has in the end. -/
theorem value_finalLedger {pre post : List Rule} {r : Rule}
    (hsplit : levels.flatten = pre ++ r :: post) :
    (r.value m parameters (valuesOf m parameters pre fun _ ↦ none).ledger).result =
      (r.value m parameters (finalLedger m parameters levels.flatten)).result := by
  obtain ⟨i, hi⟩ := mem_flatten_iff.1 (hsplit ▸ List.mem_append_right pre List.mem_cons_self)
  refine ((hreads i r hi).value_congr r _ _ (fun _ ↦ id) ?_).1
  rintro key ⟨j, hj, d, hd, q, hq, rfl⟩
  have hmem : d ∈ pre := mem_of_split hsplit (hlay.not_mem_before hi) hd hj
  exact (finalLedger_of_mem hkeys hlay.flatten_nodup hsplit hmem hq).symm

/-- What is entered for a rule in the end is its value. -/
theorem finalLedger_self {r : Rule} (hr : r ∈ levels.flatten) (hactive : r.isActive = true) :
    finalLedger m parameters levels.flatten r.resultKey =
      some (r.value m parameters (finalLedger m parameters levels.flatten)).result := by
  obtain ⟨pre, post, hsplit⟩ := List.append_of_mem hr
  have hsplit' : levels.flatten = (pre ++ [r]) ++ post := by rw [hsplit, List.append_cons]
  rw [finalLedger_of_mem hkeys hlay.flatten_nodup hsplit'
      (List.mem_append_right pre List.mem_cons_self) r.self_mem_nodes,
    ← value_finalLedger hkeys hlay hreads hsplit, valuesOf_concat]
  dsimp only
  rw [Rule.value_active hactive]
  exact Function.update_self _ _ _

/-- The values of the rules, one after the other, are those they have in the end. -/
theorem valuesOf_result_eq {pre rest : List Rule} (hsplit : levels.flatten = pre ++ rest) :
    (valuesOf m parameters rest (valuesOf m parameters pre fun _ ↦ none).ledger).result =
      rest.map fun r ↦
        (r.value m parameters (finalLedger m parameters levels.flatten)).result := by
  induction rest generalizing pre with
  | nil => rfl
  | cons r rest ih =>
    have hrest := @ih (pre ++ [r]) (by rw [hsplit, List.append_cons])
    rw [valuesOf_concat] at hrest
    rw [valuesOf, List.map_cons, ← value_finalLedger hkeys hlay hreads hsplit]
    exact congrArg (List.cons _) hrest

/-- The sequential verdicts are those of the final ledger. -/
theorem verdicts_eq_finalLedger {order : HashOrder Rule} {results : List RuleResult}
    (hlevels : buildDependencyLevels order rules = .ok levels)
    (hactive : ∀ r ∈ levels.flatten, r.isActive = true)
    (hcache : ∀ q ∈ nodesOf levels.flatten, q.isCaching = false)
    (hholds : DependenciesHold m parameters levels.flatten fun _ ↦ none)
    (h : ExecuteReturns m parameters order rules results) :
    verdicts results = levels.flatten.map fun r ↦
      (r.id,
        (r.value m parameters (finalLedger m parameters levels.flatten)).result.isSuccess) := by
  have hvalues : (valuesOf m parameters levels.flatten fun _ ↦ none).result =
      levels.flatten.map fun r ↦
        (r.value m parameters (finalLedger m parameters levels.flatten)).result :=
    valuesOf_result_eq hkeys hlay hreads (List.nil_append levels.flatten).symm
  rw [h.verdicts_of_holds hlevels hcache hholds, List.filter_eq_self.2 hactive]
  refine (congrArg _ hvalues).trans ?_
  rw [List.map_map]
  refine List.map_congr_left fun r _ ↦ ?_
  rw [Function.comp_apply, (r.value_identity _).2]

end Levels

/-! ### The asynchronous execution -/

/-- Where all outcomes under a key are the same, it does not matter which was entered last. -/
theorem mergeOutcomes_apply {os : List Outcome} {ledger : Ledger} {key : String}
    {entry : Option Outcome} (h : ∀ o ∈ os, o.ruleName = key → entry = some o) :
    mergeOutcomes os ledger key =
      if ∃ o ∈ os, o.ruleName = key then entry else ledger key := by
  induction os generalizing ledger with
  | nil => simp [mergeOutcomes]
  | cons o os ih =>
    rw [mergeOutcomes, ih fun o' ho' ↦ h o' (List.mem_cons_of_mem o ho')]
    by_cases hrest : ∃ o ∈ os, o.ruleName = key
    · obtain ⟨o', ho', hname⟩ := hrest
      rw [if_pos ⟨o', ho', hname⟩, if_pos ⟨o', List.mem_cons_of_mem o ho', hname⟩]
    · rw [if_neg hrest]
      by_cases hname : o.ruleName = key
      · rw [if_pos ⟨o, List.mem_cons_self, hname⟩, h o List.mem_cons_self hname, ← hname,
          Function.update_self]
      · have hnone : ¬∃ o' ∈ o :: os, o'.ruleName = key := by
          rintro ⟨o', ho', hname'⟩
          rcases List.mem_cons.1 ho' with rfl | ho'
          · exact hname hname'
          · exact hrest ⟨o', ho', hname'⟩
        rw [if_neg hnone, Function.update_of_ne fun he ↦ hname he.symm]

namespace AsyncCall

variable {x : AsyncCall} {ledger : Ledger} {keys : Set String}

/-- The tasks come to the same success as in the ledger. -/
def Agrees (x : AsyncCall) (m : Meaning) (ledger : Ledger) (k : ℕ) : Prop :=
  ∀ t ∈ x.tasks, t.level < k →
    (x.taskOutcome m t).isSuccess = (t.rule.value m x.parameters ledger).result.isSuccess

/-- What a level sees, if the tasks before agree with the ledger: what is entered there under the
names of the rules of earlier levels. -/
theorem view_eqOn (hactive : ∀ r ∈ x.levels.flatten, r.isActive = true)
    (hledger : ∀ r ∈ x.levels.flatten,
      ledger r.resultKey = some (r.value m x.parameters ledger).result)
    (hkeys : "" ∉ keys) {k : ℕ} (h : x.Agrees m ledger k) :
    Set.EqOn (x.view m k) (Ledger.only (namesBefore x.levels k) ledger) keys := by
  intro key hkey
  have hne : key ≠ "" := fun he ↦ hkeys (he ▸ hkey)
  have hmem {t : AsyncTask} (ht : t ∈ x.tasks) : At x.levels t.level t.rule := by
    obtain ⟨level, hlevel, hin, -⟩ := mem_asyncTasks.1 ht
    exact ⟨level, hlevel, hin⟩
  have hentered : ∀ o ∈ (x.tasks.filter fun t ↦ t.level < k).map (x.taskOutcome m),
      o.ruleName = key → ledger key = some o := by
    rintro o ho hname
    obtain ⟨t, ht, rfl⟩ := List.mem_map.1 ho
    obtain ⟨htask, hlt⟩ := List.mem_filter.1 ht
    rw [taskOutcome, (t.rule.value_identity _).1] at hname
    have hin : t.rule ∈ x.levels.flatten := mem_flatten_iff.2 ⟨t.level, hmem htask⟩
    rw [← hname, ← Rule.resultKey_of_named (hname ▸ hne), hledger _ hin]
    exact congrArg some (Rule.result_eq_of_isSuccess (hactive _ hin)
      (h t htask (of_decide_eq_true hlt))).symm
  rw [view_eq, mergeOutcomes_apply hentered, Ledger.only]
  refine if_congr ?_ rfl rfl
  simp only [List.mem_map, List.mem_filter, namesBefore, decide_eq_true_eq]
  constructor
  · rintro ⟨o, ⟨t, ⟨ht, hlt⟩, rfl⟩, hname⟩
    rw [taskOutcome, (t.rule.value_identity _).1] at hname
    exact ⟨⟨t.rule, mem_before_iff.2 ⟨t.level, hlt, hmem ht⟩, hname⟩, hne⟩
  · rintro ⟨⟨r, hr, rfl⟩, -⟩
    obtain ⟨j, hj, level, hlevel, hin⟩ := mem_before_iff.1 hr
    have hr' := hactive r (mem_flatten_iff.2 ⟨j, level, hlevel, hin⟩)
    have ht : AsyncTask.mk j r ∈ x.tasks := mem_asyncTasks.2 ⟨level, hlevel, hin, hr'⟩
    exact ⟨_, ⟨_, ⟨ht, hj⟩, rfl⟩, (r.value_identity _).1⟩

/-- The tasks agree with the ledger exactly if hiding is harmless. -/
theorem agrees_iff (keys : Set String) (hactive : ∀ r ∈ x.levels.flatten, r.isActive = true)
    (hledger : ∀ r ∈ x.levels.flatten,
      ledger r.resultKey = some (r.value m x.parameters ledger).result)
    (hkeys : "" ∉ keys) (hlooks : ∀ r ∈ x.levels.flatten, m.LooksUp r.nodes keys) :
    x.Agrees m ledger x.levels.length ↔ HidingIsHarmless m x.parameters x.levels ledger := by
  have hvalue {k : ℕ} (hk : x.Agrees m ledger k) {r : Rule} (hr : r ∈ x.levels.flatten) :
      (r.value m x.parameters (x.view m k)).result =
        (r.value m x.parameters (Ledger.only (namesBefore x.levels k) ledger)).result :=
    ((hlooks r hr).value_congr r _ _ (fun _ ↦ id) (view_eqOn hactive hledger hkeys hk)).1
  constructor
  · intro h i r hr
    have hin : r ∈ x.levels.flatten := mem_flatten_iff.2 ⟨i, hr⟩
    obtain ⟨level, hlevel, hlist⟩ := id hr
    have ht : AsyncTask.mk i r ∈ x.tasks := mem_asyncTasks.2 ⟨level, hlevel, hlist, hactive r hin⟩
    rw [← hvalue (fun t ht hlt ↦ h t ht (hlt.trans hr.lt_length)) hin]
    exact h _ ht hr.lt_length
  · -- level by level: what a level sees depends on the levels before only
    intro h
    suffices hall : ∀ k, x.Agrees m ledger k from hall _
    intro k
    induction k with
    | zero => exact fun t _ hlt ↦ absurd hlt (Nat.not_lt_zero _)
    | succ k ih =>
      intro t ht hlt
      rcases (Nat.lt_succ_iff.1 hlt).lt_or_eq with hbefore | rfl
      · exact ih t ht hbefore
      · obtain ⟨level, hlevel, hin, -⟩ := mem_asyncTasks.1 ht
        have hat : At x.levels t.level t.rule := ⟨level, hlevel, hin⟩
        rw [taskOutcome, hvalue ih (mem_flatten_iff.2 ⟨_, hat⟩)]
        exact h _ _ hat

/-- The calls of the executor are orderly. -/
theorem orderly {order : HashOrder Rule} (hrules : DistinctIds rules)
    (hactive : ∀ r ∈ rules, r.isActive = true) (hcache : ∀ q ∈ nodesOf rules, q.isCaching = false)
    (hanswers : AnswersRealize x.answers m x.parameters)
    (hlevels : Loop.Returns asyncLevelStep (asyncLevelInit order rules) x.levels) :
    x.Orderly m := by
  obtain ⟨hlay, -⟩ := asyncLevels_layering hrules hlevels
  have hmem {level : List Rule} (hlevel : level ∈ x.levels) {r : Rule} (hr : r ∈ level) :
      r ∈ rules := hlay.mem_nodes_of_mem_flatten (List.mem_flatten_of_mem hlevel hr)
  refine ⟨hanswers, fun t ht q hq ↦ ?_, fun level hlevel r hr ↦ hactive r (hmem hlevel hr)⟩
  obtain ⟨level, hlevel, hin, -⟩ := mem_asyncTasks.1 ht
  exact hcache q (Rule.mem_nodesOf.2 ⟨_, hmem (List.mem_of_getElem? hlevel) hin, hq⟩)

/-- The verdicts of a call. -/
def taskVerdicts (x : AsyncCall) (m : Meaning) : List (Id × Bool) :=
  x.tasks.map fun t ↦ (t.rule.id, (x.taskOutcome m t).isSuccess)

theorem Orderly.verdicts_eq (hx : x.Orderly m) {c : Config} (h : x.Returned c) :
    verdicts c.state.allResults = x.taskVerdicts m := by
  rw [verdicts_eq_map_outcome, hx.outcomes h, List.map_map]
  refine List.map_congr_left fun t _ ↦ ?_
  rw [Function.comp_apply, taskOutcome, (t.rule.value_identity _).2]

/-- The verdicts are those of the ledger exactly if the tasks agree with it. -/
theorem taskVerdicts_perm_iff (hrules : DistinctIds rules) (hperm : x.levels.flatten.Perm rules)
    (hactive : ∀ r ∈ rules, r.isActive = true) {ledger : Ledger} :
    (rules.map fun r ↦ (r.id, (r.value m x.parameters ledger).result.isSuccess)).Perm
        (x.taskVerdicts m) ↔ x.Agrees m ledger x.levels.length := by
  have htasks : x.tasks.map (fun t ↦ t.rule) = x.levels.flatten := by
    rw [tasks, map_rule_asyncTasks]
    exact List.filter_eq_self.2 fun r hr ↦ hactive r (hperm.mem_iff.1 hr)
  have hmem {t : AsyncTask} (ht : t ∈ x.tasks) : t.rule ∈ rules :=
    hperm.mem_iff.1 (htasks ▸ List.mem_map_of_mem ht)
  constructor
  · intro h t ht _
    have hverdict : (t.rule.id, (x.taskOutcome m t).isSuccess) ∈ x.taskVerdicts m :=
      List.mem_map_of_mem (f := fun t ↦ (t.rule.id, (x.taskOutcome m t).isSuccess)) ht
    obtain ⟨r, hr, heq⟩ := List.mem_map.1 (h.mem_iff.2 hverdict)
    obtain ⟨hid, hsuccess⟩ := Prod.mk.inj heq
    rw [← hrules.inj hr (hmem ht) hid]
    exact hsuccess.symm
  · intro h
    have hsame : x.taskVerdicts m = x.levels.flatten.map fun r ↦
        (r.id, (r.value m x.parameters ledger).result.isSuccess) := by
      rw [← htasks, List.map_map]
      refine List.map_congr_left fun t ht ↦ ?_
      obtain ⟨level, hlevel, -⟩ := mem_asyncTasks.1 ht
      rw [h t ht (List.getElem?_eq_some_iff.1 hlevel).1]
      rfl
    rw [hsame]
    exact (hperm.map _).symm

end AsyncCall

/-! ### The executors -/

/-- Rules that look up names of earlier rules only miss nothing. -/
theorem hidingIsHarmless_of_looksUp {levels : List (List Rule)} (ledger : Ledger)
    (h : ∀ i r, At levels i r → m.LooksUp r.nodes {key | key ∈ namesBefore levels i}) :
    HidingIsHarmless m parameters levels ledger := by
  intro i r hr
  have hsame : Set.EqOn (Ledger.only (namesBefore levels i) ledger) ledger
      {key | key ∈ namesBefore levels i} := fun key hkey ↦ if_pos hkey
  exact congrArg Outcome.isSuccess ((h i r hr).value_congr r _ _ (fun _ ↦ id) hsame).1

/-- **Which results later levels see.** Every call of `executeParallelAsync` returns, and it returns
the same `(ruleId, isSuccess)` pairs as `execute` exactly if hiding the results of children and of
rules without a name changes the success of no rule. -/
theorem async_results_visible_iff (idOrder : HashOrder Id) (order order' : HashOrder Rule)
    (w w' : Workflow) (hw : w.Fresh) (hvalid : w.validate idOrder order = (.ok (), w'))
    (hkeys : ((nodesOf w'.rules).map Rule.resultKey).Nodup)
    (hactive : ∀ r ∈ w'.rules, r.isActive = true)
    (hcache : ∀ q ∈ nodesOf w'.rules, q.isCaching = false) (levels : List (List Rule))
    (hlevels : buildDependencyLevels order w'.rules = .ok levels) (m : Meaning)
    (parameters : List RuleParameter) (hreads : m.ReadsBefore levels)
    (hholds : DependenciesHold m parameters levels.flatten fun _ ↦ none) :
    ∃ asyncLevels, Loop.Returns asyncLevelStep (asyncLevelInit order' w'.rules) asyncLevels ∧
      (∀ x : AsyncCall, (∀ op, ∃ a, x.answers op a) →
        Inevitably (Step x.step x.Supervise) x.Returned x.start) ∧
      ∀ seqResults asyncResults, ExecuteReturns m parameters order w'.rules seqResults →
        ExecuteAsyncReturns m parameters order' w'.rules asyncResults →
        ((verdicts seqResults).Perm (verdicts asyncResults) ↔
          HidingIsHarmless m parameters asyncLevels
            (finalLedger m parameters levels.flatten)) := by
  have hrules := (Workflow.validate_accepted hw hvalid).distinct
  obtain ⟨hlay, hall, -⟩ := buildDependencyLevels_ok hrules hlevels
  have hflat : levels.flatten.Perm w'.rules := hlay.flatten_perm hrules.nodup hall
  have hnodes : (nodesOf levels.flatten).Perm (nodesOf w'.rules) := by
    rw [nodesOf_eq_flatMap, nodesOf_eq_flatMap]
    exact hflat.flatMap_right Rule.nodes
  have hkeys' : ((nodesOf levels.flatten).map Rule.resultKey).Nodup :=
    (hnodes.map Rule.resultKey).nodup_iff.2 hkeys
  have hactive' : ∀ r ∈ levels.flatten, r.isActive = true :=
    fun r hr ↦ hactive r (hflat.mem_iff.1 hr)
  have hcache' : ∀ q ∈ nodesOf levels.flatten, q.isCaching = false :=
    fun q hq ↦ hcache q (hnodes.mem_iff.1 hq)
  have hself : ∀ r ∈ levels.flatten,
      finalLedger m parameters levels.flatten r.resultKey =
        some (r.value m parameters (finalLedger m parameters levels.flatten)).result :=
    fun r hr ↦ finalLedger_self hkeys' hlay hreads hr (hactive' r hr)
  have hacyclic (r : Rule) : ¬OnCycle (DependsOn w'.rules) r := by
    have hsame : DependsOn w'.rules = DependsOn levels.flatten := by
      ext r d
      rw [DependsOn, DependsOn, hflat.mem_iff, hflat.mem_iff]
    rw [hsame]
    exact not_onCycle_of_holds hkeys' hactive' hholds r
  obtain ⟨asyncLevels, hasync⟩ := asyncLevels_returns order' hrules hacyclic
  refine ⟨asyncLevels, hasync, fun x hanswers ↦ AsyncCall.returns hanswers,
    fun seqResults asyncResults hseq hpar ↦ ?_⟩
  obtain ⟨x, c, hanswers, rfl, hx, hreturned, rfl⟩ := hpar
  obtain rfl : x.levels = asyncLevels := hx.unique hasync
  have horderly := AsyncCall.orderly hrules hactive hcache hanswers hx
  obtain ⟨hlay', hall'⟩ := asyncLevels_layering hrules hx
  have hperm : x.levels.flatten.Perm levels.flatten :=
    (hlay'.flatten_perm hrules.nodup hall').trans hflat.symm
  rw [verdicts_eq_finalLedger hkeys' hlay hreads hlevels hactive' hcache' hholds hseq,
    horderly.verdicts_eq hreturned,
    AsyncCall.taskVerdicts_perm_iff (hrules.perm hflat) hperm hactive']
  refine AsyncCall.agrees_iff {key | ∃ q ∈ nodesOf levels.flatten, q.resultKey = key}
    (fun r hr ↦ hactive' r (hperm.mem_iff.1 hr)) (fun r hr ↦ hself r (hperm.mem_iff.1 hr)) ?_
    fun r hr ↦ ?_
  · rintro ⟨q, -, hkey⟩
    exact q.resultKey_ne_empty hkey
  · obtain ⟨i, hi⟩ := mem_flatten_iff.1 (hperm.mem_iff.1 hr)
    refine fun q hq script hscript ↦ (hreads i r hi q hq script hscript).mono ?_
    rintro key ⟨j, -, d, hd, p, hp, rfl⟩
    exact ⟨p, Rule.mem_nodesOf.2 ⟨d, mem_flatten_iff.2 ⟨j, hd⟩, hp⟩, rfl⟩

/-- Chunks that are functions of published results are those of an environment. -/
theorem exists_executeReturns (script : String → Option LuaScript) (parameters : List RuleParameter)
    {order : HashOrder Rule} {levels : List (List Rule)}
    (hlevels : buildDependencyLevels order rules = .ok levels) :
    ∃ results, ExecuteReturns (.ofScripts script) parameters order rules results := by
  rcases hprogram : Workflow.execute 0 0 parameters order rules with e | program
  · rw [Workflow.execute, resolveExecutionOrder, hlevels] at hprogram
    cases hprogram
  · exact ⟨_, Unit, .ofScripts script, 0, 0, { env := () }, program,
      Environment.ofScripts_realizes script parameters, hprogram, rfl⟩

/-- A call with two threads. -/
theorem exists_asyncReturns (m : Meaning) (parameters : List RuleParameter) {order : HashOrder Rule}
    {levels : List (List Rule)}
    (hlevels : Loop.Returns asyncLevelStep (asyncLevelInit order rules) levels) :
    ∃ results, ExecuteAsyncReturns m parameters order rules results := by
  let x : AsyncCall := { levels, threadCount := 2, parameters, answers := m.answers }
  obtain ⟨c, hc⟩ := (AsyncCall.returns (x := x) m.exists_answer).exists
  exact ⟨c.state.allResults, x, c, m.answers_realize parameters, rfl, hlevels, hc, rfl⟩

end Agreement

/-! ### A rule and a nested rule -/

/-- A rule `A` with a nested rule `C`, and a rule `B` that depends on `A`. -/
def nestedPair : Workflow where
  rules :=
    [{ id := 1, name := "A", childRules := [{ id := 3, name := "C" }] },
      { id := 2, name := "B", expression := "seen", dependsOnRuleName := some "A" }]

namespace NestedPair

/-- The rules as validation leaves them. -/
def rules : List Rule :=
  nestedPair.rules.map Rule.markValidated

def levels : List (List Rule) :=
  rules.map fun r ↦ [r]

/-- The rule `A`. -/
def A : Rule :=
  Rule.markValidated { id := 1, name := "A", childRules := [{ id := 3, name := "C" }] }

/-- The expression of `B` asks whether there is a success under the key. -/
def scripts (key : String) (text : String) : Option LuaScript :=
  if text = "seen" then some (.ask key fun view ↦ .ret (.ok view.success)) else none

abbrev meaning (key : String) : Meaning :=
  .ofScripts (scripts key)

theorem fresh : nestedPair.Fresh :=
  ⟨rfl, by decide⟩

theorem validated : nestedPair.validate (HashOrder.insertion Id) (HashOrder.insertion Rule) =
    (.ok (), { rules, validated := true }) :=
  rfl

theorem keys_nodup : ((nodesOf rules).map Rule.resultKey).Nodup := by decide

theorem levels_ok : buildDependencyLevels (HashOrder.insertion Rule) rules = .ok levels :=
  rfl

theorem asyncLevels_ok :
    Loop.Returns asyncLevelStep (asyncLevelInit (HashOrder.insertion Rule) rules) levels :=
  ⟨3, rfl⟩

theorem scripts_eq_some {key text : String} {script : LuaScript}
    (h : scripts key text = some script) :
    text = "seen" ∧ script = .ask key fun view ↦ .ret (.ok view.success) := by
  rw [scripts] at h
  split_ifs at h with htext
  exact ⟨htext, (Option.some.inj h).symm⟩

/-- Only `B` has a chunk, and it looks up the key. -/
theorem looksUp {key : String} {keys : ℕ → Set String} (hkey : key ∈ keys 1) :
    ∀ i r, At levels i r → (meaning key).LooksUp r.nodes (keys i) := by
  rintro i r ⟨level, hlevel, hr⟩ q hq script hscript
  obtain ⟨hseen, rfl⟩ : (q.expression = "seen" ∨ q.action = "seen") ∧
      script = .ask key fun view ↦ .ret (.ok view.success) := by
    rcases hscript with h | h
    · exact (scripts_eq_some (Except.ok.inj h)).imp_left .inl
    · exact (scripts_eq_some (Except.ok.inj h)).imp_left .inr
  obtain rfl : i = 1 := by
    match i with
    | 0 =>
      have hnone : ∀ r ∈ levels.head (by decide), ∀ q ∈ r.nodes,
          ¬(q.expression = "seen" ∨ q.action = "seen") := by decide
      obtain rfl : _ = level := Option.some.inj hlevel
      exact absurd hseen (hnone r hr q hq)
    | 1 => rfl
    | _ + 2 => cases hlevel
  exact ⟨hkey, fun _ ↦ trivial⟩

theorem readsBefore {key : String} (hkey : ∃ q ∈ A.nodes, q.resultKey = key) :
    (meaning key).ReadsBefore levels :=
  looksUp ⟨0, Nat.one_pos, A, ⟨_, rfl, List.mem_cons_self⟩, hkey⟩

theorem dependenciesHold (key : String) :
    DependenciesHold (meaning key) [] levels.flatten fun _ ↦ none :=
  ⟨fun _ ↦ rfl, fun _ ↦ rfl, trivial⟩

/-- If `B` asks for `A`, the executors agree. -/
theorem agree : ∃ seqResults asyncResults,
    ExecuteReturns (meaning "A") [] (HashOrder.insertion Rule) rules seqResults ∧
      ExecuteAsyncReturns (meaning "A") [] (HashOrder.insertion Rule) rules asyncResults ∧
      (verdicts seqResults).Perm (verdicts asyncResults) := by
  obtain ⟨seqResults, hseq⟩ := exists_executeReturns (scripts "A") [] levels_ok
  obtain ⟨asyncResults, hasync⟩ := exists_asyncReturns (meaning "A") [] asyncLevels_ok
  obtain ⟨asyncLevels, hlevels, -, hiff⟩ := async_results_visible_iff (HashOrder.insertion Id)
    (HashOrder.insertion Rule) (HashOrder.insertion Rule) nestedPair _ fresh validated keys_nodup
    (by decide) (by decide) levels levels_ok (meaning "A") [] (readsBefore (by decide))
    (dependenciesHold "A")
  obtain rfl : asyncLevels = levels := hlevels.unique asyncLevels_ok
  refine ⟨seqResults, asyncResults, hseq, hasync, (hiff _ _ hseq hasync).2 ?_⟩
  exact hidingIsHarmless_of_looksUp _ (looksUp (show "A" ∈ namesBefore levels 1 by decide))

/-- If `B` asks for `C`, it succeeds when executed in sequence and fails in its level. -/
theorem differ :
    nestedPair.validate (HashOrder.insertion Id) (HashOrder.insertion Rule) =
        (.ok (), { rules, validated := true }) ∧
      ((nodesOf rules).map Rule.resultKey).Nodup ∧ (∀ q ∈ nodesOf rules, q.isActive = true) ∧
      (∀ q ∈ nodesOf rules, q.isCaching = false) ∧
      buildDependencyLevels (HashOrder.insertion Rule) rules = .ok levels ∧
      (meaning "C").ReadsBefore levels ∧
      (DependenciesHold (meaning "C") [] levels.flatten fun _ ↦ none) ∧
      ∃ seqResults asyncResults,
        ExecuteReturns (meaning "C") [] (HashOrder.insertion Rule) rules seqResults ∧
          ExecuteAsyncReturns (meaning "C") [] (HashOrder.insertion Rule) rules asyncResults ∧
          verdicts seqResults = [(1, true), (2, true)] ∧
          verdicts asyncResults = [(1, true), (2, false)] ∧
          ¬(verdicts seqResults).Perm (verdicts asyncResults) := by
  have hcache : ∀ q ∈ nodesOf rules, q.isCaching = false := by decide
  obtain ⟨seqResults, hseq⟩ := exists_executeReturns (scripts "C") [] levels_ok
  obtain ⟨asyncResults, hasync⟩ := exists_asyncReturns (meaning "C") [] asyncLevels_ok
  have hseqVerdicts : verdicts seqResults = [(1, true), (2, true)] :=
    hseq.verdicts_of_holds levels_ok hcache (dependenciesHold "C")
  have hasyncVerdicts : verdicts asyncResults = [(1, true), (2, false)] := by
    obtain ⟨x, c, hanswers, hparameters, hx, hreturned, rfl⟩ := id hasync
    have hdistinct : DistinctIds rules := (Workflow.validate_accepted fresh validated).distinct
    have hactive : ∀ r ∈ rules, r.isActive = true := by decide
    have horderly : x.Orderly (meaning "C") :=
      AsyncCall.orderly hdistinct hactive hcache (by rwa [hparameters]) hx
    have hlevels : x.levels = levels := hx.unique asyncLevels_ok
    rw [horderly.verdicts_eq hreturned]
    obtain ⟨_, threadCount, _, answers⟩ := x
    obtain rfl : _ = levels := hlevels
    obtain rfl : _ = [] := hparameters
    rfl
  refine ⟨validated, keys_nodup, by decide, hcache, levels_ok, readsBefore (by decide),
    dependenciesHold "C", seqResults, asyncResults, hseq, hasync, hseqVerdicts, hasyncVerdicts, ?_⟩
  rw [hseqVerdicts, hasyncVerdicts]
  decide

end NestedPair

end FastRules
