import FastRules.Rule.Semantics
import FastRules.Rule.World

/-!
# Inactive rules

`Rule::execute` looks into the cache before it asks whether the rule is active, and a parent takes
the skipped result of an inactive child for a failure. An execution is a success exactly if none of
the rules that it comes to fails by itself (`isSuccess_execute_iff`), and an inactive rule without a
cached result does. So an inactive rule that the execution comes to can be removed without effect
only where nothing answers from its cache and the remaining rules fail anyway
(`inactive_removed_iff`).
-/

namespace FastRules

open Program

/-! ### Removing inactive rules -/

mutual

/-- The tree without the inactive rules below its root. -/
def Rule.withoutInactive : Rule → Rule
  | ⟨fields, children⟩ => ⟨fields, activeOf children⟩

/-- The active rules, without the inactive ones below them. -/
def activeOf : List Rule → List Rule
  | [] => []
  | child :: children =>
    if child.isActive then child.withoutInactive :: activeOf children else activeOf children

end

theorem Rule.withoutInactive_eq (r : Rule) :
    r.withoutInactive = ⟨r.toRuleFields, activeOf r.childRules⟩ := by
  cases r
  rfl

@[simp] theorem Rule.withoutInactive_childRules (r : Rule) :
    r.withoutInactive.childRules = activeOf r.childRules := by
  rw [withoutInactive_eq]

@[simp] theorem Rule.withoutInactive_toRuleFields (r : Rule) :
    r.withoutInactive.toRuleFields = r.toRuleFields := by
  rw [withoutInactive_eq]

/-! ### Before and after the children -/

section Execute

variable (engine : EnginePtr) (context : ContextPtr) (parameters : List RuleParameter)

/-- `Rule::execute` up to the children: the times it has noted if it goes on to them, and nothing if
the result comes out of the cache, the rule is inactive or refused, or a parameter does not have its
type. -/
def Rule.enter (r : Rule) : RuleProgram (Option (Time × Time)) := do
  match ← r.lookupCache parameters with
  | some _ => return none
  | none => do
    let executedAt ← request .now
    if r.isActive then
      let startTime ← request .now
      match ← r.checkRateLimit with
      | .error _ => return none
      | .ok _ =>
        match ParameterValidator.validateTypes parameters with
        | .error _ => return none
        | .ok _ => return some (executedAt, startTime)
    else
      return none

/-- The two Lua steps, after the results of the children have been published. -/
def Rule.evaluateAfter (r : Rule) (childResults : List RuleResult) : RuleProgram Rule.Ending := do
  Rule.publishChildren context r.childRules childResults
  r.evaluate engine context parameters

/-- `Rule::execute` after the children. -/
def Rule.finish (r : Rule) (times : Time × Time) (childResults : List RuleResult) :
    RuleProgram RuleResult := do
  let result : RuleResult :=
    { ruleName := r.name, ruleId := r.id, executedAt := times.1, childResults }
  Rule.publishChildren context r.childRules childResults
  match childResults.find? fun c ↦ !c.isSuccess with
  | some c =>
    r.settle context parameters times.2 result (.failed ("Child rule " ++ c.ruleName ++ " failed"))
  | none => do
    let ending ← r.evaluate engine context parameters
    r.settle context parameters times.2 result ending

end Execute

section Run

variable {σ : Type} {handle : (op : Op) → σ → op.Ans × σ} {engine : EnginePtr}
  {context : ContextPtr} {parameters : List RuleParameter} {r : Rule} {s s₀ : σ}

theorem isSuccess_run_settle (startTime : Time) {result : RuleResult}
    (hresult : result.exception = none ∧ result.skipped = false) (ending : Rule.Ending) (s : σ) :
    ((r.settle context parameters startTime result ending).run handle s).1.isSuccess = true ↔
      ending = .completed :=
  (traces_exchanges handle _ s).of_yields
    (settle_isSuccess context parameters r startTime hresult ending)

/-- An execution that goes on to the children. -/
theorem run_executeWith_of_enter {times : Time × Time}
    (h : (r.enter parameters).run handle s = (some times, s₀))
    (executeChildren : RuleProgram (List RuleResult)) :
    (r.executeWith engine context parameters executeChildren).run handle s =
      (r.finish engine context parameters times (executeChildren.run handle s₀).1).run handle
        (executeChildren.run handle s₀).2 := by
  rw [Rule.enter, run_bind] at h
  rw [Rule.executeWith, run_bind]
  -- both programs make the same requests up to the children, with the same answers
  generalize (r.lookupCache parameters).run handle s = x at h ⊢
  obtain ⟨found, s₁⟩ := x
  rcases found with - | a
  · simp only [Rule.executeUncached, run_bind] at h ⊢
    by_cases hactive : r.isActive = true
    · simp only [if_pos hactive, run_bind, Rule.attempt] at h ⊢
      generalize (request Op.now).run handle s₁ = x₁ at h ⊢
      generalize (request Op.now).run handle x₁.2 = x₂ at h ⊢
      generalize r.checkRateLimit.run handle x₂.2 = x₃ at h ⊢
      obtain ⟨allowed, s₃⟩ := x₃
      rcases allowed with e | _
      · exact absurd (congrArg Prod.fst h) (by simp)
      rcases htypes : ParameterValidator.validateTypes parameters with message | _
      · rw [htypes] at h
        exact absurd (congrArg Prod.fst h) (by simp)
      rw [htypes] at h
      obtain ⟨htimes, rfl⟩ := Prod.mk.inj h
      obtain rfl := Option.some.inj htimes
      simp only [run_bind, Rule.finish]
      rcases hfind : (executeChildren.run handle s₃).1.find? fun c ↦ !c.isSuccess with - | c
      · simp only [hfind, run_bind, run_pure]
      · simp only [hfind, run_pure]
    · rw [if_neg hactive] at h
      exact absurd (congrArg Prod.fst h) (by simp)
  · exact absurd (congrArg Prod.fst h) (by simp)

/-- An execution that does not: the result of the cache is returned, or the result is no success. -/
theorem run_executeWith_of_not_enter (engine : EnginePtr) (context : ContextPtr)
    (h : ((r.enter parameters).run handle s).1 = none)
    (executeChildren : RuleProgram (List RuleResult)) :
    let found := ((r.lookupCache parameters).run handle s).1
    let a := ((r.executeWith engine context parameters executeChildren).run handle s).1
    (∀ x, found = some x → a = x) ∧ (found = none → a.isSuccess = false) := by
  rw [Rule.enter, run_bind] at h
  dsimp only
  rw [Rule.executeWith, run_bind]
  generalize (r.lookupCache parameters).run handle s = x at h ⊢
  obtain ⟨found, s₁⟩ := x
  rcases found with - | a
  · refine ⟨fun x hx ↦ absurd hx (by simp), fun _ ↦ ?_⟩
    simp only [Rule.executeUncached, run_bind] at h ⊢
    by_cases hactive : r.isActive = true
    · simp only [if_pos hactive, run_bind, Rule.attempt] at h ⊢
      generalize (request Op.now).run handle s₁ = x₁ at h ⊢
      generalize (request Op.now).run handle x₁.2 = x₂ at h ⊢
      generalize r.checkRateLimit.run handle x₂.2 = x₃ at h ⊢
      obtain ⟨allowed, s₃⟩ := x₃
      refine Bool.eq_false_iff.2 fun hsuccess ↦ ?_
      have hending := (isSuccess_run_settle _ ⟨rfl, rfl⟩ _ _).1 hsuccess
      rcases allowed with e | _
      · exact absurd hending (by simp)
      rcases htypes : ParameterValidator.validateTypes parameters with message | _
      · rw [htypes] at hending
        exact absurd hending (by simp)
      · rw [htypes] at h
        exact absurd h (by simp)
    · rw [if_neg hactive]
      rfl
  · exact ⟨fun x hx ↦ (Option.some.inj hx), fun hx ↦ absurd hx (by simp)⟩

/-- What the children do to the result. -/
theorem isSuccess_run_finish {times : Time × Time} {results : List RuleResult} :
    ((r.finish engine context parameters times results).run handle s).1.isSuccess = true ↔
      (∀ x ∈ results, x.isSuccess = true) ∧
        ((r.evaluateAfter engine context parameters results).run handle s).1 = .completed := by
  simp only [Rule.finish, Rule.evaluateAfter, run_bind]
  rcases hfind : results.find? fun c ↦ !c.isSuccess with - | c
  · have hall : ∀ x ∈ results, x.isSuccess = true := fun x hx ↦ by
      simpa using List.find?_eq_none.1 hfind x hx
    simp only [hfind, run_bind]
    rw [isSuccess_run_settle _ ⟨rfl, rfl⟩]
    exact (and_iff_right hall).symm
  · have hfailed : c.isSuccess = false := by simpa using List.find?_some hfind
    simp only [hfind]
    rw [isSuccess_run_settle _ ⟨rfl, rfl⟩]
    refine iff_of_false (by simp) fun h ↦ ?_
    exact absurd (hfailed.symm.trans (h.1 c (List.mem_of_find?_eq_some hfind))) Bool.false_ne_true

/-- The results of rules that are executed one after the other. -/
theorem mem_run_executeRules {rules : List Rule} {x : RuleResult} :
    x ∈ ((executeRules engine context parameters rules).run handle s).1 ↔
      ∃ before c after, rules = before ++ c :: after ∧
        x = ((c.execute engine context parameters).run handle
          ((executeRules engine context parameters before).run handle s).2).1 := by
  induction rules generalizing s with
  | nil =>
    refine iff_of_false List.not_mem_nil ?_
    rintro ⟨before, c, after, hsplit, -⟩
    exact absurd hsplit.symm (by simp)
  | cons q rules ih =>
    simp only [executeRules, run_bind, run_pure, List.mem_cons]
    rw [ih]
    constructor
    · rintro (rfl | ⟨before, c, after, rfl, rfl⟩)
      · exact ⟨[], q, rules, rfl, rfl⟩
      · refine ⟨q :: before, c, after, rfl, ?_⟩
        simp only [executeRules, run_bind, run_pure]
    · rintro ⟨before, c, after, hsplit, rfl⟩
      rcases before with - | ⟨p, before⟩
      · obtain ⟨rfl, rfl⟩ := List.cons.inj hsplit
        exact .inl rfl
      · obtain ⟨rfl, rfl⟩ := List.cons.inj hsplit
        refine .inr ⟨before, c, after, rfl, ?_⟩
        simp only [executeRules, run_bind, run_pure]

end Run

/-! ### What an execution comes to -/

section ComesTo

variable {σ : Type} (handle : (op : Op) → σ → op.Ans × σ) (engine : EnginePtr)
  (context : ContextPtr) (parameters : List RuleParameter)

/-- Executing the first rule in the first state comes to executing the second rule in the second
state: it is that rule, or it goes on to its children and one of them comes to it. -/
inductive Rule.ComesTo : Rule → σ → Rule → σ → Prop
  | self (r : Rule) (s : σ) : Rule.ComesTo r s r s
  | child {r : Rule} {s s₀ : σ} {times : Time × Time}
      (henter : (r.enter parameters).run handle s = (some times, s₀))
      {before after : List Rule} {c : Rule} (hchild : r.childRules = before ++ c :: after)
      {q : Rule} {s' : σ}
      (hcomes : Rule.ComesTo c
        ((executeRules engine context parameters before).run handle s₀).2 q s') :
      Rule.ComesTo r s q s'

/-- The result that the cache of the rule answers with. -/
def Rule.cachedResult (r : Rule) (s : σ) : Option RuleResult :=
  ((r.lookupCache parameters).run handle s).1

/-- The rule fails, whatever the rules below it come to. -/
inductive Rule.FailsAlone (r : Rule) (s : σ) : Prop
  /-- Its cached result is a failure. -/
  | cached {a : RuleResult} (hfound : r.cachedResult handle parameters s = some a)
      (ha : a.isSuccess = false)
  /-- It is not active, the limiter refuses it, or a parameter does not have its type. -/
  | refused (hfound : r.cachedResult handle parameters s = none)
      (hrefused : ((r.enter parameters).run handle s).1 = none)
  /-- Its expression or its action does not pass after the children. -/
  | evaluated {times : Time × Time} {s₀ : σ}
      (henter : (r.enter parameters).run handle s = (some times, s₀))
      (hending : let below := (executeRules engine context parameters r.childRules).run handle s₀
        ((r.evaluateAfter engine context parameters below.1).run handle below.2).1 ≠ .completed)

variable {handle engine context parameters} {r : Rule} {s : σ}

theorem cachedResult_of_enter {times : Time × Time} {s₀ : σ}
    (h : (r.enter parameters).run handle s = (some times, s₀)) :
    r.cachedResult handle parameters s = none := by
  rw [Rule.enter, run_bind] at h
  rw [Rule.cachedResult]
  generalize (r.lookupCache parameters).run handle s = x at h ⊢
  obtain ⟨found, s₁⟩ := x
  rcases found with - | a
  · rfl
  · exact absurd (congrArg Prod.fst h) (by simp)

/-- A rule that does not go on to its children. -/
theorem isSuccess_execute_of_not_enter (h : ((r.enter parameters).run handle s).1 = none) :
    ((r.execute engine context parameters).run handle s).1.isSuccess = true ↔
      ¬r.FailsAlone handle engine context parameters s := by
  rw [Rule.execute_eq]
  obtain ⟨hcached, hmissed⟩ := run_executeWith_of_not_enter engine context h
    (executeRules engine context parameters r.childRules)
  rcases hfound : r.cachedResult handle parameters s with - | a
  · exact iff_of_false (Bool.eq_false_iff.1 (hmissed hfound)) fun hnot ↦ hnot (.refused hfound h)
  · rw [hcached a hfound]
    constructor
    · rintro ha (⟨hfound', ha'⟩ | ⟨hfound', -⟩ | ⟨henter, -⟩)
      · obtain rfl := Option.some.inj (hfound.symm.trans hfound')
        exact absurd (ha.symm.trans ha') (by simp)
      · exact absurd (hfound.symm.trans hfound') (by simp)
      · exact absurd (h.symm.trans (congrArg Prod.fst henter)) (by simp)
    · exact fun hnot ↦ by_contra fun ha ↦ hnot (.cached hfound (Bool.eq_false_iff.2 ha))

/-- **An execution is a success** exactly if no rule that it comes to fails alone. -/
theorem isSuccess_execute_iff (r : Rule) : ∀ s : σ,
    ((r.execute engine context parameters).run handle s).1.isSuccess = true ↔
      ∀ q s', r.ComesTo handle engine context parameters s q s' →
        ¬q.FailsAlone handle engine context parameters s' := by
  induction r using Rule.induction_children with
  | h r ih =>
    intro s
    rcases henter : (r.enter parameters).run handle s with ⟨_ | times, s₀⟩
    · have hnot : ((r.enter parameters).run handle s).1 = none := congrArg Prod.fst henter
      -- the execution comes to nothing but the rule itself
      rw [isSuccess_execute_of_not_enter hnot]
      refine ⟨fun halone q s' hcomes ↦ ?_, fun h ↦ h r s (.self r s)⟩
      rcases hcomes with _ | ⟨henter', _, _⟩
      · exact halone
      · exact absurd (hnot.symm.trans (congrArg Prod.fst henter')) (by simp)
    · rw [Rule.execute_eq, run_executeWith_of_enter henter, isSuccess_run_finish]
      constructor
      · rintro ⟨hall, hending⟩ q s' hcomes
        -- the rule itself, or below the child whose state the earlier children leave
        rcases hcomes with _ | ⟨henter', hchild, hcomes⟩
        · rintro (⟨hfound, -⟩ | ⟨-, hrefused⟩ | ⟨henter', hending'⟩)
          · exact absurd (hfound.symm.trans (cachedResult_of_enter henter)) (by simp)
          · exact absurd (hrefused.symm.trans (congrArg Prod.fst henter)) (by simp)
          · obtain ⟨-, rfl⟩ := Prod.mk.inj (henter.symm.trans henter')
            exact hending' hending
        · obtain ⟨-, rfl⟩ := Prod.mk.inj (henter.symm.trans henter')
          have hmem := hchild ▸ List.mem_append_right _ List.mem_cons_self
          exact (ih _ hmem _).1 (hall _ (mem_run_executeRules.2 ⟨_, _, _, hchild, rfl⟩)) q s' hcomes
      · intro h
        refine ⟨fun x hx ↦ ?_, by_contra fun hending ↦ h r s (.self r s)
          (.evaluated henter hending)⟩
        obtain ⟨before, c, after, hchild, rfl⟩ := mem_run_executeRules.1 hx
        have hmem : c ∈ r.childRules := hchild ▸ List.mem_append_right _ List.mem_cons_self
        exact (ih c hmem _).2 fun q s' hcomes ↦ h q s' (.child henter hchild hcomes)

theorem Rule.ComesTo.mem_nodes {q : Rule} {s' : σ}
    (h : r.ComesTo handle engine context parameters s q s') :
    q ∈ r.nodes := by
  induction h with
  | self r s => exact r.self_mem_nodes
  | @child r s s₀ times _ before after c hchild q s' _ ih =>
    rw [nodes_eq]
    refine List.mem_cons_of_mem r (mem_nodesOf.2 ⟨c, ?_, ih⟩)
    exact hchild ▸ List.mem_append_right _ List.mem_cons_self

/-- A rule that is not active and has no cached result fails alone. -/
theorem failsAlone_of_inactive (hactive : r.isActive = false)
    (hfound : r.cachedResult handle parameters s = none) :
    r.FailsAlone handle engine context parameters s := by
  refine .refused hfound ?_
  rw [Rule.cachedResult] at hfound
  rw [Rule.enter, run_bind, hfound]
  simp only [hactive, run_bind, Bool.false_eq_true, if_false]
  rfl

/-- An inactive rule does not evaluate anything. -/
theorem nothingEvaluated_of_inactive (hactive : r.isActive = false) :
    NothingEvaluated (exchanges handle (r.execute engine context parameters) s) := by
  refine nothingEvaluated_of_bookkeeping (c := context) ?_ (traces_exchanges handle _ s)
  rw [Rule.execute_eq, Rule.executeWith]
  refine (lookupCache_asks context parameters r).bind fun found ↦ ?_
  rcases found with - | a
  · rw [Rule.executeUncached, hactive]
    exact ⟨trivial, fun _ ↦ trivial⟩
  · exact ⟨trivial, fun _ ↦ trivial⟩

end ComesTo

/-! ### Where no inactive rule is come to -/

/-- The engine finds the chunks of the rules of the tree whether or not the inactive rules below
them are there, as it does once it has compiled them all. -/
structure FindsChunks {σ : Type} (handle : (op : Op) → σ → op.Ans × σ) (engine : EnginePtr)
    (parameters : List RuleParameter) (r : Rule) : Prop where
  expression : ∀ q ∈ r.nodes, ∀ s, handle (.beginExpression engine q.withoutInactive parameters) s =
    handle (.beginExpression engine q parameters) s
  action : ∀ q ∈ r.nodes, ∀ s, handle (.beginAction engine q.withoutInactive parameters) s =
    handle (.beginAction engine q parameters) s

section Remove

variable {σ : Type} {handle : (op : Op) → σ → op.Ans × σ} {engine : EnginePtr}
  {context : ContextPtr} {parameters : List RuleParameter} {r : Rule} {s : σ}

theorem FindsChunks.child (h : FindsChunks handle engine parameters r) {c : Rule}
    (hc : c ∈ r.childRules) :
    FindsChunks handle engine parameters c := by
  have hnodes : ∀ q ∈ c.nodes, q ∈ r.nodes := fun q hq ↦ by
    rw [Rule.nodes_eq]
    exact List.mem_cons_of_mem r (Rule.mem_nodesOf.2 ⟨c, hc, hq⟩)
  exact ⟨fun q hq ↦ h.expression q (hnodes q hq), fun q hq ↦ h.action q (hnodes q hq)⟩

theorem Rule.enter_withoutInactive (r : Rule) :
    r.withoutInactive.enter parameters = r.enter parameters := by
  cases r
  rfl

theorem run_evaluate_withoutInactive (h : FindsChunks handle engine parameters r) (s : σ) :
    (r.withoutInactive.evaluate engine context parameters).run handle s =
      (r.evaluate engine context parameters).run handle s := by
  have hexpression (s : σ) :
    (r.withoutInactive.checkExpression engine context parameters).run handle s =
      (r.checkExpression engine context parameters).run handle s := by
    simp only [Rule.checkExpression, Rule.withoutInactive_toRuleFields]
    split_ifs
    · rw [evaluateExpression_eq, evaluateExpression_eq, run_bind, run_bind,
        Rule.withoutInactive_toRuleFields]
      exact congrArg (fun x : Except Exn (Option LuaScript) × σ ↦
        (runChunk engine context r.timeout "Expression evaluation failed: " x.1).run handle x.2)
        (h.expression r r.self_mem_nodes s)
    · rfl
  have haction (s : σ) : (r.withoutInactive.performAction engine context parameters).run handle s =
      (r.performAction engine context parameters).run handle s := by
    simp only [Rule.performAction, Rule.withoutInactive_toRuleFields]
    split_ifs
    · rw [executeAction_eq, executeAction_eq, run_bind, run_bind, Rule.withoutInactive_toRuleFields]
      exact congrArg (fun x : Except Exn (Option LuaScript) × σ ↦
        (runChunk engine context r.timeout "Action execution failed: " x.1).run handle x.2)
        (h.action r r.self_mem_nodes s)
    · rfl
  rw [Rule.evaluate, Rule.evaluate, run_bind, run_bind, hexpression]
  rcases ((r.checkExpression engine context parameters).run handle s).1 with e | - | -
  · rfl
  · rfl
  · dsimp only
    rw [run_bind, run_bind, haction]

/-- What a rule does that does not go on to its children does not depend on them. -/
theorem run_executeWith_congr (h : ((r.enter parameters).run handle s).1 = none)
    (executeChildren executeChildren' : RuleProgram (List RuleResult)) :
    (r.withoutInactive.executeWith engine context parameters executeChildren').run handle s =
      (r.executeWith engine context parameters executeChildren).run handle s := by
  have hlookup : r.withoutInactive.lookupCache parameters = r.lookupCache parameters := by
    cases r
    rfl
  rw [Rule.enter, run_bind] at h
  rw [Rule.executeWith, Rule.executeWith, run_bind, run_bind, hlookup]
  generalize (r.lookupCache parameters).run handle s = x at h ⊢
  obtain ⟨found, s₁⟩ := x
  -- the requests up to the answer do not mention the children
  rcases found with - | a
  · have hlimit : r.withoutInactive.checkRateLimit = r.checkRateLimit := by
      cases r
      rfl
    simp only [Rule.executeUncached, run_bind, Rule.withoutInactive_toRuleFields] at h ⊢
    by_cases hactive : r.isActive = true
    · simp only [if_pos hactive, run_bind, Rule.attempt, hlimit] at h ⊢
      generalize (request Op.now).run handle s₁ = x₁ at h ⊢
      generalize (request Op.now).run handle x₁.2 = x₂ at h ⊢
      generalize r.checkRateLimit.run handle x₂.2 = x₃ at h ⊢
      obtain ⟨allowed, s₃⟩ := x₃
      rcases allowed with e | _
      · cases r
        rfl
      rcases htypes : ParameterValidator.validateTypes parameters with message | _
      · cases r
        rfl
      · rw [htypes] at h
        exact absurd h (by simp)
    · rw [if_neg hactive, if_neg hactive]
  · rfl

theorem publishChildren_map (children : List Rule) (results : List RuleResult) :
    Rule.publishChildren context (children.map Rule.withoutInactive) results =
      Rule.publishChildren context children results := by
  induction children generalizing results with
  | nil => rfl
  | cons c children ih =>
    rcases results with - | ⟨x, results⟩
    · rfl
    · have hkey : c.withoutInactive.resultKey = c.resultKey := by
        cases c
        rfl
      rw [List.map_cons, Rule.publishChildren, Rule.publishChildren, hkey, ih]

theorem run_finish_withoutInactive (h : FindsChunks handle engine parameters r)
    (hmap : activeOf r.childRules = r.childRules.map Rule.withoutInactive) (times : Time × Time)
    (results : List RuleResult) (s : σ) :
    (r.withoutInactive.finish engine context parameters times results).run handle s =
      (r.finish engine context parameters times results).run handle s := by
  have hsettle (result : RuleResult) (ending : Rule.Ending) :
      r.withoutInactive.settle context parameters times.2 result ending =
        r.settle context parameters times.2 result ending := by
    cases r
    rfl
  rw [Rule.finish, Rule.finish, run_bind, run_bind, Rule.withoutInactive_childRules, hmap,
    publishChildren_map]
  simp only [hsettle, Rule.withoutInactive_toRuleFields]
  rcases hfind : results.find? fun c ↦ !c.isSuccess with - | c
  · simp only [hfind, run_bind, run_evaluate_withoutInactive h]
  · simp only [hfind]

/-- Rules that are all active and do what they do without the inactive rules below them. -/
theorem run_executeRules_activeOf {rules : List Rule}
    (h : ∀ before c after, rules = before ++ c :: after → c.isActive = true ∧
      ∀ s', s' = ((executeRules engine context parameters before).run handle s).2 →
        (c.withoutInactive.execute engine context parameters).run handle s' =
          (c.execute engine context parameters).run handle s') :
    activeOf rules = rules.map Rule.withoutInactive ∧
      (executeRules engine context parameters (activeOf rules)).run handle s =
        (executeRules engine context parameters rules).run handle s := by
  induction rules generalizing s with
  | nil => exact ⟨rfl, rfl⟩
  | cons c rules ih =>
    obtain ⟨hactive, hrun⟩ := h [] c rules rfl
    have hrun := hrun s rfl
    obtain ⟨hmap, hrest⟩ := ih (s := ((c.execute engine context parameters).run handle s).2)
      fun before q after hsplit ↦ by
        obtain ⟨hq, hrunq⟩ := h (c :: before) q after (congrArg (List.cons c) hsplit)
        refine ⟨hq, fun s' hs' ↦ hrunq s' ?_⟩
        rw [hs']
        simp only [executeRules, run_bind, run_pure]
    rw [activeOf, if_pos hactive]
    refine ⟨by rw [hmap, List.map_cons], ?_⟩
    simp only [executeRules, run_bind, run_pure, hrun, hrest]

/-- **Where an execution does not come to an inactive rule**, these rules can be removed. -/
theorem run_execute_withoutInactive (r : Rule) (hchunks : FindsChunks handle engine parameters r) :
    ∀ s : σ,
    (∀ q s', r.ComesTo handle engine context parameters s q s' → q.isActive = true) →
      (r.withoutInactive.execute engine context parameters).run handle s =
        (r.execute engine context parameters).run handle s := by
  induction r using Rule.induction_children with
  | h r ih =>
    intro s hactive
    rw [Rule.execute_eq, Rule.execute_eq]
    rcases henter : (r.enter parameters).run handle s with ⟨_ | times, s₀⟩
    · exact run_executeWith_congr (congrArg Prod.fst henter) _ _
    · -- every child is come to, in the state its predecessors leave, so all of them are active
      have hbelow : ∀ before c after, r.childRules = before ++ c :: after → c.isActive = true ∧
          ∀ s', s' = ((executeRules engine context parameters before).run handle s₀).2 →
            (c.withoutInactive.execute engine context parameters).run handle s' =
              (c.execute engine context parameters).run handle s' := by
        intro before c after hchild
        have hmem : c ∈ r.childRules := hchild ▸ List.mem_append_right _ List.mem_cons_self
        refine ⟨hactive c _ (.child henter hchild (.self c _)), fun s' hs' ↦ ?_⟩
        refine ih c hmem (hchunks.child hmem) s' fun q t hcomes ↦ ?_
        exact hactive q t (.child henter hchild (hs' ▸ hcomes))
      obtain ⟨hmap, hrun⟩ := run_executeRules_activeOf hbelow
      rw [run_executeWith_of_enter henter,
        run_executeWith_of_enter ((congrArg (fun p ↦ p.run handle s) r.enter_withoutInactive).trans
          henter),
        Rule.withoutInactive_childRules, hrun]
      exact run_finish_withoutInactive hchunks hmap _ _ _

end Remove

/-- **Removing inactive rules.** Executing a rule is a success with and without the inactive rules
below it alike, and none of these evaluates anything or answers from its cache, if and only if no
inactive rule that the execution comes to has a cached result to answer with, and if there is such a
rule, the execution without inactive rules comes to a rule that fails alone. -/
theorem inactive_removed_iff {E : Type} (env : Environment E) (engine : EnginePtr)
    (context : ContextPtr) (parameters : List RuleParameter) (r : Rule) (w : World E)
    (hchunks : FindsChunks env.handle engine parameters r) :
    (((r.execute engine context parameters).run env.handle w).1.isSuccess =
        ((r.withoutInactive.execute engine context parameters).run env.handle w).1.isSuccess ∧
      ∀ q w', r.ComesTo env.handle engine context parameters w q w' → q.isActive = false →
        NothingEvaluated (exchanges env.handle (q.execute engine context parameters) w') ∧
          q.cachedResult env.handle parameters w' = none) ↔
      ∀ q w', r.ComesTo env.handle engine context parameters w q w' → q.isActive = false →
        q.cachedResult env.handle parameters w' = none ∧
          ∃ p w'', r.withoutInactive.ComesTo env.handle engine context parameters w p w'' ∧
            p.FailsAlone env.handle engine context parameters w'' := by
  -- with an inactive rule that has no cached result, the execution is no success
  have hfails : ∀ q w', r.ComesTo env.handle engine context parameters w q w' → q.isActive = false →
      q.cachedResult env.handle parameters w' = none →
      ((r.execute engine context parameters).run env.handle w).1.isSuccess = false := by
    intro q w' hcomes hinactive hfound
    refine Bool.eq_false_iff.2 fun hsuccess ↦ ?_
    exact (isSuccess_execute_iff r w).1 hsuccess q w' hcomes
      (failsAlone_of_inactive hinactive hfound)
  constructor
  · rintro ⟨hsame, hquiet⟩ q w' hcomes hinactive
    have hfound := (hquiet q w' hcomes hinactive).2
    refine ⟨hfound, ?_⟩
    by_contra hnone
    push Not at hnone
    have hsuccess := (isSuccess_execute_iff r.withoutInactive w).2 hnone
    rw [← hsame, hfails q w' hcomes hinactive hfound] at hsuccess
    exact Bool.false_ne_true hsuccess
  · intro hcond
    refine ⟨?_, fun q w' hcomes hinactive ↦
      ⟨nothingEvaluated_of_inactive hinactive, (hcond q w' hcomes hinactive).1⟩⟩
    by_cases hcomes : ∃ q w', r.ComesTo env.handle engine context parameters w q w' ∧
      q.isActive = false
    · obtain ⟨q, w', hcomes, hinactive⟩ := hcomes
      obtain ⟨hfound, p, w'', hcomes', halone⟩ := hcond q w' hcomes hinactive
      rw [hfails q w' hcomes hinactive hfound]
      refine (Bool.eq_false_iff.2 fun hsuccess ↦ ?_).symm
      exact (isSuccess_execute_iff r.withoutInactive w).1 hsuccess p w'' hcomes' halone
    · -- no inactive rule is come to: the two executions are the same
      rw [run_execute_withoutInactive r hchunks w fun q w' hq ↦ ?_]
      by_contra hinactive
      exact hcomes ⟨q, w', hq, Bool.eq_false_iff.2 hinactive⟩

namespace InactiveChild

/-- A rule without a cache that has been switched off. -/
def silent : Rule := { ptr := 2, id := 2, name := "silent", isActive := false }

/-- A rule with an expression. -/
def failing : Rule := { ptr := 3, id := 3, name := "failing", expression := "false" }

/-- A rule above them. -/
def root : Rule := { ptr := 1, id := 1, name := "root", childRules := [silent, failing] }

/-- The environment in which every expression is false. -/
def allFalse : Environment Unit :=
  .ofScripts fun _ ↦ some (.ret (.ok false))

theorem allFalse_findsChunks (r : Rule) : FindsChunks allFalse.handle 0 [] r :=
  ⟨fun _ _ _ ↦ rfl, fun _ _ _ ↦ rfl⟩

/-- Beside a rule that fails anyway, one that is switched off makes no difference. -/
theorem root_fails_anyway :
    ((root.execute 0 0 []).run allFalse.handle { env := () }).1.isSuccess =
        ((root.withoutInactive.execute 0 0 []).run allFalse.handle { env := () }).1.isSuccess ∧
      ∀ q w', root.ComesTo allFalse.handle 0 0 [] { env := () } q w' → q.isActive = false →
        NothingEvaluated (exchanges allFalse.handle (q.execute 0 0 []) w') ∧
          q.cachedResult allFalse.handle [] w' = none := by
  have hfailing : ∃ p w', root.withoutInactive.ComesTo allFalse.handle 0 0 [] { env := () } p w' ∧
      p.FailsAlone allFalse.handle 0 0 [] w' :=
    ⟨failing, _, .child rfl (show root.withoutInactive.childRules = [] ++ failing :: [] from rfl)
      (.self _ _),
      .evaluated rfl fun h ↦ Rule.Ending.noConfusion h⟩
  refine (inactive_removed_iff allFalse 0 0 [] root { env := () } (allFalse_findsChunks root)).2
    fun q w' hcomes _ ↦ ⟨?_, hfailing⟩
  have hcaching : q.isCaching = false := by
    have hmem := hcomes.mem_nodes
    simp only [root, Rule.nodes, nodesOf, silent, failing, List.mem_cons, List.append_nil,
      List.nil_append,
      List.cons_append, List.not_mem_nil, or_false] at hmem
    rcases hmem with rfl | rfl | rfl <;> rfl
  rw [Rule.cachedResult, Rule.lookupCache, hcaching]
  rfl

/-- A rule with a cache that has been switched off. -/
def off : Rule :=
    { ptr := 2, id := 2, name := "off", cacheDuration := some 1000, isActive := false }

/-- A rule above one that is switched off. -/
def above : Rule := { ptr := 1, id := 1, name := "above", childRules := [off] }

/-- A success of the rule while it was switched on. -/
def before : RuleResult := { ruleName := "off", ruleId := 2, success := true }

/-- A world in whose cache that success still is. -/
def remembering : World Unit :=
  { caches := fun _ ↦ { entries := [("2|", { result := before, expiresAt := 1, generation := 0 })] }
    env := () }

/-- The rule that is switched off makes the one above it fail, and answers from its cache. -/
theorem off_counts :
    (((above.execute 0 0 []).run Environment.noScripts.handle { env := () }).1.isSuccess = false ∧
      ((above.withoutInactive.execute 0 0 []).run Environment.noScripts.handle
        { env := () }).1.isSuccess =
        true) ∧
    ((above.execute 0 0 []).run Environment.noScripts.handle remembering).1.childResults =
      [before] :=
  ⟨⟨rfl, rfl⟩, rfl⟩

end InactiveChild

end FastRules
