import FastRules.Parallel.Executor

/-!
# What the tasks of the parallel executor request

Four facts about every execution, whatever it is answered: which rules it evaluates and under which
keys it publishes (`execute_within`), that it publishes the result of its own rule once
(`execute_once`), that the result it returns is one of its rule (`parallelTask_isOf`), and that a
task evaluates its rule only after it has found a success of the dependency (`parallelTask_gated`).
-/

namespace FastRules

open Program

/-! ### What an execution publishes and evaluates -/

/-- A request by which at most rules of `begun` are evaluated and rules of `published` publish. -/
def Op.Within (begun published : List Rule) : Op → Prop
  | beginExpression _ q _ => q ∈ begun
  | beginAction _ q _ => q ∈ begun
  | setResult _ key _ => ∃ q ∈ published, q.resultKey = key
  | _ => True

section Within

variable {engine : EnginePtr} {c : ContextPtr} {begun begun' published published' : List Rule}
  {op : Op}

theorem Op.Within.mono (h : op.Within begun published) (hbegun : ∀ q ∈ begun, q ∈ begun')
    (hpublished : ∀ q ∈ published, q ∈ published') : op.Within begun' published' := by
  cases op
  case beginExpression => exact hbegun _ h
  case beginAction => exact hbegun _ h
  case setResult =>
    obtain ⟨q, hq, hkey⟩ := h
    exact ⟨q, hpublished q hq, hkey⟩
  all_goals exact h

theorem Op.IsBookkeeping.within (h : op.IsBookkeeping c) : op.Within begun published := by
  cases op <;> trivial

theorem Op.Evaluates.within {r : Rule} (h : op.Evaluates engine c r) : op.Within [r] published := by
  cases op
  case beginExpression => exact List.mem_singleton.2 h.2
  case beginAction => exact List.mem_singleton.2 h.2
  all_goals trivial

variable (engine c) (parameters : List RuleParameter)

theorem publishChildren_within : ∀ (children : List Rule) (results : List RuleResult),
    Asks (Op.Within [] children) (Rule.publishChildren c children results)
  | [], _ => trivial
  | _ :: _, [] => trivial
  | child :: children, _ :: results =>
    ⟨⟨child, List.mem_cons_self, rfl⟩, fun _ ↦ (publishChildren_within children results).mono
      fun _ h ↦ h.mono (fun _ hq ↦ hq) fun _ hq ↦ List.mem_cons_of_mem child hq⟩

theorem conclude_within (r : Rule) (startTime : Time) (result : RuleResult) :
    Asks (Op.Within [] [r]) (r.conclude c parameters startTime result) :=
  ⟨trivial, fun _ ↦ ⟨trivial, fun _ ↦ ⟨⟨r, List.mem_singleton_self r, rfl⟩, fun _ ↦
    ((storeInCache_asks c parameters r _).mono fun _ ↦ Op.IsBookkeeping.within).bind
      fun _ ↦ trivial⟩⟩⟩

theorem settle_within (r : Rule) (startTime : Time) (result : RuleResult) (ending : Rule.Ending) :
    Asks (Op.Within [] [r]) (r.settle c parameters startTime result ending) := by
  cases ending with
  | failed message =>
    exact ⟨trivial, fun _ ↦
      ((storeInCache_asks c parameters r _).mono fun _ ↦ Op.IsBookkeeping.within).bind
        fun _ ↦ ⟨⟨r, List.mem_singleton_self r, rfl⟩, fun _ ↦ trivial⟩⟩
  | thrown e =>
    exact ((handleException_asks c r e).mono fun _ ↦ Op.IsBookkeeping.within).bind
      fun message ↦ conclude_within c parameters r startTime _
  | completed => exact ⟨trivial, fun _ ↦ conclude_within c parameters r startTime _⟩

/-- The `try` block evaluates the rule and what is below it, and publishes what is below it. -/
theorem attempt_within {r : Rule} {executeChildren : RuleProgram (List RuleResult)}
    (hchildren : Asks (Op.Within (nodesOf r.childRules) (nodesOf r.childRules)) executeChildren) :
    Asks (Op.Within r.nodes (nodesOf r.childRules))
      (r.attempt engine c parameters executeChildren) := by
  refine ((checkRateLimit_asks c r).mono fun _ ↦ Op.IsBookkeeping.within).bind fun allowed ↦ ?_
  rcases allowed with e | -
  · trivial
  · dsimp only
    split
    · trivial
    · refine (hchildren.mono fun _ h ↦ h.mono (fun _ ↦ Rule.mem_nodes_of_mem_below)
        fun _ hq ↦ hq).bind fun results ↦ Asks.bind ?_ fun _ ↦ ?_
      · exact (publishChildren_within c r.childRules results).mono fun _ h ↦
          h.mono (fun _ hq ↦ absurd hq List.not_mem_nil) fun _ ↦ Rule.mem_nodesOf_of_mem
      · split
        · trivial
        · refine ((evaluate_asks engine c parameters r).mono fun _ h ↦ ?_).bind fun _ ↦ trivial
          exact h.within.mono (fun q hq ↦ List.mem_singleton.1 hq ▸ r.self_mem_nodes) fun _ hq ↦ hq

theorem executeWith_within {r : Rule} {executeChildren : RuleProgram (List RuleResult)}
    (hchildren : Asks (Op.Within (nodesOf r.childRules) (nodesOf r.childRules)) executeChildren) :
    Asks (Op.Within r.nodes r.nodes) (r.executeWith engine c parameters executeChildren) := by
  refine ((lookupCache_asks c parameters r).mono fun _ ↦ Op.IsBookkeeping.within).bind
    fun cached ↦ ?_
  rcases cached with - | result
  · refine ⟨trivial, fun executedAt ↦ ?_⟩
    dsimp only
    split_ifs
    · refine (asks_request.2 trivial).bind fun startTime ↦ Asks.bind ?_ fun x ↦ ?_
      · exact (attempt_within engine c parameters hchildren).mono fun _ h ↦
          h.mono (fun _ hq ↦ hq) fun _ ↦ Rule.mem_nodes_of_mem_below
      · exact (settle_within c parameters r _ _ _).mono fun _ h ↦
          h.mono (fun _ hq ↦ absurd hq List.not_mem_nil)
            fun q hq ↦ List.mem_singleton.1 hq ▸ r.self_mem_nodes
    · trivial
  · exact ⟨trivial, fun _ ↦ trivial⟩

theorem executeRules_within_of {children : List Rule}
    (h : ∀ r ∈ children, Asks (Op.Within r.nodes r.nodes) (r.execute engine c parameters)) :
    Asks (Op.Within (nodesOf children) (nodesOf children))
      (executeRules engine c parameters children) := by
  induction children with
  | nil => trivial
  | cons child children ih =>
    rw [executeRules, nodesOf]
    have hhead := (h child List.mem_cons_self).mono fun op hop ↦
      have hin := fun q hq ↦ List.mem_append_left (nodesOf children) hq
      hop.mono hin hin
    have htail := (ih fun q hq ↦ h q (List.mem_cons_of_mem child hq)).mono fun op hop ↦
      have hin := fun q hq ↦ List.mem_append_right child.nodes hq
      hop.mono hin hin
    exact hhead.bind fun _ ↦ htail.bind fun _ ↦ asks_pure _ _

/-- An execution evaluates and publishes nodes of the rule only. -/
theorem execute_within (r : Rule) :
    Asks (Op.Within r.nodes r.nodes) (r.execute engine c parameters) := by
  induction r using Rule.induction_children with
  | h r ih =>
    rw [Rule.execute_eq]
    exact executeWith_within engine c parameters (executeRules_within_of engine c parameters ih)

end Within

/-! ### One publication -/

section Once

variable {engine : EnginePtr} {c : ContextPtr} {begun published : List Rule} {op : Op}
  {key : String}

theorem Op.Within.not_endsExecution (h : op.Within begun published)
    (hkey : ∀ q ∈ published, q.resultKey ≠ key) : op.endsExecution key = false := by
  cases op
  case setResult =>
    obtain ⟨q, hq, rfl⟩ := h
    exact decide_eq_false (hkey q hq)
  all_goals rfl

/-- Sequencing after a program that publishes nothing under the key. -/
theorem ensures_uncounted_bind {α β : Type} {p : RuleProgram α}
    (hp : Asks (Op.Within begun published) p) (hkey : ∀ q ∈ published, q.resultKey ≠ key)
    {f : α → RuleProgram β} {Q : β → ℕ → Prop} {n : ℕ}
    (h : ∀ a, Ensures (Interface.atMostOnce (Op.endsExecution key)) Q (f a) n) :
    Ensures (Interface.atMostOnce (Op.endsExecution key)) Q (p >>= f) n := by
  refine (ensures_bind p f n).2 (((hp.mono fun op hop ↦ hop.not_endsExecution hkey).ensures_count
    n).mono fun a n' hn ↦ ?_)
  obtain rfl : n' = n := hn
  exact h a

/-- Sequencing after a request that publishes nothing under the key. -/
theorem ensures_uncounted_request {β : Type} {op : Op} {f : op.Ans → RuleProgram β}
    {Q : β → ℕ → Prop} {n : ℕ}
    (h : ∀ a, Ensures (Interface.atMostOnce (Op.endsExecution key)) Q (f a) n)
    (hop : op.endsExecution key = false) :
    Ensures (Interface.atMostOnce (Op.endsExecution key)) Q (request op >>= f) n := by
  refine ⟨fun htrue ↦ absurd (hop.symm.trans htrue) Bool.false_ne_true, fun a n' hn ↦ ?_⟩
  obtain rfl : n' = n := by
    rw [show n' = n + (op.endsExecution key).toNat from hn, hop]
    rfl
  exact h a

/-- Sequencing after the first publication under the key. -/
theorem ensures_counted_bind {β : Type} {result : RuleResult} {f : Unit → RuleProgram β}
    {Q : β → ℕ → Prop} (h : Ensures (Interface.atMostOnce (Op.endsExecution key)) Q (f ()) 1) :
    Ensures (Interface.atMostOnce (Op.endsExecution key)) Q
      (request (.setResult c key result) >>= f) 0 := by
  refine ⟨fun _ ↦ rfl, fun _ n hn ↦ ?_⟩
  obtain rfl : n = 1 := by
    rw [show n = 0 + (Op.endsExecution key (.setResult c key result)).toNat from hn]
    simp [Op.endsExecution]
  exact h

variable (engine c) (parameters : List RuleParameter)

theorem conclude_once (r : Rule) (startTime : Time) (result : RuleResult) :
    Ensures (Interface.atMostOnce (Op.endsExecution r.resultKey)) (fun _ n ↦ n ≤ 1)
      (r.conclude c parameters startTime result) 0 := by
  have hnone : ∀ q ∈ ([] : List Rule), q.resultKey ≠ r.resultKey := fun _ hq ↦
    absurd hq List.not_mem_nil
  have hstore := fun result ↦ (storeInCache_asks c parameters r result).mono
    fun op h ↦ (h.within : op.Within [] [])
  rw [Rule.conclude]
  refine ensures_uncounted_request (fun endTime ↦ ?_) rfl
  refine ensures_uncounted_request (fun _ ↦ ?_) rfl
  refine ensures_counted_bind (ensures_uncounted_bind (hstore _) hnone fun _ ↦ ?_)
  exact le_refl 1

theorem settle_once (r : Rule) (startTime : Time) (result : RuleResult) (ending : Rule.Ending) :
    Ensures (Interface.atMostOnce (Op.endsExecution r.resultKey)) (fun _ n ↦ n ≤ 1)
      (r.settle c parameters startTime result ending) 0 := by
  have hnone : ∀ q ∈ ([] : List Rule), q.resultKey ≠ r.resultKey := fun _ hq ↦
    absurd hq List.not_mem_nil
  have hstore := fun result ↦ (storeInCache_asks c parameters r result).mono
    fun op h ↦ (h.within : op.Within [] [])
  cases ending with
  | failed message =>
    rw [Rule.settle]
    refine ensures_uncounted_request (fun _ ↦ ?_) rfl
    refine ensures_uncounted_bind (hstore _) hnone fun _ ↦ ?_
    exact ensures_counted_bind (le_refl 1)
  | thrown e =>
    refine ensures_uncounted_bind ((handleException_asks c r e).mono
      fun op h ↦ (h.within : op.Within [] [])) hnone fun message ↦ ?_
    exact conclude_once c parameters r startTime _
  | completed =>
    refine ensures_uncounted_request (fun _ ↦ ?_) rfl
    exact conclude_once c parameters r startTime _

/-- An execution publishes once at most under a key that nothing below the rule has. -/
theorem execute_once {r : Rule} (hkeys : ∀ q ∈ nodesOf r.childRules, q.resultKey ≠ r.resultKey) :
    Ensures (Interface.atMostOnce (Op.endsExecution r.resultKey)) (fun _ n ↦ n ≤ 1)
      (r.execute engine c parameters) 0 := by
  have hnone : ∀ q ∈ ([] : List Rule), q.resultKey ≠ r.resultKey := fun _ hq ↦
    absurd hq List.not_mem_nil
  have hchildren := executeRules_within_of engine c parameters
    fun q (_ : q ∈ r.childRules) ↦ execute_within engine c parameters q
  rw [Rule.execute_eq, Rule.executeWith]
  refine ensures_uncounted_bind ((lookupCache_asks c parameters r).mono
    fun op h ↦ (h.within : op.Within [] [])) hnone fun cached ↦ ?_
  rcases cached with - | result
  · refine ensures_uncounted_request (fun executedAt ↦ ?_) rfl
    dsimp only
    split_ifs
    · refine ensures_uncounted_request (fun startTime ↦ ?_) rfl
      refine ensures_uncounted_bind (attempt_within engine c parameters hchildren) hkeys fun x ↦ ?_
      exact settle_once c parameters r startTime _ x.2
    · exact Nat.zero_le 1
  · exact ensures_uncounted_request (fun _ ↦ Nat.zero_le 1) rfl

end Once

/-! ### Whose result it is -/

/-- The result carries the name and the id of the rule. -/
def RuleResult.IsOf (r : Rule) (a : RuleResult) : Prop :=
  a.ruleName = r.name ∧ a.ruleId = r.id

section Identity

variable (engine : EnginePtr) (c : ContextPtr) (parameters : List RuleParameter) {r : Rule}
  {ok : (op : Op) → op.Ans → Prop}

theorem conclude_isOf (startTime : Time) {result : RuleResult} (h : result.IsOf r) :
    Yields ok (RuleResult.IsOf r) (r.conclude c parameters startTime result) :=
  yields_bind_of fun _ ↦ yields_bind_of fun _ ↦ yields_bind_of fun _ ↦ yields_bind_of fun _ ↦
    yields_pure.2 h

theorem settle_isOf (startTime : Time) {result : RuleResult} (h : result.IsOf r)
    (ending : Rule.Ending) :
    Yields ok (RuleResult.IsOf r) (r.settle c parameters startTime result ending) := by
  cases ending with
  | failed message =>
    exact yields_bind_of fun _ ↦ yields_bind_of fun _ ↦ yields_bind_of fun _ ↦ yields_pure.2 h
  | thrown e => exact yields_bind_of fun message ↦ conclude_isOf c parameters startTime h
  | completed => exact yields_bind_of fun _ ↦ conclude_isOf c parameters startTime h

/-- Without a cache, an execution returns a result of its own. -/
theorem execute_isOf (hcache : r.isCaching = false) :
    Yields ok (RuleResult.IsOf r) (r.execute engine c parameters) := by
  rw [Rule.execute_eq, Rule.executeWith, Rule.lookupCache, if_neg (by simp [hcache]), pure_bind]
  refine yields_bind_of fun executedAt ↦ ?_
  dsimp only
  split_ifs
  · exact yields_bind_of fun startTime ↦ yields_bind_of fun x ↦
      settle_isOf c parameters startTime ⟨rfl, rfl⟩ x.2
  · exact yields_pure.2 ⟨rfl, rfl⟩

theorem parallelTask_isOf (hcache : r.isCaching = false) :
    Yields ok (RuleResult.IsOf r) (parallelTask c parameters r) := by
  refine yields_bind_of fun engine ↦ ?_
  rcases engine with - | engine
  · exact yields_pure.2 ⟨rfl, rfl⟩
  · refine yields_bind_of fun satisfied ↦ ?_
    split_ifs
    · refine yields_bind.2 ((execute_isOf engine c parameters hcache).mono fun a ha ↦ ?_)
      exact yields_bind_of fun _ ↦ yields_pure.2 ha
    · exact yields_bind_of fun _ ↦ yields_pure.2 ⟨rfl, rfl⟩

end Identity

/-! ### The gate of a task -/

/-- The request begins to evaluate the rule. -/
def Op.Begins (r : Rule) : Op → Prop
  | beginExpression _ q _ => q = r
  | beginAction _ q _ => q = r
  | _ => False

/-- The state says whether a success of the dependency has been published. A task may begin to
evaluate its rule only then, and a lookup of the dependency tells. -/
def gateInterface (r : Rule) : Interface Op Op.Ans Prop where
  pre op met := op.Begins r → r.dependsOnRuleName = none ∨ met
  step
    | .getResult _ key, met, found, met' =>
      (met → met') ∧ (r.dependsOnRuleName = some key → found.any RuleResult.isSuccess = true → met')
    | _, met, _, met' => met → met'

section Gate

variable {r : Rule} {c : ContextPtr} {met : Prop}

theorem gateInterface_step {op : Op} {a : op.Ans} {met' : Prop}
    (h : (gateInterface r).step op met a met') : met → met' := by
  cases op
  case getResult => exact h.1
  all_goals exact h

theorem dependencySatisfied_gated :
    Ensures (gateInterface r)
      (fun satisfied met' ↦ satisfied = true → r.dependsOnRuleName = none ∨ met')
      (dependencySatisfied c r) met := by
  rw [dependencySatisfied]
  split
  · rename_i hnone
    exact fun _ ↦ .inl hnone
  · rename_i n hn
    exact ⟨fun h ↦ absurd h id, fun found met' hstep hsuccess ↦ .inr (hstep.2 hn hsuccess)⟩

/-- A task asks for its dependency before it evaluates its rule. -/
theorem parallelTask_gated (c : ContextPtr) (parameters : List RuleParameter) :
    Ensures (gateInterface r) (fun _ _ ↦ True) (parallelTask c parameters r) met := by
  refine ⟨fun h ↦ absurd h id, fun engine met₁ _ ↦ ?_⟩
  rcases engine with - | engine
  · trivial
  · refine (ensures_bind (dependencySatisfied c r) _ _).2
      (dependencySatisfied_gated.mono fun satisfied met₂ hmet ↦ ?_)
    split_ifs with hsatisfied
    · refine (ensures_bind _ _ _).2 (((execute_within engine c parameters r).ensures_invariant
        (R := fun met' ↦ r.dependsOnRuleName = none ∨ met') (fun _ _ _ hinv _ ↦ hinv)
        (fun _ _ _ _ _ hinv hstep ↦ hinv.imp_right (gateInterface_step hstep))
        (hmet hsatisfied)).mono fun a met₃ _ ↦ ?_)
      exact ⟨fun h ↦ absurd h id, fun _ _ _ ↦ trivial⟩
    · exact ⟨fun h ↦ absurd h id, fun _ _ _ ↦ trivial⟩

end Gate

/-! ### Whole tasks -/

section Task

variable (c : ContextPtr) (parameters : List RuleParameter) (r : Rule)

theorem dependencySatisfied_within :
    Asks (Op.Within [] []) (dependencySatisfied c r) := by
  rw [dependencySatisfied]
  split
  · trivial
  · exact ⟨trivial, fun _ ↦ trivial⟩

theorem parallelTask_within : Asks (Op.Within r.nodes r.nodes) (parallelTask c parameters r) := by
  refine ⟨trivial, fun engine ↦ ?_⟩
  rcases engine with - | engine
  · trivial
  · refine ((dependencySatisfied_within c r).mono fun _ h ↦ h.mono (by simp) (by simp)).bind
      fun satisfied ↦ ?_
    split_ifs
    · exact (execute_within engine c parameters r).bind fun _ ↦ ⟨trivial, fun _ ↦ trivial⟩
    · exact ⟨trivial, fun _ ↦ trivial⟩

/-- A task takes one engine. -/
theorem parallelTask_asks_next : ∃ next, parallelTask c parameters r = .ask .acquireEngine next ∧
    ∀ engine, Asks (fun op ↦ op ≠ .acquireEngine) (next engine) := by
  refine ⟨_, rfl, fun engine ↦ ?_⟩
  rcases engine with - | engine
  · trivial
  · have hne : ∀ op : Op, op.OnBehalf engine c r.nodes → op ≠ .acquireEngine := by
      rintro _ hop rfl
      exact hop
    have hdependency : Asks (fun op ↦ op ≠ .acquireEngine) (dependencySatisfied c r) := by
      rw [dependencySatisfied]
      split
      · trivial
      · exact ⟨Op.noConfusion, fun _ ↦ trivial⟩
    refine hdependency.bind fun satisfied ↦ ?_
    split_ifs
    · exact ((execute_asks engine c parameters r).mono hne).bind
        fun _ ↦ ⟨Op.noConfusion, fun _ ↦ trivial⟩
    · exact ⟨Op.noConfusion, fun _ ↦ trivial⟩

variable {r}

theorem parallelTask_once (hkeys : ∀ q ∈ nodesOf r.childRules, q.resultKey ≠ r.resultKey) :
    Ensures (Interface.atMostOnce (Op.endsExecution r.resultKey)) (fun _ n ↦ n ≤ 1)
      (parallelTask c parameters r) 0 := by
  rw [parallelTask]
  refine ensures_uncounted_request (fun engine ↦ ?_) rfl
  rcases engine with - | engine
  · exact Nat.zero_le 1
  · refine ensures_uncounted_bind (dependencySatisfied_within c r) (by simp) fun satisfied ↦ ?_
    split_ifs
    · refine (ensures_bind _ _ _).2 ((execute_once engine c parameters hkeys).mono fun a n hn ↦ ?_)
      exact ensures_uncounted_request (fun _ ↦ hn) rfl
    · exact ensures_uncounted_request (fun _ ↦ Nat.zero_le 1) rfl

end Task

end FastRules
