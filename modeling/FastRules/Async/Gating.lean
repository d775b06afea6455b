import FastRules.Async.Executor
import FastRules.Async.Levels
import FastRules.Rule.Semantics

/-!
# What the asynchronous executor does not check

The levels put a rule after all rules of the name it depends on. Nothing in the executor looks at
their results: whatever has become of the dependency, the rule is executed. So gating holds of all
runs exactly if there is nothing to gate (`Rule.Evaluable`).
-/

namespace FastRules

open Program

/-! ### Rules that can be evaluated -/

mutual

/-- An execution of the rule can be a success: it can be answered from the cache, or the rule is
active and its children can succeed. -/
def Rule.canSucceed : Rule → Bool
  | ⟨fields, children⟩ =>
    Rule.isCaching ⟨fields, children⟩ || (fields.isActive && childrenCanSucceed children)

/-- All children can succeed. -/
def childrenCanSucceed : List Rule → Bool
  | [] => true
  | child :: children => child.canSucceed && childrenCanSucceed children

end

theorem Rule.canSucceed_eq (r : Rule) :
    r.canSucceed = (r.isCaching || (r.isActive && childrenCanSucceed r.childRules)) := by
  cases r
  rfl

theorem childrenCanSucceed_iff {children : List Rule} :
    childrenCanSucceed children = true ↔ ∀ child ∈ children, child.canSucceed = true := by
  induction children with
  | nil => simp [childrenCanSucceed]
  | cons child children ih => simp [childrenCanSucceed, ih]

/-- There is something to evaluate, and an execution can get to it. -/
def Rule.Evaluable (r : Rule) : Prop :=
  (isBlank r.expression = false ∨ r.action ≠ "") ∧ ∀ child ∈ r.childRules, child.canSucceed = true

/-! ### Which answers lead to which results -/

section Answers

variable (engine : EnginePtr) (c : ContextPtr) (parameters : List RuleParameter)
  {ok : (op : Op) → op.Ans → Prop}

/-- What is left after the cache lookup, when the ending of the `try` block is known. -/
theorem executeUncached_isSuccess {r : Rule} (hactive : r.isActive = true)
    {executeChildren : RuleProgram (List RuleResult)} {P : Prop}
    (h : Yields ok (fun x ↦ x.2 = .completed ↔ P)
      (r.attempt engine c parameters executeChildren)) :
    Yields ok (fun a ↦ a.isSuccess = true ↔ P)
      (r.executeUncached engine c parameters executeChildren) := by
  refine yields_bind_of fun executedAt ↦ ?_
  dsimp only
  rw [if_pos hactive]
  refine yields_bind_of fun startTime ↦ yields_bind.2 (h.mono fun x hx ↦ ?_)
  exact (settle_isSuccess c parameters r startTime ⟨rfl, rfl⟩ x.2).mono fun a ha ↦ ha.trans hx

/-- A child without success keeps the `try` block from being completed. -/
theorem attempt_of_failing_child (r : Rule) {executeChildren : RuleProgram (List RuleResult)}
    (h : Yields ok (fun results ↦ ∃ a ∈ results, a.isSuccess = false) executeChildren) :
    Yields ok (fun x ↦ x.2 = .completed ↔ False)
      (r.attempt engine c parameters executeChildren) := by
  refine yields_bind_of fun allowed ↦ ?_
  rcases allowed with e | -
  · exact yields_pure.2 (by simp)
  · dsimp only
    split
    · exact yields_pure.2 (by simp)
    · refine yields_bind.2 (h.mono fun results hfail ↦ yields_bind_of fun _ ↦ ?_)
      split
      · exact yields_pure.2 (by simp)
      · rename_i hnone
        obtain ⟨a, ha, hfalse⟩ := hfail
        exact absurd (List.find?_eq_none.1 hnone a ha) (by simp [hfalse])

theorem executeRules_of_failing_child {children : List Rule} {child : Rule}
    (hchild : child ∈ children)
    (h : Yields ok (fun a ↦ a.isSuccess = false) (child.execute engine c parameters)) :
    Yields ok (fun results ↦ ∃ a ∈ results, a.isSuccess = false)
      (executeRules engine c parameters children) := by
  induction children with
  | nil => exact absurd hchild List.not_mem_nil
  | cons q children ih =>
    rw [executeRules]
    rcases List.mem_cons.1 hchild with rfl | hchild
    · refine yields_bind.2 (h.mono fun a ha ↦ yields_bind_of fun results ↦ ?_)
      exact yields_pure.2 ⟨a, List.mem_cons_self, ha⟩
    · refine yields_bind_of fun a ↦ yields_bind.2 ((ih hchild).mono fun results hfail ↦ ?_)
      obtain ⟨b, hb, hfalse⟩ := hfail
      exact yields_pure.2 ⟨b, List.mem_cons_of_mem a hb, hfalse⟩

/-- An execution of a rule that cannot succeed is never a success. -/
theorem execute_fails (r : Rule) (h : r.canSucceed = false) :
    Yields ok (fun a ↦ a.isSuccess = false) (r.execute engine c parameters) := by
  induction r using Rule.induction_children with
  | h r ih =>
    rw [Rule.canSucceed_eq] at h
    obtain ⟨hcaching, hrest⟩ := Bool.or_eq_false_iff.1 h
    rw [Rule.execute_eq, Rule.executeWith, Rule.lookupCache, if_neg (by simp [hcaching])]
    rw [pure_bind]
    rcases hactive : r.isActive with - | -
    · refine yields_bind_of fun executedAt ↦ ?_
      dsimp only
      rw [if_neg (by simp [hactive])]
      exact yields_pure.2 (by simp [RuleResult.isSuccess])
    · have hchild : ∃ child ∈ r.childRules, child.canSucceed = false := by
        rw [hactive, Bool.true_and] at hrest
        by_contra hnone
        push Not at hnone
        exact absurd (childrenCanSucceed_iff.2 fun child hc ↦ by simpa using hnone child hc)
          (by simp [hrest])
      obtain ⟨child, hchild, hfails⟩ := hchild
      have hchildren := executeRules_of_failing_child engine c parameters hchild
        (ih child hchild hfails)
      exact (executeUncached_isSuccess engine c parameters hactive
        (attempt_of_failing_child engine c parameters r hchildren)).mono fun a ha ↦ by
          simpa using ha

end Answers

/-! ### Rules that are never evaluated -/

/-- The request begins to evaluate the expression or the action of the rule. -/
def Op.EvaluatesSource (r : Rule) : Op → Prop
  | beginExpression _ q _ => q = r ∧ isBlank r.expression = false
  | beginAction _ q _ => q = r
  | _ => False

section Never

variable {engine : EnginePtr} {c : ContextPtr} {r : Rule} {op : Op}

theorem Op.IsBookkeeping.not_evaluatesSource (h : op.IsBookkeeping c) : ¬op.EvaluatesSource r := by
  cases op <;> first | exact id | exact absurd h id

theorem Op.OnBehalf.not_evaluatesSource {rules : List Rule} (h : op.OnBehalf engine c rules)
    (hr : r ∉ rules) : ¬op.EvaluatesSource r := by
  cases op <;> first | exact id | skip
  · exact fun he ↦ hr (he.1 ▸ h.2)
  · exact fun he ↦ hr (he ▸ h.2)

theorem Op.RunsScript.not_evaluatesSource (h : op.RunsScript c) : ¬op.EvaluatesSource r := by
  cases op <;> first | exact id | exact absurd h id

/-- Without a source there is nothing to evaluate. -/
theorem evaluate_asks_of_no_source (parameters : List RuleParameter)
    (hexpr : isBlank r.expression = true) (haction : r.action = "") :
    Asks (fun op ↦ ¬op.EvaluatesSource r) (r.evaluate engine c parameters) := by
  have hcheck : Asks (fun op ↦ ¬op.EvaluatesSource r) (r.checkExpression engine c parameters) := by
    rw [Rule.checkExpression]
    split_ifs
    · refine ⟨fun he ↦ Bool.false_ne_true (he.2.symm.trans hexpr), fun a ↦ ?_⟩
      rcases a with e | - | script
      · trivial
      · trivial
      · exact (evaluateScript_asks engine c _ _ script).mono fun _ ↦
          Op.RunsScript.not_evaluatesSource
    · trivial
  refine hcheck.bind fun passed ↦ ?_
  rcases passed with e | passed
  · trivial
  · cases passed
    · trivial
    · rw [Rule.performAction, if_neg (by simp [haction])]
      trivial

theorem attempt_never_evaluates (parameters : List RuleParameter)
    {ok : (op : Op) → op.Ans → Prop} (h : ¬r.Evaluable) :
    Ensures (Interface.answers (fun op ↦ ¬op.EvaluatesSource r) ok) (fun _ _ ↦ True)
      (r.attempt engine c parameters (executeRules engine c parameters r.childRules)) () := by
  have hchildren : Asks (fun op ↦ ¬op.EvaluatesSource r)
      (executeRules engine c parameters r.childRules) :=
    (executeRules_asks engine c parameters r.childRules).mono
      fun op hop ↦ hop.not_evaluatesSource r.not_mem_nodesOf_childRules
  -- if a child cannot succeed, the block ends before the evaluation
  have hresults : Ensures (Interface.answers (fun op ↦ ¬op.EvaluatesSource r) ok)
      (fun results _ ↦ (∃ child ∈ r.childRules, child.canSucceed = false) →
        ∃ a ∈ results, RuleResult.isSuccess a = false)
      (executeRules engine c parameters r.childRules) () := by
    by_cases hfail : ∃ child ∈ r.childRules, child.canSucceed = false
    · obtain ⟨child, hchild, hfails⟩ := hfail
      exact ((executeRules_of_failing_child engine c parameters hchild
        (execute_fails engine c parameters child hfails)).ensures hchildren (fun _ _ hop ↦ hop)
          (fun _ _ _ _ _ ha ↦ ha) ()).mono fun _ _ ha _ ↦ ha
    · exact (hchildren.ensures_true (fun _ _ hop ↦ hop) ()).mono fun _ _ _ hex ↦ absurd hex hfail
  have hlimit : Asks (fun op ↦ ¬op.EvaluatesSource r) r.checkRateLimit :=
    (checkRateLimit_asks c r).mono fun _ ↦ Op.IsBookkeeping.not_evaluatesSource
  refine (ensures_bind _ _ _).2 ((hlimit.ensures_true (fun _ _ hop ↦ hop) ()).mono
    fun allowed _ _ ↦ ?_)
  rcases allowed with e | -
  · trivial
  · dsimp only
    split
    · trivial
    · refine (ensures_bind _ _ _).2 (hresults.mono fun results _ hres ↦ ?_)
      have hpublish : Asks (fun op ↦ ¬op.EvaluatesSource r)
          (Rule.publishChildren c r.childRules results) :=
        (publishChildren_asks engine c [] r.childRules results).mono
          fun _ hop ↦ hop.not_evaluatesSource List.not_mem_nil
      refine (ensures_bind _ _ _).2 ((hpublish.ensures_true (fun _ _ hop ↦ hop) ()).mono
        fun _ _ _ ↦ ?_)
      split
      · trivial
      · rename_i hnone
        have hall : ∀ child ∈ r.childRules, child.canSucceed = true := fun child hchild ↦ by
          by_contra hfails
          obtain ⟨a, ha, hfalse⟩ := hres ⟨child, hchild, Bool.eq_false_of_not_eq_true hfails⟩
          exact absurd (List.find?_eq_none.1 hnone a ha) (by simp [hfalse])
        have hsource : isBlank r.expression = true ∧ r.action = "" := by
          by_contra hsome
          exact h ⟨by simpa [imp_iff_not_or, or_comm] using hsome, hall⟩
        exact (ensures_bind _ _ _).2 (((evaluate_asks_of_no_source parameters hsource.1
          hsource.2).ensures_true (fun _ _ hop ↦ hop) ()).mono fun _ _ _ ↦ trivial)

/-- A rule that is not evaluable is not evaluated, whatever its environment answers. -/
theorem execute_never_evaluates (parameters : List RuleParameter)
    (ok : (op : Op) → op.Ans → Prop) (h : ¬r.Evaluable) :
    Ensures (Interface.answers (fun op ↦ ¬op.EvaluatesSource r) ok) (fun _ _ ↦ True)
      (r.execute engine c parameters) () := by
  have hlookup : Asks (fun op ↦ ¬op.EvaluatesSource r) (r.lookupCache parameters) :=
    (lookupCache_asks c parameters r).mono fun _ ↦ Op.IsBookkeeping.not_evaluatesSource
  rw [Rule.execute_eq]
  refine (ensures_bind _ _ _).2 ((hlookup.ensures_true (fun _ _ hop ↦ hop) ()).mono
    fun cached _ _ ↦ ?_)
  rcases cached with - | result
  · refine ⟨id, fun executedAt _ _ ↦ ?_⟩
    dsimp only
    split_ifs
    · refine (ensures_bind _ _ _).2 ⟨id, fun startTime _ _ ↦ ?_⟩
      refine (ensures_bind (r.attempt engine c parameters _) _ _).2
        ((attempt_never_evaluates parameters h).mono fun x _ _ ↦ ?_)
      exact ((settle_asks engine c parameters [] r startTime _ x.2).mono
        fun _ hop ↦ hop.not_evaluatesSource List.not_mem_nil).ensures_true
          (fun _ _ hop ↦ hop) ()
    · trivial
  · exact ⟨id, fun _ _ _ ↦ trivial⟩

end Never

/-! ### Denied and favoured executions -/

/-- Nothing is cached and the limiters let nothing through. -/
def Denying : (op : Op) → op.Ans → Prop
  | .lookupCache _ _, a => a = none
  | .isAllowed _ _, a => a = false
  | _, _ => True

/-- What is cached is a success, nothing is limited, late or wrong. -/
def Favouring : (op : Op) → op.Ans → Prop
  | .lookupCache _ _, a => ∃ result, a = some result ∧ result.isSuccess = true
  | .isAllowed _ _, a => a = true
  | .beginExpression _ _ _, a => a = .ok none ∨ a = .ok (some (.ret (.ok true)))
  | .beginAction _ _ _, a => a = .ok none ∨ a = .ok (some (.ret (.ok true)))
  | .deadlinePassed _ _, a => a = false
  | _, _ => True

section Execute

variable (engine : EnginePtr) (c : ContextPtr)

theorem execute_denied {r : Rule} (hactive : r.isActive = true) (parameters : List RuleParameter) :
    Yields Denying (fun a ↦ a.isSuccess = false) (r.execute engine c parameters) := by
  have hlookup : Yields Denying (fun cached ↦ cached = none) (r.lookupCache parameters) := by
    rw [Rule.lookupCache]
    split_ifs
    · exact ⟨trivial, fun a _ ha ↦ ha⟩
    · exact yields_pure.2 rfl
  have hattempt : Yields Denying (fun x ↦ x.2 = .completed ↔ False)
      (r.attempt engine c parameters (executeRules engine c parameters r.childRules)) := by
    refine yields_bind.2 (Yields.mono (P := fun allowed ↦ ∃ e, allowed = .error e) ?_ ?_)
    · rintro allowed ⟨e, rfl⟩
      exact yields_pure.2 (by simp)
    · refine yields_perform_bind.2 fun byId hid ↦ ?_
      obtain rfl : byId = false := hid
      exact yields_pure.2 ⟨_, rfl⟩
  rw [Rule.execute_eq, Rule.executeWith]
  refine yields_bind.2 (hlookup.mono fun cached hnone ↦ ?_)
  obtain rfl := hnone
  exact (executeUncached_isSuccess engine c parameters hactive hattempt).mono fun a ha ↦ by
    simpa using ha

theorem evaluateScript_favoured (timeout : Option Int) (label : String) :
    Yields Favouring (fun a ↦ a = .ok true)
      (evaluateScript engine c timeout label (.ret (.ok true))) := by
  have hrun : runScript c (.ret (.ok true)) = return (.ok true, []) := rfl
  rw [evaluateScript, hrun, pure_bind]
  refine yields_bind_of fun _ ↦ ?_
  dsimp only
  split
  · exact yields_pure.2 rfl
  · refine yields_perform_bind.2 fun late hlate ↦ ?_
    obtain rfl : late = false := hlate
    exact yields_pure.2 rfl

theorem checkExpression_favoured (r : Rule) (parameters : List RuleParameter) :
    Yields Favouring (fun a ↦ a = .ok true) (r.checkExpression engine c parameters) := by
  rw [Rule.checkExpression]
  split_ifs
  · refine yields_perform_bind.2 fun a ha ↦ ?_
    rcases ha with rfl | rfl
    · exact yields_pure.2 rfl
    · exact evaluateScript_favoured engine c _ _
  · exact yields_pure.2 rfl

theorem performAction_favoured (r : Rule) (parameters : List RuleParameter) :
    Yields Favouring (fun a ↦ a = .ok true) (r.performAction engine c parameters) := by
  rw [Rule.performAction]
  split_ifs
  · refine yields_perform_bind.2 fun a ha ↦ ?_
    rcases ha with rfl | rfl
    · exact yields_pure.2 rfl
    · exact evaluateScript_favoured engine c _ _
  · exact yields_pure.2 rfl

theorem evaluate_favoured (r : Rule) (parameters : List RuleParameter) :
    Yields Favouring (fun ending ↦ ending = .completed) (r.evaluate engine c parameters) := by
  refine yields_bind.2 ((checkExpression_favoured engine c r parameters).mono fun a ha ↦ ?_)
  subst ha
  refine yields_bind.2 ((performAction_favoured engine c r parameters).mono fun a ha ↦ ?_)
  subst ha
  exact yields_pure.2 rfl

theorem checkRateLimit_favoured (r : Rule) :
    Yields Favouring (fun a ↦ a = .ok ()) r.checkRateLimit := by
  refine yields_perform_bind.2 fun byId hid ↦ ?_
  obtain rfl : byId = true := hid
  refine yields_bind.2 (Yields.mono (P := fun allowed ↦ allowed = true) ?_ ?_)
  · rintro allowed rfl
    exact yields_pure.2 rfl
  · rw [Rule.allowedByName]
    split_ifs
    · exact ⟨trivial, fun allowed _ h ↦ h⟩
    · exact yields_pure.2 rfl

theorem executeRules_favoured {children : List Rule}
    (h : ∀ child ∈ children,
      Yields Favouring (fun a ↦ a.isSuccess = true) (child.execute engine c [])) :
    Yields Favouring (fun results ↦ ∀ a ∈ results, RuleResult.isSuccess a = true)
      (executeRules engine c [] children) := by
  induction children with
  | nil => exact yields_pure.2 (by simp)
  | cons child children ih =>
    rw [executeRules]
    refine yields_bind.2 ((h child List.mem_cons_self).mono fun a ha ↦ ?_)
    refine yields_bind.2 ((ih fun q hq ↦ h q (List.mem_cons_of_mem child hq)).mono fun results hr ↦
      ?_)
    exact yields_pure.2 (List.forall_mem_cons.2 ⟨ha, hr⟩)

/-- The `try` block up to the evaluation of the rule. -/
theorem attempt_favoured (r : Rule) {executeChildren : RuleProgram (List RuleResult)}
    (h : Yields Favouring (fun results ↦ ∀ a ∈ results, a.isSuccess = true) executeChildren) :
    Yields Favouring (fun x ↦ x.2 = .completed ↔ True) (r.attempt engine c [] executeChildren) := by
  refine yields_bind.2 ((checkRateLimit_favoured r).mono fun allowed hallowed ↦ ?_)
  subst hallowed
  refine yields_bind.2 (h.mono fun results hr ↦ yields_bind_of fun _ ↦ ?_)
  split
  · rename_i a hfind
    have := List.find?_some hfind
    simp [hr a (List.mem_of_find?_eq_some hfind)] at this
  · refine yields_bind.2 ((evaluate_favoured engine c r []).mono fun ending hending ↦ ?_)
    exact yields_pure.2 (by simp [hending])

/-- A rule that can succeed does. -/
theorem execute_favoured (r : Rule) (h : r.canSucceed = true) :
    Yields Favouring (fun a ↦ a.isSuccess = true) (r.execute engine c []) := by
  induction r using Rule.induction_children with
  | h r ih =>
    rw [Rule.execute_eq, Rule.executeWith, Rule.lookupCache]
    split_ifs with hcaching
    · refine yields_perform_bind.2 fun cached hcached ↦ ?_
      obtain ⟨result, rfl, hresult⟩ := hcached
      exact yields_bind_of fun _ ↦ yields_pure.2 hresult
    · rw [Rule.canSucceed_eq, Bool.eq_false_of_not_eq_true hcaching, Bool.false_or,
        Bool.and_eq_true] at h
      obtain ⟨hactive, hchildren⟩ := h
      rw [pure_bind]
      refine (executeUncached_isSuccess engine c [] hactive (attempt_favoured engine c r
        (executeRules_favoured engine c fun child hc ↦
          ih child hc (childrenCanSucceed_iff.1 hchildren child hc)))).mono fun a ha ↦ ?_
      simpa using ha

end Execute

/-! ### Gating -/

/-- `std::isspace`-only expressions have no chunk; nothing else is asked of the environment. -/
def SourceAnswers (answers : Answers) : Prop :=
  ∀ engine r parameters script, answers (.beginExpression engine r parameters) (.ok (some script)) →
    isBlank r.expression = false

namespace AsyncCall

variable (x : AsyncCall)

/-- A task is about to have the expression or the action of a rule evaluated. -/
inductive Evaluating (c : Config) (i : ℕ) (r : Rule) : Prop
  | expression {engine : EnginePtr} {parameters : List RuleParameter} {script : LuaScript}
      {next : Except Exn (Option LuaScript) → RuleProgram RuleResult}
      (hthread : c.thread i = .ask (.beginExpression engine r parameters) next)
      (hchunk : x.answers (.beginExpression engine r parameters) (.ok (some script)))
  | action {engine : EnginePtr} {parameters : List RuleParameter} {script : LuaScript}
      {next : Except Exn (Option LuaScript) → RuleProgram RuleResult}
      (hthread : c.thread i = .ask (.beginAction engine r parameters) next)
      (hchunk : x.answers (.beginAction engine r parameters) (.ok (some script)))

/-- A rule with a dependency is evaluated only when a rule of that name has been executed with
success. -/
def Gated : Prop :=
  ∀ c, x.Reaches c → ∀ i t n, x.tasks[i]? = some t → t.rule.dependsOnRuleName = some n →
    x.Evaluating c i t.rule →
      ∃ j u result, x.tasks[j]? = some u ∧ u.rule.name = n ∧ c.thread j = .ret result ∧
        result.isSuccess = true

/-- What the tasks with a dependency never request, if their rules are not evaluable. -/
def NeverEvaluates (i : ℕ) (op : Op) : Prop :=
  ∀ t n, x.tasks[i]? = some t → t.rule.dependsOnRuleName = some n → ¬op.EvaluatesSource t.rule

variable {x}

theorem task_never_evaluates
    (h : ∀ t ∈ x.tasks, t.rule.dependsOnRuleName.isSome = true → ¬t.rule.Evaluable) (i : ℕ) :
    (x.task i).Ensures (Interface.answers (x.NeverEvaluates i) fun _ _ ↦ True) (fun _ _ ↦ True)
      () := by
  rw [task]
  split
  · rename_i t ht
    refine ⟨fun _ _ _ _ ↦ id, fun engine _ _ ↦ ?_⟩
    rcases engine with - | engine
    · trivial
    · refine (ensures_bind (t.rule.execute engine i x.parameters) _ _).2 ?_
      have hexecute : (t.rule.execute engine i x.parameters).Ensures
          (Interface.answers (x.NeverEvaluates i) fun _ _ ↦ True) (fun _ _ ↦ True) () := by
        by_cases hdep : t.rule.dependsOnRuleName.isSome = true
        · refine (execute_never_evaluates x.parameters (fun _ _ ↦ True)
            (h t (List.mem_of_getElem? ht) hdep)).of_view id ?_ fun _ _ _ _ _ _ ↦ trivial
          intro op _ hop u n hu _
          obtain rfl : t = u := Option.some.inj (ht.symm.trans hu)
          exact hop
        · refine (execute_asks engine i x.parameters t.rule).ensures_true
            (fun op _ _ u n hu hn ↦ ?_) ()
          obtain rfl : t = u := Option.some.inj (ht.symm.trans hu)
          exact absurd (by rw [hn]; rfl) hdep
      exact hexecute.mono fun _ _ _ ↦ ⟨fun _ _ _ _ ↦ id, fun _ _ _ ↦ trivial⟩
  · trivial

/-- Where there is nothing to gate, gating holds. -/
theorem gated_of_not_evaluable (hanswers : SourceAnswers x.answers)
    (h : ∀ t ∈ x.tasks, t.rule.dependsOnRuleName.isSome = true → ¬t.rule.Evaluable) : x.Gated := by
  intro c hreach i t n ht hn hevaluating
  have hcompatible : Interleaving.Compatible x.step x.Supervise (fun _ ↦ True) (fun _ _ ↦ ())
      (fun i ↦ Interface.answers (x.NeverEvaluates i) fun _ _ ↦ True)
      (fun _ (_ : RuleResult) _ ↦ True) :=
    ⟨fun _ _ _ _ _ _ _ _ ↦ ⟨trivial, trivial⟩, fun _ _ _ _ _ _ _ _ _ _ ↦ rfl,
      fun _ _ _ _ _ _ ↦ ⟨trivial, fun _ ↦ rfl⟩⟩
  have hens := (hcompatible.ensures ⟨trivial, task_never_evaluates h⟩ hreach).2 i
  rcases hevaluating with ⟨hthread, hchunk⟩ | ⟨hthread, -⟩
  · rw [hthread] at hens
    exact absurd ⟨rfl, hanswers _ _ _ _ hchunk⟩ (hens.1 t n ht hn)
  · rw [hthread] at hens
    exact absurd rfl (hens.1 t n ht hn)

end AsyncCall

/-! ### A run that evaluates a rule whose dependency has failed -/

/-- The environment that can answer anything, except that a blank expression has no chunk. -/
def anyAnswer : Answers
  | .beginExpression _ r _, a => isBlank r.expression = true → ∀ script, a ≠ .ok (some script)
  | _, _ => True

theorem anyAnswer_source : SourceAnswers anyAnswer := fun _ r _ script h ↦ by
  by_contra hblank
  exact h (Bool.eq_true_of_not_eq_false hblank) script rfl

namespace AsyncCall

variable {x : AsyncCall} {engine : EnginePtr} {i : ℕ} {rules : List Rule}

/-- Only the contexts of the tasks differ. -/
def SameButLocals (s s' : AsyncState) : Prop :=
  ∃ localContexts, s' = { s with localContexts }

/-- A step on behalf of a rule changes only contexts. -/
theorem step_sameButLocals {op : Op} (hop : op.OnBehalf engine i rules) {s s' : AsyncState}
    {a : op.Ans} (h : x.step i op s a s') : SameButLocals s s' := by
  cases op
  case getResult => exact ⟨_, h.2⟩
  case setResult => exact ⟨_, h⟩
  case setLastError => exact ⟨_, h⟩
  case acquireEngine => exact absurd hop id
  case releaseEngine => exact absurd hop id
  all_goals exact ⟨_, h.2⟩

/-- If the environment can give answers within `ok`, a program can run on them. -/
theorem steps_of_yields {ok : (op : Op) → op.Ans → Prop} {α : Type} {P : α → Prop}
    {p : RuleProgram α} (h : Yields ok P p) (hp : Asks (Op.OnBehalf engine i rules) p)
    (hok : ∀ (op : Op) s, op.OnBehalf engine i rules → ∃ a s', x.step i op s a s' ∧ ok op a)
    (s : AsyncState) :
    ∃ a s', Steps (x.step i) (p, s) (.ret a, s') ∧ P a ∧ SameButLocals s s' := by
  let I : Interface Op Op.Ans AsyncState :=
    { pre := fun op _ ↦ op.OnBehalf engine i rules
      step := fun op s a s' ↦ x.step i op s a s' ∧ ok op a }
  have hvalue : Ensures I (fun a _ ↦ P a) p s :=
    h.ensures (I := I) hp (fun _ _ hop ↦ hop) (fun _ _ _ _ _ hs ↦ hs.2) s
  have hframe : Ensures I (fun _ s' ↦ SameButLocals s s') p s :=
    hp.ensures_rel (I := I) (fun s ↦ ⟨_, rfl⟩) (fun _ _ _ ⟨_, h₁₂⟩ ⟨l, h₂₃⟩ ↦ ⟨l, by rw [h₂₃, h₁₂]⟩)
      (fun _ _ hop ↦ hop) (fun _ _ _ _ hop hs ↦ step_sameButLocals hop hs.1) s
  obtain ⟨a, s', hsteps, ha⟩ := (hvalue.and hframe).exists_steps fun op s hop ↦ hok op s hop
  exact ⟨a, s', hsteps.mono fun _ _ _ _ hs ↦ hs.1, ha⟩

theorem favouring_answerable (hx : x.answers = anyAnswer) (op : Op) (s : AsyncState)
    (hop : op.OnBehalf engine i rules) : ∃ a s', x.step i op s a s' ∧ Favouring op a := by
  cases op
  case getResult => exact ⟨_, s, ⟨rfl, rfl⟩, trivial⟩
  case setResult => exact ⟨(), _, rfl, trivial⟩
  case setLastError => exact ⟨(), _, rfl, trivial⟩
  case acquireEngine => exact absurd hop id
  case releaseEngine => exact absurd hop id
  case lookupCache =>
    exact ⟨some { success := true }, s, ⟨by rw [hx]; trivial, rfl⟩, _, rfl, rfl⟩
  case isAllowed => exact ⟨true, s, ⟨by rw [hx]; trivial, rfl⟩, rfl⟩
  case beginExpression =>
    exact ⟨.ok none, s, ⟨by rw [hx]; exact fun _ _ h ↦ (by cases h), rfl⟩, .inl rfl⟩
  case beginAction => exact ⟨.ok none, s, ⟨by rw [hx]; trivial, rfl⟩, .inl rfl⟩
  case deadlinePassed => exact ⟨false, s, ⟨by rw [hx]; trivial, rfl⟩, rfl⟩
  case now => exact ⟨(0 : Int), s, ⟨by rw [hx]; trivial, rfl⟩, trivial⟩
  all_goals exact ⟨(), s, ⟨by rw [hx]; trivial, rfl⟩, trivial⟩

theorem denying_answerable (hx : x.answers = anyAnswer) (op : Op) (s : AsyncState)
    (hop : op.OnBehalf engine i rules) : ∃ a s', x.step i op s a s' ∧ Denying op a := by
  obtain ⟨a, s', hstep, -⟩ := favouring_answerable hx op s hop
  cases op
  case lookupCache => exact ⟨none, s, ⟨by rw [hx]; trivial, rfl⟩, rfl⟩
  case isAllowed => exact ⟨false, s, ⟨by rw [hx]; trivial, rfl⟩, rfl⟩
  all_goals exact ⟨a, s', hstep, trivial⟩

/-- With a full pool a task of a level that has been entered gets an engine. -/
theorem acquire_step {t : AsyncTask} (ht : x.tasks[i]? = some t) {s : AsyncState}
    (hlevel : t.level < s.level) (hpool : s.pool.length = x.poolSize) :
    ∃ engine pool, s.pool = engine :: pool ∧
      x.step i .acquireEngine s (some engine) { s with pool } := by
  obtain ⟨engine, pool, hcons⟩ : ∃ engine pool, s.pool = engine :: pool := by
    refine List.exists_cons_of_ne_nil fun hnil ↦ ?_
    rw [hnil, poolSize] at hpool
    exact absurd hpool.symm (Nat.ne_of_gt (lt_max_of_lt_right Nat.two_pos))
  refine ⟨engine, pool, hcons, by simpa [ht] using hlevel, ?_, by rw [hcons]; rfl,
    by rw [hcons]; rfl⟩
  rw [hpool, Nat.sub_self, workers]
  exact Nat.lt_of_lt_of_le Nat.one_pos (le_max_right _ _)

/-- A task can run to a failure. -/
theorem denied_steps (hx : x.answers = anyAnswer) {t : AsyncTask} (ht : x.tasks[i]? = some t)
    (hactive : t.rule.isActive = true) {s : AsyncState} (hlevel : t.level < s.level)
    (hpool : s.pool.length = x.poolSize) :
    ∃ result s', Steps (x.step i) (x.task i, s) (.ret result, s') ∧
      result.isSuccess = false ∧ SameButLocals s s' := by
  obtain ⟨engine, pool, hcons, hacquire⟩ := acquire_step ht hlevel hpool
  obtain ⟨result, s₂, hsteps, hfalse, l, hs₂⟩ := steps_of_yields
    (execute_denied engine i hactive x.parameters) (execute_asks engine i x.parameters t.rule)
    (fun op s hop ↦ denying_answerable hx op s hop) { s with pool }
  have htask : x.task i = asyncTask i x.parameters t.rule := by
    rw [task, ht]
  refine ⟨result, { s₂ with pool := engine :: s₂.pool }, ?_, hfalse, l, ?_⟩
  · rw [htask]
    refine .head (Step.ask hacquire) ((hsteps.bind fun result ↦ do
      request (.releaseEngine engine)
      return result).tail ?_)
    exact Step.ask (a := ()) rfl
  · rw [hs₂, hcons]

/-- The program is about to evaluate the source of the rule. -/
def AtSource (r : Rule) {α : Type} (p : RuleProgram α) : Prop :=
  (∃ engine parameters next, p = .ask (.beginExpression engine r parameters) next ∧
      isBlank r.expression = false) ∨
    ∃ engine parameters next, p = .ask (.beginAction engine r parameters) next

theorem AtSource.bind {r : Rule} {α β : Type} {p : RuleProgram α} (h : AtSource r p)
    (f : α → RuleProgram β) : AtSource r (p >>= f) := by
  rcases h with ⟨engine, parameters, next, rfl, hexpr⟩ | ⟨engine, parameters, next, rfl⟩
  · exact .inl ⟨engine, parameters, _, rfl, hexpr⟩
  · exact .inr ⟨engine, parameters, _, rfl⟩

theorem AtSource.ne_ret {r : Rule} {α : Type} {p : RuleProgram α} (h : AtSource r p) {a : α} :
    p ≠ .ret a := by
  rcases h with ⟨_, _, _, rfl, -⟩ | ⟨_, _, _, rfl⟩ <;> exact fun he ↦ by cases he

theorem AtSource.evaluating (hx : x.answers = anyAnswer) {r : Rule} {p : RuleProgram RuleResult}
    (h : AtSource r p) {c : Config} (hthread : c.thread i = p) : x.Evaluating c i r := by
  rcases h with ⟨engine, parameters, next, rfl, hexpr⟩ | ⟨engine, parameters, next, rfl⟩
  · have hchunk : x.answers (.beginExpression engine r parameters)
        (.ok (some (.ret (.ok true)))) := by
      rw [hx]
      exact fun hblank ↦ absurd (hblank.symm.trans hexpr) (by decide)
    exact .expression hthread hchunk
  · have hchunk : x.answers (.beginAction engine r parameters) (.ok (some (.ret (.ok true)))) := by
      rw [hx]
      trivial
    exact .action hthread hchunk

/-- A program that gets there first, or gets there after its first part. -/
theorem atSource_bind_steps {r : Rule} {α β : Type} {p : RuleProgram α} {f : α → RuleProgram β}
    {s : AsyncState}
    (h : (∃ p' s', Steps (x.step i) (p, s) (p', s') ∧ AtSource r p') ∨
      ∃ a s₁, Steps (x.step i) (p, s) (.ret a, s₁) ∧
        ∃ p' s', Steps (x.step i) (f a, s₁) (p', s') ∧ AtSource r p') :
    ∃ p' s', Steps (x.step i) (p >>= f, s) (p', s') ∧ AtSource r p' := by
  rcases h with ⟨p', s', hsteps, hat⟩ | ⟨a, s₁, hsteps, p', s', hsteps', hat⟩
  · exact ⟨_, s', hsteps.bind f, hat.bind f⟩
  · exact ⟨p', s', (hsteps.bind f).trans hsteps', hat⟩

theorem evaluate_steps_atSource (hx : x.answers = anyAnswer) {r : Rule}
    (hsource : isBlank r.expression = false ∨ r.action ≠ "") (s : AsyncState) :
    ∃ p' s', Steps (x.step i) (r.evaluate engine i [], s) (p', s') ∧ AtSource r p' := by
  by_cases hexpr : isBlank r.expression = false
  · have hne : r.expression ≠ "" := fun he ↦ by
      rw [he] at hexpr
      exact absurd hexpr (by decide)
    refine atSource_bind_steps (.inl ⟨_, s, .refl, ?_⟩)
    rw [Rule.checkExpression, if_pos hne]
    exact .inl ⟨engine, [], _, rfl, hexpr⟩
  · obtain ⟨passed, s₁, hsteps, rfl, -⟩ := steps_of_yields (checkExpression_favoured engine i r [])
      ((checkExpression_asks engine i [] r).mono
        fun _ h ↦ h.onBehalf (List.mem_singleton_self r))
      (fun op s hop ↦ favouring_answerable hx op s hop) s
    refine atSource_bind_steps (.inr ⟨_, s₁, hsteps, ?_⟩)
    refine atSource_bind_steps (.inl ⟨_, s₁, .refl, ?_⟩)
    rw [Rule.performAction, if_pos (hsource.resolve_left hexpr)]
    exact .inr ⟨engine, [], _, rfl⟩

variable (engine i) in
/-- An evaluable rule can be brought to its evaluation. -/
theorem execute_steps_atSource (hx : x.answers = anyAnswer) {r : Rule} (hactive : r.isActive = true)
    (heval : r.Evaluable) (s : AsyncState) :
    ∃ p' s', Steps (x.step i) (r.execute engine i [], s) (p', s') ∧ AtSource r p' := by
  have hok := fun {rules : List Rule} (op : Op) s (hop : op.OnBehalf engine i rules) ↦
    favouring_answerable hx op s hop
  -- the rule itself is not answered from its cache
  have hlookup : ∃ s₁, Steps (x.step i) (r.lookupCache [], s) (.ret none, s₁) := by
    rw [Rule.lookupCache]
    split_ifs
    · exact ⟨s, .single (Step.ask ⟨by rw [hx]; trivial, rfl⟩)⟩
    · exact ⟨s, .refl⟩
  obtain ⟨s₁, hlookup⟩ := hlookup
  rw [Rule.execute_eq, Rule.executeWith]
  refine atSource_bind_steps (.inr ⟨none, s₁, hlookup, ?_⟩)
  rw [Rule.executeUncached]
  refine atSource_bind_steps
    (.inr ⟨(0 : Int), s₁, .single (Step.ask ⟨by rw [hx]; trivial, rfl⟩), ?_⟩)
  dsimp only
  rw [if_pos hactive]
  refine atSource_bind_steps
    (.inr ⟨(0 : Int), s₁, .single (Step.ask ⟨by rw [hx]; trivial, rfl⟩), ?_⟩)
  refine atSource_bind_steps (.inl ?_)
  -- the limiter lets it pass and its children succeed
  have hasks : Asks (Op.OnBehalf engine i []) r.checkRateLimit :=
    (checkRateLimit_asks i r).mono fun _ ↦ Op.IsBookkeeping.onBehalf
  obtain ⟨allowed, s₂, hlimit, rfl, -⟩ := steps_of_yields (checkRateLimit_favoured r) hasks hok s₁
  refine atSource_bind_steps (.inr ⟨_, s₂, hlimit, ?_⟩)
  obtain ⟨results, s₃, hchildren, hsuccess, -⟩ := steps_of_yields
    (executeRules_favoured engine i fun child hc ↦ execute_favoured engine i child
      (heval.2 child hc))
    (executeRules_asks engine i [] r.childRules) hok s₂
  refine atSource_bind_steps (.inr ⟨results, s₃, hchildren, ?_⟩)
  obtain ⟨_, s₄, hpublish, -, -⟩ := steps_of_yields
    (yields_true (Rule.publishChildren i r.childRules results))
    (publishChildren_asks engine i [] r.childRules results) hok s₃
  refine atSource_bind_steps (.inr ⟨_, s₄, hpublish, ?_⟩)
  have hnone : results.find? (fun a ↦ !a.isSuccess) = none :=
    List.find?_eq_none.2 fun a ha ↦ by simp [hsuccess a ha]
  rw [hnone]
  refine atSource_bind_steps (.inl ?_)
  exact evaluate_steps_atSource hx heval.1 s₄

/-- `m` tasks have failed and are collected, `ℓ` levels have been entered, nothing else has
happened. -/
structure Before (x : AsyncCall) (m ℓ : ℕ) (c : Config) : Prop where
  reaches : x.Reaches c
  level : c.state.level = ℓ
  collected : c.state.collected = m
  pool : c.state.pool.length = x.poolSize
  failed : ∀ j result, j < m → c.thread j = .ret result → result.isSuccess = false
  fresh : ∀ j, m ≤ j → c.thread j = x.task j

theorem start_before : x.Before 0 0 x.start where
  reaches := .refl
  level := rfl
  collected := rfl
  pool := by simp [start]
  failed _ _ h := absurd h (Nat.not_lt_zero _)
  fresh _ _ := rfl

/-- The next level can be entered when its turn has come. -/
theorem Before.enter {m ℓ : ℕ} {c : Config} (h : x.Before m ℓ c) (hℓ : ℓ < x.levels.length)
    (hdone : ∀ j t, x.tasks[j]? = some t → t.level < ℓ → j < m) : ∃ c', x.Before m (ℓ + 1) c' := by
  have hlevel : x.levels[c.state.level]? = some x.levels[ℓ] := by
    rw [h.level, List.getElem?_eq_getElem hℓ]
  have hstep : x.Supervise c.thread c.state (x.startLevel c.state x.levels[ℓ]) :=
    .startLevel hlevel fun j t ht hlt ↦ by
      rw [h.collected]
      exact hdone j t ht (h.level ▸ hlt)
  exact ⟨_, h.reaches.tail (.other hstep), congrArg (· + 1) h.level, h.collected, h.pool, h.failed,
    h.fresh⟩

/-- Levels without tasks, and the one of the next task, can be entered. -/
theorem Before.enter_to {m ℓ : ℕ} {c : Config} (h : x.Before m ℓ c) {ℓ' : ℕ} (hle : ℓ ≤ ℓ')
    (hℓ' : ℓ' ≤ x.levels.length) (hlater : ∀ j t, m ≤ j → x.tasks[j]? = some t → ℓ' ≤ t.level + 1) :
    ∃ c', x.Before m ℓ' c' := by
  induction ℓ', hle using Nat.le_induction with
  | base => exact ⟨c, h⟩
  | succ k hk ih =>
    obtain ⟨c', h'⟩ := ih (by omega) fun j t hj ht ↦ (Nat.le_succ k).trans (hlater j t hj ht)
    refine h'.enter (by omega) fun j t ht hlt ↦ ?_
    by_contra hj
    have := hlater j t (by omega) ht
    omega

/-- The next task can fail and be collected. -/
theorem Before.fail {m ℓ : ℕ} {c : Config} (h : x.Before m ℓ c) (hx : x.answers = anyAnswer)
    {t : AsyncTask} (ht : x.tasks[m]? = some t) (hlevel : t.level < ℓ) :
    ∃ c', x.Before (m + 1) ℓ c' := by
  have hactive : t.rule.isActive = true := by
    obtain ⟨_, _, _, hactive⟩ := mem_asyncTasks.1 (List.mem_of_getElem? ht)
    exact hactive
  obtain ⟨result, s', hsteps, hfalse, l, rfl⟩ := denied_steps hx ht hactive
    (s := c.state) (h.level ▸ hlevel) h.pool
  have hfresh := h.fresh m (Nat.le_refl m)
  have hran := h.reaches.trans (Interleaving.Reaches.of_steps (hfresh ▸ hsteps))
  -- its result can be collected at once, no other task of the level being asked for
  have hcollect : x.Supervise (Function.update c.thread m (.ret result))
      { c.state with localContexts := l }
      (({ c.state with localContexts := l } : AsyncState).collect result) :=
    .collect (by rw [← ht, ← h.collected]) (h.level ▸ hlevel)
      (by rw [h.collected, Function.update_self])
  refine ⟨_, hran.tail (.other hcollect), h.level, congrArg (· + 1) h.collected, h.pool, ?_, ?_⟩
  · intro j result' hj hthread
    change Function.update c.thread m (.ret result) j = .ret result' at hthread
    rcases eq_or_ne j m with rfl | hne
    · rw [Function.update_self] at hthread
      exact (Program.ret.inj hthread) ▸ hfalse
    · rw [Function.update_of_ne hne] at hthread
      exact h.failed j result' (by omega) hthread
  · intro j hj
    show Function.update c.thread m (.ret result) j = _
    rw [Function.update_of_ne (by omega)]
    exact h.fresh j (by omega)

/-- All tasks of the levels before `k` can fail. -/
theorem exists_before (hx : x.answers = anyAnswer) (k m : ℕ) (hm : m ≤ x.tasks.length)
    (hlower : ∀ j t, j < m → x.tasks[j]? = some t → t.level < k) :
    ∃ ℓ c, ℓ ≤ k ∧ x.Before m ℓ c ∧ ∀ j t, m ≤ j → x.tasks[j]? = some t → ℓ ≤ t.level + 1 := by
  induction m with
  | zero => exact ⟨0, x.start, Nat.zero_le k, start_before, fun _ _ _ _ ↦ Nat.zero_le _⟩
  | succ m ih =>
    obtain ⟨ℓ, c, -, hbefore, hlater⟩ := ih (by omega) fun j t hj ↦ hlower j t (by omega)
    have ht : x.tasks[m]? = some x.tasks[m] := List.getElem?_eq_getElem (by omega)
    set t := x.tasks[m]
    have hsorted : ∀ j u, m ≤ j → x.tasks[j]? = some u → t.level + 1 ≤ u.level + 1 :=
      fun j u hj hu ↦ Nat.succ_le_succ (x.level_mono hj ht hu)
    have hlevels : t.level + 1 ≤ x.levels.length := by
      obtain ⟨level, hlevel, -⟩ := mem_asyncTasks.1 (List.mem_of_getElem? ht)
      exact (List.getElem?_eq_some_iff.1 hlevel).1
    obtain ⟨c', hbefore'⟩ := hbefore.enter_to (hlater m t (Nat.le_refl m) ht) hlevels hsorted
    obtain ⟨c'', hbefore''⟩ := hbefore'.fail hx ht (Nat.lt_succ_self _)
    exact ⟨t.level + 1, c'', hlower m t (Nat.lt_succ_self m) ht, hbefore'',
      fun j u hj ↦ hsorted j u (by omega)⟩

/-- An evaluable rule can be evaluated before any other rule has been executed with success. -/
theorem not_gated_of_evaluable (hx : x.answers = anyAnswer) (hparameters : x.parameters = [])
    {t : AsyncTask} (ht : t ∈ x.tasks) (hdep : t.rule.dependsOnRuleName.isSome = true)
    (heval : t.rule.Evaluable) : ¬x.Gated := by
  obtain ⟨i, hi⟩ := List.mem_iff_getElem?.1 ht
  obtain ⟨level, hlevel, -, hactive⟩ := mem_asyncTasks.1 ht
  -- the tasks before `m` are those of the levels before that of `t`
  set m := x.tasks.findIdx fun u ↦ t.level ≤ u.level with hm
  have hmi : m ≤ i := by
    by_contra hlt
    obtain ⟨hilt, hti⟩ := List.getElem?_eq_some_iff.1 hi
    have := List.not_of_lt_findIdx (hm ▸ not_le.1 hlt : i < _)
    simp [hti] at this
  have hlower : ∀ j u, j < m → x.tasks[j]? = some u → u.level < t.level := by
    intro j u hj hu
    obtain ⟨hjlt, rfl⟩ := List.getElem?_eq_some_iff.1 hu
    have hnot := List.not_of_lt_findIdx (hm ▸ hj)
    exact not_le.1 (of_decide_eq_false (Bool.eq_false_of_not_eq_true (by simpa using hnot)))
  have hupper : ∀ j u, m ≤ j → x.tasks[j]? = some u → t.level + 1 ≤ u.level + 1 := by
    intro j u hj hu
    obtain ⟨hjlt, -⟩ := List.getElem?_eq_some_iff.1 hu
    have hmlt : m < x.tasks.length := hj.trans_lt hjlt
    have hmle : t.level ≤ (x.tasks[m]).level := by
      simpa using List.findIdx_getElem (w := hmlt)
    exact Nat.succ_le_succ (hmle.trans (x.level_mono hj (List.getElem?_eq_getElem hmlt) hu))
  obtain ⟨ℓ, c, hℓ, hbefore, -⟩ := exists_before hx t.level m
    (hmi.trans (List.getElem?_eq_some_iff.1 hi).1.le) hlower
  obtain ⟨c', hbefore'⟩ := hbefore.enter_to (Nat.le_succ_of_le hℓ)
    (List.getElem?_eq_some_iff.1 hlevel).1 hupper
  -- now the task of `t` runs up to its evaluation
  obtain ⟨engine, pool, -, hacquire⟩ := acquire_step hi (s := c'.state)
    (by rw [hbefore'.level]; exact Nat.lt_succ_self _) hbefore'.pool
  obtain ⟨p, s', hsteps, hat⟩ := execute_steps_atSource engine i hx hactive heval
    { c'.state with pool }
  have htask : x.task i = asyncTask i [] t.rule := by
    rw [task, hi, hparameters]
  have hrun : Steps (x.step i) (c'.thread i, c'.state)
      (p >>= fun result ↦ request (.releaseEngine engine) >>= fun _ ↦ return result, s') := by
    rw [hbefore'.fresh i hmi, htask]
    exact .head (Step.ask hacquire) (hsteps.bind _)
  have hat' := hat.bind fun result ↦ request (.releaseEngine engine) >>= fun _ ↦ return result
  obtain ⟨n, hn⟩ := Option.isSome_iff_exists.1 hdep
  intro hgated
  obtain ⟨j, u, result, hu, -, hthread, hsuccess⟩ := hgated _
    (hbefore'.reaches.trans (Interleaving.Reaches.of_steps hrun)) i t n hi hn
    (hat'.evaluating hx (Function.update_self i _ c'.thread))
  -- only tasks before `m` have returned, and they have failed
  rcases eq_or_ne j i with rfl | hne
  · exact hat'.ne_ret ((Function.update_self j _ c'.thread).symm.trans hthread)
  · change Function.update c'.thread i _ j = _ at hthread
    rw [Function.update_of_ne hne] at hthread
    by_cases hj : j < m
    · rw [hbefore'.failed j result hj hthread] at hsuccess
      cases hsuccess
    · rw [hbefore'.fresh j (by omega), task, hu] at hthread
      cases hthread

end AsyncCall

/-! ### Workflows -/

/-- In every call of `executeParallelAsync` and every interleaving, rules with a dependency are
evaluated only after it has succeeded. A level loop that does not end executes nothing. -/
def AsyncGated (order : HashOrder Rule) (rules : List Rule) : Prop :=
  ∀ levels, Loop.Returns asyncLevelStep (asyncLevelInit order rules) levels →
    ∀ threadCount parameters answers, SourceAnswers answers →
      (AsyncCall.mk levels threadCount parameters answers).Gated

theorem asyncGated_of_not_evaluable {order : HashOrder Rule} {rules : List Rule}
    (h : ∀ r ∈ ruleMapOf order rules, r.isActive = true → r.dependsOnRuleName.isSome = true →
      ¬r.Evaluable) : AsyncGated order rules := by
  intro levels hlevels threadCount parameters answers hanswers
  refine AsyncCall.gated_of_not_evaluable hanswers fun t ht hdep ↦ ?_
  obtain ⟨level, hlevel, hr, hactive⟩ := mem_asyncTasks.1 ht
  have hin : t.rule ∈ levels.flatten := List.mem_flatten_of_mem (List.mem_of_getElem? hlevel) hr
  exact h t.rule ((mem_asyncLevels hlevels).1 hin) hactive hdep

theorem not_asyncGated_of_evaluable {order : HashOrder Rule} {rules : List Rule}
    {levels : List (List Rule)}
    (hlevels : Loop.Returns asyncLevelStep (asyncLevelInit order rules) levels) {r : Rule}
    (hr : r ∈ ruleMapOf order rules) (hactive : r.isActive = true)
    (hdep : r.dependsOnRuleName.isSome = true) (heval : r.Evaluable) : ¬AsyncGated order rules := by
  intro hgated
  obtain ⟨level, hlevel, hin⟩ := List.mem_flatten.1 ((mem_asyncLevels hlevels).2 hr)
  obtain ⟨k, hk⟩ := List.mem_iff_getElem?.1 hlevel
  have ht : AsyncTask.mk k r ∈ asyncTasks levels := mem_asyncTasks.2 ⟨level, hk, hin, hactive⟩
  exact AsyncCall.not_gated_of_evaluable (x := ⟨levels, 1, [], anyAnswer⟩) rfl rfl ht hdep heval
    (hgated levels hlevels 1 [] anyAnswer anyAnswer_source)

/-- **Gating in the asynchronous executor.** All runs evaluate a rule with a dependency only after a
rule of that name has succeeded exactly if the level loop does not end or there is nothing to gate:
no active rule with a dependency has anything to evaluate that an execution can get to. -/
theorem async_gating_iff (order : HashOrder Rule) (rules : List Rule) :
    AsyncGated order rules ↔
      (∀ levels, ¬Loop.Returns asyncLevelStep (asyncLevelInit order rules) levels) ∨
        ∀ r ∈ ruleMapOf order rules, r.isActive = true → r.dependsOnRuleName.isSome = true →
          ¬r.Evaluable := by
  constructor
  · intro hgated
    by_cases hlevels : ∃ levels, Loop.Returns asyncLevelStep (asyncLevelInit order rules) levels
    · obtain ⟨levels, hlevels⟩ := hlevels
      exact .inr fun r hr hactive hdep heval ↦
        not_asyncGated_of_evaluable hlevels hr hactive hdep heval hgated
    · exact .inl fun levels hreturns ↦ hlevels ⟨levels, hreturns⟩
  · rintro (hnone | hnothing)
    · exact fun levels hreturns ↦ absurd hreturns (hnone levels)
    · exact asyncGated_of_not_evaluable hnothing

/-- `B` depends on `A`. -/
def guardedAction : List Rule :=
  [{ id := 1, name := "A", expression := "paid" },
   { id := 2, name := "B", dependsOnRuleName := some "A", action := "ship()" }]

/-- The action of `B` is executed although `A` has failed. -/
theorem guardedAction_not_gated :
    (Workflow.validate (HashOrder.insertion Id) (HashOrder.insertion Rule)
      { rules := guardedAction }).1 =
        .ok () ∧
      ¬AsyncGated (HashOrder.insertion Rule) guardedAction :=
  ⟨rfl, not_asyncGated_of_evaluable ⟨3, rfl⟩ (List.mem_cons_of_mem _ List.mem_cons_self) rfl rfl
    ⟨.inr (by decide), by decide⟩⟩

end FastRules
