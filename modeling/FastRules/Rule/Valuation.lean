import FastRules.Rule.Frame
import Mathlib.Data.List.Sublists

/-!
# The value of a rule

What executing a rule comes to where its expressions and actions are functions of the parameters and
of the published results: an outcome, and a new ledger of published outcomes. There are no caches,
no clock and no engines here. Executions are compared with this value elsewhere; it does not read
`cacheDuration`, so a rule and the same rule without caches have the same value.

A value also keeps a log of the outcomes of all nodes that were executed, by the address of the
node.
-/

namespace FastRules

/-! ### Outcomes -/

/-- What the rest of a workflow sees of a result. -/
structure Outcome where
  ruleName : String
  ruleId : Id
  success : Bool
  skipped : Bool := false
  /-- An exception is stored. -/
  failed : Bool := false
  deriving DecidableEq, Repr

/-- What the rest of a workflow sees of the result. -/
def RuleResult.outcome (a : RuleResult) : Outcome where
  ruleName := a.ruleName
  ruleId := a.ruleId
  success := a.success
  skipped := a.skipped
  failed := a.exception.isSome

/-- `RuleResult::isSuccess` as seen from outside. -/
def Outcome.isSuccess (o : Outcome) : Bool :=
  o.success && !o.failed && !o.skipped

theorem RuleResult.isSuccess_outcome (a : RuleResult) : a.outcome.isSuccess = a.isSuccess := by
  show (a.success && !a.exception.isSome && !a.skipped) = _
  rw [Option.not_isSome]
  rfl

/-- What `context.getResult(key)` evaluates to inside Lua. -/
def Outcome.luaView (key : String) : Option Outcome → LuaView
  | some o => { success := o.success, ruleId := cStr o.ruleName }
  | none => { success := false, ruleId := cStr key }

theorem luaView_outcome (key : String) (found : Option RuleResult) :
    Outcome.luaView key (found.map RuleResult.outcome) = luaView key found := by
  cases found <;> rfl

/-- The published outcomes. -/
abbrev Ledger := String → Option Outcome

/-! ### Scripts -/

/-- Which chunk, if any, stands for the expression and the action of a rule. -/
structure Meaning where
  expression : RuleFields → Except Exn (Option LuaScript)
  action : RuleFields → Except Exn (Option LuaScript)

/-- The end of a chunk whose lookups are answered by the ledger. -/
def scriptValue (ledger : Ledger) : LuaScript → Except String Bool
  | .ret outcome => outcome
  | .ask key next => scriptValue ledger (next (Outcome.luaView key (ledger key)))

/-- The value of an expression or an action, nothing if it throws. Without a chunk it passes. -/
def chunkValue (ledger : Ledger) : Except Exn (Option LuaScript) → Option Bool
  | .error _ => none
  | .ok none => some true
  | .ok (some script) => (scriptValue ledger script).toOption

/-! ### Rules -/

/-- A result of type `α` with the ledger and the log it leaves. -/
structure Value (α : Type) where
  result : α
  ledger : Ledger
  log : List (RulePtr × Outcome) := []

/-- The rule without its cache. -/
def RuleFields.uncached (r : RuleFields) : RuleFields :=
  { r with cacheDuration := none }

/-- Enter the outcomes of children under the keys of their rules. -/
def publishOutcomes : List Rule → List Outcome → Ledger → Ledger
  | child :: children, o :: os, ledger =>
    publishOutcomes children os (Function.update ledger child.resultKey (some o))
  | _, _, ledger => ledger

/-- The parameters have the types they are declared with. -/
def typesMatch (parameters : List RuleParameter) : Bool :=
  (ParameterValidator.validateTypes parameters).toBool

@[simp] theorem publishOutcomes_nil (children : List Rule) (ledger : Ledger) :
    publishOutcomes children [] ledger = ledger := by
  cases children <;> rfl

section Value

variable (m : Meaning) (parameters : List RuleParameter)

namespace Rule

/-- The value of the expression; a rule without one passes. -/
def expressionValue (ledger : Ledger) (r : Rule) : Option Bool :=
  if r.expression = "" then some true
  else chunkValue ledger (m.expression r.toRuleFields.uncached)

/-- The value of the action. -/
def actionValue (ledger : Ledger) (r : Rule) : Option Bool :=
  if r.action = "" then some true else chunkValue ledger (m.action r.toRuleFields.uncached)

/-- The expression holds and the action does not throw. -/
def passes (ledger : Ledger) (r : Rule) : Bool :=
  r.expressionValue m ledger = some true && (r.actionValue m ledger).isSome

/-- The outcome of a rule that is passed over. -/
def skippedOutcome (r : Rule) : Outcome :=
  { ruleName := r.name, ruleId := r.id, success := false, skipped := true }

/-- The outcome of a rule that is executed. -/
def executedOutcome (r : Rule) (success : Bool) : Outcome :=
  { ruleName := r.name, ruleId := r.id, success, failed := !success }

/-- The children of a rule, with their outcomes published. -/
def childrenValue (r : Rule) (valueOfChildren : Ledger → Value (List Outcome)) (ledger : Ledger) :
    Value (List Outcome) :=
  let below := if typesMatch parameters then valueOfChildren ledger else ⟨[], ledger, []⟩
  { below with ledger := publishOutcomes r.childRules below.result below.ledger }

/-- The value of a rule, given those of its children. -/
def valueWith (r : Rule) (valueOfChildren : Ledger → Value (List Outcome)) (ledger : Ledger) :
    Value Outcome :=
  if r.isActive then
    let below := r.childrenValue parameters valueOfChildren ledger
    let o := r.executedOutcome
      (typesMatch parameters && below.result.all Outcome.isSuccess && r.passes m below.ledger)
    ⟨o, Function.update below.ledger r.resultKey (some o), (r.ptr, o) :: below.log⟩
  else ⟨r.skippedOutcome, ledger, [(r.ptr, r.skippedOutcome)]⟩

end Rule

mutual

/-- The value of a rule. -/
def Rule.value : Rule → Ledger → Value Outcome
  | ⟨fields, children⟩, ledger =>
    Rule.valueWith m parameters ⟨fields, children⟩ (valuesOf children) ledger

/-- The values of rules, one after the other. -/
def valuesOf : List Rule → Ledger → Value (List Outcome)
  | [], ledger => ⟨[], ledger, []⟩
  | child :: children, ledger =>
    let v := child.value ledger
    let vs := valuesOf children v.ledger
    ⟨v.result :: vs.result, vs.ledger, v.log ++ vs.log⟩

end

theorem Rule.value_eq (r : Rule) (ledger : Ledger) :
    r.value m parameters ledger =
      r.valueWith m parameters (valuesOf m parameters r.childRules) ledger := by
  cases r
  rfl

variable {m parameters}

theorem Rule.value_inactive {r : Rule} (h : r.isActive = false) (ledger : Ledger) :
    r.value m parameters ledger = ⟨r.skippedOutcome, ledger, [(r.ptr, r.skippedOutcome)]⟩ := by
  rw [value_eq, valueWith, if_neg (by simp [h])]

theorem Rule.value_active {r : Rule} (h : r.isActive = true) (ledger : Ledger) :
    let below := r.childrenValue parameters (valuesOf m parameters r.childRules) ledger
    let o := r.executedOutcome
      (typesMatch parameters && below.result.all Outcome.isSuccess && r.passes m below.ledger)
    r.value m parameters ledger =
      ⟨o, Function.update below.ledger r.resultKey (some o), (r.ptr, o) :: below.log⟩ := by
  dsimp only
  rw [value_eq, valueWith, if_pos h]

/-- The log tells the outcome of the rule itself. -/
theorem Rule.mem_log (r : Rule) (ledger : Ledger) :
    (r.ptr, (r.value m parameters ledger).result) ∈ (r.value m parameters ledger).log := by
  cases h : r.isActive
  · rw [value_inactive h]
    exact List.mem_cons_self
  · rw [value_active h]
    exact List.mem_cons_self

theorem valuesOf_append (rules rules' : List Rule) (ledger : Ledger) :
    valuesOf m parameters (rules ++ rules') ledger =
      let vs := valuesOf m parameters rules ledger
      let vs' := valuesOf m parameters rules' vs.ledger
      ⟨vs.result ++ vs'.result, vs'.ledger, vs.log ++ vs'.log⟩ := by
  induction rules generalizing ledger with
  | nil => rfl
  | cons q rules ih => simp [valuesOf, ih]

theorem valuesOf_concat (rules : List Rule) (r : Rule) (ledger : Ledger) :
    valuesOf m parameters (rules ++ [r]) ledger =
      let vs := valuesOf m parameters rules ledger
      let v := r.value m parameters vs.ledger
      ⟨vs.result ++ [v.result], v.ledger, vs.log ++ v.log⟩ := by
  simp [valuesOf_append, valuesOf]

/-- Each rule has the value it has after the rules before it. -/
theorem getElem?_valuesOf {rules : List Rule} {i : ℕ} {r : Rule} (h : rules[i]? = some r)
    (ledger : Ledger) :
    (valuesOf m parameters rules ledger).result[i]? =
      some (r.value m parameters (valuesOf m parameters (rules.take i) ledger).ledger).result := by
  induction rules generalizing i ledger with
  | nil => cases h
  | cons q rules ih =>
    rw [valuesOf]
    rcases i with - | i
    · obtain rfl : q = r := Option.some.inj h
      rfl
    · exact ih h _

theorem length_valuesOf (rules : List Rule) (ledger : Ledger) :
    (valuesOf m parameters rules ledger).result.length = rules.length := by
  induction rules generalizing ledger with
  | nil => rfl
  | cons q rules ih => exact congrArg (· + 1) (ih _)

/-! ### Frames -/

theorem publishOutcomes_frame : ∀ (children : List Rule) (os : List Outcome) (ledger : Ledger)
    (key : String), key ∉ children.map Rule.resultKey →
    publishOutcomes children os ledger key = ledger key
  | [], _, _, _, _ => rfl
  | _ :: _, [], _, _, _ => rfl
  | child :: children, o :: os, ledger, key, hkey => by
    rw [List.map_cons, List.mem_cons, not_or] at hkey
    rw [publishOutcomes, publishOutcomes_frame children os _ key hkey.2,
      Function.update_of_ne hkey.1]

theorem Rule.childrenValue_frame {r : Rule} {valueOfChildren : Ledger → Value (List Outcome)}
    {ledger : Ledger} {key : String} (hkey : key ∉ r.keysBelow)
    (hchildren : (valueOfChildren ledger).ledger key = ledger key) :
    (r.childrenValue parameters valueOfChildren ledger).ledger key = ledger key := by
  rw [keysBelow_eq] at hkey
  rw [childrenValue]
  dsimp only
  rw [publishOutcomes_frame _ _ _ _ fun hin ↦ hkey (map_resultKey_subset _ _ hin)]
  split_ifs
  · exact hchildren
  · rfl

/-- The value of a rule enters outcomes under the keys of the rule only. -/
theorem Rule.value_frame (r : Rule) : ∀ (ledger : Ledger) (key : String), key ∉ r.keys →
    (r.value m parameters ledger).ledger key = ledger key := by
  induction r using induction_children with
  | h r ih =>
    intro ledger key hkey
    cases hactive : r.isActive
    · rw [value_inactive hactive]
    · rw [keys, if_pos hactive, List.mem_cons, not_or] at hkey
      rw [value_active hactive]
      dsimp only
      rw [Function.update_of_ne hkey.1]
      refine childrenValue_frame hkey.2 ?_
      obtain ⟨-, hbelow⟩ := hkey
      rw [keysBelow_eq] at hbelow
      clear hactive
      -- the children publish one after the other, each into the ledger its predecessors leave
      generalize r.childRules = children at ih hbelow
      induction children generalizing ledger with
      | nil => rfl
      | cons child children ihs =>
        rw [keysOfChildren, List.mem_cons, List.mem_append, not_or, not_or] at hbelow
        obtain ⟨hchild, hnested, hrest⟩ := hbelow
        rw [valuesOf]
        dsimp only
        rw [ihs _ (fun q hq ↦ ih q (List.mem_cons_of_mem child hq)) hrest]
        refine ih child List.mem_cons_self ledger key ?_
        rw [keys]
        split_ifs with h
        · rw [if_pos h] at hnested
          exact List.not_mem_cons_of_ne_of_not_mem hchild hnested
        · exact List.not_mem_nil

theorem valuesOf_frame {rules : List Rule} {key : String} (hkey : ∀ r ∈ rules, key ∉ r.keys)
    (ledger : Ledger) : (valuesOf m parameters rules ledger).ledger key = ledger key := by
  induction rules generalizing ledger with
  | nil => rfl
  | cons r rules ih =>
    rw [valuesOf]
    dsimp only
    rw [ih fun q hq ↦ hkey q (List.mem_cons_of_mem r hq),
      r.value_frame ledger key (hkey r List.mem_cons_self)]

/-! ### Logs -/

theorem valuesOf_log_sublist {children : List Rule}
    (h : ∀ r ∈ children, ∀ ledger, ((r.value m parameters ledger).log.map Prod.fst).Sublist
      (r.nodes.map fun q ↦ q.ptr)) (ledger : Ledger) :
    ((valuesOf m parameters children ledger).log.map Prod.fst).Sublist
      ((nodesOf children).map fun q ↦ q.ptr) := by
  induction children generalizing ledger with
  | nil => exact List.Sublist.refl _
  | cons child children ih =>
    rw [valuesOf, nodesOf]
    dsimp only
    rw [List.map_append, List.map_append]
    exact (h child List.mem_cons_self ledger).append
      (ih (fun q hq ↦ h q (List.mem_cons_of_mem child hq)) _)

/-- The log lists each node at most once, in the order of the tree. -/
theorem Rule.value_log_sublist (r : Rule) : ∀ ledger : Ledger,
    ((r.value m parameters ledger).log.map Prod.fst).Sublist (r.nodes.map fun q ↦ q.ptr) := by
  induction r using induction_children with
  | h r ih =>
    intro ledger
    rw [nodes_eq, List.map_cons]
    cases hactive : r.isActive
    · rw [value_inactive hactive]
      exact (List.nil_sublist _).cons_cons _
    · rw [value_active hactive]
      refine List.Sublist.cons_cons _ ?_
      rw [childrenValue]
      dsimp only
      split_ifs
      · exact valuesOf_log_sublist ih ledger
      · exact List.nil_sublist _

/-! ### Without caches -/

mutual

/-- The rule with every `cacheDuration` of its tree unset. -/
def Rule.uncached : Rule → Rule
  | ⟨fields, children⟩ => ⟨fields.uncached, uncachedOf children⟩

/-- The rules with every `cacheDuration` of their trees unset. -/
def uncachedOf : List Rule → List Rule
  | [] => []
  | child :: children => child.uncached :: uncachedOf children

end

theorem Rule.uncached_eq (r : Rule) :
    r.uncached = ⟨r.toRuleFields.uncached, uncachedOf r.childRules⟩ := by
  cases r
  rfl

@[simp] theorem Rule.uncached_toRuleFields (r : Rule) :
    r.uncached.toRuleFields = r.toRuleFields.uncached := by
  rw [uncached_eq]

@[simp] theorem Rule.uncached_resultKey (r : Rule) : r.uncached.resultKey = r.resultKey := by
  rw [uncached_eq]
  rfl

theorem uncachedOf_eq_map (rules : List Rule) : uncachedOf rules = rules.map Rule.uncached := by
  induction rules with
  | nil => rfl
  | cons r rules ih => rw [uncachedOf, ih, List.map_cons]

theorem publishOutcomes_uncached : ∀ (children : List Rule) (os : List Outcome) (ledger : Ledger),
    publishOutcomes (uncachedOf children) os ledger = publishOutcomes children os ledger
  | [], _, _ => rfl
  | _ :: _, [], _ => rfl
  | child :: children, o :: os, ledger => by
    rw [uncachedOf, publishOutcomes, publishOutcomes, Rule.uncached_resultKey,
      publishOutcomes_uncached]

theorem valuesOf_uncached {children : List Rule}
    (h : ∀ r ∈ children, ∀ ledger, r.uncached.value m parameters ledger =
    r.value m parameters ledger)
    (ledger : Ledger) :
    valuesOf m parameters (uncachedOf children) ledger = valuesOf m parameters children ledger := by
  induction children generalizing ledger with
  | nil => rfl
  | cons child children ih =>
    rw [uncachedOf, valuesOf, valuesOf, h child List.mem_cons_self,
      ih fun q hq ↦ h q (List.mem_cons_of_mem child hq)]

theorem Rule.passes_uncached (r : Rule) (ledger : Ledger) :
    r.uncached.passes m ledger = r.passes m ledger := by
  simp only [passes, expressionValue, actionValue, uncached_toRuleFields]
  rfl

theorem Rule.childrenValue_uncached {r : Rule}
    (h : ∀ child ∈ r.childRules, ∀ ledger,
      child.uncached.value m parameters ledger = child.value m parameters ledger)
    (ledger : Ledger) :
    r.uncached.childrenValue parameters (valuesOf m parameters r.uncached.childRules) ledger =
      r.childrenValue parameters (valuesOf m parameters r.childRules) ledger := by
  have hchildren : r.uncached.childRules = uncachedOf r.childRules := by rw [uncached_eq]
  rw [childrenValue, childrenValue, hchildren, valuesOf_uncached h, publishOutcomes_uncached]

/-- The value does not depend on caches. -/
theorem Rule.value_uncached (r : Rule) : ∀ ledger : Ledger,
    r.uncached.value m parameters ledger = r.value m parameters ledger := by
  induction r using induction_children with
  | h r ih =>
    intro ledger
    have hactive : r.uncached.isActive = r.isActive := by
      rw [uncached_toRuleFields]
      rfl
    cases h : r.isActive
    · rw [value_inactive h, value_inactive (hactive.trans h), skippedOutcome, skippedOutcome,
        uncached_toRuleFields]
      rfl
    · rw [value_active h, value_active (hactive.trans h), childrenValue_uncached ih,
        passes_uncached,
        uncached_resultKey, executedOutcome, executedOutcome, uncached_toRuleFields]
      rfl

/-- No node of such a rule has a cache. -/
theorem Rule.isCaching_uncached (r : Rule) : ∀ q ∈ r.uncached.nodes, q.isCaching = false := by
  induction r using induction_children with
  | h r ih =>
    intro q hq
    rw [nodes_eq, List.mem_cons, uncached_eq] at hq
    rcases hq with rfl | hq
    · rfl
    · rw [uncachedOf_eq_map] at hq
      obtain ⟨child, hchild, hq⟩ := mem_nodesOf.1 hq
      obtain ⟨child, hmem, rfl⟩ := List.mem_map.1 hchild
      exact ih child hmem q hq

end Value

/-! ### The loop of a workflow -/

/-- The dependency of the rule, if it has one, is entered with success. -/
def Rule.dependencyHolds (ledger : Ledger) (r : Rule) : Bool :=
  r.dependsOnRuleName.all fun n ↦ (ledger n).any Outcome.isSuccess

section Loop

variable (m : Meaning) (parameters : List RuleParameter)

/-- The value of one pass of the loop: a rule that is not active, or whose dependency did not
succeed, is passed over. -/
def stepValue (r : Rule) (ledger : Ledger) : Value (Option Outcome) :=
  if r.isActive && r.dependencyHolds ledger then
    let v := r.value m parameters ledger
    ⟨some v.result, v.ledger, v.log⟩
  else ⟨none, ledger, []⟩

/-- The value of the loop. -/
def loopValue : List Rule → Ledger → Value (List (Option Outcome))
  | [], ledger => ⟨[], ledger, []⟩
  | r :: rules, ledger =>
    let v := stepValue m parameters r ledger
    let vs := loopValue rules v.ledger
    ⟨v.result :: vs.result, vs.ledger, v.log ++ vs.log⟩

/-- Whenever the loop comes to an active rule, its dependency is entered with success. -/
def DependenciesHold : List Rule → Ledger → Prop
  | [], _ => True
  | r :: rules, ledger =>
    (r.isActive = true → r.dependencyHolds ledger = true) ∧
      DependenciesHold rules (stepValue m parameters r ledger).ledger

variable {m parameters}

theorem stepValue_inactive {r : Rule} (h : r.isActive = false) (ledger : Ledger) :
    stepValue m parameters r ledger = ⟨none, ledger, []⟩ := by
  rw [stepValue, h, Bool.false_and, if_neg Bool.false_ne_true]

theorem stepValue_of_not_holds {r : Rule} {ledger : Ledger} (h : r.dependencyHolds ledger = false) :
    stepValue m parameters r ledger = ⟨none, ledger, []⟩ := by
  rw [stepValue, h, Bool.and_false, if_neg Bool.false_ne_true]

theorem stepValue_of_holds {r : Rule} (hactive : r.isActive = true) {ledger : Ledger}
    (h : r.dependencyHolds ledger = true) :
    stepValue m parameters r ledger =
      let v := r.value m parameters ledger
      ⟨some v.result, v.ledger, v.log⟩ := by
  rw [stepValue, hactive, h, Bool.true_and, if_pos rfl]

theorem filter_isActive_cons {r : Rule} (h : r.isActive = true) (rules : List Rule) :
    (r :: rules).filter (fun r ↦ r.isActive) = r :: rules.filter fun r ↦ r.isActive :=
  List.filter_cons_of_pos h

theorem filter_isActive_cons_inactive {r : Rule} (h : r.isActive = false) (rules : List Rule) :
    (r :: rules).filter (fun r ↦ r.isActive) = rules.filter fun r ↦ r.isActive :=
  List.filter_cons_of_neg (by simp [h])

/-- Where every dependency holds, the loop comes to the values of the active rules. -/
theorem DependenciesHold.loopValue_eq {rules : List Rule} {ledger : Ledger}
    (h : DependenciesHold m parameters rules ledger) :
    (loopValue m parameters rules ledger).result.filterMap id =
        (valuesOf m parameters (rules.filter fun r ↦ r.isActive) ledger).result ∧
      (loopValue m parameters rules ledger).ledger =
        (valuesOf m parameters (rules.filter fun r ↦ r.isActive) ledger).ledger := by
  induction rules generalizing ledger with
  | nil => exact ⟨rfl, rfl⟩
  | cons r rules ih =>
    obtain ⟨hhead, hrest⟩ := h
    rw [loopValue]
    obtain ⟨hresult, hledger⟩ := ih hrest
    rcases Bool.eq_false_or_eq_true r.isActive with hactive | hactive
    · rw [stepValue_of_holds hactive (hhead hactive)] at hresult hledger ⊢
      rw [filter_isActive_cons hactive, valuesOf]
      exact ⟨congrArg (List.cons _) hresult, hledger⟩
    · rw [stepValue_inactive hactive] at hresult hledger ⊢
      rw [filter_isActive_cons_inactive hactive]
      exact ⟨hresult, hledger⟩

/-- The dependency of an active rule holds after the active rules before it. -/
theorem DependenciesHold.dependencyHolds {rules : List Rule} {ledger : Ledger}
    (h : DependenciesHold m parameters rules ledger) {i : ℕ} {r : Rule}
    (hr : (rules.filter fun r ↦ r.isActive)[i]? = some r) :
    r.dependencyHolds (valuesOf m parameters
      ((rules.filter fun r ↦ r.isActive).take i) ledger).ledger = true := by
  induction rules generalizing ledger i with
  | nil => cases hr
  | cons q rules ih =>
    obtain ⟨hhead, hrest⟩ := h
    rcases Bool.eq_false_or_eq_true q.isActive with hactive | hactive
    · rw [filter_isActive_cons hactive] at hr ⊢
      rw [stepValue_of_holds hactive (hhead hactive)] at hrest
      rcases i with - | i
      · obtain rfl : q = r := Option.some.inj hr
        exact hhead hactive
      · exact ih hrest hr
    · rw [filter_isActive_cons_inactive hactive] at hr ⊢
      rw [stepValue_inactive hactive] at hrest
      exact ih hrest hr

/-- The loop executes active rules only. -/
theorem length_loopValue_le (rules : List Rule) (ledger : Ledger) :
    ((loopValue m parameters rules ledger).result.filterMap id).length ≤
      (rules.filter fun r ↦ r.isActive).length := by
  induction rules generalizing ledger with
  | nil => exact Nat.le_refl 0
  | cons r rules ih =>
    rw [loopValue]
    have hrest := ih (stepValue m parameters r ledger).ledger
    rcases Bool.eq_false_or_eq_true r.isActive with hactive | hactive
    · rw [filter_isActive_cons hactive, List.length_cons]
      rcases Bool.eq_false_or_eq_true (r.dependencyHolds ledger) with hholds | hholds
      · rw [stepValue_of_holds hactive hholds] at hrest ⊢
        exact Nat.succ_le_succ hrest
      · rw [stepValue_of_not_holds hholds] at hrest ⊢
        exact Nat.le_succ_of_le hrest
    · rw [stepValue_inactive hactive] at hrest ⊢
      rw [filter_isActive_cons_inactive hactive]
      exact hrest

/-- The loop executes every active rule only if every dependency holds. -/
theorem dependenciesHold_of_length {rules : List Rule} {ledger : Ledger}
    (h : (rules.filter fun r ↦ r.isActive).length ≤
      ((loopValue m parameters rules ledger).result.filterMap id).length) :
    DependenciesHold m parameters rules ledger := by
  induction rules generalizing ledger with
  | nil => trivial
  | cons r rules ih =>
    rw [loopValue] at h
    have hrest :
        ((loopValue m parameters rules (stepValue m parameters r ledger).ledger).result.filterMap
          id).length ≤ (rules.filter fun r ↦ r.isActive).length :=
      length_loopValue_le rules (stepValue m parameters r ledger).ledger
    rcases Bool.eq_false_or_eq_true r.isActive with hactive | hactive
    · rw [filter_isActive_cons hactive, List.length_cons] at h
      rcases Bool.eq_false_or_eq_true (r.dependencyHolds ledger) with hholds | hholds
      · refine ⟨fun _ ↦ hholds, ih ?_⟩
        rw [stepValue_of_holds hactive hholds] at h ⊢
        exact Nat.le_of_succ_le_succ h
      · -- a rule that is passed over is missed in the end
        rw [stepValue_of_not_holds hholds] at h hrest
        exact absurd (h.trans hrest) (Nat.not_succ_le_self _)
    · rw [stepValue_inactive hactive, filter_isActive_cons_inactive hactive] at h
      refine ⟨fun hin ↦ absurd (hactive.symm.trans hin) Bool.false_ne_true, ih ?_⟩
      rw [stepValue_inactive hactive]
      exact h

theorem loopValue_log_sublist (rules : List Rule) (ledger : Ledger) :
    ((loopValue m parameters rules ledger).log.map Prod.fst).Sublist
      ((nodesOf rules).map fun q ↦ q.ptr) := by
  induction rules generalizing ledger with
  | nil => exact List.Sublist.refl _
  | cons r rules ih =>
    rw [loopValue, nodesOf]
    dsimp only
    rw [List.map_append, List.map_append]
    refine List.Sublist.append ?_ (ih _)
    rw [stepValue]
    split_ifs
    · exact r.value_log_sublist ledger
    · exact List.nil_sublist _

/-- The value of the loop does not depend on caches. -/
theorem loopValue_uncached (rules : List Rule) (ledger : Ledger) :
    loopValue m parameters (rules.map Rule.uncached) ledger =
      loopValue m parameters rules ledger := by
  have hstep (r : Rule) (ledger : Ledger) :
      stepValue m parameters r.uncached ledger = stepValue m parameters r ledger := by
    rw [stepValue, stepValue, r.value_uncached, Rule.dependencyHolds, Rule.dependencyHolds,
      r.uncached_toRuleFields]
    rfl
  induction rules generalizing ledger with
  | nil => rfl
  | cons r rules ih => rw [List.map_cons, loopValue, loopValue, hstep, ih]

/-- If the nodes are distinct objects, the log tells one outcome for each. -/
theorem loopValue_log_functional {rules : List Rule} {ledger : Ledger}
    (h : ((nodesOf rules).map fun q ↦ q.ptr).Nodup) (ptr : RulePtr) (o o' : Outcome)
    (ho : (ptr, o) ∈ (loopValue m parameters rules ledger).log)
    (ho' : (ptr, o') ∈ (loopValue m parameters rules ledger).log) : o = o' :=
  (Prod.mk.inj (List.inj_on_of_nodup_map ((loopValue_log_sublist rules ledger).nodup h) ho
    ho' rfl)).2

end Loop

end FastRules
