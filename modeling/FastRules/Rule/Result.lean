import FastRules.Rule.Parameter
import Mathlib.Logic.Function.Basic

/-!
# Results, contexts

What comes out of `Rule::execute`: the result of a rule with the results of its children, the
exceptions that end an evaluation, and the context in which results are published under string keys.
-/

namespace FastRules

/-- Points and spans of the steady clock, in nanoseconds. -/
abbrev Time := Int

/-! ### Exceptions -/

/-- The exceptions `Rule::execute` tells apart, with their messages. -/
inductive Exn
  | rateLimit (message : String)
  | timeout (message : String)
  /-- A `RuleException`. -/
  | rule (message : String)
  /-- Any other `std::exception`, such as a `RuleCompilationException`. -/
  | standard (message : String)
  /-- Not a `std::exception`. -/
  | unknown
  deriving DecidableEq, Repr

/-! ### Results -/

/-- A `RuleMetrics`. -/
structure RuleMetrics where
  evaluationCount : Int := 0
  failureCount : Int := 0
  totalExecutionTime : Time := 0
  lastExecuted : Time := 0
  deriving DecidableEq, Repr

/-- A `RuleResult` without the results of the children. -/
structure ResultFields where
  ruleName : String := ""
  ruleId : Id := 0
  success : Bool := false
  skipped : Bool := false
  /-- The message of the stored `RuleException`. -/
  exception : Option String := none
  executedAt : Time := 0
  completedAt : Time := 0
  metrics : RuleMetrics := {}
  deriving DecidableEq, Repr

/-- The result of one execution of a rule. -/
structure RuleResult extends ResultFields where
  childResults : List RuleResult := []

/-- `RuleResult::isSuccess`. -/
def RuleResult.isSuccess (r : RuleResult) : Bool :=
  r.success && r.exception.isNone && !r.skipped

mutual

/-- `RuleResult::isFullySuccessful`. -/
def RuleResult.isFullySuccessful : RuleResult → Bool
  | ⟨fields, children⟩ =>
    fields.success && fields.exception.isNone && !fields.skipped && allFullySuccessful children

/-- Every one of the results is fully successful. -/
def allFullySuccessful : List RuleResult → Bool
  | [] => true
  | child :: children => child.isFullySuccessful && allFullySuccessful children

end

theorem RuleResult.isFullySuccessful_eq (r : RuleResult) :
    r.isFullySuccessful = (r.isSuccess && allFullySuccessful r.childResults) := by
  cases r
  rfl

theorem allFullySuccessful_iff {results : List RuleResult} :
    allFullySuccessful results = true ↔ ∀ r ∈ results, r.isFullySuccessful = true := by
  induction results with
  | nil => simp [allFullySuccessful]
  | cons r results ih => simp [allFullySuccessful, ih]

/-! ### Contexts -/

/-- A `RuleContext`: the published results and the last error. -/
structure RuleContext where
  results : String → Option RuleResult := fun _ ↦ none
  lastError : Option (String × String) := none

/-- What `context.getResult(key)` evaluates to inside Lua. -/
structure LuaView where
  success : Bool
  ruleId : String
  deriving DecidableEq, Repr

/-- The table that `setupContextTable` builds from a looked-up result. A key without a result reads
as a failure under the key itself. -/
def luaView (key : String) : Option RuleResult → LuaView
  | some r => { success := r.success, ruleId := cStr r.ruleName }
  | none => { success := false, ruleId := cStr key }

end FastRules
