import FastRules.Rule.Frame
import FastRules.Workflow.Levels

/-!
# Sequential execution

`Workflow::execute`, `Workflow::executeWithTrace` and `Workflow::executeStreaming` from the compiled
workflow on. The three loops go through the same execution order and share their checks; they differ
in who publishes a result. `execute` leaves that to the rule, the other two publish what the rule
returned once more.

Each loop is kept with its history: what became of every rule of the order. The returned results are
read off the history.
-/

namespace FastRules

open Program

/-- What became of the rules a loop has come to: the result of a rule that was executed, nothing for
a rule that was passed over. -/
abbrev History := List (Rule × Option RuleResult)

/-- `if (!result.skipped) results.push_back(result)`. -/
def History.results (history : History) : List RuleResult :=
  (history.filterMap fun e ↦ e.2).filter fun result ↦ !result.skipped

section Loops

variable (engine : EnginePtr) (context : ContextPtr) (parameters : List RuleParameter)

/-- `depResult.has_value() && depResult->isSuccess()`, for a rule that has a dependency. -/
def dependencySatisfied (r : Rule) : RuleProgram Bool :=
  match r.dependsOnRuleName with
  | none => return true
  | some n => do
    let depResult ← request (.getResult context n)
    return depResult.any RuleResult.isSuccess

/-! ### `Workflow::execute` -/

/-- `rule->execute(engine, context, parameters)`, if the dependency is satisfied. -/
def executeIf (r : Rule) (satisfied : Bool) : RuleProgram (Option RuleResult) :=
  if satisfied then some <$> r.execute engine context parameters else return none

/-- One pass of the loop of `Workflow::execute`. -/
def executeStep (r : Rule) : RuleProgram (Option RuleResult) :=
  if r.isActive then do
    let satisfied ← dependencySatisfied context r
    executeIf engine context parameters r satisfied
  else return none

/-- The loop of `Workflow::execute`. -/
def executeLoop : List Rule → RuleProgram History
  | [] => return []
  | r :: rules => do
    let outcome ← executeStep engine context parameters r
    let history ← executeLoop rules
    return (r, outcome) :: history

/-- `Workflow::execute`, in a new context. -/
def Workflow.execute (order : HashOrder Rule) (rules : List Rule) :
    Except String (RuleProgram (List RuleResult)) :=
  (resolveExecutionOrder order rules).map fun executionOrder ↦ do
    let history ← executeLoop engine context parameters executionOrder
    return history.results

/-! ### `Workflow::executeWithTrace` -/

/-- An `ExecutionTraceStep` without its timestamps. -/
structure ExecutionTraceStep where
  ruleName : String
  stage : String
  success : Bool := true
  message : Option String := none
  dependencyId : Option Int := none
  expression : Option String := none
  action : Option String := none
  deriving DecidableEq, Repr

/-- The step of the tracer for a dependency check. -/
def dependencyTrace (r : Rule) (satisfied : Bool) : List ExecutionTraceStep :=
  match r.dependsOnRuleName with
  | none => []
  | some n =>
    [{ ruleName := r.name
       stage := "dependency_check"
       success := satisfied
       message := some ("Dependency '" ++ n ++ "' " ++
        if satisfied then "satisfied" else "failed or not found")
       dependencyId := some (-1) }]

/-- The step of the tracer for an execution. -/
def executionTrace (r : Rule) (result : RuleResult) : ExecutionTraceStep where
  ruleName := r.name
  stage := "execute"
  success := result.isSuccess
  message := some <|
    match result.exception with
    | some e => cStr e
    | none =>
      if result.skipped then "Rule was skipped"
      else if result.success then "Rule evaluated to true" else "Rule evaluated to false"
  expression := some r.expression
  action := some r.action

/-- The execution of a rule in `executeWithTrace`: the loop publishes the result again. -/
def traceExecution (r : Rule) : RuleProgram RuleResult := do
  let result ← r.execute engine context parameters
  request (.setResult context r.resultKey result)
  return result

/-- One pass of the loop of `executeWithTrace`, with what the tracer records. -/
def traceStep (r : Rule) : RuleProgram (Option RuleResult × List ExecutionTraceStep) :=
  if r.isActive then do
    let satisfied ← dependencySatisfied context r
    if satisfied then do
      let result ← traceExecution engine context parameters r
      return (some result, dependencyTrace r true ++ [executionTrace r result])
    else return (none, dependencyTrace r false)
  else
    return (none, [{ ruleName := r.name, stage := "skip", message := some "Rule is inactive" }])

/-- The loop of `executeWithTrace`. -/
def traceLoop : List Rule → RuleProgram (History × List ExecutionTraceStep)
  | [] => return ([], [])
  | r :: rules => do
    let (outcome, steps) ← traceStep engine context parameters r
    let (history, laterSteps) ← traceLoop rules
    return ((r, outcome) :: history, steps ++ laterSteps)

/-- An `ExecutionTrace`. -/
structure ExecutionTrace where
  steps : List ExecutionTraceStep
  overallSuccess : Bool
  deriving DecidableEq, Repr

/-- `Workflow::executeWithTrace`. -/
def Workflow.executeWithTrace (order : HashOrder Rule) (rules : List Rule) :
    Except String (RuleProgram (List RuleResult × ExecutionTrace)) :=
  (resolveExecutionOrder order rules).map fun executionOrder ↦ do
    let (history, steps) ← traceLoop engine context parameters executionOrder
    let results := history.results
    return (results,
      { steps, overallSuccess := !results.isEmpty && results.all RuleResult.isSuccess })

/-! ### `Workflow::executeStreaming` -/

/-- One pass of the loop inside the generator. -/
def streamStep (r : Rule) : RuleProgram (Option RuleResult) :=
  if r.isActive then do
    let satisfied ← dependencySatisfied context r
    if satisfied then some <$> traceExecution engine context parameters r else return none
  else return none

/-- The generator of `executeStreaming`: the next result that is not skipped, with the rules that
are left. The list stands for the index into the captured order. -/
def streamNext : List Rule → RuleProgram (Option (RuleResult × List Rule))
  | [] => return none
  | r :: rules => do
    let outcome ← streamStep engine context parameters r
    match outcome.filter fun result ↦ !result.skipped with
    | some result => return some (result, rules)
    | none => streamNext rules

/-- Ask the generator for results until there are none, at most `fuel` times. -/
def drain : ℕ → List Rule → RuleProgram (List RuleResult)
  | 0, _ => return []
  | fuel + 1, rules => do
    match ← streamNext engine context parameters rules with
    | none => return []
    | some (result, rest) => do
      let results ← drain fuel rest
      return result :: results

/-- `Workflow::executeStreaming`, drained to the end: the generator yields at most once for each
rule and then says that it is done. -/
def Workflow.executeStreaming (order : HashOrder Rule) (rules : List Rule) :
    Except String (RuleProgram (List RuleResult)) :=
  (resolveExecutionOrder order rules).map fun executionOrder ↦
    drain engine context parameters (executionOrder.length + 1) executionOrder

end Loops

end FastRules
