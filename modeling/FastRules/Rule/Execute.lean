import FastRules.Foundations.Program
import FastRules.Rule.Result

/-!
# Executing a rule

`Rule::execute` as a program of atomic requests. The requests are the places where the C++ code
takes a lock or leaves the rule: the result cache, the rate limiter, the clock, the counters, the
context and the engine. Between two requests of one execution other threads may make theirs.

A Lua chunk is itself a program: it asks the context for results, one key at a time, and ends with
an error or a value. An engine serves one execution at a time, so everything a rule does with it
before the chunk starts — compile if needed, look up the reference, find the chunk — is one request,
`beginExpression` or `beginAction`, which is answered by the chunk to run.
-/

namespace FastRules

/-- The address of an engine. -/
abbrev EnginePtr := ℕ

/-- The address of a context. -/
abbrev ContextPtr := ℕ

/-- A chunk about to run: it looks up keys in the context and ends with an error message or the
truth value of its result. -/
abbrev LuaScript := Program String (fun _ ↦ LuaView) (Except String Bool)

/-- The arguments of `PerformanceCounters::recordExecution`. -/
structure ExecutionRecord where
  success : Bool
  skipped : Bool := false
  cached : Bool := false
  timedOut : Bool := false
  rateLimited : Bool := false
  deriving DecidableEq, Repr

/-- The requests of a rule execution, and the two of the tasks around it. -/
inductive Op
  /-- The locked cache lookup at the start. -/
  | lookupCache (rule : RuleFields) (parameters : List RuleParameter)
  | storeInCache (rule : RuleFields) (parameters : List RuleParameter) (result : RuleResult)
  | now
  | isAllowed (limiter : Option LimiterPtr) (key : String)
  | recordExecution (record : ExecutionRecord)
  | recordExecutionTime (duration : Time)
  | getResult (context : ContextPtr) (key : String)
  | setResult (context : ContextPtr) (key : String) (result : RuleResult)
  | setLastError (context : ContextPtr) (key message : String)
  /-- Compile if needed and find the chunk of the expression; no chunk if the reference is `-1`. -/
  | beginExpression (engine : EnginePtr) (rule : Rule) (parameters : List RuleParameter)
  | beginAction (engine : EnginePtr) (rule : Rule) (parameters : List RuleParameter)
  /-- The chunk has ended, having read these results. -/
  | endScript (engine : EnginePtr) (answers : List LuaView)
  /-- `steady_clock::now() > deadline` after the chunk has ended. -/
  | deadlinePassed (engine : EnginePtr) (timeout : Int)
  | acquireEngine
  | releaseEngine (engine : EnginePtr)

/-- What a request is answered with. -/
abbrev Op.Ans : Op → Type
  | lookupCache _ _ => Option RuleResult
  | storeInCache _ _ _ => Unit
  | now => Time
  | isAllowed _ _ => Bool
  | recordExecution _ => Unit
  | recordExecutionTime _ => Unit
  | getResult _ _ => Option RuleResult
  | setResult _ _ _ => Unit
  | setLastError _ _ _ => Unit
  | beginExpression _ _ _ => Except Exn (Option LuaScript)
  | beginAction _ _ _ => Except Exn (Option LuaScript)
  | endScript _ _ => Unit
  | deadlinePassed _ _ => Bool
  | acquireEngine => Option EnginePtr
  | releaseEngine _ => Unit

abbrev RuleProgram := Program Op Op.Ans

/-- Make one request. -/
def request (op : Op) : RuleProgram op.Ans :=
  Program.perform op

/-! ### Evaluation -/

/-- Run a chunk against a context. The answers it was given are returned with its outcome. -/
def runScript (context : ContextPtr) : LuaScript → RuleProgram (Except String Bool × List LuaView)
  | .ret outcome => return (outcome, [])
  | .ask key next => do
    let found ← request (.getResult context key)
    let (outcome, answers) ← runScript context (next (luaView key found))
    return (outcome, luaView key found :: answers)

/-- The common part of `LuaEngine::evaluateExpression` and `LuaEngine::executeAction`, from the call
of the chunk on. -/
def evaluateScript (engine : EnginePtr) (context : ContextPtr) (timeout : Option Int)
    (errorLabel : String) (script : LuaScript) : RuleProgram (Except Exn Bool) := do
  let (outcome, answers) ← runScript context script
  request (.endScript engine answers)
  match outcome with
  | .error message => return .error (.standard (errorLabel ++ message))
  | .ok truthy =>
    -- only a positive timeout sets a deadline
    match timeout.filter fun t ↦ 0 < t with
    | none => return .ok truthy
    | some t => do
      let late ← request (.deadlinePassed engine t)
      return if late then
        .error (.timeout ("Rule execution timed out after " ++ toString t ++ "ms"))
      else .ok truthy

namespace Rule

section Evaluate

variable (engine : EnginePtr) (context : ContextPtr) (parameters : List RuleParameter)

/-- `Rule::evaluateExpression`: without a reference there is no expression, and the rule passes. -/
def evaluateExpression (r : Rule) : RuleProgram (Except Exn Bool) := do
  match ← request (.beginExpression engine r parameters) with
  | .error e => return .error e
  | .ok none => return .ok true
  | .ok (some script) =>
    evaluateScript engine context r.timeout "Expression evaluation failed: " script

/-- `Rule::executeAction`: without a reference there is no action. The value of the chunk is
ignored. -/
def executeAction (r : Rule) : RuleProgram (Except Exn Bool) := do
  match ← request (.beginAction engine r parameters) with
  | .error e => return .error e
  | .ok none => return .ok true
  | .ok (some script) =>
    evaluateScript engine context r.timeout "Action execution failed: " script

end Evaluate

/-- The name used in messages: the rule's name, or its id without one. -/
def displayName (r : Rule) : String :=
  if r.name ≠ "" then r.name else toString r.id

/-- `if (allowed && !name.empty() && name != idKey) allowed = limiter->isAllowed(name)`. -/
def allowedByName (r : Rule) (allowed : Bool) : RuleProgram Bool :=
  if allowed && r.name ≠ "" && r.name ≠ toString r.id then
    request (.isAllowed r.rateLimiter r.name)
  else
    pure allowed

/-- Ask the limiter for the id and, unless it is the same key, for the name. -/
def checkRateLimit (r : Rule) : RuleProgram (Except Exn Unit) := do
  let byId ← request (.isAllowed r.rateLimiter (toString r.id))
  let allowed ← r.allowedByName byId
  return if allowed then .ok ()
    else .error (.rateLimit ("Rate limit exceeded for rule '" ++ r.displayName ++ "'"))

/-- `cacheDuration.has_value() && cacheDuration->count() > 0`. -/
def isCaching (r : Rule) : Bool :=
  r.cacheDuration.any fun d ↦ 0 < d

/-- `Rule::storeInCache`. -/
def storeInCache (parameters : List RuleParameter) (r : Rule) (result : RuleResult) :
    RuleProgram Unit :=
  if r.isCaching then request (.storeInCache r.toRuleFields parameters result) else pure ()

/-- The cache lookup at the start of `Rule::execute`. -/
def lookupCache (parameters : List RuleParameter) (r : Rule) : RuleProgram (Option RuleResult) :=
  if r.isCaching then request (.lookupCache r.toRuleFields parameters) else pure none

/-- Store the results of the children in the context, each under the key of its rule. -/
def publishChildren (context : ContextPtr) : List Rule → List RuleResult → RuleProgram Unit
  | child :: children, result :: results => do
    request (.setResult context child.resultKey result)
    publishChildren context children results
  | _, _ => pure ()

/-- How the `try` block of `Rule::execute` ends. -/
inductive Ending
  /-- Through `setFailure` and an early return. -/
  | failed (message : String)
  | thrown (e : Exn)
  | completed

section Execute

variable (engine : EnginePtr) (context : ContextPtr) (parameters : List RuleParameter)

/-- Step 2 of `Rule::execute`: a rule without an expression passes. -/
def checkExpression (r : Rule) : RuleProgram (Except Exn Bool) :=
  if r.expression ≠ "" then r.evaluateExpression engine context parameters else pure (.ok true)

/-- Step 3 of `Rule::execute`. -/
def performAction (r : Rule) : RuleProgram (Except Exn Bool) :=
  if r.action ≠ "" then r.executeAction engine context parameters else pure (.ok true)

/-- The two Lua steps: the expression, then the action. -/
def evaluate (r : Rule) : RuleProgram Ending := do
  match ← r.checkExpression engine context parameters with
  | .error e => return .thrown e
  | .ok false => return .failed "Expression evaluated to false"
  | .ok true =>
    match ← r.performAction engine context parameters with
    | .error e => return .thrown e
    | .ok _ => return .completed

/-- The `try` block: limiter, parameter types, children, expression, action. It also returns the
results of the children, which are part of the result however the block ends. -/
def attempt (r : Rule) (executeChildren : RuleProgram (List RuleResult)) :
    RuleProgram (List RuleResult × Ending) := do
  match ← r.checkRateLimit with
  | .error e => return ([], .thrown e)
  | .ok _ =>
    match ParameterValidator.validateTypes parameters with
    | .error message => return ([], .thrown (.standard message))
    | .ok _ => do
      -- `childResults` is assigned before the results are looked at, so every ending has it
      let childResults ← executeChildren
      publishChildren context r.childRules childResults
      match childResults.find? fun c ↦ !c.isSuccess with
      | some c => return (childResults, .failed ("Child rule " ++ c.ruleName ++ " failed"))
      | none => do
        let ending ← r.evaluate engine context parameters
        return (childResults, ending)

end Execute

/-- The `catch` clauses: what they record and leave as the last error, and the message they store in
the result. -/
def handleException (context : ContextPtr) (r : Rule) : Exn → RuleProgram String
  | .rateLimit m => do
    request (.setLastError context r.resultKey ("Rate limit exceeded: " ++ cStr m))
    request (.recordExecution { success := false, rateLimited := true })
    return cStr m
  | .timeout m => do
    request (.setLastError context r.resultKey ("Timeout: " ++ cStr m))
    request (.recordExecution { success := false, timedOut := true })
    return cStr m
  | .rule m => do
    request (.recordExecution { success := false })
    request (.setLastError context r.resultKey (cStr m))
    return cStr m
  | .standard m => do
    request (.recordExecution { success := false })
    request (.setLastError context r.resultKey (cStr m))
    return cStr m
  | .unknown => do
    request (.recordExecution { success := false })
    request (.setLastError context r.resultKey "Unknown exception")
    return "Unknown exception during rule execution"

section Execute

variable (engine : EnginePtr) (context : ContextPtr) (parameters : List RuleParameter)

/-- What follows the `try` block unless it returned: metrics, publication, cache. -/
def conclude (r : Rule) (startTime : Time) (result : RuleResult) : RuleProgram RuleResult := do
  -- the last error is not touched here: a success leaves the one of an earlier execution
  let endTime ← request .now
  let result := { result with
    metrics := {
      evaluationCount := 1
      failureCount := if result.success then 0 else 1
      totalExecutionTime := endTime - startTime
      lastExecuted := endTime } }
  request (.recordExecutionTime (endTime - startTime))
  request (.setResult context r.resultKey result)
  r.storeInCache parameters result
  return result

/-- The early return, the `catch` clauses and the normal end. -/
def settle (r : Rule) (startTime : Time) (result : RuleResult) : Ending → RuleProgram RuleResult
  | .failed message => do
    let result := { result with success := false, exception := some message }
    request (.recordExecution { success := false })
    r.storeInCache parameters result
    request (.setResult context r.resultKey result)
    return result
  | .thrown e => do
    let message ← r.handleException context e
    r.conclude context parameters startTime
      { result with success := false, exception := some message }
  | .completed => do
    request (.recordExecution { success := true })
    r.conclude context parameters startTime { result with success := true }

/-- `Rule::execute` after the cache lookup. -/
def executeUncached (r : Rule) (executeChildren : RuleProgram (List RuleResult)) :
    RuleProgram RuleResult := do
  let executedAt ← request .now
  let result : RuleResult := { ruleName := r.name, ruleId := r.id, executedAt }
  if r.isActive then
    let startTime ← request .now
    let (childResults, ending) ← r.attempt engine context parameters executeChildren
    r.settle context parameters startTime { result with childResults } ending
  else
    -- no execution is recorded, and nothing is published or stored
    return { result with success := false, skipped := true }

/-- `Rule::execute`, given how its children are executed. -/
def executeWith (r : Rule) (executeChildren : RuleProgram (List RuleResult)) :
    RuleProgram RuleResult := do
  match ← r.lookupCache parameters with
  | some result => do
    request (.recordExecution { success := result.isSuccess, cached := true })
    return result
  | none => r.executeUncached engine context parameters executeChildren

end Execute

end Rule

section Execute

variable (engine : EnginePtr) (context : ContextPtr) (parameters : List RuleParameter)

mutual

/-- `Rule::execute`. -/
def Rule.execute : Rule → RuleProgram RuleResult
  | ⟨fields, children⟩ =>
    Rule.executeWith engine context parameters ⟨fields, children⟩ (executeRules children)

/-- `Rule::executeChildRules`: all of them, in order. -/
def executeRules : List Rule → RuleProgram (List RuleResult)
  | [] => return []
  | child :: children => do
    let result ← Rule.execute child
    let results ← executeRules children
    return result :: results

end

theorem Rule.execute_eq (r : Rule) :
    r.execute engine context parameters =
      r.executeWith engine context parameters
        (executeRules engine context parameters r.childRules) := by
  cases r
  rfl

end Execute

end FastRules
