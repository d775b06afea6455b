import FastRules.Rule.World
import Mathlib.Order.Basic

/-!
# Timeouts

The deadline of an evaluation can be noticed at two places: by the count hook, which raises a Lua
error in the chunk, and by the check after the chunk has ended. `World` leaves open how the engine
and the clock answer; here they are given: a chunk that may be interrupted by the hook, and the
instants at which the things happen that the clock matters for.

The error of the hook, unless the chunk catches it, reaches `Rule::execute` as the
`std::runtime_error` that the backend makes of every Lua error. So a deadline that passes while the
chunk runs is reported as a timeout exactly if the chunk ends without an error
(`timeout_reported_iff`).
-/

namespace FastRules

open Program

/-! ### Chunks and the hook -/

/-- What a running chunk asks for: a result of the context, or, every 1000 instructions, whether the
hook raises its error. -/
inductive ChunkOp
  | getResult (key : String)
  | hook

abbrev ChunkOp.Ans : ChunkOp → Type
  | getResult _ => LuaView
  | hook => Bool

/-- A compiled chunk. An error of the hook is one that the chunk may catch, or end with. -/
abbrev LuaChunk := Program ChunkOp ChunkOp.Ans (Except String Bool)

namespace LuaChunk

section Run

variable (lookup : String → LuaView) (deadline : Option Time) (clock : ℕ → Time)

/-- The hook at the instant `n`: `g_deadline != nullptr && steady_clock::now() > *g_deadline`. -/
def hookRaises (n : ℕ) : Bool :=
  deadline.any fun d ↦ d < clock n

/-- The chunk with its hooks answered by the clock, from the instant `n` on. -/
def script : ℕ → LuaChunk → LuaScript
  | _, .ret outcome => .ret outcome
  | n, .ask (.getResult key) next => .ask key fun view ↦ script n (next view)
  | n, .ask .hook next => script (n + 1) (next (hookRaises deadline clock n))

/-- The instant at which the chunk ends, if its lookups are answered like this. -/
def endOf : ℕ → LuaChunk → List LuaView → ℕ
  | n, .ret _, _ => n
  | n, .ask (.getResult _) _, [] => n
  | n, .ask (.getResult _) next, view :: views => endOf n (next view) views
  | n, .ask .hook next, views => endOf (n + 1) (next (hookRaises deadline clock n)) views

/-- How the chunk ends, and at which instant. -/
def runFrom : ℕ → LuaChunk → Except String Bool × ℕ
  | n, .ret outcome => (outcome, n)
  | n, .ask (.getResult key) next => runFrom n (next (lookup key))
  | n, .ask .hook next => runFrom (n + 1) (next (hookRaises deadline clock n))

end Run

end LuaChunk

/-! ### Engines with a clock -/

/-- What the engines remember: everything that does not matter here, how many instants have passed,
and the evaluation in progress. -/
structure TimedState (S : Type) where
  rest : S
  instants : ℕ := 0
  /-- `g_deadline`. -/
  deadline : Option Time := none
  running : Option LuaChunk := none

/-- Engines and limiters that answer as they like, with a clock that does not go back. -/
structure TimedEngines (S : Type) where
  clock : ℕ → Time
  monotone : ∀ ⦃m n : ℕ⦄, m ≤ n → clock m ≤ clock n
  isAllowed : Option LimiterPtr → String → S → Bool × S
  findExpression : EnginePtr → Rule → List RuleParameter → S → Except Exn (Option LuaChunk) × S
  findAction : EnginePtr → Rule → List RuleParameter → S → Except Exn (Option LuaChunk) × S
  cacheOrder : HashOrder (String × CacheEntry)

namespace TimedEngines

variable {S : Type} (x : TimedEngines S)

/-- `steady_clock::now() + timeout`, for a timeout that is set and positive. -/
def deadlineFor (timeout : Option Int) (n : ℕ) : Option Time :=
  (timeout.filter fun t ↦ 0 < t).map fun t ↦ x.clock n + t * 1000000

/-- A chunk that was found is started, with the deadline set. -/
def start (timeout : Option Int) (e : TimedState S) :
    Except Exn (Option LuaChunk) × S → Except Exn (Option LuaScript) × TimedState S
  | (.error exn, rest) => (.error exn, { e with rest })
  | (.ok none, rest) => (.ok none, { e with rest })
  | (.ok (some chunk), rest) =>
    let deadline := x.deadlineFor timeout e.instants
    (.ok (some (chunk.script deadline x.clock (e.instants + 1))),
      { rest, instants := e.instants + 1, deadline, running := some chunk })

/-- How they answer requests. The end of a chunk is an instant of its own. -/
def environment : Environment (TimedState S) where
  now e := (x.clock e.instants, { e with instants := e.instants + 1 })
  isAllowed limiter key e :=
    ((x.isAllowed limiter key e.rest).1, { e with rest := (x.isAllowed limiter key e.rest).2 })
  beginExpression engine rule parameters e :=
    x.start rule.timeout e (x.findExpression engine rule parameters e.rest)
  beginAction engine rule parameters e :=
    x.start rule.timeout e (x.findAction engine rule parameters e.rest)
  endScript _ answers e :=
    match e.running with
    | none => e
    | some chunk =>
      { e with instants := chunk.endOf e.deadline x.clock e.instants answers + 1, running := none }
  deadlinePassed _ _ e :=
    (e.deadline.any fun d ↦ d < x.clock e.instants, { e with instants := e.instants + 1 })
  cacheOrder := x.cacheOrder

end TimedEngines

/-! ### One evaluation -/

/-- The two Lua steps of a rule. -/
inductive LuaStep
  | expression
  | action

section Steps

variable {S : Type} (x : TimedEngines S) (engine : EnginePtr) (context : ContextPtr)
  (parameters : List RuleParameter) (r : Rule)

/-- The lookup of a chunk in the context. -/
def World.lookup {E : Type} (w : World E) (context : ContextPtr) (key : String) : LuaView :=
  luaView key ((w.contexts context).results key)

/-- `Rule::evaluateExpression` or `Rule::executeAction`. -/
def Rule.luaStep : LuaStep → RuleProgram (Except Exn Bool)
  | .expression => r.evaluateExpression engine context parameters
  | .action => r.executeAction engine context parameters

/-- The chunk of the step. -/
def TimedEngines.find : LuaStep → S → Except Exn (Option LuaChunk) × S
  | .expression => x.findExpression engine r parameters
  | .action => x.findAction engine r parameters

/-- What the backend puts before the message of a Lua error. -/
def LuaStep.errorLabel : LuaStep → String
  | .expression => "Expression evaluation failed: "
  | .action => "Action execution failed: "

variable {x engine context parameters r}

/-- Running a chunk leaves the world alone, and the lookups tell when it ends. -/
theorem runScript_script (chunk : LuaChunk) (deadline : Option Time) (n : ℕ)
    (w : World (TimedState S)) :
    ∃ answers, (runScript context (chunk.script deadline x.clock n)).run x.environment.handle w =
        (((chunk.runFrom (w.lookup context) deadline x.clock n).1, answers), w) ∧
      chunk.endOf deadline x.clock n answers =
        (chunk.runFrom (w.lookup context) deadline x.clock n).2 := by
  induction chunk generalizing n with
  | ret outcome => exact ⟨[], rfl, rfl⟩
  | ask op next ih =>
    cases op with
    | getResult key =>
      obtain ⟨answers, hrun, hend⟩ := ih (w.lookup context key) n
      refine ⟨w.lookup context key :: answers, ?_, hend⟩
      show ((runScript context
        (LuaChunk.script deadline x.clock n (next (w.lookup context key))) >>=
        fun y ↦ pure (y.1, w.lookup context key :: y.2)).run x.environment.handle w) = _
      rw [run_bind, hrun]
      rfl
    | hook => exact ih _ (n + 1)

/-- What an evaluation whose deadline passes before the chunk has ended leaves with. -/
def lateOutcome (label : String) (t : Int) : Except String Bool → Exn
  | .error message => .standard (label ++ message)
  | .ok _ => .timeout ("Rule execution timed out after " ++ toString t ++ "ms")

/-- Whatever the hook did, the check after the chunk is only made if the chunk ended normally. -/
theorem evaluateScript_late {w : World (TimedState S)} {chunk : LuaChunk}
    (hrunning : w.env.running = some chunk) {t : Int} (ht : 0 < t) (label : String) {d : Time}
    (hdeadline : w.env.deadline = some d)
    (hlate : d < x.clock
      (chunk.runFrom (w.lookup context) w.env.deadline x.clock w.env.instants).2) :
    ((evaluateScript engine context (some t) label
      (chunk.script w.env.deadline x.clock w.env.instants)).run x.environment.handle w).1 =
    .error (lateOutcome label t
      (chunk.runFrom (w.lookup context) w.env.deadline x.clock w.env.instants).1) := by
  obtain ⟨answers, hrun, hend⟩ :=
    @runScript_script S x context chunk w.env.deadline w.env.instants w
  generalize chunk.runFrom (w.lookup context) w.env.deadline x.clock w.env.instants = ended at *
  obtain ⟨outcome, n⟩ := ended
  have hpositive : (some t).filter (fun t ↦ 0 < t) = some t := by simp [ht]
  rw [evaluateScript, run_bind, hrun, hpositive]
  dsimp only
  rw [run_bind]
  rcases outcome with message | truthy
  · rfl
  · -- the check comes after the end of the chunk, and the clock does not go back
    have hafter : d < x.clock (n + 1) := lt_of_lt_of_le hlate (x.monotone (Nat.le_succ n))
    have hended : ((request (.endScript engine answers)).run x.environment.handle w).2.env =
        { w.env with instants := n + 1, running := none } := by
      show x.environment.endScript engine answers w.env = _
      simp only [TimedEngines.environment, hrunning, hend]
    generalize ((request (.endScript engine answers)).run x.environment.handle w).2 = w' at *
    have hpassed : ((request (.deadlinePassed engine t)).run x.environment.handle w').1 = true := by
      show w'.env.deadline.any (fun d ↦ d < x.clock w'.env.instants) = true
      rw [hended, hdeadline]
      exact decide_eq_true hafter
    rw [run_bind, hpassed]
    rfl

/-- The step is made with the deadline set, and it passes before the chunk has ended. -/
structure TimesOut (x : TimedEngines S) (engine : EnginePtr) (context : ContextPtr)
    (parameters : List RuleParameter) (r : Rule) (k : LuaStep) (w : World (TimedState S))
    (chunk : LuaChunk) (t : Int) : Prop where
  found : (x.find engine parameters r k w.env.rest).1 = .ok (some chunk)
  timeout : r.timeout = some t
  positive : 0 < t
  late : x.clock w.env.instants + t * 1000000 < x.clock (chunk.runFrom (w.lookup context)
    (some (x.clock w.env.instants + t * 1000000)) x.clock (w.env.instants + 1)).2

/-- How the chunk of a step that times out ends. -/
def TimedEngines.ending (x : TimedEngines S) (context : ContextPtr) (w : World (TimedState S))
    (chunk : LuaChunk) (t : Int) : Except String Bool :=
  (chunk.runFrom (w.lookup context) (some (x.clock w.env.instants + t * 1000000)) x.clock
    (w.env.instants + 1)).1

section TimesOut

variable {k : LuaStep} {w : World (TimedState S)} {chunk : LuaChunk} {t : Int}

/-- The chunk that was found is started with the deadline set. -/
theorem TimesOut.start_eq (h : TimesOut x engine context parameters r k w chunk t) :
    x.start r.timeout w.env (x.find engine parameters r k w.env.rest) =
      (.ok (some (chunk.script (some (x.clock w.env.instants + t * 1000000)) x.clock
        (w.env.instants + 1))),
        { rest := (x.find engine parameters r k w.env.rest).2
          instants := w.env.instants + 1
          deadline := some (x.clock w.env.instants + t * 1000000)
          running := some chunk }) := by
  have hdeadline : x.deadlineFor r.timeout w.env.instants =
      some (x.clock w.env.instants + t * 1000000) := by
    simp [TimedEngines.deadlineFor, h.timeout, h.positive]
  have hfound : x.find engine parameters r k w.env.rest =
      (.ok (some chunk), (x.find engine parameters r k w.env.rest).2) := Prod.ext h.found rfl
  rw [hfound, TimedEngines.start, hdeadline]

theorem TimesOut.runChunk_late (h : TimesOut x engine context parameters r k w chunk t)
    (label : String) :
    ((runChunk engine context r.timeout label
        (x.start r.timeout w.env (x.find engine parameters r k w.env.rest)).1).run
      x.environment.handle
      { w with env := (x.start r.timeout w.env (x.find engine parameters r k w.env.rest)).2 }).1 =
      .error (lateOutcome label t (x.ending context w chunk t)) := by
  rw [h.start_eq, h.timeout]
  let w' : World (TimedState S) := { w with env := {
    rest := (x.find engine parameters r k w.env.rest).2
    instants := w.env.instants + 1
    deadline := some (x.clock w.env.instants + t * 1000000)
    running := some chunk } }
  exact evaluateScript_late (x := x) (w := w') rfl h.positive label rfl h.late

/-- How the step leaves. -/
theorem TimesOut.luaStep_eq (h : TimesOut x engine context parameters r k w chunk t) :
    ((r.luaStep engine context parameters k).run x.environment.handle w).1 =
      .error (lateOutcome k.errorLabel t (x.ending context w chunk t)) := by
  cases k with
  | expression =>
    rw [Rule.luaStep, evaluateExpression_eq, run_bind]
    exact h.runChunk_late _
  | action =>
    rw [Rule.luaStep, executeAction_eq, run_bind]
    exact h.runChunk_late _

end TimesOut

end Steps

/-! ### The catch clauses -/

/-- What the `catch` clause of an exception counts. -/
def Exn.record : Exn → ExecutionRecord
  | .rateLimit _ => { success := false, rateLimited := true }
  | .timeout _ => { success := false, timedOut := true }
  | _ => { success := false }

section Catch

variable {E : Type} {env : Environment E} {engine : EnginePtr} {context : ContextPtr}
  {parameters : List RuleParameter} {r : Rule} {w : World E}

/-- The request does not count an execution. -/
def Op.CountsNothing : Op → Prop
  | recordExecution _ => False
  | _ => True

theorem run_executions {α : Type} {p : RuleProgram α} (hp : Asks Op.CountsNothing p) :
    (p.run env.handle w).2.executions = w.executions := by
  let Uncounted (w' : World E) : Prop := w'.executions = w.executions
  have hw : Uncounted w := rfl
  refine hp.run_invariant (fun op w' hop hw' ↦ ?_) hw
  show _ = w.executions
  rw [← (show w'.executions = w.executions from hw')]
  cases op with
  | lookupCache rule parameters =>
    show (env.lookupCache rule parameters w').2.executions = _
    rcases env.lookupCache_cases rule parameters w' with h | ⟨entry, h, hlive | hlive⟩
    · rw [env.lookupCache_missing h]
    · rw [env.lookupCache_live h hlive]
    · rw [env.lookupCache_stale h hlive]
      rfl
  | recordExecution record => exact absurd hop id
  | _ => rfl

theorem Op.Evaluates.countsNothing {op : Op} (h : op.Evaluates engine context r) :
    op.CountsNothing := by
  cases op <;> trivial

theorem storeInCache_countsNothing (result : RuleResult) :
    Asks Op.CountsNothing (r.storeInCache parameters result) := by
  rw [Rule.storeInCache]
  split_ifs
  · exact asks_request.2 trivial
  · trivial

theorem conclude_countsNothing (startTime : Time) (result : RuleResult) :
    Asks Op.CountsNothing (r.conclude context parameters startTime result) :=
  ⟨trivial, fun _ ↦ ⟨trivial, fun _ ↦ ⟨trivial, fun _ ↦
    (storeInCache_countsNothing _).bind fun _ ↦ trivial⟩⟩⟩

/-- An exception counts one execution, and the result has failed. -/
theorem settle_thrown (startTime : Time) (result : RuleResult) (e : Exn) :
    ((r.settle context parameters startTime result (.thrown e)).run env.handle w).1.success =
      false ∧
      ((r.settle context parameters startTime result (.thrown e)).run env.handle w).2.executions =
        e.record :: w.executions := by
  have hhandled : ((r.handleException context e).run env.handle w).2.executions =
      e.record :: w.executions := by
    cases e <;> rfl
  have hsuccess (result' : RuleResult) (w' : World E) :
      ((r.conclude context parameters startTime result').run env.handle w').1.success =
        result'.success := by
    simp only [Rule.conclude, request, run_bind, run_pure]
  rw [Rule.settle, run_bind, hsuccess]
  exact ⟨rfl, (run_executions (conclude_countsNothing startTime _)).trans hhandled⟩

end Catch

/-! ### Executions that come to a step -/

section Execution

variable {S : Type} (x : TimedEngines S) (engine : EnginePtr) (context : ContextPtr)
  (parameters : List RuleParameter) (r : Rule)

/-- Executing the rule in `w` comes to the Lua steps in `w₁`, and to the step `k` in `w₂`. -/
def ComesTo (k : LuaStep) (w w₂ : World (TimedState S)) : Prop :=
  ∃ w₁ startTime result,
    Steps (fun op s a s' ↦ x.environment.handle op s = (a, s'))
      (r.execute engine context parameters, w)
      ((r.evaluate engine context parameters >>= fun ending ↦
        r.settle context parameters startTime result ending), w₁) ∧
    match k with
    | .expression => r.expression ≠ "" ∧ w₂ = w₁
    | .action => r.action ≠ "" ∧
        (r.checkExpression engine context parameters).run x.environment.handle w₁ = (.ok true, w₂)

/-- The timeout is reported as one: the step leaves with a `RuleTimeoutException`, the result of the
rule has failed, and one execution is counted, as timed out. -/
structure ReportsTimeout (k : LuaStep) (w w₂ : World (TimedState S)) (t : Int) : Prop where
  thrown : ((r.luaStep engine context parameters k).run x.environment.handle w₂).1 =
    .error (.timeout ("Rule execution timed out after " ++ toString t ++ "ms"))
  failed : ((r.execute engine context parameters).run x.environment.handle w).1.success = false
  counted : ((r.execute engine context parameters).run x.environment.handle w).2.executions =
    { success := false, timedOut := true } :: w₂.executions

variable {x engine context parameters r} {k : LuaStep} {w w₂ : World (TimedState S)}

theorem luaStep_executions :
    ((r.luaStep engine context parameters k).run x.environment.handle w).2.executions =
      w.executions := by
  cases k with
  | expression =>
    exact run_executions ((evaluateExpression_asks engine context parameters r).mono
      fun _ ↦ Op.Evaluates.countsNothing)
  | action =>
    exact run_executions ((executeAction_asks engine context parameters r).mono
      fun _ ↦ Op.Evaluates.countsNothing)

/-- An exception that a step leaves with ends the execution. -/
theorem ComesTo.execute_of_error (h : ComesTo x engine context parameters r k w w₂) {e : Exn}
    (he : ((r.luaStep engine context parameters k).run x.environment.handle w₂).1 = .error e) :
    ((r.execute engine context parameters).run x.environment.handle w).1.success = false ∧
      ((r.execute engine context parameters).run x.environment.handle w).2.executions =
        e.record :: w₂.executions := by
  obtain ⟨w₁, startTime, result, hsteps, hk⟩ := h
  have hevaluate : (r.evaluate engine context parameters).run x.environment.handle w₁ =
      (.thrown e, ((r.luaStep engine context parameters k).run x.environment.handle w₂).2) := by
    cases k with
    | expression =>
      obtain ⟨hnonempty, rfl⟩ := hk
      have hstep : (r.evaluateExpression engine context parameters).run x.environment.handle w₂ =
          (.error e, _) := Prod.ext he rfl
      rw [Rule.evaluate, Rule.checkExpression, if_pos hnonempty, run_bind, hstep]
      rfl
    | action =>
      obtain ⟨hnonempty, hpassed⟩ := hk
      have hstep : (r.executeAction engine context parameters).run x.environment.handle w₂ =
          (.error e, _) := Prod.ext he rfl
      rw [Rule.evaluate, run_bind, hpassed]
      dsimp only
      rw [Rule.performAction, if_pos hnonempty, run_bind, hstep]
      rfl
  rw [hsteps.run_eq, run_bind, hevaluate, ← luaStep_executions (x := x) (r := r) (k := k) (w := w₂)]
  exact settle_thrown startTime result e

/-- A deadline that passes while the chunk of the expression or the action runs is reported as a
timeout exactly if the chunk ends without an error. -/
theorem timeout_reported_iff (hcomes : ComesTo x engine context parameters r k w w₂)
    {chunk : LuaChunk} {t : Int} (h : TimesOut x engine context parameters r k w₂ chunk t) :
    ReportsTimeout x engine context parameters r k w w₂ t ↔
      (x.ending context w₂ chunk t).isOk = true := by
  have hleaves := h.luaStep_eq
  constructor
  · intro hreports
    rw [hreports.thrown] at hleaves
    generalize x.ending context w₂ chunk t = ending at *
    rcases ending with message | truthy
    · exact absurd (Except.error.inj hleaves) (by simp [lateOutcome])
    · rfl
  · intro hok
    generalize x.ending context w₂ chunk t = ending at *
    rcases ending with message | truthy
    · exact absurd hok Bool.false_ne_true
    · obtain ⟨hfailed, hcounted⟩ := hcomes.execute_of_error hleaves
      exact ⟨hleaves, hfailed, hcounted⟩

end Execution

/-! ### Examples -/

/-- A rule with a second to evaluate its expression. -/
def slowRule : Rule :=
  { id := 1, expression := "work()", timeout := some 1000 }

/-- Two seconds pass between any two instants. -/
def slowEngines (chunk : LuaChunk) : TimedEngines Unit where
  clock n := 2000000000 * (n : Int)
  monotone m n hmn := by
    show 2000000000 * (m : Int) ≤ 2000000000 * (n : Int)
    omega
  isAllowed _ _ s := (true, s)
  findExpression _ _ _ s := (.ok (some chunk), s)
  findAction _ _ _ s := (.ok none, s)
  cacheOrder := .insertion _

/-- A world after so many instants. -/
def worldAt (n : ℕ) : World (TimedState Unit) :=
  { env := { rest := (), instants := n } }

theorem slowRule_comesTo (chunk : LuaChunk) :
    ComesTo (slowEngines chunk) 0 0 [] slowRule .expression (worldAt 0) (worldAt 2) := by
  refine ⟨worldAt 2, 2000000000, { ruleId := 1 }, ?_, by decide, rfl⟩
  refine .head (.ask rfl) (.head (.ask rfl) (.head (.ask rfl) ?_))
  show Steps _ ((slowRule.evaluate 0 0 [] >>= fun ending ↦ pure ([], ending)) >>= fun y ↦
    slowRule.settle 0 [] 2000000000 { ruleId := 1, childResults := y.1 } y.2, worldAt 2) _
  rw [bind_bind]
  exact .refl

/-- A chunk without a loop is late, and reported so. -/
theorem slowRule_reported :
    TimesOut (slowEngines (.ret (.ok true))) 0 0 [] slowRule .expression (worldAt 2)
        (.ret (.ok true)) 1000 ∧
      ReportsTimeout (slowEngines (.ret (.ok true))) 0 0 [] slowRule .expression (worldAt 0)
        (worldAt 2) 1000 := by
  have htimes : TimesOut (slowEngines (.ret (.ok true))) 0 0 [] slowRule .expression (worldAt 2)
      (.ret (.ok true)) 1000 := ⟨rfl, rfl, by decide, by decide⟩
  exact ⟨htimes, (timeout_reported_iff (slowRule_comesTo _) htimes).2 rfl⟩

/-- A chunk that the hook aborts. -/
def abortedChunk : LuaChunk :=
  .ask .hook fun raised ↦
    .ret (if raised then .error "[string \"while true do end\"]:1: execution timed out"
      else .ok true)

/-- Its timeout is reported as any other failure. -/
theorem slowRule_not_reported :
    TimesOut (slowEngines abortedChunk) 0 0 [] slowRule .expression (worldAt 2) abortedChunk 1000 ∧
      ((slowRule.execute 0 0 []).run (slowEngines abortedChunk).environment.handle
        (worldAt 0)).2.executions = [{ success := false, timedOut := false }] ∧
      ¬ReportsTimeout (slowEngines abortedChunk) 0 0 [] slowRule .expression (worldAt 0) (worldAt 2)
        1000 := by
  have htimes : TimesOut (slowEngines abortedChunk) 0 0 [] slowRule .expression (worldAt 2)
      abortedChunk 1000 := ⟨rfl, rfl, by decide, by decide⟩
  obtain ⟨-, hcounted⟩ := (slowRule_comesTo abortedChunk).execute_of_error htimes.luaStep_eq
  have hending : (slowEngines abortedChunk).ending 0 (worldAt 2) abortedChunk 1000 =
      .error "[string \"while true do end\"]:1: execution timed out" := rfl
  rw [hending] at hcounted
  refine ⟨htimes, hcounted, fun hreports ↦ ?_⟩
  have htimedOut := hreports.counted
  rw [hcounted] at htimedOut
  exact absurd htimedOut (by decide)

end FastRules
