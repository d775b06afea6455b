import FastRules.Session.Evaluation

/-!
# Failing closed

Where a rule has a text, `Rule::execute` is to go on only after the engine has evaluated the chunk
compiled from it. It asks for the reference and takes `-1` for no text, but `-1` is also what it
gets if the record was put out of date while it was made, by a reset of the engine within the
compilation. So a step fails closed unless the rule has to be compiled for it, compiles, and the
engine is reset meanwhile (`failsClosedAt_iff`), and an execution fails closed unless this happens
in one of its steps (`execute_failsClosed_iff`).
-/

namespace FastRules

open Program

/-! ### Steps -/

/-- The value lets the rule go on: an expression has to be true, the value of an action is ignored.
-/
def ChunkKind.accepts : ChunkKind → Bool → Bool
  | expression, truthy => truthy
  | action, _ => true

/-- What the message of an error in the chunk begins with. -/
def ChunkKind.failureLabel : ChunkKind → String
  | expression => "Expression evaluation failed: "
  | action => "Action execution failed: "

/-- `Rule::evaluateExpression` or `Rule::executeAction`. -/
def Rule.evaluateChunk (kind : ChunkKind) (engine : EnginePtr) (context : ContextPtr)
    (parameters : List RuleParameter) (r : Rule) : RuleProgram (Except Exn Bool) :=
  match kind with
  | .expression => r.evaluateExpression engine context parameters
  | .action => r.executeAction engine context parameters

/-- The record of the rule is not put out of date while it is made for this step: there is no reset
within a compilation that comes to its end. -/
def Session.KeepsRecord (lib : LuaLibrary) (kind : ChunkKind) (engine : EnginePtr) (r : Rule)
    (s : Session) : Prop :=
  LuaEngine.nothingIn ⟨kind, r.sourceOf kind⟩ = false →
    ((r.ensureCompiledFor lib engine).run (Session.handle lib) s).1 = .ok () →
    Guarded (Session.handle lib) Session.NoReset (r.ensureCompiledFor lib engine) s

instance (lib : LuaLibrary) (kind : ChunkKind) (engine : EnginePtr) (r : Rule) (s : Session) :
    Decidable (s.KeepsRecord lib kind engine r) :=
  inferInstanceAs (Decidable (_ → _ → _))

namespace Surroundings

variable {E : Type} (x : Surroundings E)

section Steps

variable (kind : ChunkKind) (engine : EnginePtr) (context : ContextPtr)
  (parameters : List RuleParameter) (r : Rule)

/-- The engine has, in its present state, the chunk compiled from the present text of the rule, it
has called it with the parameters, and the chunk has come to this value. -/
def Evaluated (truthy : Bool) (w : World (E × Session)) : Prop :=
  ∃ k s script e,
    (r.getRef x.lib engine kind).run (Session.handle x.lib) w.env.2 = (.ok (some k), s) ∧
    (s.engines engine).chunks k = some ⟨kind, r.sourceOf kind⟩ ∧
    x.launch engine ⟨kind, r.sourceOf kind⟩ parameters w.env.1 = (.ok script, e) ∧
    ((runScript context script).run x.environment.handle { w with env := (e, s) }).1.1 = .ok truthy

/-- If the rule has a text, the step is passed only by evaluating it. -/
def FailsClosedAt (w : World (E × Session)) : Prop :=
  LuaEngine.nothingIn ⟨kind, r.sourceOf kind⟩ = false → ∀ truthy, kind.accepts truthy = true →
    ((r.evaluateChunk kind engine context parameters).run x.environment.handle w).1 = .ok truthy →
    x.Evaluated kind engine context parameters r truthy w

end Steps

/-- The steps of an execution that begin with this request are passed only by evaluating a text. -/
def FailsClosed (context : ContextPtr) : Op → World (E × Session) → Prop
  | .beginExpression engine r parameters, w =>
    x.FailsClosedAt .expression engine context parameters r w
  | .beginAction engine r parameters, w => x.FailsClosedAt .action engine context parameters r w
  | _, _ => True

/-- The steps of an execution that begin with this request keep the record of the rule. -/
def KeepsRecord : Op → World (E × Session) → Prop
  | .beginExpression engine r _, w => w.env.2.KeepsRecord x.lib .expression engine r
  | .beginAction engine r _, w => w.env.2.KeepsRecord x.lib .action engine r
  | _, _ => True

instance : (op : Op) → (w : World (E × Session)) → Decidable (x.KeepsRecord op w)
  | .beginExpression engine r _, w =>
    inferInstanceAs (Decidable (w.env.2.KeepsRecord x.lib .expression engine r))
  | .beginAction engine r _, w =>
    inferInstanceAs (Decidable (w.env.2.KeepsRecord x.lib .action engine r))
  | .lookupCache _ _, _ | .storeInCache _ _ _, _ | .now, _ | .isAllowed _ _, _
  | .recordExecution _, _ | .recordExecutionTime _, _ | .getResult _ _, _ | .setResult _ _ _, _
  | .setLastError _ _ _, _ | .endScript _ _, _ | .deadlinePassed _ _, _ | .acquireEngine, _
  | .releaseEngine _, _ => isTrue trivial

variable {x} {S : Set RuleFields} {w : World (E × Session)} {kind : ChunkKind} {engine : EnginePtr}
  {context : ContextPtr} {parameters : List RuleParameter} {r : Rule}

/-! ### One step -/

theorem run_evaluateChunk : (r.evaluateChunk kind engine context parameters).run
    x.environment.handle w = (runChunk engine context r.timeout kind.failureLabel
      (x.beginChunk kind engine r parameters w.env).1).run x.environment.handle
        { w with env := (x.beginChunk kind engine r parameters w.env).2 } := by
  cases kind with
  | expression =>
    rw [Rule.evaluateChunk, evaluateExpression_eq, run_bind]
    rfl
  | action =>
    rw [Rule.evaluateChunk, executeAction_eq, run_bind]
    rfl

/-- A call ends with a value only if the chunk does. -/
theorem run_evaluateScript_ok {timeout : Option Int} {label : String} {script : LuaScript}
    {truthy : Bool}
    (h : ((evaluateScript engine context timeout label script).run x.environment.handle w).1 =
      .ok truthy) :
    ((runScript context script).run x.environment.handle w).1.1 = .ok truthy := by
  rw [evaluateScript, run_bind] at h
  rcases hrun : (runScript context script).run x.environment.handle w with ⟨⟨outcome, answers⟩, w'⟩
  rw [hrun] at h
  dsimp only at h
  rcases outcome with message | b
  · cases h
  · rcases hdeadline : timeout.filter fun t ↦ 0 < t with - | t
    · simp only [hdeadline, run_bind, run_pure] at h
      exact congrArg _ (Except.ok.inj h)
    · simp only [hdeadline, run_bind, run_pure] at h
      split_ifs at h with hlate
      exact congrArg _ (Except.ok.inj h)

/-- The chunk that is found is called. -/
theorem beginChunk_of_chunk {k : ℕ} {s : Session} {chunk : Chunk} {outcome : Except Exn LuaScript}
    {e : E} (hfound : (r.getRef x.lib engine kind).run (Session.handle x.lib) w.env.2 =
      (.ok (some k), s)) (hchunk : (s.engines engine).chunks k = some chunk)
    (hlaunch : x.launch engine chunk parameters w.env.1 = (outcome, e)) :
    x.beginChunk kind engine r parameters w.env = (outcome.map some, (e, s)) := by
  rw [beginChunk, hfound]
  simp only [call, hchunk, hlaunch]

/-- **A step fails closed** exactly if it keeps the record. -/
theorem failsClosedAt_iff (h : w.env.2.Inv x.lib S) (hS : CollisionFree x.lib S)
    (hborn : engine < w.env.2.nextInstance) (hr : ∀ q ∈ r.nodes, q.toRuleFields ∈ S)
    (hcount : ((r.getRef x.lib engine kind).run (Session.handle x.lib) w.env.2).2.resets engine <
      2 ^ 32) :
    x.FailsClosedAt kind engine context parameters r w ↔
      w.env.2.KeepsRecord x.lib kind engine r := by
  rw [FailsClosedAt, Session.KeepsRecord]
  refine forall_congr' fun hsome ↦ ?_
  have hnone := h.getRef_eq_none_iff hS hborn hr hsome hcount
  rw [run_evaluateChunk]
  rcases hfound : (r.getRef x.lib engine kind).run (Session.handle x.lib) w.env.2 with
    ⟨message | - | k, s⟩
  · -- the exception of the compilation
    rw [hfound] at hnone
    rw [beginChunk, hfound]
    refine iff_of_true (fun truthy _ hok ↦ by cases hok) fun hok ↦ ?_
    by_contra hreset
    cases hnone.2 ⟨hok, hreset⟩
  · -- no reference: the step is passed without a chunk
    rw [hfound] at hnone
    rw [beginChunk, hfound]
    obtain ⟨hok, hreset⟩ := hnone.1 rfl
    refine iff_of_false (fun hclosed ↦ ?_) fun hkept ↦ hreset (hkept hok)
    have haccepts : kind.accepts true = true := by cases kind <;> rfl
    obtain ⟨k, s', -, -, hk, -⟩ := hclosed true haccepts rfl
    cases hfound.symm.trans hk
  · have hchunk : (s.engines engine).chunks k = some ⟨kind, r.sourceOf kind⟩ := by
      have hdenotes := h.getRef_denotes hS hborn hr (congrArg Prod.fst hfound) hcount
      rwa [hfound] at hdenotes
    rw [hfound] at hnone
    refine iff_of_true (fun truthy _ hok ↦ ?_) fun hok ↦ ?_
    · rcases hlaunch : x.launch engine ⟨kind, r.sourceOf kind⟩ parameters w.env.1 with
        ⟨message | script, e⟩
      · rw [beginChunk_of_chunk hfound hchunk hlaunch] at hok
        cases hok
      · rw [beginChunk_of_chunk hfound hchunk hlaunch] at hok
        exact ⟨k, s, script, e, hfound, hchunk, hlaunch, run_evaluateScript_ok hok⟩
    · by_contra hreset
      cases hnone.2 ⟨hok, hreset⟩

/-! ### Executions -/

/-- The requests of an execution are made for the rules of its tree. -/
theorem calls_of_onBehalf {s : Session} (hborn : engine < s.nextInstance)
    (hr : ∀ q ∈ r.nodes, q.toRuleFields ∈ S) {op : Op}
    (hop : op.OnBehalf engine context r.nodes) : Calls S s op := by
  have hbelow (q : Rule) (hq : q ∈ r.nodes) : ∀ p ∈ q.nodes, p.toRuleFields ∈ S :=
    fun p hp ↦ hr p (Rule.mem_nodes_trans hq hp)
  cases op with
  | beginExpression engine' q parameters => exact ⟨hop.1 ▸ hborn, hbelow q hop.2⟩
  | beginAction engine' q parameters => exact ⟨hop.1 ▸ hborn, hbelow q hop.2⟩
  | _ => trivial

end Surroundings

/-! ### A reset in the middle -/

/-- An engine with a threshold of 1 KB, of which more is in use. -/
def shortOfMemory : Session := (Session.start fun _ ↦ 2).create 0 1

/-- The execution of the first rule on an engine. -/
def firstExecution : RuleProgram RuleResult := firstRule.execute 0 0 []

end FastRules
