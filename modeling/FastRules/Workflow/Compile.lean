import FastRules.Engine.Compile
import FastRules.Foundations.Interleaving
import FastRules.Workflow.CompilationLevels
import FastRules.Workflow.Validate

/-!
# Compiling a workflow

`Workflow::compile` and `Workflow::compileParallel`. Both are runs of one kind (`CompileRun`): the
calling thread works alone, or the workers of a level work and the caller waits for all of them. The
workers of a level are started together here; one that is started later is not scheduled before.

A lock that is taken is waited for. Which engine a worker compiles into, and how much memory is in
use whenever a chunk is compiled, is up to the run.
-/

namespace FastRules

open Program

/-! ### The state -/

/-- What a compilation of a workflow works on; `ι` are the threads. -/
structure CompileState (ι : Type) extends Compilations where
  /-- `isCompiled` of each rule. -/
  isCompiled : RulePtr → Bool := fun _ ↦ false
  /-- Who holds the `compileMutex_` of each rule. -/
  lockedBy : RulePtr → Option ι := fun _ ↦ none
  /-- The number the next engine gets. -/
  nextInstance : InstanceId := 0
  hasError : Bool := false
  compileException : Option String := none
  nextRule : ℕ := 0
  /-- `idx` of each worker. -/
  idx : ι → Option ℕ := fun _ ↦ none
  enginePoolStorage : List InstanceId := []
  /-- The engines in the pool, the one that was pushed last first. -/
  enginePool : List InstanceId := []
  /-- `compiled_` of the workflow. -/
  compiled : Bool := false

section Step

variable {ι : Type} [DecidableEq ι] (lib : LuaLibrary)

/-- What a request of a thread does, with so much memory in use. -/
def CompileState.handle (memKB : ℕ) (i : ι) :
    (op : CompileOp) → CompileState ι → op.Ans × CompileState ι
  | .lock p, s => ((), { s with lockedBy := Function.update s.lockedBy p (some i) })
  | .unlock p, s => ((), { s with lockedBy := Function.update s.lockedBy p none })
  | .lookupCompilation r engine, s => (s.lookupCompilation lib r engine, s)
  | .getGeneration engine, s => ((s.engines engine).generation, s)
  | .compileChunk engine chunk, s =>
    let (answer, e) := (s.engines engine).compile lib memKB chunk
    (answer, { s with toCompilations := s.setEngine engine e })
  | .store p engine c, s =>
    ((), { s with
      toCompilations := s.toCompilations.store p engine c
      isCompiled := Function.update s.isCompiled p true })
  | .clone engine, s =>
    (s.nextInstance, { s with
      toCompilations := s.setEngine s.nextInstance (s.engines engine).clone
      nextInstance := s.nextInstance + 1 })
  | .hasError, s => (s.hasError, s)
  | .nextRule, s =>
    (s.nextRule, { s with
      nextRule := s.nextRule + 1
      idx := Function.update s.idx i (some s.nextRule) })
  -- the first exception is kept
  | .fail message, s =>
    ((), { s with
      hasError := true
      compileException := some (s.compileException.getD message) })
  | .compileException, s => (s.compileException, s)
  | .isCompiled p, s => (s.isCompiled p, s)
  | .clearEngines, s => ((), { s with enginePoolStorage := [] })
  | .keepEngine engine, s =>
    ((), { s with enginePoolStorage := s.enginePoolStorage ++ [engine] })
  | .openPool, s => ((), { s with enginePool := s.enginePoolStorage.reverse, compiled := true })

/-- The request need not wait. -/
def CompileState.Enabled : CompileOp → CompileState ι → Prop
  | .lock p, s => s.lockedBy p = none
  | _, _ => True

instance : (op : CompileOp) → (s : CompileState ι) → Decidable (CompileState.Enabled op s)
  | .lock p, s => inferInstanceAs (Decidable (s.lockedBy p = none))
  | .unlock _, _ | .lookupCompilation _ _, _ | .getGeneration _, _ | .compileChunk _ _, _
  | .store _ _ _, _ | .clone _, _ | .hasError, _ | .nextRule, _ | .fail _, _ | .compileException, _
  | .isCompiled _, _ | .clearEngines, _ | .keepEngine _, _ | .openPool, _ => isTrue trivial

/-- A step of a thread. -/
def CompileState.step (i : ι) (op : CompileOp) (s : CompileState ι) (a : op.Ans)
    (s' : CompileState ι) : Prop :=
  CompileState.Enabled op s ∧ ∃ memKB, CompileState.handle lib memKB i op s = (a, s')

end Step

/-! ### The programs -/

/-- What a compilation of a workflow is given. -/
structure CompileCall where
  lib : LuaLibrary
  /-- The caller's engine. -/
  engine : InstanceId
  /-- `std::thread::hardware_concurrency()`. -/
  hardwareConcurrency : ℕ
  idOrder : HashOrder Id
  order : HashOrder Rule

namespace CompileCall

variable (x : CompileCall)

/-- Clone the engine, compile the rules into the clone and keep it, so many times; then open the
pool. -/
def createPool (rules : List Rule) : ℕ → CompileProgram (Except String Unit)
  | 0 => do
    CompileOp.perform .openPool
    return .ok ()
  | poolSize + 1 => do
    let clone ← CompileOp.perform (.clone x.engine)
    match ← compileRules x.lib clone rules with
    | .error e => return .error e
    | .ok _ => do
      CompileOp.perform (.keepEngine clone)
      createPool rules poolSize

/-- Compile the rules into the caller's engine and create the pool. -/
def compileAll (rules : List Rule) : CompileProgram (Except String Unit) := do
  match ← compileRules x.lib x.engine rules with
  | .error e => return .error e
  | .ok _ => do
    CompileOp.perform .clearEngines
    x.createPool rules (max x.hardwareConcurrency 2)

/-- The loop of a worker of `compileParallel`. Each pass takes a higher index, so there cannot be
more passes than there are rules in the level, and one more. -/
def workerLoop (level : List Rule) (localEngine : InstanceId) :
    ℕ → CompileProgram (Except String Unit)
  | 0 => return .ok ()
  | passes + 1 => do
    if ← CompileOp.perform .hasError then
      return .ok ()
    else
      let idx ← CompileOp.perform .nextRule
      match level[idx]? with
      | none => return .ok ()
      | some rule =>
        match ← rule.compile x.lib localEngine with
        | .error e => do
          CompileOp.perform (.fail e)
          return .ok ()
        | .ok _ => workerLoop level localEngine passes

/-- A worker of `compileParallel`. -/
def worker (level : List Rule) : CompileProgram (Except String Unit) := do
  let localEngine ← CompileOp.perform (.clone x.engine)
  x.workerLoop level localEngine (level.length + 1)

/-- Whether all rules were compiled. -/
def verifyCompiled : List Rule → CompileProgram Bool
  | [] => return true
  | r :: rules => do
    if ← CompileOp.perform (.isCompiled r.ptr) then
      verifyCompiled rules
    else
      return false

/-- What the caller does when the workers are done. -/
def afterLevels (rules : List Rule) : CompileProgram (Except String Unit) := do
  match ← CompileOp.perform .compileException with
  | some e => return .error e
  | none =>
    if ← verifyCompiled rules then
      x.compileAll rules
    else
      return .error "Not all rules were compiled in parallel compilation"

/-- The number of threads that is worked with. -/
def threads (numThreads : ℕ) : ℕ :=
  if numThreads = 0 then
    if x.hardwareConcurrency = 0 then 4 else x.hardwareConcurrency
  else numThreads

end CompileCall

/-! ### Runs -/

/-- The calling thread, and the workers. -/
abbrev Thread (n : ℕ) := Option (Fin n)

/-- A moment of a compilation with so many threads. -/
structure CompileRun (n : ℕ) where
  /-- The level the workers are at, if they are the ones to run. -/
  level : Option ℕ
  config : Interleaving.Config (Thread n) CompileOp CompileOp.Ans (Except String Unit)
    (CompileState (Thread n))

namespace CompileRun

variable {n : ℕ} (x : CompileCall) (rules : List Rule)

/-- The caller runs. -/
def caller (p : CompileProgram (Except String Unit)) (s : CompileState (Thread n)) :
    CompileRun n where
  level := none
  config :=
    { thread := fun
        | none => p
        | some _ => return .ok ()
      state := s }

/-- The caller waits for the workers of a level. -/
def workers (k : ℕ) (level : List Rule) (s : CompileState (Thread n)) : CompileRun n where
  level := some k
  config :=
    { thread := fun
        | none => return .ok ()
        | some i => if i.val < min n (max level.length 1) then x.worker level else return .ok ()
      state := { s with nextRule := 0, idx := fun _ ↦ none } }

/-- The head of the loop over the levels. -/
def enterLevel (k : ℕ) (s : CompileState (Thread n)) : CompileRun n :=
  match (buildCompilationLevels rules)[k]? with
  | some level => if s.hasError then caller (x.afterLevels rules) s else workers x k level s
  | none => caller (x.afterLevels rules) s

/-- A request of a thread, or the workers are joined. -/
inductive Step : CompileRun n → CompileRun n → Prop
  | request {level : Option ℕ} {c c' : Interleaving.Config (Thread n) CompileOp CompileOp.Ans
      (Except String Unit) (CompileState (Thread n))}
      (h : Interleaving.Step (CompileState.step x.lib) (fun _ _ _ ↦ False) c c') :
      Step ⟨level, c⟩ ⟨level, c'⟩
  | join {k : ℕ} {c : Interleaving.Config (Thread n) CompileOp CompileOp.Ans
      (Except String Unit) (CompileState (Thread n))}
      (h : ∀ i, (c.thread i).hasReturned = true) :
      Step ⟨some k, c⟩ (enterLevel x rules (k + 1) c.state)

/-- Any number of steps. -/
def Reaches : CompileRun n → CompileRun n → Prop :=
  Relation.ReflTransGen (Step x rules)

/-- The call has returned, or thrown. -/
def EndsWith (run : CompileRun n) (outcome : Except String Unit) : Prop :=
  run.level = none ∧ run.config.thread none = .ret outcome

end CompileRun

/-- `Workflow::compile`, as called in the given state. -/
def Workflow.compile {n : ℕ} (x : CompileCall) (w : Workflow) (s : CompileState (Thread n)) :
    CompileRun n :=
  if s.compiled then
    .caller (return .ok ()) s
  else
    match w.validate x.idOrder x.order with
    | (.error e, _) => .caller (return .error e) s
    | (.ok _, w) => .caller (x.compileAll w.rules) s

/-- `Workflow::compileParallel`. -/
def Workflow.compileParallel (x : CompileCall) (numThreads : ℕ) (w : Workflow)
    (s : CompileState (Thread (x.threads numThreads))) : CompileRun (x.threads numThreads) :=
  if s.compiled then
    .caller (return .ok ()) s
  else
    match w.validate x.idOrder x.order with
    | (.error e, _) => .caller (return .error e) s
    | (.ok _, w) =>
      if w.rules.length < 10 ∨ x.threads numThreads = 1 then
        w.compile x s
      else
        .enterLevel x w.rules 0 { s with hasError := false, compileException := none }

end FastRules
