import FastRules.Engine.LuaEngine
import FastRules.Foundations.Program

/-!
# Compiling a rule

`Rule::compile` as a program of requests: it takes the rule's lock, and unless the engine has a
current record it compiles the expression, the action and the children, in this order, and leaves a
record. An exception gives the locks back on its way out.

`Compilations` is what the records and the engines look like at one time. A record is current for an
engine if it was made in the engine's generation and from the rule's present texts.
-/

namespace FastRules

open Program

/-! ### Records -/

/-- `Rule::EngineCompilation`. -/
structure EngineCompilation where
  expressionRef : Option ℕ := none
  actionRef : Option ℕ := none
  generation : BitVec 32 := 0
  sourceHash : BitVec 64 := 0

/-- `Rule::sourceFingerprint`. -/
def sourceFingerprint (lib : LuaLibrary) (r : RuleFields) : BitVec 64 :=
  let h := lib.hash r.expression
  h ^^^ (lib.hash r.action + 0x9e3779b9#64 + (h <<< 6) + (h >>> 2))

/-- The records of the rules and the engines. -/
structure Compilations where
  /-- `engineCompilations_` of each rule. -/
  records : RulePtr → InstanceId → Option EngineCompilation := fun _ _ ↦ none
  engines : InstanceId → LuaEngine := fun _ ↦ {}

namespace Compilations

/-- `Rule::lookupCompilation`. -/
def lookupCompilation (lib : LuaLibrary) (s : Compilations) (r : RuleFields) (engine : InstanceId) :
    Option EngineCompilation :=
  match s.records r.ptr engine with
  | none => none
  | some c =>
    if c.generation ≠ (s.engines engine).generation then none
    else if c.sourceHash ≠ sourceFingerprint lib r then none
    else some c

/-- The rule has a current record for the engine. -/
def Current (lib : LuaLibrary) (s : Compilations) (engine : InstanceId) (r : RuleFields) : Prop :=
  (s.lookupCompilation lib r engine).isSome = true

instance (lib : LuaLibrary) (s : Compilations) (engine : InstanceId) (r : RuleFields) :
    Decidable (s.Current lib engine r) :=
  inferInstanceAs (Decidable (_ = true))

/-- `engineCompilations_[engine.instanceId()] = compilation`. -/
def store (s : Compilations) (p : RulePtr) (engine : InstanceId) (c : EngineCompilation) :
    Compilations :=
  { s with records := Function.update s.records p (Function.update (s.records p) engine (some c)) }

/-- Change one engine. -/
def setEngine (s : Compilations) (engine : InstanceId) (e : LuaEngine) : Compilations :=
  { s with engines := Function.update s.engines engine e }

theorem lookupCompilation_eq_some {lib : LuaLibrary} {s : Compilations} {r : RuleFields}
    {engine : InstanceId} {c : EngineCompilation} :
    s.lookupCompilation lib r engine = some c ↔ s.records r.ptr engine = some c ∧
      c.generation = (s.engines engine).generation ∧ c.sourceHash = sourceFingerprint lib r := by
  rw [lookupCompilation]
  rcases s.records r.ptr engine with - | d
  · simp
  · dsimp only
    split_ifs with hgeneration hhash
    · exact iff_of_false (by simp) fun h ↦ hgeneration (Option.some.inj h.1 ▸ h.2.1)
    · exact iff_of_false (by simp) fun h ↦ hhash (Option.some.inj h.1 ▸ h.2.2)
    · rw [not_not] at hgeneration hhash
      constructor
      · intro h
        obtain rfl := Option.some.inj h
        exact ⟨rfl, hgeneration, hhash⟩
      · exact fun h ↦ h.1

theorem current_iff {lib : LuaLibrary} {s : Compilations} {r : RuleFields} {engine : InstanceId} :
    s.Current lib engine r ↔ ∃ c, s.records r.ptr engine = some c ∧
      c.generation = (s.engines engine).generation ∧ c.sourceHash = sourceFingerprint lib r := by
  rw [Current, Option.isSome_iff_exists]
  exact exists_congr fun _ ↦ lookupCompilation_eq_some

theorem store_records_self (s : Compilations) (p : RulePtr) (engine : InstanceId)
    (c : EngineCompilation) : (s.store p engine c).records p engine = some c := by
  show Function.update s.records p _ p engine = _
  rw [Function.update_self, Function.update_self]

theorem store_records_of_ne (s : Compilations) {p q : RulePtr} {engine engine' : InstanceId}
    (c : EngineCompilation) (h : q ≠ p ∨ engine' ≠ engine) :
    (s.store p engine c).records q engine' = s.records q engine' := by
  show Function.update s.records p _ q engine' = _
  rcases eq_or_ne q p with rfl | hne
  · rw [Function.update_self, Function.update_of_ne (h.resolve_left fun hne ↦ hne rfl)]
  · rw [Function.update_of_ne hne]

end Compilations

/-! ### Requests -/

/-- The requests of a compilation, and those of the workers and the caller around it. -/
inductive CompileOp
  /-- Take the `compileMutex_` of a rule. -/
  | lock (p : RulePtr)
  | unlock (p : RulePtr)
  | lookupCompilation (r : RuleFields) (engine : InstanceId)
  | getGeneration (engine : InstanceId)
  | compileChunk (engine : InstanceId) (chunk : Chunk)
  /-- Store the record, and `isCompiled = true`: nobody looks at the rule in between. -/
  | store (p : RulePtr) (engine : InstanceId) (compilation : EngineCompilation)
  | clone (engine : InstanceId)
  /-- `hasError.load()`. -/
  | hasError
  /-- `nextRule.fetch_add(1)`. -/
  | nextRule
  /-- Keep the exception if it is the first one, and `hasError = true`. -/
  | fail (message : String)
  /-- `compileException`, once the workers are joined. -/
  | compileException
  | isCompiled (p : RulePtr)
  /-- `enginePoolStorage_.clear()`. -/
  | clearEngines
  /-- `enginePoolStorage_.push_back(engine)`. -/
  | keepEngine (engine : InstanceId)
  /-- A new pool with the stored engines, and `compiled_ = true`. -/
  | openPool

/-- What a request is answered with. -/
abbrev CompileOp.Ans : CompileOp → Type
  | lock _ => Unit
  | unlock _ => Unit
  | lookupCompilation _ _ => Option EngineCompilation
  | getGeneration _ => BitVec 32
  | compileChunk _ _ => Except String (Option ℕ)
  | store _ _ _ => Unit
  | clone _ => InstanceId
  | hasError => Bool
  | nextRule => ℕ
  | fail _ => Unit
  | compileException => Option String
  | isCompiled _ => Bool
  | clearEngines => Unit
  | keepEngine _ => Unit
  | openPool => Unit

abbrev CompileProgram := Program CompileOp CompileOp.Ans

/-- Make one request. -/
def CompileOp.perform (op : CompileOp) : CompileProgram op.Ans :=
  Program.perform op

/-! ### `Rule::compile` -/

/-- A list of messages, one a line. -/
def bulletList (messages : List String) : String :=
  String.join (messages.map fun m ↦ "    - " ++ m ++ "\n")

/-- The text of the rule of the given kind. -/
def RuleFields.sourceOf (r : RuleFields) : ChunkKind → String
  | .expression => r.expression
  | .action => r.action

/-- What the messages call the text. -/
def ChunkKind.label : ChunkKind → String
  | expression => "Expression"
  | action => "Action"

/-- What is thrown for a text that does not pass its validation. Warnings are told for expressions
only. -/
def validationMessage (r : RuleFields) (kind : ChunkKind) (v : ValidationResult) : String :=
  "Rule '" ++ toString r.id ++ "': " ++ kind.label ++ " validation failed\n  " ++
    kind.label ++ ": " ++
    r.sourceOf kind ++ "\n  Errors:\n" ++ bulletList v.errors ++
    if kind = .expression ∧ v.warnings ≠ [] then "  Warnings:\n" ++ bulletList v.warnings else ""

/-- What is thrown for a text that does not compile. -/
def compilationMessage (r : RuleFields) (kind : ChunkKind) (e : String) : String :=
  "Rule '" ++ toString r.id ++ "': Failed to compile " ++
    (match kind with | .expression => "expression" | .action => "action") ++ "\n  " ++ kind.label ++
    ": " ++ r.sourceOf kind ++ "\n  Error: " ++ cStr e

section Compile

variable (lib : LuaLibrary) (engine : InstanceId)

/-- Check and compile the expression or the action, if there is one. -/
def compileSource (kind : ChunkKind) (r : RuleFields) : CompileProgram (Except String (Option ℕ)) :=
  if r.sourceOf kind ≠ "" then
    if (lib.validate (r.sourceOf kind)).valid then do
      match ← CompileOp.perform (.compileChunk engine ⟨kind, r.sourceOf kind⟩) with
      | .error e => return .error (compilationMessage r kind e)
      | .ok ref => return .ok ref
    else return .error (validationMessage r kind (lib.validate (r.sourceOf kind)))
  else return .ok none

/-- Compile the rule's own texts and its children, and store the record. -/
def compileRecord (r : RuleFields) (compileChildren : CompileProgram (Except String Unit)) :
    CompileProgram (Except String Unit) := do
  -- noted before anything is compiled, which may reset the engine
  let generation ← CompileOp.perform (.getGeneration engine)
  match ← compileSource lib engine .expression r with
  | .error e => return .error e
  | .ok expressionRef =>
    match ← compileSource lib engine .action r with
    | .error e => return .error e
    | .ok actionRef =>
      match ← compileChildren with
      | .error e => return .error e
      | .ok _ => do
        CompileOp.perform (.store r.ptr engine
          { expressionRef, actionRef, generation, sourceHash := sourceFingerprint lib r })
        return .ok ()

/-- What is done under the lock. -/
def compileLocked (r : RuleFields) (compileChildren : CompileProgram (Except String Unit)) :
    CompileProgram (Except String Unit) := do
  match ← CompileOp.perform (.lookupCompilation r engine) with
  | some _ => return .ok ()
  | none => compileRecord lib engine r compileChildren

/-- `Rule::compile`, given how the children are compiled. -/
def compileWith (r : RuleFields) (compileChildren : CompileProgram (Except String Unit)) :
    CompileProgram (Except String Unit) := do
  CompileOp.perform (.lock r.ptr)
  let outcome ← compileLocked lib engine r compileChildren
  CompileOp.perform (.unlock r.ptr)
  return outcome

mutual

/-- `Rule::compile`. -/
def Rule.compile : Rule → CompileProgram (Except String Unit)
  | ⟨fields, children⟩ => compileWith lib engine fields (compileRules children)

/-- Compile rules one after the other, up to the first that throws. -/
def compileRules : List Rule → CompileProgram (Except String Unit)
  | [] => return .ok ()
  | child :: children => do
    match ← Rule.compile child with
    | .error e => return .error e
    | .ok _ => compileRules children

end

theorem Rule.compile_eq (r : Rule) :
    r.compile lib engine = compileWith lib engine r.toRuleFields
      (compileRules lib engine r.childRules) := by
  cases r
  rfl

end Compile

end FastRules
