import FastRules.Rule.Basic
import Mathlib.Logic.Function.Basic

/-!
# Engines

What of a `LuaEngine` matters to compilation: the registry of compiled chunks, the counter that
numbers them, and the generation that `resetState` counts. A reset throws the chunks away and starts
numbering at 1 again, so the same number can stand for different chunks at different times.

The checks of a text and the Lua compiler are functions of the text (`LuaLibrary`): nothing depends
on what they are.
-/

namespace FastRules

/-! ### Chunks -/

inductive ChunkKind
  | expression
  | action
  deriving DecidableEq, Repr

/-- A compiled chunk: what it was compiled as, and from which text. -/
structure Chunk where
  kind : ChunkKind
  source : String
  deriving DecidableEq, Repr

/-- `ExpressionValidator::ValidationResult`. -/
structure ValidationResult where
  valid : Bool
  errors : List String := []
  warnings : List String := []

/-- The functions of texts that compilation rests on. -/
structure LuaLibrary where
  /-- `ExpressionValidator::validate`. -/
  validate : String → ValidationResult
  /-- The compiler of the backend: nothing, or the message of what it throws. -/
  load : Chunk → Except String Unit
  /-- `std::hash<std::string>`. -/
  hash : String → BitVec 64

/-! ### The state of an engine -/

/-- The value of `instanceId()`. -/
abbrev InstanceId := ℕ

structure LuaEngine where
  /-- `std::atomic<int>`. -/
  generation : BitVec 32 := 0
  nextRefId : ℕ := 1
  /-- `refToBackendId_`, with the chunk the backend keeps under the id. -/
  chunks : ℕ → Option Chunk := fun _ ↦ none
  /-- 0 for no limit. -/
  maxExpressionLength : ℕ := 0
  /-- 0 for no automatic resets. -/
  autoResetThresholdKB : ℕ := 0

namespace LuaEngine

variable (lib : LuaLibrary)

/-- `LuaEngine::clone`: a new Lua state with the settings of the engine. -/
def clone (e : LuaEngine) : LuaEngine where
  maxExpressionLength := e.maxExpressionLength
  autoResetThresholdKB := e.autoResetThresholdKB

/-- `LuaEngine::resetState`. -/
def resetState (e : LuaEngine) : LuaEngine :=
  { e with
    generation := e.generation + 1
    nextRefId := 1
    chunks := fun _ ↦ none }

/-- The reset before a compilation, when so much memory is in use. -/
def autoReset (memKB : ℕ) (e : LuaEngine) : LuaEngine :=
  if 0 < e.autoResetThresholdKB ∧ e.autoResetThresholdKB < memKB then e.resetState else e

/-- The text is too long. -/
def exceeds (e : LuaEngine) (source : String) : Bool :=
  0 < e.maxExpressionLength && e.maxExpressionLength < source.length

/-- The message for such a text. -/
def lengthMessage (label : String) (e : LuaEngine) (source : String) : String :=
  label ++ " exceeds maximum length of " ++ toString e.maxExpressionLength ++ " characters (was " ++
    toString source.length ++ ")"

/-- Give the chunk the next number. The number is used up even if the chunk does not compile. -/
def register (chunk : Chunk) (e : LuaEngine) : Except String (Option ℕ) × LuaEngine :=
  match lib.load chunk with
  | .error message =>
    (.error ("Compilation failed: " ++ message), { e with nextRefId := e.nextRefId + 1 })
  | .ok _ =>
    (.ok (some e.nextRefId),
      { e with
        nextRefId := e.nextRefId + 1
        chunks := Function.update e.chunks e.nextRefId (some chunk) })

/-- `LuaEngine::compileExpression`. -/
def compileExpression (memKB : ℕ) (source : String) (e : LuaEngine) :
    Except String (Option ℕ) × LuaEngine :=
  if e.exceeds source then (.error (lengthMessage "Expression" e source), e)
  else if isBlank source then (.ok none, e)
  else (e.autoReset memKB).register lib ⟨.expression, source⟩

/-- `LuaEngine::compileAction`. -/
def compileAction (memKB : ℕ) (source : String) (e : LuaEngine) :
    Except String (Option ℕ) × LuaEngine :=
  if source = "" then (.ok none, e)
  else if e.exceeds source then (.error (lengthMessage "Action" e source), e)
  else (e.autoReset memKB).register lib ⟨.action, source⟩

/-- Compile a chunk of either kind. -/
def compile (memKB : ℕ) (chunk : Chunk) (e : LuaEngine) : Except String (Option ℕ) × LuaEngine :=
  match chunk.kind with
  | .expression => e.compileExpression lib memKB chunk.source
  | .action => e.compileAction lib memKB chunk.source

/-- There is nothing to compile in the text. -/
def nothingIn : Chunk → Bool
  | ⟨.expression, source⟩ => isBlank source
  | ⟨.action, source⟩ => source = ""

end LuaEngine

end FastRules
