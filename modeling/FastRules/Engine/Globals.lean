import FastRules.Foundations.WriteLog
import FastRules.Rule.Result
import FastRules.Types.Registry

/-!
# Parameters as globals

How `LuaEngine::evaluateExpression`, `executeAction` and `resumeCoroutine` pass parameters to a
chunk: they are bound as globals of the Lua state before the chunk is called and set to nil
afterwards. Parameters of a registered object type are bound and cleared by the engine, all others
by the backend (for a coroutine also by the engine). A call is modelled by the log of what it writes
to globals, with a mark of who wrote it, and by how it ends.

The chunk is any function of the globals to the assignments it makes and to how it ends. A global is
known by the name up to its first NUL, since that is all that `lua_setglobal` sees.
-/

namespace FastRules

open WriteLog

/-! ### Values -/

/-- The values of Lua that have an identity. -/
inductive ObjectKind
  | table | function | userdata | thread
  deriving DecidableEq, Repr

/-- A Lua value, as far as two of them can be told apart without looking into objects. -/
inductive LuaValue
  | nil
  | boolean (b : Bool)
  | integer (n : BitVec 64)
  | number (word : BitVec 64)
  | string (s : String)
  | lightUserdata (p : ℕ)
  | object (kind : ObjectKind) (id : ℕ)
  deriving DecidableEq, Repr

namespace LuaValue

def isTable : LuaValue → Bool
  | object .table _ => true
  | _ => false

/-- `lua_toboolean`. -/
def toBool : LuaValue → Bool
  | nil => false
  | boolean b => b
  | _ => true

end LuaValue

/-- The C++ types of the host: which are registered, with their `extractPointer` (no result for a
null pointer), and `std::any_cast<void*>` (no result where it throws). -/
structure HostTypes where
  extractPointer : TypeIndex → Option (AnyValue → Option ℕ)
  voidPointer : AnyValue → Option ℕ

namespace HostTypes

variable (types : HostTypes)

/-- `param.type.has_value() && typeRegistry_.isRegistered(param.type.value())`. -/
def isObject (p : RuleParameter) : Bool :=
  p.type.any fun t ↦ (types.extractPointer t).isSome

/-- What `setRegisteredTypeGlobal` binds, if `fresh` is the identity of a new userdata. -/
def objectValue (fresh : ℕ) (p : RuleParameter) : LuaValue :=
  match p.value with
  | none => .nil
  | some v =>
    match (p.type.bind types.extractPointer).bind fun extractPointer ↦ extractPointer v with
    | some _ => .object .userdata fresh
    | none => (types.voidPointer v).elim .nil .lightUserdata

/-- `pushAny` of the backend. -/
def pushAny : Option AnyValue → LuaValue
  | none => .nil
  | some ⟨⟨.bool, _, _⟩, b⟩ => .boolean b
  | some ⟨⟨.int, _, _⟩, n⟩ => .integer (BitVec.ofInt 64 n)
  | some ⟨⟨.unsignedInt, _, _⟩, n⟩ => .integer (BitVec.ofInt 64 n)
  | some ⟨⟨.long, _, _⟩, n⟩ => .integer (BitVec.ofInt 64 n)
  | some ⟨⟨.longLong, _, _⟩, n⟩ => .integer (BitVec.ofInt 64 n)
  | some ⟨⟨.unsignedLong, _, _⟩, n⟩ => .integer (BitVec.ofInt 64 n)
  | some ⟨⟨.unsignedLongLong, _, _⟩, n⟩ => .integer (BitVec.ofInt 64 n)
  | some ⟨⟨.double, _, _⟩, word⟩ => .number word
  | some ⟨⟨.float, _, _⟩, word⟩ => .number (Types.widen word)
  | some ⟨⟨.string, _, _⟩, s⟩ => .string s
  | some ⟨⟨.constCharPtr, _, _⟩, s⟩ => .string s.val
  | some _ => .nil

/-- `anyToLuaValue` of the engine, for fewer types. -/
def anyToLuaValue : Option AnyValue → LuaValue
  | none => .nil
  | some ⟨⟨.bool, _, _⟩, b⟩ => .boolean b
  | some ⟨⟨.int, _, _⟩, n⟩ => .integer (BitVec.ofInt 64 n)
  | some ⟨⟨.double, _, _⟩, word⟩ => .number word
  | some ⟨⟨.string, _, _⟩, s⟩ => .string s
  | some ⟨⟨.constCharPtr, _, _⟩, s⟩ => .string s.val
  | some v => (types.voidPointer v).elim .nil .lightUserdata

end HostTypes

/-! ### Calls -/

/-- The globals of a Lua state and how many objects have been made in it. -/
structure LuaGlobals where
  value : String → LuaValue
  made : ℕ
  known : ∀ name kind id, value name = .object kind id → id < made

/-- Who has written to a global. -/
inductive Writer
  /-- `setupContextTable`. -/
  | context
  /-- The engine or the backend, the value of a parameter. -/
  | parameter
  /-- The engine or the backend, after the chunk. -/
  | clearing
  | chunk
  deriving DecidableEq, Repr

abbrev GlobalWrite := Write String Writer LuaValue

/-- What a chunk does when it is called: the globals it assigns, in order, and how it ends. -/
structure ChunkRun (α : Type) where
  assignments : List (String × LuaValue)
  outcome : Except String α

/-- The globals a chunk assigns. -/
def ChunkRun.assigned {α : Type} (run : ChunkRun α) : List String :=
  run.assignments.map Prod.fst

def ChunkRun.writes {α : Type} (run : ChunkRun α) : List GlobalWrite :=
  run.assignments.map fun a ↦ ⟨a.1, .chunk, a.2⟩

/-- What a call of the engine does: what it writes to globals, and how it ends. -/
structure CallRun (α : Type) where
  writes : List GlobalWrite
  outcome : Except Exn α

/-- The common arguments of the calls, and the state they find. -/
structure EngineCall where
  types : HostTypes
  start : LuaGlobals
  ref : Int
  parameters : List RuleParameter
  /-- The timeout in milliseconds, if it is positive and the deadline has passed when the call of
  the backend returns. -/
  late : Option Int := none

namespace EngineCall

variable (x : EngineCall)

/-- `setupContextTable` replaces a `context` that is not a table. -/
def contextWrites : List GlobalWrite :=
  if (x.start.value "context").isTable then []
  else [⟨"context", .context, .object .table x.start.made⟩]

/-- The parameters of a registered type are bound, each object as a new userdata. -/
def bindObjects (types : HostTypes) : ℕ → List RuleParameter → List GlobalWrite
  | _, [] => []
  | fresh, p :: parameters =>
    if types.isObject p then
      ⟨cStr p.name, .parameter, types.objectValue fresh p⟩ :: bindObjects types (fresh + 1)
        parameters
    else bindObjects types fresh parameters

def objectWrites : List GlobalWrite :=
  bindObjects x.types (x.start.made + 1) x.parameters

/-- `pairs`: the parameters without those that share their name with one of a registered type. -/
def plainParameters : List RuleParameter :=
  (x.parameters.filter x.types.isObject).foldl
    (fun pairs q ↦ pairs.filter fun p ↦ p.name ≠ q.name) x.parameters

/-- The other parameters are bound. -/
def bindPlain (convert : Option AnyValue → LuaValue) : List GlobalWrite :=
  x.plainParameters.map fun p ↦ ⟨cStr p.name, .parameter, convert p.value⟩

def clearPlain : List GlobalWrite :=
  x.plainParameters.map fun p ↦ ⟨cStr p.name, .clearing, .nil⟩

/-- `clearRegisteredTypeGlobal` for each parameter of a registered type. -/
def clearObjects : List GlobalWrite :=
  (x.parameters.filter x.types.isObject).map fun p ↦ ⟨cStr p.name, .clearing, .nil⟩

/-- The check of the deadline after a call of the backend. -/
def finish {α : Type} (value : α) : Except Exn α :=
  match x.late with
  | some t => .error (.timeout ("Rule execution timed out after " ++ toString t ++ "ms"))
  | none => .ok value

/-- The words that an expression and an action have in messages. -/
structure Words where
  reference : String
  chunk : String
  failure : String

/-- A chunk in the backend: how it runs with given globals. -/
abbrev BackendChunk (α : Type) := (String → LuaValue) → ChunkRun α

/-- `evaluateExpression` and `executeAction`. The engine knows the reference or does not, and the
backend has a chunk under its id or has not. -/
def callChunk (words : Words) (isKnown : Bool) (chunk : Option (BackendChunk LuaValue)) :
    CallRun LuaValue :=
  if isKnown then
    let before := x.contextWrites ++ x.objectWrites
    match chunk with
    | none =>
      ⟨before, .error (.standard (words.chunk ++ " not compiled: ref_" ++ toString x.ref))⟩
    | some chunk =>
      let bound := before ++ x.bindPlain HostTypes.pushAny
      let run := chunk (written x.start.value bound)
      let returned := bound ++ run.writes ++ x.clearPlain
      match run.outcome with
      | .error message => ⟨returned, .error (.standard (words.failure ++ message))⟩
      | .ok value => ⟨returned ++ x.clearObjects, x.finish value⟩
  else ⟨[], .error (.standard ("Invalid " ++ words.reference ++ " reference"))⟩

def expressionWords : Words := ⟨"expression", "Expression", "Expression evaluation failed: "⟩

def actionWords : Words := ⟨"action", "Action", "Action execution failed: "⟩

/-- `LuaEngine::evaluateExpression`. -/
def evaluateExpression (isKnown : Bool) (chunk : Option (BackendChunk LuaValue)) : CallRun Bool :=
  let run := x.callChunk expressionWords isKnown chunk
  ⟨run.writes, run.outcome.map LuaValue.toBool⟩

/-- `LuaEngine::executeAction`. -/
def executeAction (isKnown : Bool) (chunk : Option (BackendChunk LuaValue)) : CallRun Unit :=
  let run := x.callChunk actionWords isKnown chunk
  ⟨run.writes, run.outcome.map fun _ ↦ ()⟩

/-- `LuaEngine::resumeCoroutine`: what runs is the coroutine up to its next yield, which ends with
`false`, or to its end. A handle that the backend does not know counts as finished. -/
def resumeCoroutine (hasHandle isCoroutine : Bool) (stretch : Option (BackendChunk Bool)) :
    CallRun Bool :=
  if !hasHandle then ⟨[], .error (.standard "Invalid coroutine reference")⟩
  else if !isCoroutine then ⟨[], .error (.standard "Reference is not a coroutine")⟩
  else
    let bound := x.contextWrites ++ x.objectWrites ++ x.bindPlain x.types.anyToLuaValue
    match stretch with
    | none => ⟨bound ++ x.clearPlain ++ x.clearObjects, .ok true⟩
    | some stretch =>
      let run := stretch (written x.start.value bound)
      match run.outcome with
      | .error message =>
        ⟨bound ++ run.writes, .error (.standard ("Coroutine execution failed: " ++ message))⟩
      | .ok finished => ⟨bound ++ run.writes ++ x.clearPlain ++ x.clearObjects, .ok finished⟩

end EngineCall

end FastRules
