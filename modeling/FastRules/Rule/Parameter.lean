import FastRules.Foundations.FloatText
import FastRules.Rule.Basic

/-!
# Parameters

The parameter list that goes into `Rule::execute`: values of arbitrary C++ types in a `std::any`,
with the type check made of them and the text that stands for a value in a cache key.
-/

namespace FastRules

/-! ### Values -/

/-- The C++ types the library tells apart. -/
inductive TypeKind
  | int | unsignedInt | short | unsignedShort | long | unsignedLong | longLong | unsignedLongLong
  | float | double | longDouble
  | bool
  | string | constCharPtr | charPtr
  | other
  deriving DecidableEq, Repr

namespace TypeKind

/-- The values of a type. A floating-point value is its word, a pointer to characters the C string
it points to, and of any other type only the identity of the value matters. -/
abbrev Value : TypeKind → Type
  | int | unsignedInt | short | unsignedShort => Int
  | long | unsignedLong | longLong | unsignedLongLong => Int
  | float => BitVec 32
  | double => BitVec 64
  | longDouble => BitVec 80
  | bool => Bool
  | string => String
  | constCharPtr | charPtr => { s : String // cStr s = s }
  | other => ℕ

instance : (kind : TypeKind) → DecidableEq kind.Value
  | int | unsignedInt | short | unsignedShort => inferInstanceAs (DecidableEq Int)
  | long | unsignedLong | longLong | unsignedLongLong => inferInstanceAs (DecidableEq Int)
  | float => inferInstanceAs (DecidableEq (BitVec 32))
  | double => inferInstanceAs (DecidableEq (BitVec 64))
  | longDouble => inferInstanceAs (DecidableEq (BitVec 80))
  | bool => inferInstanceAs (DecidableEq Bool)
  | string => inferInstanceAs (DecidableEq String)
  | constCharPtr | charPtr => inferInstanceAs (DecidableEq { s : String // cStr s = s })
  | other => inferInstanceAs (DecidableEq ℕ)

/-- What `operator<<` prints of a value, for the types that `Rule::buildCacheKey` prints. -/
def print : (kind : TypeKind) → kind.Value → Option String
  | int, value | long, value | longLong, value => some (toString value)
  | float, value => some ((FloatText.Format.binary32.decode value.toNat).text 6)
  | double, value => some ((FloatText.Format.binary64.decode value.toNat).text 6)
  | bool, value => some (if value then "1" else "0")
  | string, value => some value
  | constCharPtr, value => some value.val
  | unsignedInt, _ | short, _ | unsignedShort, _ | unsignedLong, _ | unsignedLongLong, _ => none
  | longDouble, _ | charPtr, _ | other, _ => none

end TypeKind

/-- A `std::type_index`, with the name and the hash code the implementation gives it. -/
structure TypeIndex where
  kind : TypeKind
  name : String
  hashCode : ℕ
  deriving DecidableEq, Repr

/-- A nonempty `std::any`. -/
structure AnyValue where
  type : TypeIndex
  value : type.kind.Value
  deriving DecidableEq

/-- What `operator<<` prints of the value, if a cache key contains it. -/
def AnyValue.printed (v : AnyValue) : Option String :=
  v.type.kind.print v.value

/-- A `RuleParameter`. No value stands for an empty `std::any`. -/
structure RuleParameter where
  name : String
  value : Option AnyValue
  type : Option TypeIndex
  deriving DecidableEq

/-! ### The type check -/

namespace ParameterValidator

def isStringTypeIndex (t : TypeIndex) : Bool :=
  t.kind ∈ [.string, .constCharPtr, .charPtr]

def isNumericTypeIndex (t : TypeIndex) : Bool :=
  t.kind ∈ [.int, .unsignedInt, .short, .unsignedShort, .long, .unsignedLong, .longLong,
    .unsignedLongLong, .float, .double, .longDouble]

def isInt (v : AnyValue) : Bool :=
  v.type.kind ∈ [.int, .long, .longLong, .short]

def isDouble (v : AnyValue) : Bool :=
  v.type.kind ∈ [.double, .float, .longDouble]

def isBool (v : AnyValue) : Bool :=
  v.type.kind = .bool

def isString (v : AnyValue) : Bool :=
  v.type.kind ∈ [.string, .constCharPtr]

/-- `valueMatchesTypeIndex`: only a scalar declared as a scalar of another sort is a mismatch. -/
def valueMatchesTypeIndex (declared : TypeIndex) : Option AnyValue → Bool
  | none => true
  | some v =>
    let declaredScalar :=
      isNumericTypeIndex declared || isStringTypeIndex declared || declared.kind = .bool
    let valueScalar := isInt v || isDouble v || isBool v || isString v
    if v.type = declared then true
    else if !declaredScalar || !valueScalar then true
    else if declared.kind = .bool then isBool v
    else if isStringTypeIndex declared then isString v
    else isInt v || isDouble v || isBool v

/-- The text of the `ParameterTypeException`. -/
def mismatchMessage (p : RuleParameter) (declared : TypeIndex) : String :=
  "Parameter '" ++ p.name ++ "' declared as type '" ++ declared.name ++ "' but value holds '" ++
    (p.value.elim "nil" fun v ↦ v.type.name) ++ "'"

/-- `validateTypes`: the first parameter whose value does not match its declared type. -/
def validateTypes : List RuleParameter → Except String Unit
  | [] => .ok ()
  | p :: ps =>
    match p.type with
    | none => validateTypes ps
    | some declared =>
      if valueMatchesTypeIndex declared p.value then validateTypes ps
      else .error (mismatchMessage p declared)

end ParameterValidator

end FastRules
