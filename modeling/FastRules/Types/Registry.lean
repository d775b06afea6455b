import FastRules.Foundations.Bytes
import FastRules.Rule.Numbers
import FastRules.Rule.Parameter
import Mathlib.Data.List.AList

/-!
# Registered types

`TypeRegistry` and what the backend makes of it: `bindTypes` builds a metatable for each registered
type, and the handlers `__index` and `__newindex` read and write the fields of an object through it,
as bytes in memory.

The widths and the byte order are those of a `Platform`. The conversions of the Lua API and the
layout of `std::string` are given as functions.
-/

namespace FastRules.Types

open Bytes

/-! ### Scalars -/

/-- The arithmetic types that a field may have in Lua. -/
inductive Scalar
  | bool | char
  | short | unsignedShort | int | unsignedInt | long | unsignedLong | longLong | unsignedLongLong
  | float | double
  deriving DecidableEq, Repr

/-- What the implementation chooses of the arithmetic types. -/
structure Platform where
  longBytes : ℕ
  longBytes_eq : longBytes = 4 ∨ longBytes = 8
  charIsSigned : Bool
  endian : Endian

/-- A `float` as a `double`. -/
def widen (word : BitVec 32) : BitVec 64 :=
  let sign := word.toNat / 2 ^ 31
  let field := word.toNat / 2 ^ 23 % 2 ^ 8
  let fraction := word.toNat % 2 ^ 23
  let magnitude :=
    if field = 255 then 2047 * 2 ^ 52 + (if fraction = 0 then 0 else fraction * 2 ^ 29 ||| 2 ^ 51)
    else if field = 0 then
      -- A subnormal number is normal as a double.
      if fraction = 0 then 0
      else (Nat.log2 fraction + 874) * 2 ^ 52 +
        (fraction - 2 ^ Nat.log2 fraction) * 2 ^ (52 - Nat.log2 fraction)
    else (field + 896) * 2 ^ 52 + fraction * 2 ^ 29
  BitVec.ofNat 64 (sign * 2 ^ 63 + magnitude)

/-- The values that Lua code can see of an object. An `entry` is what a metatable has under a
key. -/
inductive FieldValue (Entry : Type)
  | nil
  | boolean (b : Bool)
  | integer (n : Int)
  | number (word : BitVec 64)
  | string (s : String)
  | entry (e : Entry)

namespace Scalar

variable (p : Platform)

/-- `sizeof`. -/
def size : Scalar → ℕ
  | bool | char => 1
  | short | unsignedShort => 2
  | int | unsignedInt | float => 4
  | long | unsignedLong => p.longBytes
  | longLong | unsignedLongLong | double => 8

/-- The bytes represent a value. A `bool` is 0 or 1. -/
def IsValid (t : Scalar) (bytes : List UInt8) : Prop :=
  t = bool → bytes = [0] ∨ bytes = [1]

/-- The value that is represented by the bytes. -/
def decode {Entry : Type} (bytes : List UInt8) : Scalar → FieldValue Entry
  | bool => .boolean (p.endian.decode bytes ≠ 0)
  | char => .integer (if p.charIsSigned then (p.endian.decode bytes : Int).bmod (2 ^ 8)
      else p.endian.decode bytes)
  | short => .integer ((p.endian.decode bytes : Int).bmod (2 ^ 16))
  | int => .integer (toInt32 (p.endian.decode bytes))
  | long => .integer ((p.endian.decode bytes : Int).bmod (2 ^ (8 * p.longBytes)))
  | longLong => .integer (toInt64 (p.endian.decode bytes))
  | unsignedShort | unsignedInt | unsignedLong | unsignedLongLong =>
    .integer (p.endian.decode bytes)
  | float => .number (widen (BitVec.ofNat 32 (p.endian.decode bytes)))
  | double => .number (BitVec.ofNat 64 (p.endian.decode bytes))

end Scalar

/-- One, the largest finite number, the smallest positive number and an infinity. -/
example : widen 0x3F800000 = 0x3FF0000000000000 ∧ widen 0x7F7FFFFF = 0x47EFFFFFE0000000 ∧
    widen 1 = 0x36A0000000000000 ∧ widen 0xFF800000 = 0xFFF0000000000000 := by
  decide

/-! ### Descriptors -/

inductive FieldType
  | scalar (t : Scalar)
  | string
  | other
  deriving DecidableEq, Repr

/-- `TypeRegistrar::getLuaType`. -/
def getLuaType : FieldType → String
  | .scalar .bool => "bool"
  | .scalar .float | .scalar .double => "double"
  | .scalar _ => "int"
  | .string => "string"
  | .other => "unknown"

/-- A pointer to a data member. -/
structure MemberPointer where
  offset : ℕ
  type : FieldType
  deriving DecidableEq, Repr

structure TypeField where
  name : String
  offset : ℕ
  luaType : String
  deriving DecidableEq, Repr

/-- A `TypeDescriptor`. Of a method only its name matters here. -/
structure TypeDescriptor where
  name : String := ""
  fields : List TypeField := []
  methods : List String := []
  deriving DecidableEq, Repr

/-- The calls that a registrar callback makes. -/
inductive RegistrarCall
  | bind (name : String) (ptr : MemberPointer)
  | method (name : String)

/-- The field that `TypeRegistrar::bind` makes. -/
def fieldOf (name : String) (ptr : MemberPointer) : TypeField :=
  ⟨name, ptr.offset, getLuaType ptr.type⟩

/-- `TypeRegistrar::bind` and `TypeRegistrar::method`. -/
def TypeDescriptor.apply (desc : TypeDescriptor) : RegistrarCall → TypeDescriptor
  | .bind name ptr => { desc with fields := desc.fields ++ [fieldOf name ptr] }
  | .method name => { desc with methods := desc.methods ++ [name] }

abbrev TypeRegistry := AList fun _ : TypeIndex ↦ TypeDescriptor

/-- `TypeRegistry::registerType`: new bindings are merged into the descriptor of the type. -/
def TypeRegistry.registerType (key : TypeIndex) (name : String) (calls : List RegistrarCall)
    (registry : TypeRegistry) : TypeRegistry :=
  registry.insert key
    (calls.foldl TypeDescriptor.apply { (registry.lookup key).getD {} with name := name })

/-! ### Metatables -/

/-- What the table of fields has for a field. -/
structure FieldInfo where
  offset : ℕ
  type : String
  deriving DecidableEq, Repr

/-- The values in a metatable. -/
inductive MetaEntry
  | typeName (name : String)
  | fields (table : String → Option FieldInfo)
  | indexHandler
  | newindexHandler
  | invoker (method : String)
  | method (name : String)

abbrev Metatable := String → Option MetaEntry

/-- The registry of the Lua state. -/
abbrev Metatables := String → Option Metatable

/-- `"__fastrules_mt_" + desc.name` as a C string. -/
def metatableName (typeName : String) : String :=
  cStr ("__fastrules_mt_" ++ typeName)

/-- The table of the fields; a later field of a name replaces an earlier one. -/
def fieldTable (fields : List TypeField) : String → Option FieldInfo :=
  fields.foldl (fun table f ↦ Function.update table (cStr f.name) (some ⟨f.offset, f.luaType⟩))
    fun _ ↦ none

/-- The entries for one method. -/
def bindMethod (mt : Metatable) (method : String) : Metatable :=
  Function.update (Function.update mt (cStr ("__method_" ++ method)) (some (.invoker method)))
    (cStr method) (some (.method method))

/-- What `luaL_newmetatable` makes. -/
def newMetatable (name : String) : Metatable :=
  Function.update (fun _ ↦ none) "__name" (some (.typeName name))

/-- The entries of a type in its metatable. -/
def bindEntries (desc : TypeDescriptor) (mt : Metatable) : Metatable :=
  desc.methods.foldl bindMethod
    (Function.update
      (Function.update
        (Function.update mt "__fields" (some (.fields (fieldTable desc.fields))))
        "__index" (some .indexHandler))
      "__newindex" (some .newindexHandler))

/-- One round of the loop in `LuaBridge3Backend::bindTypes`. -/
def bindType (metatables : Metatables) (desc : TypeDescriptor) : Metatables :=
  let name := metatableName desc.name
  Function.update metatables name
    (some (bindEntries desc ((metatables name).getD (newMetatable name))))

/-- `LuaBridge3Backend::bindTypes`, in the iteration order of the registry. -/
def bindTypes (order : HashOrder ((_ : TypeIndex) × TypeDescriptor)) (registry : TypeRegistry)
    (metatables : Metatables) : Metatables :=
  ((order.visit registry.entries).map Sigma.snd).foldl bindType metatables

/-! ### The handlers -/

/-- What the handlers use of the Lua API and of the C++ library. -/
structure LuaApi where
  /-- `lua_tointeger`. -/
  toInteger : FieldValue MetaEntry → Int
  /-- `lua_tonumber`. -/
  toNumber : FieldValue MetaEntry → BitVec 64
  /-- `lua_tostring`. -/
  toString : FieldValue MetaEntry → Option String
  /-- The `std::string` at an address. -/
  readString : Memory → ℕ → String
  /-- Make a `std::string` at an address. -/
  writeString : Memory → ℕ → String → Memory

/-- The conversions leave values of the right type as they are. -/
structure LuaApi.Converts (lua : LuaApi) : Prop where
  toInteger_integer : ∀ n, toInt64 n = n → lua.toInteger (.integer n) = n
  toNumber_number : ∀ word, lua.toNumber (.number word) = word

/-- `lua_toboolean`. -/
def toBoolean : FieldValue MetaEntry → Bool
  | .nil | .boolean false => false
  | _ => true

/-- What the table of fields says about a key. -/
def findField (mt : Option Metatable) (key : String) : Option FieldInfo :=
  match mt.bind fun mt ↦ mt "__fields" with
  | some (.fields table) => table (cStr key)
  | _ => none

section Handlers

variable (p : Platform) (lua : LuaApi)

/-- The value at an address, read as `luaType` says. -/
def readField (mem : Memory) (ptr : ℕ) (luaType : String) : FieldValue MetaEntry :=
  if luaType = "int" then .integer (toInt32 (p.endian.decode (mem.load ptr 4)))
  else if luaType = "double" then .number (BitVec.ofNat 64 (p.endian.decode (mem.load ptr 8)))
  else if luaType = "bool" then .boolean (p.endian.decode (mem.load ptr 1) ≠ 0)
  else if luaType = "string" then .string (cStr (lua.readString mem ptr))
  else .nil

/-- `__index` of an object at an address; `none` is the null pointer. -/
def index (mt : Option Metatable) (obj : Option ℕ) (key : String) (mem : Memory) :
    FieldValue MetaEntry :=
  match obj with
  | none => .nil
  | some base =>
    match mt.bind fun mt ↦ mt (cStr key) with
    | some e => .entry e
    | none =>
      match findField mt key with
      | none => .nil
      | some info => readField p lua mem (base + info.offset) info.type

/-- The value written to an address as `luaType` says. -/
def writeField (mem : Memory) (ptr : ℕ) (luaType : String) (value : FieldValue MetaEntry) :
    Memory :=
  if luaType = "int" then
    mem.store ptr (p.endian.encode 4 ((toInt32 (lua.toInteger value)) % 2 ^ 32).toNat)
  else if luaType = "double" then mem.store ptr (p.endian.encode 8 (lua.toNumber value).toNat)
  else if luaType = "bool" then mem.store ptr [if toBoolean value then 1 else 0]
  else if luaType = "string" then lua.writeString mem ptr (cStr ((lua.toString value).getD ""))
  else mem

/-- `__newindex` of an object at an address. -/
def newindex (mt : Option Metatable) (obj : Option ℕ) (key : String) (value : FieldValue MetaEntry)
    (mem : Memory) : Memory :=
  match obj with
  | none => mem
  | some base =>
    match findField mt key with
    | none => mem
    | some info => writeField p lua mem (base + info.offset) info.type value

end Handlers

end FastRules.Types
