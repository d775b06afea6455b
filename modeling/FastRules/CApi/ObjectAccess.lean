import FastRules.CApi.ObjectParams
import FastRules.Engine.Parameters
import FastRules.Validation.InputValidator

/-!
# Objects in expressions

What `customer.age` is in the expression of a rule that is executed with the parameters of an
object. The parameter is bound as a global with the name `customer.age`, and the expression looks
into the table that is the global `customer`: no binding of a field can be seen by it
(`addObjectParam_visible_iff`).
-/

namespace FastRules

open WriteLog

/-! ### Indexing -/

/-- The objects of a Lua state: what is in its tables, and the field `__index` of the metatables of
its values. A function under `__index` is a function of its arguments. -/
structure LuaObjects where
  /-- The table of the globals. -/
  globalTable : ℕ
  entry : ℕ → String → LuaValue
  metaIndex : LuaValue → Option LuaValue
  callIndex : ℕ → LuaValue → String → Except String LuaValue

/-- `MAXTAGLOOP`. -/
def maxTagLoop : ℕ := 2000

/-- `luaL_typename`. -/
def LuaValue.typeName : LuaValue → String
  | nil => "nil"
  | boolean _ => "boolean"
  | integer _ | number _ => "number"
  | string _ => "string"
  | lightUserdata _ | object .userdata _ => "userdata"
  | object .table _ => "table"
  | object .function _ => "function"
  | object .thread _ => "thread"

/-- The message of `luaG_typeerror`, without the place and the name of the variable. -/
def indexMessage (v : LuaValue) : String :=
  "attempt to index a " ++ v.typeName ++ " value"

namespace LuaObjects

variable (objects : LuaObjects) (globals : String → LuaValue)

/-- `lua_rawget`, for a table. -/
def rawEntry : LuaValue → String → Option LuaValue
  | .object .table id, key =>
    some (if id = objects.globalTable then globals key else objects.entry id key)
  | _, _ => none

/-- `luaV_finishget`: the value of a key, or what `__index` has for it. -/
def index : ℕ → LuaValue → String → Except String LuaValue
  | 0, v, key =>
    match objects.rawEntry globals v key with
    | none | some .nil => .error "'__index' chain too long; possibly a loop"
    | some found => .ok found
  | loops + 1, v, key =>
    match objects.rawEntry globals v key, objects.metaIndex v with
    | some .nil, none => .ok .nil
    | some .nil, some (.object .function f) => objects.callIndex f v key
    | some .nil, some next => index loops next key
    | some found, _ => .ok found
    | none, none => .error (indexMessage v)
    | none, some (.object .function f) => objects.callIndex f v key
    | none, some next => index loops next key

/-- The expression `name.field`. -/
def access (name field : String) : Except String LuaValue := do
  let v ← objects.index globals maxTagLoop (.object .table objects.globalTable) name
  objects.index globals maxTagLoop v field

/-- The chunk compiled for `name.field`. -/
def accessChunk (name field : String) : EngineCall.BackendChunk LuaValue :=
  fun globals ↦ ⟨[], objects.access globals name field⟩

variable {objects globals} {globals' : String → LuaValue} {name field : String}

theorem index_congr {key : String} (hkey : globals key = globals' key) (loops : ℕ) (v : LuaValue) :
    objects.index globals loops v key = objects.index globals' loops v key := by
  have hraw (v : LuaValue) : objects.rawEntry globals v key = objects.rawEntry globals' v key := by
    rw [rawEntry.eq_def, rawEntry.eq_def]
    split
    · rw [hkey]
    · rfl
  induction loops generalizing v with
  | zero => rw [index, index, hraw]
  | succ loops ih =>
    rw [index, index, hraw]
    split
    all_goals first | rfl | exact ih _

/-- An access looks at two globals at most. -/
theorem access_congr (hname : globals name = globals' name)
    (hfield : globals field = globals' field) :
    objects.access globals name field = objects.access globals' name field := by
  rw [access, access, index_congr hname]
  exact congrArg _ (funext fun v ↦ index_congr hfield maxTagLoop v)

/-- An access to what is not there is an error. -/
theorem access_of_nil (hname : globals name = .nil)
    (hglobals : objects.metaIndex (.object .table objects.globalTable) = none)
    (hnil : objects.metaIndex .nil = none) :
    objects.access globals name field = .error "attempt to index a nil value" := by
  have hread : objects.index globals maxTagLoop (.object .table objects.globalTable) name =
      .ok .nil := by
    rw [maxTagLoop, index, rawEntry, if_pos rfl, hname, hglobals]
  rw [access, hread]
  show objects.index globals maxTagLoop .nil field = _
  rw [maxTagLoop, index, hnil]
  rfl

end LuaObjects

/-! ### The globals that an expression finds -/

namespace EngineCall

/-- The globals when the chunk is called. -/
def globalsFound (x : EngineCall) : String → LuaValue :=
  written x.start.value (x.contextWrites ++ x.objectWrites ++ x.bindPlain HostTypes.pushAny)

variable {x : EngineCall} {later : List RuleParameter} {key : String}

theorem plainParameters_eq (x : EngineCall) :
    x.plainParameters = x.parameters.filter fun p ↦
      (x.parameters.filter x.types.isObject).all fun q ↦ p.name ≠ q.name := by
  rw [plainParameters]
  generalize x.parameters.filter x.types.isObject = objects
  generalize x.parameters = pairs
  induction objects generalizing pairs with
  | nil => simp
  | cons q objects ih =>
    rw [List.foldl_cons, ih, List.filter_filter]
    refine List.filter_congr fun p _ ↦ ?_
    rw [List.all_cons, Bool.and_comm]

/-- What is in a global is up to the writes to it. -/
theorem lastWrite_filter (log : List GlobalWrite) (key : String) :
    lastWrite (log.filter fun w ↦ w.key = key) key = lastWrite log key := by
  induction log with
  | nil => rfl
  | cons w log ih =>
    rw [List.filter_cons]
    split_ifs with hkey
    · rw [lastWrite, lastWrite, ih]
    · rw [lastWrite, ih, if_neg (by simpa using hkey), Option.or_none]

theorem bindObjects_append (types : HostTypes) (fresh : ℕ) (parameters : List RuleParameter)
    (later : List RuleParameter) :
    ∃ fresh', bindObjects types fresh (parameters ++ later) =
      bindObjects types fresh parameters ++ bindObjects types fresh' later := by
  induction parameters generalizing fresh with
  | nil => exact ⟨fresh, rfl⟩
  | cons p parameters ih =>
    rw [List.cons_append, bindObjects, bindObjects]
    split_ifs
    · obtain ⟨fresh', h⟩ := ih (fresh + 1)
      exact ⟨fresh', by rw [h, List.cons_append]⟩
    · exact ih fresh

/-- The writes to one global. -/
theorem filter_bindPlain (x : EngineCall) (convert : Option AnyValue → LuaValue) (key : String) :
    (x.bindPlain convert).filter (fun w ↦ w.key = key) =
      (x.parameters.filter fun p ↦ decide (cStr p.name = key) &&
        (x.parameters.filter x.types.isObject).all fun q ↦ p.name ≠ q.name).map
          fun p ↦ ⟨cStr p.name, .parameter, convert p.value⟩ := by
  rw [bindPlain, plainParameters_eq, List.filter_map, List.filter_filter]
  rfl

section Append

variable (hlater : ∀ p ∈ later, cStr p.name ≠ key)
include hlater

/-- Parameters with other names do not make an object under a global. -/
theorem lastWrite_objectWrites_append :
    lastWrite ({ x with parameters := x.parameters ++ later } : EngineCall).objectWrites key =
      lastWrite x.objectWrites key := by
  obtain ⟨fresh', happend⟩ := bindObjects_append x.types (x.start.made + 1) x.parameters later
  have hnone : lastWrite (bindObjects x.types fresh' later) key = none := by
    refine lastWrite_eq_none_iff.2 fun w hw hkey ↦ ?_
    have hmem := List.mem_map_of_mem (f := fun w : GlobalWrite ↦ w.key) hw
    rw [key_bindObjects, List.mem_map] at hmem
    obtain ⟨p, hp, hname⟩ := hmem
    exact hlater p (List.mem_of_mem_filter hp) (hname.trans hkey)
  rw [objectWrites, objectWrites, happend, lastWrite_append, hnone, Option.none_or]

/-- Nor do they set it to a plain value, or keep another parameter from doing so. -/
theorem lastWrite_bindPlain_append (convert : Option AnyValue → LuaValue) :
    lastWrite (({ x with parameters := x.parameters ++ later } : EngineCall).bindPlain convert)
      key = lastWrite (x.bindPlain convert) key := by
  have hnone (q : RuleParameter → Bool) :
      (later.filter fun p ↦ decide (cStr p.name = key) && q p) = [] := by
    refine List.filter_eq_nil_iff.2 fun p hp ↦ ?_
    simp [hlater p hp]
  have hsame : (x.parameters.filter fun p ↦ decide (cStr p.name = key) &&
      ((x.parameters ++ later).filter x.types.isObject).all fun q ↦ p.name ≠ q.name) =
      x.parameters.filter fun p ↦ decide (cStr p.name = key) &&
        (x.parameters.filter x.types.isObject).all fun q ↦ p.name ≠ q.name := by
    refine List.filter_congr fun p _ ↦ ?_
    rw [List.filter_append, List.all_append]
    by_cases hp : cStr p.name = key
    · have hall : ((later.filter x.types.isObject).all fun q ↦ p.name ≠ q.name) = true := by
        refine List.all_eq_true.2 fun q hq ↦ decide_eq_true fun hname ↦ ?_
        exact hlater q (List.mem_of_mem_filter hq) (hname ▸ hp)
      rw [hall, Bool.and_true]
    · rw [decide_eq_false hp, Bool.false_and, Bool.false_and]
  rw [← lastWrite_filter, ← lastWrite_filter (x.bindPlain _), filter_bindPlain, filter_bindPlain]
  dsimp only
  rw [List.filter_append, hnone, List.append_nil, hsame]

/-- Parameters with other names leave a global as it is. -/
theorem globalsFound_append :
    ({ x with parameters := x.parameters ++ later } : EngineCall).globalsFound key =
      x.globalsFound key := by
  rw [globalsFound, globalsFound, written_eq, written_eq, lastWrite_append, lastWrite_append,
    lastWrite_append, lastWrite_append, lastWrite_objectWrites_append hlater,
    lastWrite_bindPlain_append hlater]
  rfl

end Append

/-- What the expression of a rule evaluates to. -/
def valueOf (x : EngineCall) (chunk : BackendChunk LuaValue) : Except Exn LuaValue :=
  (x.callChunk expressionWords true (some chunk)).outcome

/-- An expression that finds the same globals and assigns none has the same value. -/
theorem valueOf_congr {x y : EngineCall} {chunk : BackendChunk LuaValue} (hlate : x.late = y.late)
    (hchunk : (chunk x.globalsFound).outcome = (chunk y.globalsFound).outcome) :
    x.valueOf chunk = y.valueOf chunk := by
  rw [valueOf, valueOf, callChunk, callChunk, if_pos rfl, if_pos rfl]
  dsimp only
  rw [globalsFound, globalsFound] at hchunk
  rw [hchunk]
  split
  · rfl
  · rw [finish, finish, hlate]

end EngineCall

/-! ### The parameters of an object -/

/-- A name of Lua: letters, digits and underscores, no digit first, and no keyword. -/
structure IsLuaName (s : String) : Prop where
  chars : ∀ c ∈ s.toList, isIdentifierChar c = true
  start : ∃ c ∈ s.toList.head?, isIdentifierStart c = true
  keyword : s ∉ ["and", "break", "do", "else", "elseif", "end", "false", "for", "function", "goto",
    "if", "in", "local", "nil", "not", "or", "repeat", "return", "then", "true", "until", "while"]

theorem IsLuaName.not_mem {s : String} (h : IsLuaName s) {c : Char}
    (hc : isIdentifierChar c = false) : c ∉ s.toList := by
  intro hmem
  rw [h.chars c hmem] at hc
  cases hc

section Object

variable {names : TypeNames} {existing : Option String} {name : String}
  {fields : List (String × String)}

/-- The keys of the parameters that are read of the fields have a dot in them, and no NUL. -/
theorem name_of_mem_parseFrom {left : List Char} (hleft : '=' ∉ left) (hnul : '\x00' ∉ left)
    (hname : IsLuaName name) (hfields : ∀ f ∈ fields, IsLuaName f.1 ∧ ';' ∉ f.2.toList)
    {p : RuleParameter} (hp : p ∈ parseFrom names (left ++ fieldsText name fields)) :
    '.' ∈ p.name.toList ∧ NulFree p.name := by
  have hkey {left : List Char} (hnul : '\x00' ∉ left) {f : String × String} (hf : IsLuaName f.1) :
      '.' ∈ (String.ofList (trim (left ++ fieldKey name f))).toList ∧
        NulFree (String.ofList (trim (left ++ fieldKey name f))) := by
    rw [NulFree, String.toList_ofList]
    refine ⟨mem_trim (by simp [fieldKey]) (by decide), fun hmem ↦ ?_⟩
    have hmem := trim_subset hmem
    simp only [fieldKey, List.mem_append, List.mem_cons] at hmem
    rcases hmem with h | h | h | h
    · exact hnul h
    · exact hname.not_mem (by decide) h
    · exact absurd h (by decide)
    · exact hf.not_mem (by decide) h
  have hequals : ∀ f ∈ fields, '=' ∉ fieldKey name f := fun f hf hmem ↦ by
    simp only [fieldKey, List.mem_append, List.mem_cons] at hmem
    rcases hmem with h | h | h
    · exact hname.not_mem (by decide) h
    · exact absurd h (by decide)
    · exact (hfields f hf).1.not_mem (by decide) h
  rcases fields with - | ⟨field, fields⟩
  · rw [fieldsText_nil, List.append_nil, parseFrom_of_not_mem hleft] at hp
    cases hp
  rw [parseFrom_append_fieldsText hleft hequals fun f hf ↦ (hfields f hf).2] at hp
  rcases List.mem_cons.1 hp with rfl | hp
  · exact hkey hnul (hfields field List.mem_cons_self).1
  · obtain ⟨f, hf, rfl⟩ := List.mem_map.1 hp
    exact hkey List.not_mem_nil (hfields f (List.mem_cons_of_mem field hf)).1

/-- What is read of the string with the object: what was there, and parameters that no expression
can name. -/
theorem exists_parseParams_addObjectParam (names : TypeNames) (engine : EngineHandle)
    (hexisting : NulFree (existing.getD "")) (hname : IsLuaName name) {obj : FastRulesObject}
    (hfields : ∀ f ∈ obj.fieldValues, IsLuaName f.1 ∧ ';' ∉ f.2.toList) :
    ∃ outParams later, addObjectParam (some engine) existing (some name) (some obj) =
        .ok outParams ∧
      parseParams names (some outParams) = parseParams names existing ++ later ∧
      ∀ p ∈ later, '.' ∈ p.name.toList ∧ NulFree p.name := by
  obtain ⟨left, hleft, hsub, -, -, htyped, hobject⟩ :=
    exists_parseFrom_addFields names existing name
  have hnul : '\x00' ∉ left := fun h ↦ by
    rcases List.mem_cons.1 (hsub h) with h | h
    · exact absurd h (by decide)
    · exact hexisting h
  have hleft' : '=' ∉ left ++ [';'] := by simp [hleft]
  have hnul' : '\x00' ∉ left ++ [';'] := by simp [hnul]
  rw [addObjectParam]
  split_ifs with hempty
  · refine ⟨_, parseFrom names (left ++ fieldsText name obj.fieldValues), rfl, ?_,
      fun p hp ↦ name_of_mem_parseFrom hleft hnul hname hfields hp⟩
    rw [← htyped, hempty, parseParams, String.toList_ofList]
    rfl
  · refine ⟨_, parseFrom names (left ++ [';'] ++ fieldsText name obj.fieldValues), rfl, ?_,
      fun p hp ↦ name_of_mem_parseFrom hleft' hnul' hname hfields hp⟩
    rw [← hobject hempty, parseParams, String.toList_ofList]

end Object

/-- The access to a field yields the value of the field, in an expression that is evaluated with the
parameters of the string. -/
def EvaluatesField (names : TypeNames) (objects : LuaObjects) (call : EngineCall)
    (params : Option String) (name : String) (field : String × String) : Prop :=
  ({ call with parameters := parseParams names params } : EngineCall).valueOf
      (objects.accessChunk name field.1) =
    .ok (HostTypes.pushAny (some (parseValue names (trim field.2.toList))))

section Access

variable {names : TypeNames} {objects : LuaObjects} {call : EngineCall} {engine : EngineHandle}
  {existing : Option String} {name : String} {obj : FastRulesObject} {outParams : String}
  (hexisting : NulFree (existing.getD "")) (hname : IsLuaName name)
  (hfields : ∀ f ∈ obj.fieldValues, IsLuaName f.1 ∧ ';' ∉ f.2.toList)
  (hout : addObjectParam (some engine) existing (some name) (some obj) = .ok outParams)
include hexisting hname hfields hout

/-- No global with a name of Lua depends on the object. -/
theorem globalsFound_addObjectParam {key : String} (hkey : IsLuaName key) :
    ({ call with parameters := parseParams names (some outParams) } : EngineCall).globalsFound key =
      ({ call with parameters := parseParams names existing } : EngineCall).globalsFound key := by
  obtain ⟨outParams', later, hout', hparse, hlater⟩ :=
    exists_parseParams_addObjectParam names engine hexisting hname hfields
  obtain rfl := Except.ok.inj (hout'.symm.trans hout)
  rw [hparse]
  refine @EngineCall.globalsFound_append
    { call with parameters := parseParams names existing } later key fun p hp heq ↦ ?_
  obtain ⟨hdot, hnul⟩ := hlater p hp
  rw [← heq, cStr_eq_self hnul] at hkey
  exact hkey.not_mem (by decide) hdot

/-- An access has the value that it has without the object. -/
theorem valueOf_addObjectParam {key : String} (hkey : IsLuaName key) :
    ({ call with parameters := parseParams names (some outParams) } : EngineCall).valueOf
        (objects.accessChunk name key) =
      ({ call with parameters := parseParams names existing } : EngineCall).valueOf
        (objects.accessChunk name key) :=
  EngineCall.valueOf_congr rfl (LuaObjects.access_congr
    (globalsFound_addObjectParam hexisting hname hfields hout hname)
    (globalsFound_addObjectParam hexisting hname hfields hout hkey))

/-- An access into a global that is not there yields nothing. -/
theorem not_yields_of_unset (field : String × String)
    (hunset : ({ call with parameters := parseParams names existing } : EngineCall).globalsFound
      name = .nil)
    (hglobals : objects.metaIndex (.object .table objects.globalTable) = none)
    (hnil : objects.metaIndex .nil = none) :
    ¬EvaluatesField names objects call (some outParams) name field := by
  have hfound : ({ call with parameters := parseParams names (some outParams) } :
      EngineCall).globalsFound name = .nil :=
    (globalsFound_addObjectParam hexisting hname hfields hout hname).trans hunset
  have haccess : objects.access ({ call with parameters := parseParams names (some outParams) } :
      EngineCall).globalsFound name field.1 = .error "attempt to index a nil value" :=
    LuaObjects.access_of_nil hfound hglobals hnil
  intro h
  rw [EngineCall.globalsFound] at haccess
  rw [EvaluatesField, EngineCall.valueOf, EngineCall.callChunk, if_pos rfl] at h
  dsimp only at h
  rw [LuaObjects.accessChunk, haccess] at h
  cases h

end Access

/-- **An access to a field of an object** yields its value exactly if it does so without the
object. -/
theorem addObjectParam_visible_iff (names : TypeNames) (objects : LuaObjects) (call : EngineCall)
    (engine : EngineHandle) (existing : Option String) (name : String) (obj : FastRulesObject)
    (outParams : String) (hexisting : NulFree (existing.getD "")) (hname : IsLuaName name)
    (hfields : ∀ f ∈ obj.fieldValues, IsLuaName f.1 ∧ ';' ∉ f.2.toList)
    (hout : addObjectParam (some engine) existing (some name) (some obj) = .ok outParams) :
    ∀ field ∈ obj.fieldValues, EvaluatesField names objects call (some outParams) name field ↔
      EvaluatesField names objects call existing name field := by
  intro field hfield
  rw [EvaluatesField, valueOf_addObjectParam hexisting hname hfields hout (hfields field hfield).1,
    EvaluatesField]

/-- A call in a state with no globals. -/
def freshCall : EngineCall where
  types := ⟨fun _ ↦ none, fun _ ↦ none⟩
  start := ⟨fun _ ↦ .nil, 1, fun _ _ _ h ↦ nomatch h⟩
  ref := 1
  parameters := []

/-- Objects without metatables. -/
def freshObjects : LuaObjects :=
  ⟨0, fun _ _ ↦ .nil, fun _ ↦ none, fun _ _ _ ↦ .ok .nil⟩

theorem isLuaName_customerAge :
    IsLuaName "customer" ∧ ∀ f ∈ customerAge.fieldValues, IsLuaName f.1 ∧ ';' ∉ f.2.toList :=
  ⟨⟨by decide, ⟨'c', by decide, by decide⟩, by decide⟩, List.forall_mem_singleton.2
    ⟨⟨by decide, ⟨'a', by decide, by decide⟩, by decide⟩, by decide⟩⟩

/-- The age of a customer is the same with the customer and without. -/
theorem addObjectParam_visible_customer :
    EvaluatesField .unnamed freshObjects freshCall (some "customer.age=25") "customer"
        ("age", "25") ↔
      EvaluatesField .unnamed freshObjects freshCall none "customer" ("age", "25") :=
  addObjectParam_visible_iff .unnamed freshObjects freshCall 1 none "customer" customerAge
    "customer.age=25" (by decide) isLuaName_customerAge.1 isLuaName_customerAge.2 (by decide)
    ("age", "25") (by decide)

/-- The global is bound, and the access is an error. -/
theorem addObjectParam_not_visible :
    addObjectParam (some 1) none (some "customer") (some customerAge) = .ok "customer.age=25" ∧
      (parseParams .unnamed (some "customer.age=25")).map RuleParameter.name = ["customer.age"] ∧
      ¬EvaluatesField .unnamed freshObjects freshCall (some "customer.age=25") "customer"
        ("age", "25") := by
  have hout : addObjectParam (some 1) none (some "customer") (some customerAge) =
      .ok "customer.age=25" := by
    decide
  have hparse : parseParams .unnamed (some "customer.age=25") =
      [parseParam .unnamed "customer.age".toList "25".toList] :=
    @parseFrom_segment _ "customer.age".toList "25".toList (by decide) (by decide)
  refine ⟨hout, by rw [hparse]; decide, ?_⟩
  have hexisting : NulFree ((none : Option String).getD "") := by decide
  exact not_yields_of_unset hexisting isLuaName_customerAge.1 isLuaName_customerAge.2 hout
    ("age", "25") (by decide) rfl rfl

end FastRules
