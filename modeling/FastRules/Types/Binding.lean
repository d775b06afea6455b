import FastRules.Types.Access

/-!
# Fields and their names

Which field the handlers find under a name depends on all types that were bound so far under the
same metatable: their methods hide fields of the same name, and the fields are those of the type
that was bound last.
-/

namespace FastRules.Types

/-! ### Calls -/

/-- The registered types and what is bound of them in the Lua state. -/
structure TypeBindings where
  registry : TypeRegistry := ∅
  metatables : Metatables := fun _ ↦ none

inductive TypeCall
  | registerType (key : TypeIndex) (name : String) (calls : List RegistrarCall)
  | bindTypes (order : HashOrder ((_ : TypeIndex) × TypeDescriptor))

/-- Perform a call. -/
def TypeBindings.perform (s : TypeBindings) : TypeCall → TypeBindings
  | .registerType key name calls => { s with registry := s.registry.registerType key name calls }
  | .bindTypes order => { s with metatables := bindTypes order s.registry s.metatables }

/-- Perform calls, one after the other. -/
def TypeBindings.performAll (s : TypeBindings) (calls : List TypeCall) : TypeBindings :=
  calls.foldl TypeBindings.perform s

/-- The descriptors that the calls bind, in order. -/
def boundBy : TypeBindings → List TypeCall → List TypeDescriptor
  | _, [] => []
  | s, .registerType key name calls :: rest =>
    boundBy (s.perform (.registerType key name calls)) rest
  | s, .bindTypes order :: rest =>
    (order.visit s.registry.entries).map Sigma.snd ++ boundBy (s.perform (.bindTypes order)) rest

theorem metatables_performAll (s : TypeBindings) (calls : List TypeCall) :
    (s.performAll calls).metatables = (boundBy s calls).foldl bindType s.metatables := by
  induction calls generalizing s with
  | nil => rfl
  | cons call calls ih =>
    show ((s.perform call).performAll calls).metatables = _
    rw [ih]
    cases call with
    | registerType key name calls => rfl
    | bindTypes order =>
      rw [boundBy, List.foldl_append]
      rfl

/-! ### Metatables -/

/-- The types that share a metatable. -/
def sharing (bound : List TypeDescriptor) (typeName : String) : List TypeDescriptor :=
  bound.filter fun desc ↦ metatableName desc.name = metatableName typeName

/-- The keys of the entries for methods. -/
def TypeDescriptor.methodKeys (desc : TypeDescriptor) : List String :=
  desc.methods.flatMap fun method ↦ [cStr ("__method_" ++ method), cStr method]

/-- The keys that every metatable has. -/
def reservedKeys : List String :=
  ["__name", "__fields", "__index", "__newindex"]

/-- The field that is last bound under a name. -/
def TypeDescriptor.lastField (desc : TypeDescriptor) (name : String) : Option TypeField :=
  desc.fields.reverse.find? fun f ↦ cStr f.name = cStr name

section Metatable

variable {desc : TypeDescriptor} {mt : Metatable} {key : String}

/-- The entries of a metatable come from the types that share it, one after the other. -/
theorem foldl_bindType (bound : List TypeDescriptor) (metatables : Metatables) (typeName : String) :
    bound.foldl bindType metatables (metatableName typeName) =
      if sharing bound typeName = [] then metatables (metatableName typeName)
      else some ((sharing bound typeName).foldl (fun mt desc ↦ bindEntries desc mt)
        ((metatables (metatableName typeName)).getD (newMetatable (metatableName typeName)))) := by
  induction bound generalizing metatables with
  | nil => rfl
  | cons desc bound ih =>
    rw [List.foldl_cons, ih]
    -- a type either has this metatable or leaves it alone
    by_cases hname : metatableName desc.name = metatableName typeName
    · have hsharing : sharing (desc :: bound) typeName = desc :: sharing bound typeName :=
        List.filter_cons_of_pos (decide_eq_true hname)
      have hbind : bindType metatables desc (metatableName typeName) =
          some (bindEntries desc ((metatables (metatableName typeName)).getD
            (newMetatable (metatableName typeName)))) := by
        rw [bindType, hname, Function.update_self]
      rw [hsharing, if_neg (List.cons_ne_nil _ _), List.foldl_cons, hbind]
      split_ifs with hnil
      · rw [hnil]
        rfl
      · rfl
    · have hsharing : sharing (desc :: bound) typeName = sharing bound typeName :=
        List.filter_cons_of_neg (by simpa using hname)
      have hbind : bindType metatables desc (metatableName typeName) =
          metatables (metatableName typeName) := by
        rw [bindType, Function.update_of_ne (Ne.symm hname)]
      rw [hsharing, hbind]

/-- Methods add entries under their keys and leave the others as they are. -/
theorem foldl_bindMethod_of_notMem {methods : List String}
    (h : ∀ m ∈ methods, key ≠ cStr ("__method_" ++ m) ∧ key ≠ cStr m) :
    methods.foldl bindMethod mt key = mt key := by
  induction methods generalizing mt with
  | nil => rfl
  | cons m methods ih =>
    obtain ⟨hinvoker, hmethod⟩ := h m List.mem_cons_self
    rw [List.foldl_cons, ih fun m' hm' ↦ h m' (List.mem_cons_of_mem m hm'), bindMethod,
      Function.update_of_ne hmethod, Function.update_of_ne hinvoker]

theorem notMem_methodKeys : key ∉ desc.methodKeys ↔
    ∀ m ∈ desc.methods, key ≠ cStr ("__method_" ++ m) ∧ key ≠ cStr m := by
  simp [TypeDescriptor.methodKeys]

/-- A method has entries under its keys. -/
theorem foldl_bindMethod_of_mem {methods : List String}
    (h : ∃ m ∈ methods, key = cStr ("__method_" ++ m) ∨ key = cStr m) :
    ∃ m, methods.foldl bindMethod mt key = some (.invoker m) ∨
      methods.foldl bindMethod mt key = some (.method m) := by
  induction methods generalizing mt with
  | nil => simp at h
  | cons m methods ih =>
    rw [List.foldl_cons]
    by_cases hlater : ∃ m ∈ methods, key = cStr ("__method_" ++ m) ∨ key = cStr m
    · exact ih hlater
    · have hnone : ∀ m ∈ methods, key ≠ cStr ("__method_" ++ m) ∧ key ≠ cStr m :=
        fun m hm ↦ not_or.1 fun h ↦ hlater ⟨m, hm, h⟩
      obtain ⟨m', hm', hkey⟩ := h
      obtain rfl : m' = m := (List.mem_cons.1 hm').resolve_right fun h ↦ hlater ⟨m', h, hkey⟩
      refine ⟨m', ?_⟩
      rw [foldl_bindMethod_of_notMem hnone, bindMethod]
      by_cases hself : key = cStr m'
      · rw [hself, Function.update_self]
        exact .inr rfl
      · rw [Function.update_of_ne hself, hkey.resolve_right hself, Function.update_self]
        exact .inl rfl

theorem mem_methodKeys : key ∈ desc.methodKeys ↔
    ∃ m ∈ desc.methods, key = cStr ("__method_" ++ m) ∨ key = cStr m := by
  simp [TypeDescriptor.methodKeys]

theorem bindEntries_of_notMem (hkey : key ∉ desc.methodKeys) (hreserved : key ∉ reservedKeys.tail) :
    bindEntries desc mt key = mt key := by
  have hne {k : String} (hk : k ∈ reservedKeys.tail) : key ≠ k := fun h ↦ hreserved (h ▸ hk)
  rw [bindEntries, foldl_bindMethod_of_notMem (notMem_methodKeys.1 hkey),
    Function.update_of_ne (hne (by decide)), Function.update_of_ne (hne (by decide)),
    Function.update_of_ne (hne (by decide))]

theorem bindEntries_ne_none (h : key ∈ desc.methodKeys ∨ key ∈ reservedKeys.tail ∨ mt key ≠ none) :
    bindEntries desc mt key ≠ none := by
  by_cases hkey : key ∈ desc.methodKeys
  · obtain ⟨m, hm | hm⟩ := foldl_bindMethod_of_mem (mem_methodKeys.1 hkey)
    · rw [bindEntries, hm]
      exact Option.some_ne_none _
    · rw [bindEntries, hm]
      exact Option.some_ne_none _
  · rw [bindEntries, foldl_bindMethod_of_notMem (notMem_methodKeys.1 hkey)]
    simp only [Function.update_apply]
    split_ifs with hnewindex hindex hfields
    · exact Option.some_ne_none _
    · exact Option.some_ne_none _
    · exact Option.some_ne_none _
    · refine (h.resolve_left hkey).resolve_left fun hmem ↦ ?_
      simp [reservedKeys, hnewindex, hindex, hfields] at hmem

theorem fieldTable_eq (fields : List TypeField) (key : String) : fieldTable fields key =
    (fields.reverse.find? fun f ↦ cStr f.name = key).map fun f ↦ ⟨f.offset, f.luaType⟩ := by
  induction fields using List.reverseRecOn with
  | nil => rfl
  | append_singleton fields f ih =>
    rw [fieldTable, List.foldl_append, List.reverse_append]
    show Function.update (fieldTable fields) (cStr f.name) (some ⟨f.offset, f.luaType⟩) key =
      ((f :: fields.reverse).find? fun f ↦ cStr f.name = key).map fun f ↦ ⟨f.offset, f.luaType⟩
    by_cases hname : cStr f.name = key
    · rw [hname, Function.update_self]
      simp [hname]
    · rw [Function.update_of_ne (Ne.symm hname), ih]
      simp [hname]

/-- A field is found in the type that was bound last, unless a method has the name of the table. -/
theorem findField_bindEntries (name : String) : findField (some (bindEntries desc mt)) name =
    if "__fields" ∈ desc.methodKeys then none
    else (desc.lastField name).map fun f ↦ ⟨f.offset, f.luaType⟩ := by
  have hbind : ((some (bindEntries desc mt)).bind fun mt ↦ mt "__fields") =
      bindEntries desc mt "__fields" := rfl
  rw [findField, hbind]
  split_ifs with hkey
  · obtain ⟨m, hm | hm⟩ := foldl_bindMethod_of_mem (mem_methodKeys.1 hkey)
    · rw [bindEntries, hm]
    · rw [bindEntries, hm]
  · have hfields : bindEntries desc mt "__fields" = some (.fields (fieldTable desc.fields)) := by
      rw [bindEntries, foldl_bindMethod_of_notMem (notMem_methodKeys.1 hkey),
        Function.update_of_ne (by decide), Function.update_of_ne (by decide), Function.update_self]
    rw [hfields]
    exact fieldTable_eq desc.fields (cStr name)

end Metatable

/-! ### What the handlers find -/

/-- The name denotes a field at the offset and with the tag: it is no other key of the metatable,
and the last field of the name in the type that was bound last is such a field. -/
structure FindsField (bound : List TypeDescriptor) (typeName name : String) (offset : ℕ)
    (luaType : String) : Prop where
  notReserved : cStr name ∉ reservedKeys
  notMethod : ∀ desc ∈ sharing bound typeName, cStr name ∉ desc.methodKeys
  exists_last : ∃ desc f, (sharing bound typeName).getLast? = some desc ∧
    "__fields" ∉ desc.methodKeys ∧ desc.lastField name = some f ∧ f.offset = offset ∧
    f.luaType = luaType

section Finds

variable {bound : List TypeDescriptor} {typeName name luaType : String} {offset : ℕ}

/-- A key has an entry if it is reserved or that of a method. -/
theorem foldl_bindEntries_eq_none_iff {descs : List TypeDescriptor} (hdescs : descs ≠ [])
    (mt : Metatable) (key : String) :
    descs.foldl (fun mt desc ↦ bindEntries desc mt) mt key = none ↔
      key ∉ reservedKeys.tail ∧ mt key = none ∧ ∀ desc ∈ descs, key ∉ desc.methodKeys := by
  have hone (mt : Metatable) (desc : TypeDescriptor) : bindEntries desc mt key = none ↔
      key ∉ reservedKeys.tail ∧ mt key = none ∧ key ∉ desc.methodKeys := by
    constructor
    · intro h
      by_contra hnot
      refine bindEntries_ne_none ?_ h
      tauto
    · rintro ⟨hreserved, hmt, hkey⟩
      exact (bindEntries_of_notMem hkey hreserved).trans hmt
  induction descs generalizing mt with
  | nil => exact absurd rfl hdescs
  | cons desc descs ih =>
    rcases eq_or_ne descs [] with rfl | hne
    · simpa using hone mt desc
    · refine (ih hne (bindEntries desc mt)).trans ?_
      rw [hone, List.forall_mem_cons]
      tauto

theorem findField_foldl_bindEntries {descs : List TypeDescriptor} (hdescs : descs ≠ [])
    (mt : Metatable) (name : String) (info : FieldInfo) :
    findField (some (descs.foldl (fun mt desc ↦ bindEntries desc mt) mt)) name = some info ↔
      ∃ desc f, descs.getLast? = some desc ∧ "__fields" ∉ desc.methodKeys ∧
        desc.lastField name = some f ∧ f.offset = info.offset ∧ f.luaType = info.type := by
  obtain ⟨earlier, last, rfl⟩ := (List.eq_nil_or_concat descs).resolve_left hdescs
  have hlast : (earlier.concat last).foldl (fun mt desc ↦ bindEntries desc mt) mt =
      bindEntries last (earlier.foldl (fun mt desc ↦ bindEntries desc mt) mt) := by
    rw [List.concat_eq_append, List.foldl_append]
    rfl
  rw [hlast, findField_bindEntries, List.concat_eq_append, List.getLast?_concat]
  obtain ⟨offset, type⟩ := info
  split_ifs with hkey
  · simp [hkey]
  · simp [hkey]

/-- What the handlers find, in terms of the types that were bound. -/
theorem finds_iff (bound : List TypeDescriptor) (typeName name luaType : String) (offset : ℕ) :
    Finds (bound.foldl bindType (fun _ ↦ none) (metatableName typeName)) name offset luaType ↔
      FindsField bound typeName name offset luaType := by
  rw [foldl_bindType]
  split_ifs with hnil
  · -- There is no metatable, so nothing is found.
    refine ⟨fun h ↦ absurd h.field (by simp [findField]), fun h ↦ ?_⟩
    obtain ⟨desc, f, hlast, -⟩ := h.exists_last
    rw [hnil] at hlast
    exact absurd hlast (by simp)
  · have hname : newMetatable (metatableName typeName) (cStr name) = none ↔
      cStr name ≠ "__name" := by
      simp [newMetatable, Function.update_apply]
    have hentry :=
      foldl_bindEntries_eq_none_iff hnil (newMetatable (metatableName typeName)) (cStr name)
    have hreserved : cStr name ∉ reservedKeys ↔
        cStr name ≠ "__name" ∧ cStr name ∉ reservedKeys.tail := List.mem_cons.not.trans not_or
    have hfield := findField_foldl_bindEntries hnil (newMetatable (metatableName typeName)) name
      ⟨offset, luaType⟩
    rw [hname] at hentry
    constructor
    · rintro ⟨hnone, hfound⟩
      obtain ⟨htail, hne, hmethods⟩ := hentry.1 hnone
      exact ⟨hreserved.2 ⟨hne, htail⟩, hmethods, hfield.1 hfound⟩
    · rintro ⟨hres, hmethods, hlast⟩
      obtain ⟨hne, htail⟩ := hreserved.1 hres
      exact ⟨hentry.2 ⟨htail, hne, hmethods⟩, hfield.2 hlast⟩

end Finds

/-! ### Registered types -/

/-- A platform with four bytes in a `long`. -/
def smallLongs : Platform where
  longBytes := 4
  longBytes_eq := .inl rfl
  charIsSigned := true
  endian := .little

/-- The conversions of values that have the right type already. -/
def plainApi : LuaApi where
  toInteger
    | .integer n => n
    | _ => 0
  toNumber
    | .number word => word
    | _ => 0
  toString
    | .string s => some s
    | _ => none
  readString _ _ := ""
  writeString mem _ _ := mem

theorem plainApi_converts : plainApi.Converts :=
  ⟨fun _ _ ↦ rfl, fun _ ↦ rfl⟩

/-- The type index of a class. -/
def customerType : TypeIndex :=
  ⟨.other, "Customer", 1⟩

/-- `struct Customer { double balance; int age; bool active; };` with a method. -/
def customerCalls : List TypeCall :=
  [.registerType customerType "Customer"
      [.bind "balance" ⟨0, .scalar .double⟩, .bind "age" ⟨8, .scalar .int⟩,
        .bind "active" ⟨12, .scalar .bool⟩, .method "isPremium"],
    .bindTypes (.insertion _)]

/-- `struct Size { short width; short height; };`. -/
def sizeCalls : List TypeCall :=
  [.registerType customerType "Size"
      [.bind "width" ⟨0, .scalar .short⟩, .bind "height" ⟨2, .scalar .short⟩],
    .bindTypes (.insertion _)]

/-- A size at address 0 with width 5 and height 7. -/
def sizeMemory : Bytes.Memory :=
  Bytes.Memory.store (fun _ ↦ 0) 0 [5, 0, 7, 0]

end FastRules.Types
