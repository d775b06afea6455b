import FastRules.CApi.Params
import Mathlib.Data.String.Basic

/-!
# Objects in parameter strings

`fastrules_add_object_param` and `fastrules_add_typed_param` write the fields of an object after a
parameter string, each as `name.field=value`. The first one puts a `;` after the string that is
there and another one before the first field, so its first key begins with a `;`
(`addParams_append_iff`).
-/

namespace FastRules

/-! ### Objects -/

/-- Put a value under a name, in the order of the names. -/
def insertField (name value : String) : List (String × String) → List (String × String)
  | [] => [(name, value)]
  | field :: fields =>
    if name < field.1 then (name, value) :: field :: fields
    else if field.1 < name then field :: insertField name value fields
    else (name, value) :: fields

theorem mem_insertField {name value : String} {fields : List (String × String)}
    {f : String × String} (h : f ∈ insertField name value fields) :
    f = (name, value) ∨ f ∈ fields := by
  induction fields with
  | nil => exact .inl (List.mem_singleton.1 h)
  | cons field fields ih =>
    rw [insertField] at h
    split_ifs at h
    · exact List.mem_cons.1 h
    · rcases List.mem_cons.1 h with rfl | h
      · exact .inr List.mem_cons_self
      · exact (ih h).imp_right (List.mem_cons_of_mem field)
    · exact (List.mem_cons.1 h).imp_right (List.mem_cons_of_mem field)

/-- The names are in order, and no name is there twice. -/
def IsSorted (fields : List (String × String)) : Prop :=
  fields.Pairwise fun a b ↦ a.1 < b.1

theorem IsSorted.insertField {fields : List (String × String)} (h : IsSorted fields)
    (name value : String) : IsSorted (insertField name value fields) := by
  induction fields with
  | nil => exact List.pairwise_singleton _ _
  | cons field fields ih =>
    obtain ⟨hfield, hfields⟩ := List.pairwise_cons.1 h
    rw [FastRules.insertField]
    split_ifs with hlt hgt
    · refine List.pairwise_cons.2 ⟨fun f hf ↦ ?_, h⟩
      rcases List.mem_cons.1 hf with rfl | hf
      · exact hlt
      · exact hlt.trans (hfield f hf)
    · refine List.pairwise_cons.2 ⟨fun f hf ↦ ?_, ih hfields⟩
      rcases mem_insertField hf with rfl | hf
      · exact hgt
      · exact hfield f hf
    · have hname : name = field.1 := le_antisymm (not_lt.1 hgt) (not_lt.1 hlt)
      exact List.pairwise_cons.2 ⟨fun f hf ↦ hname ▸ hfield f hf, hfields⟩

/-- A `FastRulesObject`. Its fields are in a `std::map`. -/
structure FastRulesObject where
  fieldValues : List (String × String)
  sorted : IsSorted fieldValues

/-- `fastrules_object_create`. -/
def FastRulesObject.create : FastRulesObject :=
  ⟨[], List.Pairwise.nil⟩

/-- `fastrules_object_set_field`. -/
def FastRulesObject.setField (obj : FastRulesObject) (fieldName value : String) :
    FastRulesObject :=
  ⟨insertField fieldName value obj.fieldValues, obj.sorted.insertField fieldName value⟩

/-! ### The helpers -/

/-- A `fastrules_engine_t`. -/
abbrev EngineHandle := ℕ

/-- The names in `g_registered_types` for each engine. -/
abbrev RegisteredTypes := EngineHandle → List String

/-- A `fastrules_error_t` other than `FASTRULES_OK`, with what `set_error` is called with. -/
inductive FastRulesError
  | nullPtr
  | unknown (message : String)
  deriving DecidableEq, Repr

/-- The key of a field. -/
def fieldKey (name : String) (field : String × String) : List Char :=
  name.toList ++ '.' :: field.1.toList

/-- `name.field=value`. -/
def fieldText (name : String) (field : String × String) : List Char :=
  fieldKey name field ++ '=' :: field.2.toList

/-- The loop over the fields: `if (oss.tellp() > 0) oss << ";"` comes before each of them. -/
def addFields (name : String) (oss : List Char) (fields : List (String × String)) : List Char :=
  fields.foldl
    (fun oss field ↦ (if oss = [] then [] else oss ++ [';']) ++ fieldText name field) oss

/-- `fastrules_add_object_param`. An argument may be a null pointer. -/
def addObjectParam (engine : Option EngineHandle) (existingParams paramName : Option String)
    (obj : Option FastRulesObject) : Except FastRulesError String :=
  match engine, paramName, obj with
  | some _, some paramName, some obj =>
    let existing := existingParams.getD ""
    let oss := if existing = "" then [] else existing.toList ++ [';']
    .ok (String.ofList (addFields paramName oss obj.fieldValues))
  | _, _, _ => .error .nullPtr

/-- The two sides of the first `=` of a text. -/
def splitField (text : List Char) : Option (String × String) :=
  match text.dropWhile (· ≠ '=') with
  | [] => none
  | _ :: value => some (String.ofList (text.takeWhile (· ≠ '=')), String.ofList value)

/-- `fastrules_add_typed_param`. -/
def addTypedParam (types : RegisteredTypes) (engine : Option EngineHandle)
    (params name typeName fieldsValues : Option String) : Except FastRulesError String :=
  match engine, name, typeName, fieldsValues with
  | some engine, some name, some typeName, some fieldsValues =>
    if typeName ∈ types engine then
      let fields := (segments fieldsValues.toList).filterMap splitField
      .ok (String.ofList (addFields name (params.getD "").toList fields))
    else .error (.unknown "Type not registered")
  | _, _, _, _ => .error .nullPtr

example : addTypedParam (fun _ ↦ ["Customer"]) (some 1) (some "x=1") (some "customer")
    (some "Customer") (some "age=25;name=Alice") =
      .ok "x=1;customer.age=25;customer.name=Alice" := by
  decide

/-! ### What is written -/

section Written

variable {name : String} {fields : List (String × String)} {oss : List Char}

/-- The fields, with separators between them. -/
def fieldsText (name : String) (fields : List (String × String)) : List Char :=
  [';'].intercalate (fields.map (fieldText name))

@[simp] theorem fieldsText_nil (name : String) : fieldsText name [] = [] := rfl

theorem fieldsText_singleton (name : String) (field : String × String) :
    fieldsText name [field] = fieldText name field := by
  rw [fieldsText, List.map_singleton, List.intercalate_singleton]

theorem fieldsText_cons_cons (name : String) (field field' : String × String)
    (fields : List (String × String)) : fieldsText name (field :: field' :: fields) =
      fieldText name field ++ ';' :: fieldsText name (field' :: fields) := by
  rw [fieldsText, List.map_cons, List.map_cons, List.intercalate_cons_cons, List.append_assoc,
    List.singleton_append, fieldsText, List.map_cons]

theorem fieldText_ne_nil (name : String) (field : String × String) : fieldText name field ≠ [] := by
  simp [fieldText]

theorem addFields_of_ne_nil (hoss : oss ≠ []) (hfields : fields ≠ []) :
    addFields name oss fields = oss ++ ';' :: fieldsText name fields := by
  induction fields generalizing oss with
  | nil => exact absurd rfl hfields
  | cons field fields ih =>
    rw [addFields, List.foldl_cons, if_neg hoss, List.append_assoc, List.singleton_append]
    rcases fields with - | ⟨field', fields⟩
    · rw [List.foldl_nil, fieldsText_singleton]
    · have hne : oss ++ ';' :: fieldText name field ≠ [] := by simp [hoss]
      have hrest := ih hne (List.cons_ne_nil field' fields)
      rw [addFields] at hrest
      rw [hrest, fieldsText_cons_cons, List.append_assoc, List.cons_append]

theorem addFields_nil : addFields name [] fields = fieldsText name fields := by
  rcases fields with - | ⟨field, fields⟩
  · rfl
  rcases fields with - | ⟨field', fields⟩
  · rw [addFields, List.foldl_cons, if_pos rfl, List.foldl_nil, fieldsText_singleton,
      List.nil_append]
  · have hrest : addFields name (fieldText name field) (field' :: fields) = _ :=
      addFields_of_ne_nil (fieldText_ne_nil name field) (List.cons_ne_nil field' fields)
    rw [addFields] at hrest
    rw [addFields, List.foldl_cons, if_pos rfl, List.nil_append, hrest, fieldsText_cons_cons]

end Written

/-! ### What is read -/

section Read

variable {names : TypeNames} {name : String} {fields : List (String × String)} {s : List Char}

/-- The text after the last separator. -/
def lastSegment (s : List Char) : List Char :=
  s.rtakeWhile (· ≠ ';')

theorem lastSegment_append (s t : List Char) : lastSegment (s ++ ';' :: t) = lastSegment t := by
  have htake (u v : List Char) :
      (u ++ ';' :: v).takeWhile (· ≠ ';') = u.takeWhile (· ≠ ';') := by
    induction u with
    | nil => rfl
    | cons c u ih => rw [List.cons_append, List.takeWhile_cons, List.takeWhile_cons, ih]
  rw [lastSegment, List.rtakeWhile, List.reverse_append, List.reverse_cons, List.append_assoc,
    List.singleton_append, htake, lastSegment, List.rtakeWhile]

theorem equals_mem_lastSegment {key value : List Char} (hvalue : ';' ∉ value) :
    '=' ∈ lastSegment (key ++ '=' :: value) := by
  have hall : ∀ c ∈ value.reverse, decide (c ≠ ';') = true := fun c hc ↦ by
    simpa using fun he : c = ';' ↦ hvalue (he ▸ List.mem_reverse.1 hc)
  rw [lastSegment, List.rtakeWhile, List.reverse_append, List.reverse_cons, List.append_assoc,
    List.singleton_append, List.takeWhile_append_of_pos hall, List.mem_reverse,
    List.takeWhile_cons_of_pos (by decide)]
  simp

/-- What is read of a text and of one after a separator: what is left unread of the first text is
before the second one. Nothing is left exactly if the last segment has a value. -/
theorem exists_parseFrom_append (names : TypeNames) (s : List Char) :
    ∃ left, '=' ∉ left ∧ left ⊆ ';' :: s ∧ (left = [] ↔ '=' ∈ lastSegment s) ∧
      (left ≠ [] → ';' ∈ left) ∧ ∀ rest, parseFrom names (s ++ ';' :: rest) =
        parseFrom names s ++ parseFrom names (left ++ rest) := by
  induction hlen : s.length using Nat.strongRecOn generalizing s with
  | ind n ih =>
    by_cases heq : '=' ∈ s
    swap
    · refine ⟨s ++ [';'], by simp [heq], by simp, ?_, fun _ ↦ by simp, fun rest ↦ ?_⟩
      · refine iff_of_false (by simp) fun h ↦ heq ?_
        exact (List.rtakeWhile_suffix _ s).subset h
      · rw [parseFrom_of_not_mem heq, List.nil_append, List.append_assoc, List.singleton_append]
    obtain ⟨key, tail, rfl, hkey⟩ := List.eq_append_cons_of_mem heq
    by_cases hsep : ';' ∈ tail
    · obtain ⟨value, later, rfl, hvalue⟩ := List.eq_append_cons_of_mem hsep
      have hlt : later.length < n := by
        rw [← hlen]
        simp only [List.length_append, List.length_cons]
        omega
      obtain ⟨left, hleft, hsub, hnil, hne, hparse⟩ := ih _ hlt later rfl
      have hlast : lastSegment (key ++ '=' :: (value ++ ';' :: later)) = lastSegment later := by
        rw [← List.cons_append, ← List.append_assoc, lastSegment_append]
      have hlater : ';' :: later ⊆ ';' :: (key ++ '=' :: (value ++ ';' :: later)) := by
        intro c hc
        simp only [List.mem_cons, List.mem_append] at hc ⊢
        tauto
      refine ⟨left, hleft, List.Subset.trans hsub hlater, by rw [hlast, hnil], hne, fun rest ↦ ?_⟩
      have hassoc : key ++ '=' :: (value ++ ';' :: later) ++ ';' :: rest =
          key ++ '=' :: (value ++ ';' :: (later ++ ';' :: rest)) := by
        simp only [List.append_assoc, List.cons_append]
      rw [hassoc, parseFrom_segment_append hkey hvalue, parseFrom_segment_append hkey hvalue,
        hparse, List.cons_append]
    · refine ⟨[], List.not_mem_nil, by simp, iff_of_true rfl ?_, fun h ↦ absurd rfl h,
        fun rest ↦ ?_⟩
      · exact equals_mem_lastSegment hsep
      · rw [List.append_assoc, List.cons_append, parseFrom_segment_append hkey hsep,
          parseFrom_segment hkey hsep, List.nil_append, List.singleton_append]

/-- A text after which nothing is left is read to its end. -/
theorem parseFrom_append_separator (names : TypeNames) (s : List Char) :
    parseFrom names (s ++ [';']) = parseFrom names s := by
  obtain ⟨left, hleft, -, -, -, hparse⟩ := exists_parseFrom_append names s
  rw [hparse, List.append_nil, parseFrom_of_not_mem hleft, List.append_nil]

/-- Trimming takes only blanks away. -/
theorem count_trim {c : Char} (hc : isTrimmed c = false) (s : List Char) :
    (trim s).count c = s.count c := by
  have hdrop (l : List Char) : (l.dropWhile isTrimmed).count c = l.count c := by
    have hnone : (l.takeWhile isTrimmed).count c = 0 := by
      refine List.count_eq_zero.2 fun hmem ↦ ?_
      rw [List.mem_takeWhile_imp hmem] at hc
      cases hc
    have hsplit : (l.takeWhile isTrimmed ++ l.dropWhile isTrimmed).count c = l.count c := by
      rw [List.takeWhile_append_dropWhile]
    rwa [List.count_append, hnone, Nat.zero_add] at hsplit
  rw [trim, List.rdropWhile, List.count_reverse, hdrop, List.count_reverse, hdrop]

theorem trim_eq_self_iff : trim s = s ↔ NoBlankEnds s := by
  refine ⟨fun h ↦ ?_, trim_of_noBlankEnds⟩
  have hdrop : s.dropWhile isTrimmed = s := by
    refine (List.dropWhile_sublist _).eq_of_length_le ?_
    calc s.length = (trim s).length := by rw [h]
      _ ≤ (s.dropWhile isTrimmed).length := (List.rdropWhile_prefix _ _).length_le
  rw [trim, hdrop, List.rdropWhile_eq_self_iff] at h
  refine ⟨fun c hc ↦ ?_, fun c hc ↦ ?_⟩
  · obtain ⟨cs, rfl⟩ := List.head?_eq_some_iff.1 hc
    rw [List.dropWhile_cons] at hdrop
    split_ifs at hdrop with hblank
    · have hlen := congrArg List.length hdrop
      have hle := List.length_dropWhile_le isTrimmed cs
      rw [List.length_cons] at hlen
      omega
    · exact Bool.eq_false_iff.2 hblank
  · have hne : s ≠ [] := by
      rintro rfl
      cases hc
    rw [List.getLast?_eq_some_getLast hne, Option.mem_some_iff] at hc
    exact Bool.eq_false_iff.2 (hc ▸ h hne)

/-- A field whose name and value have no separators. -/
structure IsField (field : String × String) : Prop where
  name_equals : '=' ∉ field.1.toList
  name_separator : ';' ∉ field.1.toList
  value_equals : '=' ∉ field.2.toList
  value_separator : ';' ∉ field.2.toList

/-- The parameter that a field stands for. -/
def fieldParam (names : TypeNames) (name : String) (field : String × String) : RuleParameter :=
  .ofAny (String.ofList (fieldKey name field)) (parseValue names (trim field.2.toList))

/-- The keys of the fields are read as they are. -/
structure HasFieldKeys (name : String) (fields : List (String × String)) : Prop where
  name_equals : '=' ∉ name.toList
  trimmed : ∀ field ∈ fields, NoBlankEnds (fieldKey name field)

theorem equals_mem_fieldKey_iff {field : String × String} (hfield : IsField field) :
    '=' ∈ fieldKey name field ↔ '=' ∈ name.toList := by
  simp [fieldKey, hfield.name_equals]

/-- The fields are read one by one if their keys have no `=`; what is left before them is a part of
the first key. -/
theorem parseFrom_append_fieldsText {left : List Char} (hleft : '=' ∉ left)
    {field : String × String} (hkeys : ∀ f ∈ field :: fields, '=' ∉ fieldKey name f)
    (hvalues : ∀ f ∈ field :: fields, ';' ∉ f.2.toList) :
    parseFrom names (left ++ fieldsText name (field :: fields)) =
      parseParam names (left ++ fieldKey name field) field.2.toList ::
        fields.map fun f ↦ parseParam names (fieldKey name f) f.2.toList := by
  induction fields generalizing left field with
  | nil =>
    have hkey : '=' ∉ left ++ fieldKey name field := by
      rw [List.mem_append, not_or]
      exact ⟨hleft, hkeys field List.mem_cons_self⟩
    rw [fieldsText_singleton, fieldText, ← List.append_assoc,
      parseFrom_segment hkey (hvalues field List.mem_cons_self), List.map_nil]
  | cons field' fields ih =>
    have hkey : '=' ∉ left ++ fieldKey name field := by
      rw [List.mem_append, not_or]
      exact ⟨hleft, hkeys field List.mem_cons_self⟩
    have hrest := ih List.not_mem_nil (List.forall_mem_cons.1 hkeys).2
      (List.forall_mem_cons.1 hvalues).2
    rw [List.nil_append, List.nil_append] at hrest
    rw [List.map_cons, ← hrest, fieldsText_cons_cons, fieldText, List.append_assoc,
      List.cons_append, ← List.append_assoc,
      parseFrom_segment_append hkey (hvalues field List.mem_cons_self)]

/-- The first key of a text. -/
theorem head?_parseFrom {key rest : List Char} (hkey : '=' ∉ key) :
    (parseFrom names (key ++ '=' :: rest)).head?.map RuleParameter.name =
      some (String.ofList (trim key)) := by
  rw [parseFrom_key hkey]
  rfl

/-- The texts of the fields begin with the text of the first one. -/
theorem exists_fieldsText_cons (name : String) (field : String × String)
    (fields : List (String × String)) :
    ∃ rest, fieldsText name (field :: fields) = fieldText name field ++ rest := by
  rcases fields with - | ⟨field', fields⟩
  · exact ⟨[], by rw [fieldsText_singleton, List.append_nil]⟩
  · exact ⟨_, fieldsText_cons_cons name field field' fields⟩

/-- The first key of the fields, whatever is before it: it ends at the first `=`. -/
theorem exists_firstKey (names : TypeNames) (name : String) (field : String × String)
    (fields : List (String × String)) :
    ∃ key, '=' ∉ key ∧ (key = fieldKey name field ∨ '=' ∈ fieldKey name field) ∧
      ∀ left, '=' ∉ left →
        (parseFrom names (left ++ fieldsText name (field :: fields))).head?.map RuleParameter.name =
          some (String.ofList (trim (left ++ key))) := by
  have hread {key tail rest : List Char} (hkey : '=' ∉ key)
      (htext : fieldText name field = key ++ '=' :: tail)
      (hrest : fieldsText name (field :: fields) = fieldText name field ++ rest)
      (left : List Char) (hleft : '=' ∉ left) :
      (parseFrom names (left ++ fieldsText name (field :: fields))).head?.map RuleParameter.name =
        some (String.ofList (trim (left ++ key))) := by
    have hboth : '=' ∉ left ++ key := by
      rw [List.mem_append]
      exact not_or.2 ⟨hleft, hkey⟩
    rw [hrest, htext, List.append_assoc, List.cons_append, ← List.append_assoc,
      head?_parseFrom hboth]
  obtain ⟨rest, hrest⟩ := exists_fieldsText_cons name field fields
  by_cases hname : '=' ∈ fieldKey name field
  · obtain ⟨key, tail, htext, hkey⟩ := List.eq_append_cons_of_mem hname
    have hfield : fieldText name field = key ++ '=' :: (tail ++ '=' :: field.2.toList) := by
      rw [fieldText, htext, List.append_assoc, List.cons_append]
    exact ⟨key, hkey, .inr hname, hread hkey hfield hrest⟩
  · exact ⟨fieldKey name field, hname, .inl rfl, hread hname rfl hrest⟩

/-- After a text with a separator the first key is another one. -/
theorem parseFrom_append_ne {left left' : List Char} (hleft : '=' ∉ left) (hleft' : '=' ∉ left')
    (hcount : left.count ';' ≠ left'.count ';') (hne : fields ≠ []) :
    parseFrom names (left ++ fieldsText name fields) ≠
      parseFrom names (left' ++ fieldsText name fields) := by
  obtain ⟨field, fields, rfl⟩ := List.exists_cons_of_ne_nil hne
  obtain ⟨key, -, -, hread⟩ := exists_firstKey names name field fields
  intro h
  have hkeys := hread left hleft
  rw [h, hread left' hleft', Option.some_inj, String.ofList_inj] at hkeys
  have hcounts := congrArg (List.count ';') hkeys
  rw [count_trim (by decide), count_trim (by decide), List.count_append, List.count_append]
    at hcounts
  omega

/-- The fields are read exactly if nothing is left before them and their keys are read. -/
theorem parseFrom_eq_map_iff {left : List Char} (hleft : '=' ∉ left)
    (hsep : left ≠ [] → ';' ∈ left) (hfields : ∀ field ∈ fields, IsField field) :
    parseFrom names (left ++ fieldsText name fields) = fields.map (fieldParam names name) ↔
      fields = [] ∨ (left = [] ∧ HasFieldKeys name fields) := by
  rcases fields with - | ⟨field, fields⟩
  · refine iff_of_true ?_ (.inl rfl)
    rw [fieldsText_nil, List.append_nil, parseFrom_of_not_mem hleft, List.map_nil]
  have hall (hname : '=' ∉ name.toList) :
      parseFrom names ([] ++ fieldsText name (field :: fields)) =
        (field :: fields).map fun f ↦ parseParam names (fieldKey name f) f.2.toList :=
    parseFrom_append_fieldsText List.not_mem_nil
      (fun f hf ↦ mt (equals_mem_fieldKey_iff (hfields f hf)).1 hname)
      fun f hf ↦ (hfields f hf).value_separator
  constructor
  · intro h
    obtain ⟨key, hkey, hname, hread⟩ := exists_firstKey names name field fields
    have hfirst : trim (left ++ key) = fieldKey name field := by
      have hhead := hread left hleft
      rw [h] at hhead
      exact String.ofList_inj.1 (Option.some.inj hhead).symm
    have hno : '=' ∉ fieldKey name field := by
      rw [← hfirst]
      exact fun hmem ↦ (List.mem_append.1 (trim_subset hmem)).elim hleft hkey
    obtain rfl := hname.resolve_right hno
    have hnil : left = [] := by
      by_contra hne
      have hcount := congrArg (List.count ';') hfirst
      rw [count_trim (by decide), List.count_append] at hcount
      have hpos := List.count_pos_iff.2 (hsep hne)
      omega
    rw [equals_mem_fieldKey_iff (hfields field List.mem_cons_self)] at hno
    rw [hnil, hall hno, List.map_inj_left] at h
    refine .inr ⟨hnil, hno, fun f hf ↦ trim_eq_self_iff.1 ?_⟩
    exact String.ofList_inj.1 (congrArg RuleParameter.name (h f hf))
  · rintro (h | ⟨rfl, hkeys⟩)
    · cases h
    · rw [hall hkeys.name_equals, List.map_inj_left]
      intro f hf
      rw [parseParam, trim_of_noBlankEnds (hkeys.trimmed f hf), fieldParam]

end Read

/-! ### Parameters of objects -/

section Params

variable (names : TypeNames) (existing : Option String) (name : String)

/-- The string that a helper built is read as what was there and the parameters of the fields. -/
def AppendsFields (fields : List (String × String)) (built : Except FastRulesError String) : Prop :=
  ∃ outParams, built = .ok outParams ∧
    parseParams names (some outParams) =
      parseParams names existing ++ fields.map (fieldParam names name)

/-- Two strings are read as the same parameters. -/
def BuildSameParams (built built' : Except FastRulesError String) : Prop :=
  ∃ outParams outParams', built = .ok outParams ∧ built' = .ok outParams' ∧
    parseParams names (some outParams) = parseParams names (some outParams')

/-- What is there ends in a value, or nothing is there. -/
def EndsInValue (existing : Option String) : Prop :=
  existing.getD "" = "" ∨ '=' ∈ lastSegment (existing.getD "").toList

instance (existing : Option String) : Decidable (EndsInValue existing) :=
  inferInstanceAs (Decidable (_ ∨ _))

theorem parseParams_eq (existing : Option String) :
    parseParams names existing = parseFrom names (existing.getD "").toList := by
  rcases existing with - | s
  · exact (parseFrom_of_not_mem List.not_mem_nil).symm
  · rfl

/-- What both helpers build, after the same unread text; the one for objects writes another
separator. -/
theorem exists_parseFrom_addFields :
    ∃ left, '=' ∉ left ∧ left ⊆ ';' :: (existing.getD "").toList ∧ (left ≠ [] → ';' ∈ left) ∧
      (left = [] ↔ EndsInValue existing) ∧
      (∀ fields, parseFrom names (addFields name (existing.getD "").toList fields) =
        parseParams names existing ++ parseFrom names (left ++ fieldsText name fields)) ∧
      (existing.getD "" ≠ "" → ∀ fields,
        parseFrom names (addFields name ((existing.getD "").toList ++ [';']) fields) =
          parseParams names existing ++
            parseFrom names (left ++ [';'] ++ fieldsText name fields)) := by
  rw [parseParams_eq, EndsInValue]
  generalize existing.getD "" = s
  by_cases hs : s = ""
  · subst hs
    refine ⟨[], List.not_mem_nil, by simp, fun h ↦ absurd rfl h, iff_of_true rfl (.inl rfl),
      fun fields ↦ ?_, fun h ↦ absurd rfl h⟩
    rw [String.toList_empty, addFields_nil, parseFrom_of_not_mem List.not_mem_nil]
    rfl
  obtain ⟨left, hleft, hsub, hnil, hsep, hparse⟩ := exists_parseFrom_append names s.toList
  have hne : s.toList ≠ [] := by simpa using hs
  refine ⟨left, hleft, hsub, hsep, by rw [hnil, or_iff_right hs], fun fields ↦ ?_,
    fun _ fields ↦ ?_⟩
  · rcases fields with - | ⟨field, fields⟩
    · rw [fieldsText_nil, List.append_nil, parseFrom_of_not_mem hleft, List.append_nil]
      rfl
    · rw [addFields_of_ne_nil hne (List.cons_ne_nil field fields), hparse]
  · rcases fields with - | ⟨field, fields⟩
    · have hboth : '=' ∉ left ++ [';'] := by simp [hleft]
      rw [fieldsText_nil, List.append_nil, parseFrom_of_not_mem hboth, List.append_nil]
      exact parseFrom_append_separator names s.toList
    · rw [addFields_of_ne_nil (by simp) (List.cons_ne_nil field fields), List.append_assoc,
        List.singleton_append, hparse, List.append_assoc, List.singleton_append]

/-- The typed helper takes the fields from their text. -/
theorem filterMap_splitField_paramsText {fields : List (String × String)}
    (hfields : ∀ field ∈ fields, IsField field) :
    (segments (paramsText fields).toList).filterMap splitField = fields := by
  have hsplit {field : String × String} (hfield : IsField field) :
      splitField (entryText field) = some field := by
    have hall : ∀ c ∈ field.1.toList, decide (c ≠ '=') = true := fun c hc ↦ by
      simpa using fun he : c = '=' ↦ hfield.name_equals (he ▸ hc)
    rw [splitField, entryText, List.dropWhile_append_of_pos hall, List.takeWhile_append_of_pos hall]
    simp
  rw [paramsText, String.toList_ofList, segments]
  rcases fields with - | ⟨field, fields⟩
  · rfl
  rw [List.splitOn_intercalate ';' _ (by simp), List.filterMap_map]
  · refine (List.filterMap_congr fun f hf ↦ ?_).trans List.filterMap_some
    exact hsplit (hfields f hf)
  · intro text htext
    obtain ⟨f, hf, rfl⟩ := List.mem_map.1 htext
    simp [entryText, (hfields f hf).name_separator, (hfields f hf).value_separator]

variable {names existing name}

theorem appendsFields_ok_iff {fields : List (String × String)} {text : List Char} :
    AppendsFields names existing name fields (.ok (String.ofList text)) ↔
      parseFrom names text =
        parseParams names existing ++ fields.map (fieldParam names name) := by
  constructor
  · rintro ⟨outParams, hout, hparse⟩
    obtain rfl := Except.ok.inj hout
    rwa [parseParams, String.toList_ofList] at hparse
  · intro h
    exact ⟨_, rfl, by rwa [parseParams, String.toList_ofList]⟩

theorem buildSameParams_ok_iff {text text' : List Char} :
    BuildSameParams names (.ok (String.ofList text)) (.ok (String.ofList text')) ↔
      parseFrom names text = parseFrom names text' := by
  constructor
  · rintro ⟨outParams, outParams', hout, hout', hparse⟩
    obtain rfl := Except.ok.inj hout
    obtain rfl := Except.ok.inj hout'
    rwa [parseParams, parseParams, String.toList_ofList, String.toList_ofList] at hparse
  · intro h
    exact ⟨_, _, rfl, rfl, by
      rwa [parseParams, parseParams, String.toList_ofList, String.toList_ofList]⟩

theorem addTypedParam_eq {types : RegisteredTypes} {engine : EngineHandle} {typeName : String}
    (htype : typeName ∈ types engine) {fields : List (String × String)}
    (hfields : ∀ field ∈ fields, IsField field) :
    addTypedParam types (some engine) existing (some name) (some typeName)
        (some (paramsText fields)) =
      .ok (String.ofList (addFields name (existing.getD "").toList fields)) := by
  rw [addTypedParam]
  dsimp only
  rw [if_pos htype, filterMap_splitField_paramsText hfields]

/-- The helper for objects. -/
theorem addObjectParam_appends_iff (engine : EngineHandle) {obj : FastRulesObject}
    (hobj : ∀ field ∈ obj.fieldValues, IsField field) :
    AppendsFields names existing name obj.fieldValues
        (addObjectParam (some engine) existing (some name) (some obj)) ↔
      obj.fieldValues = [] ∨ (existing.getD "" = "" ∧ HasFieldKeys name obj.fieldValues) := by
  obtain ⟨left, hleft, -, hsep, hnil, htyped, hobject⟩ :=
    exists_parseFrom_addFields names existing name
  rw [addObjectParam, appendsFields_ok_iff]
  split_ifs with hempty
  · have hread := htyped obj.fieldValues
    rw [hempty, String.toList_empty] at hread
    rw [hread, List.append_right_inj, parseFrom_eq_map_iff hleft hsep hobj,
      and_iff_right hempty, and_iff_right (hnil.2 (.inl hempty))]
  · have hboth : '=' ∉ left ++ [';'] := by simp [hleft]
    rw [hobject hempty, List.append_right_inj, parseFrom_eq_map_iff hboth (by simp) hobj]
    simp [hempty]

/-- The helper for typed values. -/
theorem addTypedParam_appends_iff {types : RegisteredTypes} {engine : EngineHandle}
    {typeName : String} (htype : typeName ∈ types engine) {fields : List (String × String)}
    (hfields : ∀ field ∈ fields, IsField field) :
    AppendsFields names existing name fields
        (addTypedParam types (some engine) existing (some name) (some typeName)
          (some (paramsText fields))) ↔
      fields = [] ∨ (EndsInValue existing ∧ HasFieldKeys name fields) := by
  obtain ⟨left, hleft, -, hsep, hnil, htyped, -⟩ := exists_parseFrom_addFields names existing name
  rw [addTypedParam_eq htype hfields, appendsFields_ok_iff, htyped, List.append_right_inj,
    parseFrom_eq_map_iff hleft hsep hfields, hnil]

/-- The two helpers for the same fields. -/
theorem addParams_same_iff {types : RegisteredTypes} {engine : EngineHandle} {typeName : String}
    (htype : typeName ∈ types engine) {obj : FastRulesObject}
    (hobj : ∀ field ∈ obj.fieldValues, IsField field) :
    BuildSameParams names (addObjectParam (some engine) existing (some name) (some obj))
        (addTypedParam types (some engine) existing (some name) (some typeName)
          (some (paramsText obj.fieldValues))) ↔
      obj.fieldValues = [] ∨ existing.getD "" = "" := by
  obtain ⟨left, hleft, -, -, -, htyped, hobject⟩ := exists_parseFrom_addFields names existing name
  rw [addTypedParam_eq htype hobj, addObjectParam, buildSameParams_ok_iff]
  split_ifs with hempty
  · rw [hempty, String.toList_empty]
    exact iff_of_true rfl (.inr rfl)
  · have hboth : '=' ∉ left ++ [';'] := by simp [hleft]
    rw [hobject hempty, htyped, List.append_right_inj, or_iff_left hempty]
    constructor
    · intro h
      by_contra hne
      exact parseFrom_append_ne hboth hleft (by simp) hne h
    · intro h
      rw [h, fieldsText_nil, List.append_nil, List.append_nil, parseFrom_of_not_mem hleft,
        parseFrom_of_not_mem hboth]

end Params

/-- **The fields of an object are appended** by the helper for objects exactly if there is nothing
to append them to, and by the typed helper exactly if what is there ends in a value; the keys must
have no `=` and no blanks at their ends. Both are right where there are no fields. -/
theorem addParams_append_iff (names : TypeNames) (types : RegisteredTypes) (engine : EngineHandle)
    (existing : Option String) (name typeName : String) (obj : FastRulesObject)
    (fields : List (String × String)) (hobj : ∀ field ∈ obj.fieldValues, IsField field)
    (hfields : ∀ field ∈ fields, IsField field) (htype : typeName ∈ types engine) :
    (AppendsFields names existing name obj.fieldValues
        (addObjectParam (some engine) existing (some name) (some obj)) ↔
      obj.fieldValues = [] ∨ (existing.getD "" = "" ∧ HasFieldKeys name obj.fieldValues)) ∧
    (AppendsFields names existing name fields
        (addTypedParam types (some engine) existing (some name) (some typeName)
          (some (paramsText fields))) ↔
      fields = [] ∨ (EndsInValue existing ∧ HasFieldKeys name fields)) ∧
    (BuildSameParams names (addObjectParam (some engine) existing (some name) (some obj))
        (addTypedParam types (some engine) existing (some name) (some typeName)
          (some (paramsText obj.fieldValues))) ↔
      obj.fieldValues = [] ∨ existing.getD "" = "") :=
  ⟨addObjectParam_appends_iff engine hobj, addTypedParam_appends_iff htype hfields,
    addParams_same_iff htype hobj⟩

/-- A customer of 25 years. -/
def customerAge : FastRulesObject :=
  FastRulesObject.create.setField "age" "25"

theorem isField_customerAge : ∀ field ∈ customerAge.fieldValues, IsField field :=
  List.forall_mem_singleton.2 ⟨by decide, by decide, by decide, by decide⟩

/-- Both helpers append the age to nothing. -/
theorem addParams_append_customer :
    AppendsFields .unnamed none "customer" [("age", "25")]
        (addObjectParam (some 1) none (some "customer") (some customerAge)) ∧
      AppendsFields .unnamed none "customer" [("age", "25")]
        (addTypedParam (fun _ ↦ ["Customer"]) (some 1) none (some "customer") (some "Customer")
          (some (paramsText [("age", "25")]))) ∧
      BuildSameParams .unnamed (addObjectParam (some 1) none (some "customer") (some customerAge))
        (addTypedParam (fun _ ↦ ["Customer"]) (some 1) none (some "customer") (some "Customer")
          (some (paramsText [("age", "25")]))) := by
  have hkeys : HasFieldKeys "customer" [("age", "25")] :=
    ⟨by decide, List.forall_mem_singleton.2 (by decide)⟩
  obtain ⟨hobject, htyped, hsame⟩ := addParams_append_iff .unnamed (fun _ ↦ ["Customer"]) 1 none
    "customer" "Customer" customerAge [("age", "25")] isField_customerAge isField_customerAge
    List.mem_cons_self
  exact ⟨hobject.2 (.inr ⟨rfl, hkeys⟩), htyped.2 (.inr ⟨.inl rfl, hkeys⟩), hsame.2 (.inr rfl)⟩

/-- After another parameter the key of the age begins with a separator. -/
theorem addObjectParam_not_appends :
    addObjectParam (some 1) (some "x=1") (some "customer") (some customerAge) =
        .ok "x=1;;customer.age=25" ∧
      (parseParams .unnamed (some "x=1;;customer.age=25")).map RuleParameter.name =
        ["x", ";customer.age"] ∧
      ¬AppendsFields .unnamed (some "x=1") "customer" customerAge.fieldValues
        (addObjectParam (some 1) (some "x=1") (some "customer") (some customerAge)) := by
  refine ⟨by decide, ?_, fun h ↦ ?_⟩
  · have hparse : parseParams .unnamed (some "x=1;;customer.age=25") =
        [parseParam .unnamed "x".toList "1".toList,
          parseParam .unnamed ";customer.age".toList "25".toList] :=
      (@parseFrom_segment_append _ "x".toList "1".toList ";customer.age=25".toList (by decide)
        (by decide)).trans (congrArg (_ :: ·) (@parseFrom_segment _ ";customer.age".toList
          "25".toList (by decide) (by decide)))
    rw [hparse]
    decide
  · rcases (addObjectParam_appends_iff 1 isField_customerAge).1 h with h | h
    · cases h
    · exact absurd h.1 (by decide)

end FastRules
