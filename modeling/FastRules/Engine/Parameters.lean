import FastRules.Engine.Globals

/-!
# What a call leaves in the globals

The writes of a call come in stages: the context table, the parameters, the assignments of the
chunk, and the globals that are set to nil again. What is left of a parameter after the call, and
which globals are not what they were before, follows from the stages alone (`staged_noneBound_iff`,
`staged_written`). Which globals are cleared depends on how the chunk ends: the backend clears what
it has bound in any case, the engine only after a call that returns.
-/

namespace FastRules

open WriteLog

/-! ### Stages -/

/-- No global is left that holds a value it was given as a parameter. -/
def NoneBound (log : List GlobalWrite) : Prop :=
  ∀ name w, lastWrite log name = some w → w.mark = .parameter → w.value = .nil

/-- What the global is given as a parameter. -/
def boundValue (bound : List GlobalWrite) (name : String) : Option LuaValue :=
  (lastWrite bound name).map fun w ↦ w.value

/-- Setting globals to nil. -/
def clearing (names : List String) : List GlobalWrite :=
  names.map fun name ↦ ⟨name, .clearing, .nil⟩

section Stages

variable {α : Type} {context bound : List GlobalWrite} {run : ChunkRun α} {cleared : List String}

theorem lastWrite_clearing (names : List String) (name : String) :
    lastWrite (clearing names) name =
      if name ∈ names then some ⟨name, .clearing, .nil⟩ else none := by
  rw [clearing, lastWrite_map_const, List.map_id']

theorem mark_of_lastWrite {log : List GlobalWrite} {m : Writer} (h : ∀ w ∈ log, w.mark = m)
    {name : String} {w : GlobalWrite} (hlast : lastWrite log name = some w) : w.mark = m :=
  h w (mem_of_lastWrite hlast).1

theorem lastWrite_writes_eq_none {name : String} :
    lastWrite run.writes name = none ↔ name ∉ run.assigned := by
  rw [lastWrite_eq_none_iff, ChunkRun.writes, List.forall_mem_map, ChunkRun.assigned, List.mem_map]
  constructor
  · rintro h ⟨a, ha, hname⟩
    exact h a ha hname
  · exact fun h a ha hname ↦ h ⟨a, ha, hname⟩

theorem ChunkRun.mark_writes : ∀ w ∈ run.writes, w.mark = .chunk :=
  List.forall_mem_map.2 fun _ _ ↦ rfl

/-- The last write of a call in stages. -/
theorem lastWrite_staged (name : String) :
    lastWrite (context ++ bound ++ run.writes ++ clearing cleared) name =
      if name ∈ cleared then some ⟨name, .clearing, .nil⟩
      else (lastWrite run.writes name).or ((lastWrite bound name).or (lastWrite context name)) := by
  rw [lastWrite_append, lastWrite_append, lastWrite_append, lastWrite_clearing]
  split_ifs
  · rfl
  · rfl

/-- A parameter survives unless its global is cleared or assigned by the chunk. -/
theorem staged_noneBound_iff (hcontext : ∀ w ∈ context, w.mark = .context)
    (hbound : ∀ w ∈ bound, w.mark = .parameter) :
    NoneBound (context ++ bound ++ run.writes ++ clearing cleared) ↔
      ∀ name v, boundValue bound name = some v → v ≠ .nil →
        name ∈ run.assigned ∨ name ∈ cleared := by
  constructor
  · intro h name v hv hnil
    by_contra hleft
    obtain ⟨hassigned, hcleared⟩ := not_or.1 hleft
    obtain ⟨w, hw, rfl⟩ := Option.map_eq_some_iff.1 hv
    refine hnil (h name w ?_ (mark_of_lastWrite hbound hw))
    rw [lastWrite_staged, if_neg hcleared, lastWrite_writes_eq_none.2 hassigned, hw]
    rfl
  · intro h name w hw hmark
    rw [lastWrite_staged] at hw
    split_ifs at hw with hcleared
    · obtain rfl := Option.some.inj hw
      rfl
    -- a write marked as a parameter is one of those that bind
    rcases hchunk : lastWrite run.writes name with - | w'
    · rw [hchunk, Option.none_or] at hw
      rcases hparameter : lastWrite bound name with - | w'
      · rw [hparameter, Option.none_or] at hw
        exact absurd ((mark_of_lastWrite hcontext hw).symm.trans hmark) (by decide)
      · rw [hparameter, Option.some_or] at hw
        obtain rfl := Option.some.inj hw
        have hvalue : boundValue bound name = some w'.value := by rw [boundValue, hparameter]; rfl
        by_contra hnil
        refine (h name w'.value hvalue hnil).elim (fun hassigned ↦ ?_) hcleared
        exact lastWrite_writes_eq_none.1 hchunk hassigned
    · rw [hchunk, Option.some_or] at hw
      obtain rfl := Option.some.inj hw
      exact absurd ((mark_of_lastWrite ChunkRun.mark_writes hchunk).symm.trans hmark) (by decide)

/-- What is in a global that the chunk does not assign. -/
theorem staged_written (start : String → LuaValue) {name : String}
    (hassigned : name ∉ run.assigned) :
    written start (context ++ bound ++ run.writes ++ clearing cleared) name =
      if name ∈ cleared then .nil
      else (boundValue bound name).getD ((boundValue context name).getD (start name)) := by
  rw [written_eq, lastWrite_staged, lastWrite_writes_eq_none.2 hassigned, Option.none_or,
    boundValue,
    boundValue]
  split_ifs
  · rfl
  · rcases lastWrite bound name with - | w
    · rcases lastWrite context name with - | w
      · rfl
      · rfl
    · rfl

end Stages

/-- The value has no identity. -/
def LuaValue.IsPlain : LuaValue → Prop
  | object _ _ => False
  | _ => True

/-- An object is bound as a new userdata. -/
theorem HostTypes.objectValue_cases (types : HostTypes) (fresh : ℕ) (p : RuleParameter) :
    (types.objectValue fresh p).IsPlain ∨ types.objectValue fresh p = .object .userdata fresh := by
  rw [objectValue]
  rcases p.value with - | v
  · exact .inl trivial
  · dsimp only
    rcases (p.type.bind types.extractPointer).bind fun extractPointer ↦ extractPointer v with - | -
    · rcases types.voidPointer v with - | pointer
      · exact .inl trivial
      · exact .inl trivial
    · exact .inr rfl

/-! ### The stages of a call -/

namespace EngineCall

variable (x : EngineCall)

/-- The globals that parameters of a registered type are bound to. -/
def objectNames : List String :=
  (x.parameters.filter x.types.isObject).map fun p ↦ cStr p.name

/-- The globals that the other parameters are bound to. -/
def plainNames : List String :=
  x.plainParameters.map fun p ↦ cStr p.name

theorem mark_contextWrites : ∀ w ∈ x.contextWrites, w.mark = .context := by
  rw [contextWrites]
  split_ifs
  · simp
  · simp

theorem clearPlain_eq : x.clearPlain = clearing x.plainNames := by
  rw [clearPlain, clearing, plainNames, List.map_map]
  rfl

theorem clearObjects_eq : x.clearObjects = clearing x.objectNames := by
  rw [clearObjects, clearing, objectNames, List.map_map]
  rfl

theorem clearing_append (names names' : List String) :
    clearing (names ++ names') = clearing names ++ clearing names' := by
  simp [clearing]

theorem mark_bindPlain (convert : Option AnyValue → LuaValue) :
    ∀ w ∈ x.bindPlain convert, w.mark = .parameter := by
  simp [bindPlain]

theorem mark_bindObjects (types : HostTypes) (fresh : ℕ) (parameters : List RuleParameter) :
    ∀ w ∈ bindObjects types fresh parameters, w.mark = .parameter := by
  induction parameters generalizing fresh with
  | nil => simp [bindObjects]
  | cons p parameters ih =>
    rw [bindObjects]
    split_ifs
    · simpa using ih (fresh + 1)
    · exact ih fresh

theorem key_bindObjects (types : HostTypes) (fresh : ℕ) (parameters : List RuleParameter) :
    (bindObjects types fresh parameters).map (fun w ↦ w.key) =
      (parameters.filter types.isObject).map fun p ↦ cStr p.name := by
  induction parameters generalizing fresh with
  | nil => rfl
  | cons p parameters ih =>
    rw [bindObjects, List.filter_cons]
    split_ifs
    · rw [List.map_cons, List.map_cons, ih]
    · exact ih fresh

/-- A global is bound by the writes under its name. -/
theorem boundValue_eq_none_iff {bound : List GlobalWrite} {name : String} :
    boundValue bound name = none ↔ name ∉ bound.map fun w ↦ w.key := by
  rw [boundValue, Option.map_eq_none_iff, lastWrite_eq_none_iff]
  simp

theorem boundValue_append (bound bound' : List GlobalWrite) (name : String) :
    boundValue (bound ++ bound') name = (boundValue bound' name).or (boundValue bound name) := by
  rw [boundValue, lastWrite_append, boundValue, boundValue]
  rcases lastWrite bound' name with - | w
  · rfl
  · rfl

/-- What the global is given as a parameter of a registered type. -/
def boundObject (name : String) : Option LuaValue :=
  boundValue x.objectWrites name

theorem boundObject_eq_none_iff {name : String} :
    x.boundObject name = none ↔ name ∉ x.objectNames := by
  rw [boundObject, boundValue_eq_none_iff, objectWrites, key_bindObjects, objectNames]

theorem boundPlain_eq_none_iff (convert : Option AnyValue → LuaValue) {name : String} :
    boundValue (x.bindPlain convert) name = none ↔ name ∉ x.plainNames := by
  rw [boundValue_eq_none_iff, bindPlain, List.map_map, plainNames]
  rfl

/-- A global that is bound is bound under one of the names. -/
theorem mem_names_of_boundValue (convert : Option AnyValue → LuaValue) {name : String}
    {v : LuaValue} (h : boundValue (x.objectWrites ++ x.bindPlain convert) name = some v) :
    name ∈ x.plainNames ++ x.objectNames := by
  rw [List.mem_append]
  by_contra hnot
  obtain ⟨hplain, hobject⟩ := not_or.1 hnot
  have hnone := x.boundObject_eq_none_iff.2 hobject
  rw [boundObject] at hnone
  rw [boundValue_append, (x.boundPlain_eq_none_iff convert).2 hplain, hnone] at h
  exact absurd h (by simp)

/-- Under a name that no other parameter has it is the object that is bound. -/
theorem boundValue_of_notMem_plainNames (convert : Option AnyValue → LuaValue) {name : String}
    (h : name ∉ x.plainNames) :
    boundValue (x.objectWrites ++ x.bindPlain convert) name = x.boundObject name := by
  rw [boundValue_append, (x.boundPlain_eq_none_iff convert).2 h, Option.none_or, boundObject]

/-- How the chunk runs when it is called. -/
def runOf {α : Type} (convert : Option AnyValue → LuaValue) (chunk : BackendChunk α) : ChunkRun α :=
  chunk (written x.start.value (x.contextWrites ++ x.objectWrites ++ x.bindPlain convert))

/-- A chunk is there, and ends without a Lua error. -/
def endsNormally {α : Type} (convert : Option AnyValue → LuaValue)
    (chunk : Option (BackendChunk α)) : Bool :=
  chunk.any fun c ↦ (x.runOf convert c).outcome.isOk

/-- The globals that the chunk assigns, if there is one. -/
def assignedBy {α : Type} (convert : Option AnyValue → LuaValue) (chunk : Option (BackendChunk α)) :
    List String :=
  chunk.elim [] fun c ↦ (x.runOf convert c).assigned

/-- The globals that a function call sets to nil: those of the backend in any case, those of the
engine only if the chunk ended without an error. -/
def clearedBy (chunk : Option (BackendChunk LuaValue)) : List String :=
  chunk.elim [] fun c ↦
    if (x.runOf HostTypes.pushAny c).outcome.isOk then x.plainNames ++ x.objectNames
    else x.plainNames

/-- The globals that resuming a coroutine sets to nil. -/
def clearedByResume (stretch : Option (BackendChunk Bool)) : List String :=
  stretch.elim (x.plainNames ++ x.objectNames) fun c ↦
    if (x.runOf x.types.anyToLuaValue c).outcome.isOk then x.plainNames ++ x.objectNames else []

section Writes

variable (words : Words)

theorem callChunk_writes_none :
    (x.callChunk words true none).writes =
      x.contextWrites ++ x.objectWrites ++ (⟨[], .error ""⟩ : ChunkRun LuaValue).writes ++
        clearing [] := by
  simp [callChunk, ChunkRun.writes, clearing]

theorem callChunk_writes_some (chunk : BackendChunk LuaValue) :
    (x.callChunk words true (some chunk)).writes =
      x.contextWrites ++ (x.objectWrites ++ x.bindPlain HostTypes.pushAny) ++
        (x.runOf HostTypes.pushAny chunk).writes ++ clearing (x.clearedBy (some chunk)) := by
  rw [callChunk, if_pos rfl, clearedBy, Option.elim_some]
  dsimp only
  split
  · rename_i message houtcome
    have hfails : ¬(x.runOf HostTypes.pushAny chunk).outcome.isOk = true := by
      rw [runOf, houtcome]
      exact Bool.false_ne_true
    rw [if_neg hfails, ← clearPlain_eq, runOf, List.append_assoc x.contextWrites]
  · rename_i value houtcome
    have hends : (x.runOf HostTypes.pushAny chunk).outcome.isOk = true := by
      rw [runOf, houtcome]
      rfl
    rw [if_pos hends, clearing_append, ← clearPlain_eq, ← clearObjects_eq, runOf]
    simp only [List.append_assoc]

theorem resumeCoroutine_writes_none :
    (x.resumeCoroutine true true none).writes =
      x.contextWrites ++ (x.objectWrites ++ x.bindPlain x.types.anyToLuaValue) ++
        (⟨[], .error ""⟩ : ChunkRun Bool).writes ++ clearing (x.clearedByResume none) := by
  rw [clearedByResume, Option.elim_none, clearing_append, ← clearPlain_eq, ← clearObjects_eq]
  simp [resumeCoroutine, ChunkRun.writes]

theorem resumeCoroutine_writes_some (stretch : BackendChunk Bool) :
    (x.resumeCoroutine true true (some stretch)).writes =
      x.contextWrites ++ (x.objectWrites ++ x.bindPlain x.types.anyToLuaValue) ++
        (x.runOf x.types.anyToLuaValue stretch).writes ++
        clearing (x.clearedByResume (some stretch)) := by
  rw [resumeCoroutine, clearedByResume, Option.elim_some]
  simp only [Bool.not_true, Bool.false_eq_true, if_false]
  split
  · rename_i message houtcome
    have hfails : ¬(x.runOf x.types.anyToLuaValue stretch).outcome.isOk = true := by
      rw [runOf, houtcome]
      exact Bool.false_ne_true
    rw [if_neg hfails, clearing, List.map_nil, List.append_nil, runOf,
      List.append_assoc x.contextWrites]
  · rename_i finished houtcome
    have hends : (x.runOf x.types.anyToLuaValue stretch).outcome.isOk = true := by
      rw [runOf, houtcome]
      rfl
    rw [if_pos hends, clearing_append, ← clearPlain_eq, ← clearObjects_eq, runOf]
    simp only [List.append_assoc]

end Writes

theorem mark_objectWrites : ∀ w ∈ x.objectWrites, w.mark = .parameter :=
  mark_bindObjects x.types _ x.parameters

theorem mark_bound (convert : Option AnyValue → LuaValue) :
    ∀ w ∈ x.objectWrites ++ x.bindPlain convert, w.mark = .parameter := fun w hw ↦
  (List.mem_append.1 hw).elim (x.mark_objectWrites w) (x.mark_bindPlain convert w)

/-! ### No parameter outlives its call -/

/-- The function call is refused, or the chunk ends without a Lua error, or no object is left: each
one that is bound has its global overwritten by another parameter, which the backend clears, or is
overwritten by the chunk. -/
def FreesParameters (isKnown : Bool) (chunk : Option (BackendChunk LuaValue)) : Prop :=
  isKnown = false ∨ x.endsNormally HostTypes.pushAny chunk = true ∨
    ∀ name v, x.boundObject name = some v → v ≠ .nil →
      (chunk.isSome = true ∧ name ∈ x.plainNames) ∨ name ∈ x.assignedBy HostTypes.pushAny chunk

/-- The coroutine is not resumed, or is not stopped by a Lua error, or every parameter that is not
bound to nil is overwritten by it. -/
def FreesParametersOfResume (hasHandle isCoroutine : Bool) (stretch : Option (BackendChunk Bool)) :
    Prop :=
  hasHandle = false ∨ isCoroutine = false ∨ stretch = none ∨
    x.endsNormally x.types.anyToLuaValue stretch = true ∨
    ∀ name v, boundValue (x.objectWrites ++ x.bindPlain x.types.anyToLuaValue) name = some v →
      v ≠ .nil → name ∈ x.assignedBy x.types.anyToLuaValue stretch

theorem noneBound_nil : NoneBound [] := fun _ _ h ↦ absurd h (by simp)

theorem callChunk_noneBound_iff (words : Words) (isKnown : Bool)
    (chunk : Option (BackendChunk LuaValue)) :
    NoneBound (x.callChunk words isKnown chunk).writes ↔ x.FreesParameters isKnown chunk := by
  cases isKnown with
  | false => exact iff_of_true noneBound_nil (.inl rfl)
  | true =>
    rcases chunk with - | c
    · rw [callChunk_writes_none,
        staged_noneBound_iff x.mark_contextWrites x.mark_objectWrites, FreesParameters]
      simp [endsNormally, boundObject, assignedBy, ChunkRun.assigned]
    · rw [callChunk_writes_some, staged_noneBound_iff x.mark_contextWrites (x.mark_bound _),
        FreesParameters, clearedBy, Option.elim_some, assignedBy, Option.elim_some]
      by_cases hends : (x.runOf HostTypes.pushAny c).outcome.isOk = true
      · rw [if_pos hends]
        exact iff_of_true (fun name v hv _ ↦ .inr (x.mem_names_of_boundValue _ hv))
          (.inr (.inl hends))
      · rw [if_neg hends]
        constructor
        · intro h
          refine .inr (.inr fun name v hv hnil ↦ ?_)
          by_cases hplain : name ∈ x.plainNames
          · exact .inl ⟨rfl, hplain⟩
          · rw [← x.boundValue_of_notMem_plainNames HostTypes.pushAny hplain] at hv
            exact .inr ((h name v hv hnil).resolve_right hplain)
        · rintro (hunknown | hends' | hleft) name v hv hnil
          · cases hunknown
          · exact absurd hends' hends
          · by_cases hplain : name ∈ x.plainNames
            · exact .inr hplain
            · rw [x.boundValue_of_notMem_plainNames _ hplain] at hv
              exact .inl ((hleft name v hv hnil).resolve_left fun h ↦ hplain h.2)

theorem resumeCoroutine_noneBound_iff (hasHandle isCoroutine : Bool)
    (stretch : Option (BackendChunk Bool)) :
    NoneBound (x.resumeCoroutine hasHandle isCoroutine stretch).writes ↔
      x.FreesParametersOfResume hasHandle isCoroutine stretch := by
  cases hasHandle with
  | false => exact iff_of_true noneBound_nil (.inl rfl)
  | true =>
    cases isCoroutine with
    | false => exact iff_of_true noneBound_nil (.inr (.inl rfl))
    | true =>
      rcases stretch with - | c
      · rw [resumeCoroutine_writes_none, staged_noneBound_iff x.mark_contextWrites (x.mark_bound _)]
        exact iff_of_true (fun name v hv _ ↦ .inr (x.mem_names_of_boundValue _ hv))
          (.inr (.inr (.inl rfl)))
      · rw [resumeCoroutine_writes_some, staged_noneBound_iff x.mark_contextWrites (x.mark_bound _),
          FreesParametersOfResume, clearedByResume, Option.elim_some, assignedBy, Option.elim_some]
        by_cases hends : (x.runOf x.types.anyToLuaValue c).outcome.isOk = true
        · rw [if_pos hends]
          exact iff_of_true (fun name v hv _ ↦ .inr (x.mem_names_of_boundValue _ hv))
            (.inr (.inr (.inr (.inl hends))))
        · rw [if_neg hends]
          simp [endsNormally, hends]

/-- No global is left bound to a parameter exactly if the condition of the entry point holds. -/
theorem parameters_freed_iff :
    (∀ isKnown chunk, NoneBound (x.evaluateExpression isKnown chunk).writes ↔
      x.FreesParameters isKnown chunk) ∧
    (∀ isKnown chunk, NoneBound (x.executeAction isKnown chunk).writes ↔
      x.FreesParameters isKnown chunk) ∧
    ∀ hasHandle isCoroutine stretch,
      NoneBound (x.resumeCoroutine hasHandle isCoroutine stretch).writes ↔
        x.FreesParametersOfResume hasHandle isCoroutine stretch :=
  ⟨x.callChunk_noneBound_iff expressionWords, x.callChunk_noneBound_iff actionWords,
    x.resumeCoroutine_noneBound_iff⟩

/-! ### The globals are as they were -/

/-- The globals after a function call of the engine. -/
def after {α : Type} (run : CallRun α) : String → LuaValue :=
  written x.start.value run.writes

/-- Every global that the chunk does not assign is what it was. -/
def Undamaged {α β : Type} (run : CallRun α) (chunk : Option (BackendChunk β)) : Prop :=
  ∀ name, name ∉ x.assignedBy HostTypes.pushAny chunk → x.after run name = x.start.value name

/-- The globals of the parameters that are bound before the chunk is called. -/
def boundNames (chunk : Option (BackendChunk LuaValue)) : List String :=
  if chunk.isSome then x.plainNames ++ x.objectNames else x.objectNames

/-- What it takes that a function call that is not refused damages no global: `context` was a table,
the globals that are cleared were nil, and those left bound to an object, because the chunk failed,
held the same value before. -/
structure KeepsGlobals (chunk : Option (BackendChunk LuaValue)) : Prop where
  context : (x.start.value "context").isTable = true ∨
    "context" ∈ x.assignedBy HostTypes.pushAny chunk ∨ "context" ∈ x.boundNames chunk
  cleared : ∀ name ∈ x.clearedBy chunk, name ∉ x.assignedBy HostTypes.pushAny chunk →
    x.start.value name = .nil
  left : ∀ name v, name ∉ x.clearedBy chunk → name ∉ x.assignedBy HostTypes.pushAny chunk →
    x.boundObject name = some v → v.IsPlain ∧ x.start.value name = v

/-- A global that is cleared was bound. -/
theorem mem_boundNames_of_mem_clearedBy {chunk : Option (BackendChunk LuaValue)} {name : String}
    (h : name ∈ x.clearedBy chunk) : name ∈ x.boundNames chunk := by
  rcases chunk with - | c
  · exact absurd h List.not_mem_nil
  · rw [clearedBy, Option.elim_some] at h
    show name ∈ x.plainNames ++ x.objectNames
    split_ifs at h
    · exact h
    · exact List.mem_append_left _ h

/-- A global that was bound and is not cleared is left bound to an object. -/
theorem boundObject_ne_none {chunk : Option (BackendChunk LuaValue)} {name : String}
    (h : name ∈ x.boundNames chunk) (hcleared : name ∉ x.clearedBy chunk) :
    x.boundObject name ≠ none := by
  rw [Ne, boundObject_eq_none_iff, not_not]
  rcases chunk with - | c
  · exact h
  · rw [clearedBy, Option.elim_some] at hcleared
    have hname : name ∈ x.plainNames ++ x.objectNames := h
    split_ifs at hcleared
    · exact absurd hname hcleared
    · exact (List.mem_append.1 hname).resolve_left hcleared

/-- What a function call leaves in a global that the chunk does not assign. -/
theorem after_callChunk (words : Words) {chunk : Option (BackendChunk LuaValue)} {name : String}
    (h : name ∉ x.assignedBy HostTypes.pushAny chunk) :
    x.after (x.callChunk words true chunk) name =
      if name ∈ x.clearedBy chunk then .nil
      else (x.boundObject name).getD
        ((boundValue x.contextWrites name).getD (x.start.value name)) := by
  rcases chunk with - | c
  · rw [after, callChunk_writes_none, staged_written _ (by simp [ChunkRun.assigned])]
    rfl
  · rw [after, callChunk_writes_some, staged_written _ h]
    by_cases hcleared : name ∈ x.clearedBy (some c)
    · rw [if_pos hcleared, if_pos hcleared]
    · have hplain : name ∉ x.plainNames := fun hin ↦ by
        refine hcleared ?_
        rw [clearedBy, Option.elim_some]
        split_ifs
        · exact List.mem_append_left _ hin
        · exact hin
      rw [if_neg hcleared, if_neg hcleared, x.boundValue_of_notMem_plainNames _ hplain]

/-- What an object is bound to was not there before. -/
theorem value_bindObjects (types : HostTypes) (fresh : ℕ) (parameters : List RuleParameter) :
    ∀ w ∈ bindObjects types fresh parameters,
      w.value.IsPlain ∨ ∃ id, fresh ≤ id ∧ w.value = .object .userdata id := by
  induction parameters generalizing fresh with
  | nil => simp [bindObjects]
  | cons p parameters ih =>
    rw [bindObjects]
    split_ifs
    · refine List.forall_mem_cons.2 ⟨?_, fun w hw ↦ ?_⟩
      · exact (types.objectValue_cases fresh p).imp_right fun h ↦ ⟨fresh, le_rfl, h⟩
      · refine (ih (fresh + 1) w hw).imp_right ?_
        rintro ⟨id, hid, hvalue⟩
        exact ⟨id, by omega, hvalue⟩
    · exact ih fresh

theorem isPlain_of_boundObject {name : String} {v : LuaValue} (h : x.boundObject name = some v)
    (hstart : x.start.value name = v) : v.IsPlain := by
  obtain ⟨w, hw, rfl⟩ := Option.map_eq_some_iff.1 h
  refine (value_bindObjects _ _ _ w (mem_of_lastWrite hw).1).resolve_right ?_
  rintro ⟨id, hid, hvalue⟩
  have hmade := x.start.known name .userdata id (hstart.trans hvalue)
  omega

/-- The context table is a new one, if it was not there. -/
theorem boundValue_contextWrites (name : String) :
    boundValue x.contextWrites name =
      if name = "context" ∧ (x.start.value "context").isTable = false then
        some (.object .table x.start.made)
      else none := by
  rw [contextWrites]
  by_cases htable : (x.start.value "context").isTable = true
  · simp [htable, boundValue]
  · by_cases hname : name = "context"
    · simp [htable, hname, boundValue, lastWrite]
    · simp [htable, hname, boundValue, lastWrite, Ne.symm hname]

theorem callChunk_undamaged_iff (words : Words) (isKnown : Bool)
    (chunk : Option (BackendChunk LuaValue)) :
    x.Undamaged (x.callChunk words isKnown chunk) chunk ↔
      isKnown = false ∨ x.KeepsGlobals chunk := by
  cases isKnown with
  | false => exact iff_of_true (fun name _ ↦ rfl) (.inl rfl)
  | true =>
    constructor
    · intro h
      refine .inr ⟨?_, fun name hcleared hassigned ↦ ?_, fun name v hcleared hassigned hv ↦ ?_⟩
      · -- a table that was made for this call is none of the values that were there before
        by_contra hnot
        obtain ⟨htable, hnot⟩ := not_or.1 hnot
        obtain ⟨hassigned, hbound⟩ := not_or.1 hnot
        have hcleared : "context" ∉ x.clearedBy chunk :=
          fun hin ↦ hbound (x.mem_boundNames_of_mem_clearedBy hin)
        have hobject : x.boundObject "context" = none := by
          rw [boundObject_eq_none_iff]
          intro hin
          refine hbound ?_
          rw [boundNames]
          split_ifs
          · exact List.mem_append_right _ hin
          · exact hin
        have hsame := h "context" hassigned
        rw [x.after_callChunk words hassigned, if_neg hcleared, hobject, boundValue_contextWrites,
          if_pos ⟨rfl, Bool.eq_false_iff.2 htable⟩] at hsame
        have hmade := x.start.known "context" .table x.start.made hsame.symm
        omega
      · have hsame := h name hassigned
        rw [x.after_callChunk words hassigned, if_pos hcleared] at hsame
        exact hsame.symm
      · have hsame := h name hassigned
        rw [x.after_callChunk words hassigned, if_neg hcleared, hv] at hsame
        exact ⟨x.isPlain_of_boundObject hv hsame.symm, hsame.symm⟩
    · rintro (hunknown | hkeeps) name hassigned
      · cases hunknown
      · rw [x.after_callChunk words hassigned]
        by_cases hcleared : name ∈ x.clearedBy chunk
        · rw [if_pos hcleared, hkeeps.cleared name hcleared hassigned]
        · rw [if_neg hcleared]
          rcases hobject : x.boundObject name with - | v
          · rw [Option.getD_none, boundValue_contextWrites, if_neg, Option.getD_none]
            rintro ⟨rfl, htable⟩
            rcases hkeeps.context with htrue | hin | hin
            · exact absurd (htable.symm.trans htrue) Bool.false_ne_true
            · exact hassigned hin
            · exact x.boundObject_ne_none hin hcleared hobject
          · exact (hkeeps.left name v hcleared hassigned hobject).2.symm

/-- A function call that is not refused keeps all other globals exactly if these conditions hold. -/
theorem globals_undamaged_iff (isKnown : Bool) (chunk : Option (BackendChunk LuaValue)) :
    (x.Undamaged (x.evaluateExpression isKnown chunk) chunk ↔
      isKnown = false ∨ x.KeepsGlobals chunk) ∧
    (x.Undamaged (x.executeAction isKnown chunk) chunk ↔
      isKnown = false ∨ x.KeepsGlobals chunk) :=
  ⟨x.callChunk_undamaged_iff expressionWords isKnown chunk,
    x.callChunk_undamaged_iff actionWords isKnown chunk⟩

/-! ### Examples -/

/-- A host with one registered type, whose objects are passed as pointers. -/
def customerHost : HostTypes where
  extractPointer t :=
    if t.name = "Customer" then
      some fun
        | ⟨⟨.other, _, _⟩, pointer⟩ => some pointer
        | _ => none
    else none
  voidPointer _ := none

/-- A state with the context table and a predicate. -/
def predicateGlobals : LuaGlobals where
  value name :=
    if name = "context" then .object .table 0
    else if name = "isNull" then .object .function 1
    else .nil
  made := 2
  known name kind id h := by
    split_ifs at h
    · cases h
      decide
    · cases h
      decide

/-- A call with one parameter. -/
def callWith (p : RuleParameter) : EngineCall where
  types := customerHost
  start := predicateGlobals
  ref := 1
  parameters := [p]

/-- A customer object. -/
def customer : RuleParameter where
  name := "customer"
  value := some ⟨⟨.other, "Customer*", 2⟩, 4096⟩
  type := some ⟨.other, "Customer", 1⟩

/-- A chunk that ends with an error. -/
def failingChunk : BackendChunk LuaValue :=
  fun _ ↦ ⟨[], .error "attempt to index a nil value"⟩

/-- After the error the customer is still there. -/
theorem customer_outlives :
    (callWith customer).after ((callWith customer).evaluateExpression true (some failingChunk))
        "customer" = .object .userdata 3 ∧
      ¬NoneBound ((callWith customer).evaluateExpression true (some failingChunk)).writes := by
  have hlast : lastWrite ((callWith customer).evaluateExpression true (some failingChunk)).writes
      "customer" = some ⟨"customer", .parameter, .object .userdata 3⟩ := by decide +kernel
  refine ⟨written_of_some hlast, fun h ↦ ?_⟩
  exact absurd (h "customer" _ hlast rfl) (by decide)

/-- A parameter with the name of a predicate. -/
def isNullParameter : RuleParameter where
  name := "isNull"
  value := some ⟨⟨.int, "int", 3⟩, 1⟩
  type := none

/-- After a call with it the predicate is gone. -/
theorem isNull_damaged :
    (callWith isNullParameter).after ((callWith isNullParameter).evaluateExpression true
        (some fun _ ↦ ⟨[], .ok (.boolean true)⟩)) "isNull" = .nil ∧
      ¬(callWith isNullParameter).Undamaged ((callWith isNullParameter).evaluateExpression true
        (some fun _ ↦ ⟨[], .ok (.boolean true)⟩))
        (some fun _ ↦ (⟨[], .ok (.boolean true)⟩ : ChunkRun LuaValue)) := by
  have hlast : lastWrite ((callWith isNullParameter).evaluateExpression true
      (some fun _ ↦ ⟨[], .ok (.boolean true)⟩)).writes "isNull" =
        some ⟨"isNull", .clearing, .nil⟩ := by
    decide +kernel
  refine ⟨written_of_some hlast, fun h ↦ ?_⟩
  have hsame := h "isNull" List.not_mem_nil
  rw [after, written_of_some hlast] at hsame
  exact absurd hsame (by decide)

end EngineCall

end FastRules
