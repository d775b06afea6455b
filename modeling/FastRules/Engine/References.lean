import FastRules.Engine.LuaEngine
import FastRules.Foundations.Addresses
import FastRules.Rule.Numbers
import Mathlib.Algebra.Order.BigOperators.Group.List
import Mathlib.Algebra.Order.Ring.Nat

/-!
# What stands behind a reference

An engine finds a compiled chunk in three steps: `refToBackendId_` has the id of a reference,
`compiled_` of the backend has the registry reference of an id, and the registry of the Lua state
has the function. A coroutine has a thread in the registry besides. The references of the registry
are handed out by `luaL_ref`, of which only that they are new and not zero is used; to give one back
that is not taken would damage the registry, and has no result here.

Over whole runs the tables are what `LuaEngine` says that they are (`run_eq_live`): a reference
stands for the chunk that was compiled for it, until it is released or the state is reset. Nothing
is given back twice, and everything in the registry belongs to one reference that has not been
released.
-/

namespace FastRules

open Addresses

/-! ### The backend -/

/-- What the registry of a Lua state has under a reference. -/
inductive RegistryValue
  | chunk (chunk : Chunk)
  /-- The thread of a coroutine that runs the chunk. -/
  | thread (chunk : Chunk)
  deriving DecidableEq

abbrev Registry := AList fun _ : ℕ ↦ RegistryValue

/-- `luaL_unref`. -/
def Registry.unref (ref : ℕ) (registry : Registry) : Option Registry :=
  if ref ∈ registry then some (registry.erase ref) else none

/-- One `luaL_unref` after the other. -/
def Registry.unrefAll (registry : Registry) (refs : List ℕ) : Option Registry :=
  refs.foldlM (fun registry ref ↦ unref ref registry) registry

/-- What `luaL_ref` returns the n-th time. -/
structure RefSupply where
  newRef : ℕ → Registry → ℕ
  fresh : ∀ n registry, newRef n registry ∉ registry
  ne_zero : ∀ n registry, newRef n registry ≠ 0

/-- References that are larger than all that are taken. -/
def RefSupply.ascending : RefSupply where
  newRef _ registry := registry.keys.sum + 1
  fresh _ registry h := by
    have hle := List.single_le_sum (fun _ _ ↦ Nat.zero_le _) _ (AList.mem_keys.1 h)
    omega
  ne_zero _ registry := Nat.succ_ne_zero _

/-- `LuaBridge3Backend`, as far as it holds references. -/
structure LuaBackend where
  /-- How often `luaL_ref` was called. -/
  refCount : ℕ := 0
  compiled : AList (fun _ : String ↦ ℕ) := ∅
  /-- The threads, by their references. -/
  coroutines : AList (fun _ : ℕ ↦ Chunk) := ∅
  registry : Registry := ∅

namespace LuaBackend

/-- What `lua_rawgeti` finds for an id. -/
def valueOf (b : LuaBackend) (id : String) : Option RegistryValue :=
  (b.compiled.lookup id).bind (AList.lookup · b.registry)

variable (lib : LuaLibrary) (refs : RefSupply)

/-- `compileExpression` and `compileAction`. -/
def compile (id : String) (chunk : Chunk) (b : LuaBackend) :
    Option (Except String Unit × LuaBackend) :=
  match lib.load chunk with
  | .error message => some (.error message, b)
  | .ok _ =>
    let ref := refs.newRef b.refCount b.registry
    let registry : Registry := b.registry.insert ref (.chunk chunk)
    let cleared :=
      match b.compiled.lookup id with
      | some old => registry.unref old
      | none => some registry
    cleared.map fun registry ↦
      (.ok (), { b with
        refCount := b.refCount + 1
        compiled := b.compiled.insert id ref
        registry })

/-- `createCoroutine`. The handle is the reference of the thread as a pointer, `nullptr` is 0. -/
def createCoroutine (id : String) (b : LuaBackend) : ℕ × LuaBackend :=
  match b.valueOf id with
  | some (.chunk chunk) =>
    let threadRef := refs.newRef b.refCount b.registry
    (threadRef, { b with
      refCount := b.refCount + 1
      coroutines := b.coroutines.insert threadRef chunk
      registry := b.registry.insert threadRef (.thread chunk) })
  | _ => (0, b)

def closeCoroutine (handle : ℕ) (b : LuaBackend) : Option LuaBackend :=
  if handle ∈ b.coroutines then
    (b.registry.unref handle).map fun registry ↦
      { b with coroutines := b.coroutines.erase handle, registry }
  else some b

def removeCompiled (id : String) (b : LuaBackend) : Option LuaBackend :=
  match b.compiled.lookup id with
  | some ref =>
    (b.registry.unref ref).map fun registry ↦
      { b with compiled := b.compiled.erase id, registry }
  | none => some b

/-- `reset`: everything is given back before the state is closed. -/
def reset (order : HashOrder ℕ) (b : LuaBackend) : Option LuaBackend := do
  let registry ← b.registry.unrefAll (order.visit (b.compiled.entries.map Sigma.snd))
  let _ ← registry.unrefAll (order.visit b.coroutines.keys)
  return { refCount := b.refCount }

end LuaBackend

/-! ### The engine -/

/-- The tables of a `LuaEngine`. -/
structure EngineTables where
  generation : BitVec 32 := 0
  nextRefId : ℕ := 1
  maxExpressionLength : ℕ := 0
  autoResetThresholdKB : ℕ := 0
  refToBackendId : AList (fun _ : ℕ ↦ String) := ∅
  coroutineRegistry : AList (fun _ : ℕ ↦ Bool) := ∅
  coroutineHandles : AList (fun _ : ℕ ↦ ℕ) := ∅
  backend : LuaBackend := {}

def makeBackendId (ref : ℕ) : String :=
  "ref_" ++ toString ref

namespace EngineTables

/-- The chunk that `evaluateExpression` and `executeAction` run. -/
def chunkAt (t : EngineTables) (ref : ℕ) : Option Chunk :=
  match (t.refToBackendId.lookup ref).bind t.backend.valueOf with
  | some (.chunk chunk) => some chunk
  | _ => none

/-- The chunk that `resumeCoroutine` goes on with. -/
def threadAt (t : EngineTables) (ref : ℕ) : Option Chunk :=
  match t.coroutineHandles.lookup ref with
  | some handle =>
    if handle ≠ 0 ∧ ref ∈ t.coroutineRegistry then t.backend.coroutines.lookup handle else none
  | none => none

/-- The engine as the tables describe it. -/
def view (t : EngineTables) : LuaEngine where
  generation := t.generation
  nextRefId := t.nextRefId
  chunks := t.chunkAt
  maxExpressionLength := t.maxExpressionLength
  autoResetThresholdKB := t.autoResetThresholdKB

variable (lib : LuaLibrary) (refs : RefSupply) (order : HashOrder ℕ)

def resetState (t : EngineTables) : Option EngineTables := do
  let backend ← (order.visit (t.coroutineHandles.entries.map Sigma.snd)).foldlM
    (fun b handle ↦ if handle ≠ 0 then b.closeCoroutine handle else some b) t.backend
  let backend ← backend.reset order
  return { t with
    generation := t.generation + 1
    nextRefId := 1
    refToBackendId := ∅
    coroutineRegistry := ∅
    coroutineHandles := ∅
    backend }

/-- The reset before a compilation, when so much memory is in use. -/
def autoReset (memKB : ℕ) (t : EngineTables) : Option EngineTables :=
  if 0 < t.autoResetThresholdKB ∧ t.autoResetThresholdKB < memKB then t.resetState order else some t

/-- What `compileExpression` and `compileAction` do with the locks held. -/
def register (chunk : Chunk) (t : EngineTables) :
    Option (Except String (Option ℕ) × EngineTables) := do
  let ref := t.nextRefId
  let (result, backend) ← t.backend.compile lib refs (makeBackendId ref) chunk
  let t := { t with nextRefId := ref + 1, backend }
  match result with
  | .error message => return (.error ("Compilation failed: " ++ message), t)
  | .ok _ =>
    return (.ok (some ref),
      { t with refToBackendId := t.refToBackendId.insert ref (makeBackendId ref) })

def compileExpression (memKB : ℕ) (source : String) (t : EngineTables) :
    Option (Except String (Option ℕ) × EngineTables) :=
  if t.view.exceeds source then some (.error (t.view.lengthMessage "Expression" source), t)
  else if isBlank source then some (.ok none, t)
  else (t.autoReset order memKB).bind fun t ↦ t.register lib refs ⟨.expression, source⟩

def compileAction (memKB : ℕ) (source : String) (t : EngineTables) :
    Option (Except String (Option ℕ) × EngineTables) :=
  if source = "" then some (.ok none, t)
  else if t.view.exceeds source then some (.error (t.view.lengthMessage "Action" source), t)
  else (t.autoReset order memKB).bind fun t ↦ t.register lib refs ⟨.action, source⟩

/-- What `compileCoroutine` does with the locks held. It does not reword what the backend throws. -/
def registerCoroutine (chunk : Chunk) (t : EngineTables) :
    Option (Except String (Option ℕ) × EngineTables) := do
  let ref := t.nextRefId
  let (result, backend) ← t.backend.compile lib refs (makeBackendId ref) chunk
  let t := { t with nextRefId := ref + 1, backend }
  match result with
  | .error message => return (.error message, t)
  | .ok _ =>
    let (handle, backend) := t.backend.createCoroutine refs (makeBackendId ref)
    let t := { t with backend }
    if handle = 0 then
      return (.error "Failed to create coroutine from compiled expression", t)
    return (.ok (some ref), { t with
      coroutineRegistry := t.coroutineRegistry.insert ref true
      coroutineHandles := t.coroutineHandles.insert ref handle
      refToBackendId := t.refToBackendId.insert ref (makeBackendId ref) })

/-- `compileCoroutine`, which does not look at the length. -/
def compileCoroutine (memKB : ℕ) (source : String) (t : EngineTables) :
    Option (Except String (Option ℕ) × EngineTables) :=
  if source = "" then some (.ok none, t)
  else (t.autoReset order memKB).bind fun t ↦ t.registerCoroutine lib refs ⟨.expression, source⟩

def releaseChunk (ref : ℕ) (t : EngineTables) : Option EngineTables :=
  match t.refToBackendId.lookup ref with
  | some id =>
    (t.backend.removeCompiled id).map fun backend ↦
      { t with backend, refToBackendId := t.refToBackendId.erase ref }
  | none => some t

def releaseThread (ref : ℕ) (t : EngineTables) : Option EngineTables :=
  match t.coroutineHandles.lookup ref with
  | some handle =>
    if handle ≠ 0 then
      (t.backend.closeCoroutine handle).map fun backend ↦
        { t with backend, coroutineHandles := t.coroutineHandles.erase ref }
    else some t
  | none => some t

def releaseRef (ref : ℕ) (t : EngineTables) : Option EngineTables := do
  let t ← t.releaseChunk ref
  let t ← t.releaseThread ref
  return { t with coroutineRegistry := t.coroutineRegistry.erase ref }

/-- The value under `slot` of the registry is there for `ref`. -/
def Holds (t : EngineTables) (ref slot : ℕ) : RegistryValue → Prop
  | .chunk chunk => t.chunkAt ref = some chunk ∧
      (t.refToBackendId.lookup ref).bind (AList.lookup · t.backend.compiled) = some slot
  | .thread chunk => t.threadAt ref = some chunk ∧ t.coroutineHandles.lookup ref = some slot

end EngineTables

/-! ### What references are -/

/-- An engine, with the chunks that its coroutines run. -/
structure LiveReferences extends LuaEngine where
  coroutines : ℕ → Option Chunk := fun _ ↦ none

namespace LiveReferences

variable (lib : LuaLibrary)

def resetState (r : LiveReferences) : LiveReferences where
  toLuaEngine := r.toLuaEngine.resetState

def autoReset (memKB : ℕ) (r : LiveReferences) : LiveReferences :=
  if 0 < r.autoResetThresholdKB ∧ r.autoResetThresholdKB < memKB then r.resetState else r

def register (chunk : Chunk) (r : LiveReferences) :
    Except String (Option ℕ) × LiveReferences :=
  ((r.toLuaEngine.register lib chunk).1,
    { r with toLuaEngine := (r.toLuaEngine.register lib chunk).2 })

def compileExpression (memKB : ℕ) (source : String) (r : LiveReferences) :
    Except String (Option ℕ) × LiveReferences :=
  if r.exceeds source then (.error (r.lengthMessage "Expression" source), r)
  else if isBlank source then (.ok none, r)
  else (r.autoReset memKB).register lib ⟨.expression, source⟩

def compileAction (memKB : ℕ) (source : String) (r : LiveReferences) :
    Except String (Option ℕ) × LiveReferences :=
  if source = "" then (.ok none, r)
  else if r.exceeds source then (.error (r.lengthMessage "Action" source), r)
  else (r.autoReset memKB).register lib ⟨.action, source⟩

def registerCoroutine (chunk : Chunk) (r : LiveReferences) :
    Except String (Option ℕ) × LiveReferences :=
  match lib.load chunk with
  | .error message => (.error message, { r with nextRefId := r.nextRefId + 1 })
  | .ok _ =>
    (.ok (some r.nextRefId), { r with
      nextRefId := r.nextRefId + 1
      chunks := Function.update r.chunks r.nextRefId (some chunk)
      coroutines := Function.update r.coroutines r.nextRefId (some chunk) })

def compileCoroutine (memKB : ℕ) (source : String) (r : LiveReferences) :
    Except String (Option ℕ) × LiveReferences :=
  if source = "" then (.ok none, r)
  else (r.autoReset memKB).registerCoroutine lib ⟨.expression, source⟩

def releaseRef (ref : ℕ) (r : LiveReferences) : LiveReferences :=
  { r with
    chunks := Function.update r.chunks ref none
    coroutines := Function.update r.coroutines ref none }

theorem autoReset_toLuaEngine (memKB : ℕ) (r : LiveReferences) :
    (r.autoReset memKB).toLuaEngine = r.toLuaEngine.autoReset memKB := by
  rw [autoReset, LuaEngine.autoReset]
  split_ifs <;> rfl

/-- Without its coroutines this is the engine that compiles rules. -/
theorem compileExpression_toLuaEngine (memKB : ℕ) (source : String) (r : LiveReferences) :
    (r.compileExpression lib memKB source).map id toLuaEngine =
      r.toLuaEngine.compileExpression lib memKB source := by
  rw [compileExpression, LuaEngine.compileExpression, ← autoReset_toLuaEngine]
  split_ifs <;> rfl

theorem compileAction_toLuaEngine (memKB : ℕ) (source : String) (r : LiveReferences) :
    (r.compileAction lib memKB source).map id toLuaEngine =
      r.toLuaEngine.compileAction lib memKB source := by
  rw [compileAction, LuaEngine.compileAction, ← autoReset_toLuaEngine]
  split_ifs <;> rfl

end LiveReferences

/-! ### Runs -/

/-- A call that changes the references of an engine. -/
inductive ReferenceCall
  | compileExpression (memKB : ℕ) (source : String)
  | compileAction (memKB : ℕ) (source : String)
  | compileCoroutine (memKB : ℕ) (source : String)
  | releaseRef (ref : ℕ)
  | resetState

section Runs

variable (lib : LuaLibrary) (refs : RefSupply) (order : HashOrder ℕ)

/-- What a call returns, if it returns something. -/
def EngineTables.call (t : EngineTables) :
    ReferenceCall → Option (Except String (Option ℕ) × EngineTables)
  | .compileExpression memKB source => t.compileExpression lib refs order memKB source
  | .compileAction memKB source => t.compileAction lib refs order memKB source
  | .compileCoroutine memKB source => t.compileCoroutine lib refs order memKB source
  | .releaseRef ref => (t.releaseRef ref).map fun t ↦ (.ok none, t)
  | .resetState => (t.resetState order).map fun t ↦ (.ok none, t)

def EngineTables.run : EngineTables → List ReferenceCall →
    Option (List (Except String (Option ℕ)) × EngineTables)
  | t, [] => some ([], t)
  | t, call :: calls =>
    (t.call lib refs order call).bind fun (answer, t) ↦
      (run t calls).map fun (answers, t) ↦ (answer :: answers, t)

def LiveReferences.call (r : LiveReferences) :
    ReferenceCall → Except String (Option ℕ) × LiveReferences
  | .compileExpression memKB source => r.compileExpression lib memKB source
  | .compileAction memKB source => r.compileAction lib memKB source
  | .compileCoroutine memKB source => r.compileCoroutine lib memKB source
  | .releaseRef ref => (.ok none, r.releaseRef ref)
  | .resetState => (.ok none, r.resetState)

def LiveReferences.run : LiveReferences → List ReferenceCall →
    List (Except String (Option ℕ)) × LiveReferences
  | r, [] => ([], r)
  | r, call :: calls =>
    ((r.call lib call).1 :: (run (r.call lib call).2 calls).1, (run (r.call lib call).2 calls).2)

end Runs

/-! ### The backend keeps its references -/

namespace Registry

variable {registry registry' : Registry} {ref : ℕ} {refs : List ℕ}

theorem unref_of_mem (h : ref ∈ registry) : unref ref registry = some (registry.erase ref) :=
  if_pos h

/-- Different references that are taken can all be given back, and the others stay. -/
theorem exists_unrefAll (hnodup : refs.Nodup) (hmem : ∀ ref ∈ refs, ref ∈ registry) :
    ∃ registry', registry.unrefAll refs = some registry' ∧
      ∀ ref ∉ refs, registry'.lookup ref = registry.lookup ref := by
  induction refs generalizing registry with
  | nil => exact ⟨registry, rfl, fun _ _ ↦ rfl⟩
  | cons ref refs ih =>
    obtain ⟨hnot, hnodup⟩ := List.nodup_cons.1 hnodup
    obtain ⟨hself, hrest⟩ := List.forall_mem_cons.1 hmem
    have hkept : ∀ ref' ∈ refs, ref' ∈ registry.erase ref := fun ref' hr ↦
      AList.mem_erase.2 ⟨fun heq ↦ hnot (heq ▸ hr), hrest ref' hr⟩
    obtain ⟨registry', hrun, hlookup⟩ := ih hnodup hkept
    refine ⟨registry', ?_, fun ref' hr ↦ ?_⟩
    · rw [unrefAll, List.foldlM_cons, unref_of_mem hself]
      exact hrun
    · obtain ⟨hne, hr⟩ := not_or.1 (mt List.mem_cons.2 hr)
      rw [hlookup ref' hr, AList.lookup_erase_ne hne]

end Registry

namespace LuaBackend

/-- The backend holds what is in the registry, and nothing is held twice. -/
structure Inv (b : LuaBackend) : Prop where
  chunk : ∀ id ref, b.compiled.lookup id = some ref → ∃ c, b.registry.lookup ref = some (.chunk c)
  distinct : ∀ id id' ref, b.compiled.lookup id = some ref → b.compiled.lookup id' = some ref →
    id = id'
  thread : ∀ ref c, b.coroutines.lookup ref = some c ↔ b.registry.lookup ref = some (.thread c)
  held : ∀ ref c, b.registry.lookup ref = some (.chunk c) → ∃ id, b.compiled.lookup id = some ref
  zero : 0 ∉ b.registry

variable {lib : LuaLibrary} {refs : RefSupply} {order : HashOrder ℕ} {b b' : LuaBackend}
  {id : String} {chunk : Chunk} {ref : ℕ}

theorem inv_empty (n : ℕ) : Inv { refCount := n } where
  chunk _ _ h := absurd h (Option.some_ne_none _).symm
  distinct _ _ _ h := absurd h (Option.some_ne_none _).symm
  thread _ _ := iff_of_false (Option.some_ne_none _).symm (Option.some_ne_none _).symm
  held _ _ h := absurd h (Option.some_ne_none _).symm
  zero := AList.notMem_empty 0

/-- A chunk that loads gets a new reference. -/
theorem compile_ok (hload : lib.load chunk = .ok ()) (hid : id ∉ b.compiled) :
    compile lib refs id chunk b = some (.ok (),
      { b with
        refCount := b.refCount + 1
        compiled := b.compiled.insert id (refs.newRef b.refCount b.registry)
        registry := b.registry.insert (refs.newRef b.refCount b.registry) (.chunk chunk) }) := by
  rw [compile, hload]
  dsimp only
  rw [AList.lookup_eq_none.2 hid]
  rfl

theorem compile_error {message : String} (hload : lib.load chunk = .error message) :
    compile lib refs id chunk b = some (.error message, b) := by
  rw [compile, hload]

/-- A chunk under a new id, with a new reference. -/
theorem Inv.insertChunk (h : b.Inv) (hid : id ∉ b.compiled) (href : ref ∉ b.registry)
    (hzero : ref ≠ 0) (chunk : Chunk) :
    Inv { b with
      refCount := b.refCount + 1
      compiled := b.compiled.insert id ref
      registry := b.registry.insert ref (.chunk chunk) } := by
  have hnew : ∀ id', b.compiled.lookup id' ≠ some ref := fun id' hid' ↦ by
    obtain ⟨c, hc⟩ := h.chunk id' ref hid'
    exact href (mem_of_lookup hc)
  refine ⟨fun id' ref' hid' ↦ ?_, fun id₁ id₂ ref' h₁ h₂ ↦ ?_, fun ref' c ↦ ?_, fun ref' c hc ↦ ?_,
    fun hmem ↦ ?_⟩
  · rcases lookup_insert_eq_some_iff.1 hid' with ⟨-, rfl⟩ | ⟨-, hid'⟩
    · exact ⟨chunk, AList.lookup_insert _⟩
    · obtain ⟨c, hc⟩ := h.chunk id' ref' hid'
      have hne : ref' ≠ ref := fun heq ↦ hnew id' (heq ▸ hid')
      exact ⟨c, lookup_insert_eq_some_iff.2 (.inr ⟨hne, hc⟩)⟩
  · rcases lookup_insert_eq_some_iff.1 h₁ with ⟨rfl, hr₁⟩ | ⟨-, hkept₁⟩ <;>
      rcases lookup_insert_eq_some_iff.1 h₂ with ⟨rfl, hr₂⟩ | ⟨-, hkept₂⟩
    · rfl
    · exact absurd (hr₁ ▸ hkept₂) (hnew id₂)
    · exact absurd (hr₂ ▸ hkept₁) (hnew id₁)
    · exact h.distinct id₁ id₂ ref' hkept₁ hkept₂
  · rw [lookup_insert_eq_some_iff, h.thread]
    constructor
    · intro hc
      exact .inr ⟨fun heq ↦ href (heq ▸ mem_of_lookup hc), hc⟩
    · rintro (⟨-, heq⟩ | ⟨-, hc⟩)
      · cases heq
      · exact hc
  · rcases lookup_insert_eq_some_iff.1 hc with ⟨rfl, -⟩ | ⟨hne, hc⟩
    · exact ⟨id, AList.lookup_insert _⟩
    · obtain ⟨id', hid'⟩ := h.held ref' c hc
      have hne' : id' ≠ id := fun heq ↦ hid (heq ▸ mem_of_lookup hid')
      exact ⟨id', lookup_insert_eq_some_iff.2 (.inr ⟨hne', hid'⟩)⟩
  · rcases (AList.mem_insert _).1 hmem with heq | hmem
    · exact hzero heq.symm
    · exact h.zero hmem

/-- A thread with a new reference. -/
theorem Inv.insertThread (h : b.Inv) (href : ref ∉ b.registry) (hzero : ref ≠ 0) (chunk : Chunk) :
    Inv { b with
      refCount := b.refCount + 1
      coroutines := b.coroutines.insert ref chunk
      registry := b.registry.insert ref (.thread chunk) } := by
  have hkept : ∀ ref' c, b.registry.lookup ref' = some (.chunk c) → ref' ≠ ref :=
    fun ref' c hc heq ↦ href (heq ▸ mem_of_lookup hc)
  refine ⟨fun id ref' hid ↦ ?_, h.distinct, fun ref' c ↦ ?_, fun ref' c hc ↦ ?_, fun hmem ↦ ?_⟩
  · obtain ⟨c, hc⟩ := h.chunk id ref' hid
    exact ⟨c, lookup_insert_eq_some_iff.2 (.inr ⟨hkept ref' c hc, hc⟩)⟩
  · rw [lookup_insert_eq_some_iff, lookup_insert_eq_some_iff, h.thread, RegistryValue.thread.injEq]
  · rcases lookup_insert_eq_some_iff.1 hc with ⟨-, heq⟩ | ⟨-, hc⟩
    · cases heq
    · exact h.held ref' c hc
  · rcases (AList.mem_insert _).1 hmem with heq | hmem
    · exact hzero heq.symm
    · exact h.zero hmem

/-- The end of a thread. -/
theorem Inv.eraseThread (h : b.Inv) (href : ref ∈ b.coroutines) :
    Inv { b with coroutines := b.coroutines.erase ref, registry := b.registry.erase ref } := by
  obtain ⟨chunk, hthread⟩ := exists_lookup href
  rw [h.thread] at hthread
  refine ⟨fun id ref' hid ↦ ?_, h.distinct, fun ref' c ↦ ?_, fun ref' c hc ↦ ?_, fun hmem ↦ ?_⟩
  · obtain ⟨c, hc⟩ := h.chunk id ref' hid
    refine ⟨c, lookup_erase_eq_some_iff.2 ⟨?_, hc⟩⟩
    rintro rfl
    cases hc.symm.trans hthread
  · rw [lookup_erase_eq_some_iff, lookup_erase_eq_some_iff, h.thread]
  · exact h.held ref' c (lookup_erase_eq_some_iff.1 hc).2
  · exact h.zero (AList.mem_erase.1 hmem).2

/-- The end of a chunk. -/
theorem Inv.eraseChunk (h : b.Inv) (hid : b.compiled.lookup id = some ref) :
    Inv { b with compiled := b.compiled.erase id, registry := b.registry.erase ref } := by
  obtain ⟨chunk, hchunk⟩ := h.chunk id ref hid
  refine ⟨fun id' ref' hid' ↦ ?_, fun id₁ id₂ ref' h₁ h₂ ↦ ?_, fun ref' c ↦ ?_, fun ref' c hc ↦ ?_,
    fun hmem ↦ ?_⟩
  · obtain ⟨hne, hkept⟩ := lookup_erase_eq_some_iff.1 hid'
    obtain ⟨c, hc⟩ := h.chunk id' ref' hkept
    refine ⟨c, lookup_erase_eq_some_iff.2 ⟨?_, hc⟩⟩
    rintro rfl
    exact hne (h.distinct id' id ref' hkept hid)
  · exact h.distinct id₁ id₂ ref' (lookup_erase_eq_some_iff.1 h₁).2
      (lookup_erase_eq_some_iff.1 h₂).2
  · rw [lookup_erase_eq_some_iff, h.thread, iff_and_self]
    rintro hc rfl
    cases hc.symm.trans hchunk
  · obtain ⟨hne, hc⟩ := lookup_erase_eq_some_iff.1 hc
    obtain ⟨id', hid'⟩ := h.held ref' c hc
    refine ⟨id', lookup_erase_eq_some_iff.2 ⟨?_, hid'⟩⟩
    rintro rfl
    exact hne (Option.some.inj (hid'.symm.trans hid))
  · exact h.zero (AList.mem_erase.1 hmem).2

theorem closeCoroutine_of_mem (h : b.Inv) (href : ref ∈ b.coroutines) :
    b.closeCoroutine ref = some { b with
      coroutines := b.coroutines.erase ref
      registry := b.registry.erase ref } := by
  obtain ⟨chunk, hthread⟩ := exists_lookup href
  rw [h.thread] at hthread
  rw [closeCoroutine, if_pos href, Registry.unref_of_mem (mem_of_lookup hthread), Option.map_some]

theorem removeCompiled_of_lookup (h : b.Inv) (hid : b.compiled.lookup id = some ref) :
    b.removeCompiled id = some { b with
      compiled := b.compiled.erase id
      registry := b.registry.erase ref } := by
  obtain ⟨chunk, hchunk⟩ := h.chunk id ref hid
  rw [removeCompiled, hid]
  dsimp only
  rw [Registry.unref_of_mem (mem_of_lookup hchunk), Option.map_some]

theorem createCoroutine_of_value (refs : RefSupply)
    (hvalue : b.valueOf id = some (.chunk chunk)) :
    b.createCoroutine refs id = (refs.newRef b.refCount b.registry, { b with
      refCount := b.refCount + 1
      coroutines := b.coroutines.insert (refs.newRef b.refCount b.registry) chunk
      registry := b.registry.insert (refs.newRef b.refCount b.registry) (.thread chunk) }) := by
  rw [createCoroutine, hvalue]

/-- Coroutines are closed one after the other, each once. -/
theorem exists_closeAll {handles : List ℕ} (h : b.Inv) (hnodup : handles.Nodup)
    (hmem : ∀ handle ∈ handles, handle ∈ b.coroutines) :
    ∃ b', handles.foldlM
      (fun b handle ↦ if handle ≠ 0 then b.closeCoroutine handle else some b) b = some b' ∧
      b'.Inv := by
  induction handles generalizing b with
  | nil => exact ⟨b, rfl, h⟩
  | cons handle handles ih =>
    obtain ⟨hnot, hnodup⟩ := List.nodup_cons.1 hnodup
    obtain ⟨hself, hrest⟩ := List.forall_mem_cons.1 hmem
    have hzero : handle ≠ 0 := by
      rintro rfl
      obtain ⟨chunk, hthread⟩ := exists_lookup hself
      exact h.zero (mem_of_lookup ((h.thread _ _).1 hthread))
    rw [List.foldlM_cons, if_pos hzero, closeCoroutine_of_mem h hself]
    exact ih (h.eraseThread hself) hnodup fun handle' hh ↦
      AList.mem_erase.2 ⟨fun heq ↦ hnot (heq ▸ hh), hrest handle' hh⟩

/-- Before a state is closed everything in it is given back, each reference once. -/
theorem reset_eq (h : b.Inv) : b.reset order = some { refCount := b.refCount } := by
  have hcompiled : ∀ ref ∈ order.visit (b.compiled.entries.map Sigma.snd),
      ∃ c, b.registry.lookup ref = some (.chunk c) := by
    intro ref hmem
    obtain ⟨id, hid⟩ := mem_values.1 ((order.perm _).mem_iff.1 hmem)
    exact h.chunk id ref hid
  obtain ⟨registry, hregistry, hlookup⟩ := Registry.exists_unrefAll
    ((order.perm _).nodup_iff.2 (nodup_values h.distinct)) fun ref hmem ↦
      mem_of_lookup (hcompiled ref hmem).choose_spec
  have hthreads : ∀ ref ∈ order.visit b.coroutines.keys, ref ∈ registry := by
    intro ref hmem
    obtain ⟨chunk, hthread⟩ := exists_lookup (AList.mem_keys.2 ((order.perm _).mem_iff.1 hmem))
    rw [h.thread] at hthread
    refine mem_of_lookup ((hlookup ref fun hmem' ↦ ?_).trans hthread)
    obtain ⟨c, hc⟩ := hcompiled ref hmem'
    cases hc.symm.trans hthread
  obtain ⟨registry', hregistry', -⟩ := Registry.exists_unrefAll
    ((order.perm _).nodup_iff.2 b.coroutines.keys_nodup) hthreads
  rw [reset, hregistry, Option.bind_eq_bind, Option.bind_some, hregistry']
  rfl

/-! What becomes of the values. -/

variable {id' : String}

theorem Inv.valueOf_insertChunk (h : b.Inv) (href : ref ∉ b.registry) :
    valueOf { b with
      refCount := b.refCount + 1
      compiled := b.compiled.insert id ref
      registry := b.registry.insert ref (.chunk chunk) } id' =
      if id' = id then some (.chunk chunk) else b.valueOf id' := by
  rw [valueOf, valueOf]
  split_ifs with heq
  · rw [heq, AList.lookup_insert, Option.bind_some, AList.lookup_insert]
  · rw [AList.lookup_insert_ne heq]
    refine Option.bind_congr fun ref' hid' ↦ AList.lookup_insert_ne ?_
    obtain ⟨c, hc⟩ := h.chunk id' ref' hid'
    exact fun heq ↦ href (heq ▸ mem_of_lookup hc)

theorem Inv.valueOf_insertThread (h : b.Inv) (href : ref ∉ b.registry) :
    valueOf { b with
      refCount := b.refCount + 1
      coroutines := b.coroutines.insert ref chunk
      registry := b.registry.insert ref (.thread chunk) } id' = b.valueOf id' := by
  refine Option.bind_congr fun ref' hid' ↦ AList.lookup_insert_ne ?_
  obtain ⟨c, hc⟩ := h.chunk id' ref' hid'
  exact fun heq ↦ href (heq ▸ mem_of_lookup hc)

theorem Inv.valueOf_eraseThread (h : b.Inv) (href : ref ∈ b.coroutines) :
    valueOf { b with
      coroutines := b.coroutines.erase ref
      registry := b.registry.erase ref } id' = b.valueOf id' := by
  obtain ⟨chunk, hthread⟩ := exists_lookup href
  rw [h.thread] at hthread
  refine Option.bind_congr fun ref' hid' ↦ AList.lookup_erase_ne ?_
  obtain ⟨c, hc⟩ := h.chunk id' ref' hid'
  rintro rfl
  cases hc.symm.trans hthread

theorem Inv.valueOf_eraseChunk (h : b.Inv) (hid : b.compiled.lookup id = some ref) :
    valueOf { b with
      compiled := b.compiled.erase id
      registry := b.registry.erase ref } id' = if id' = id then none else b.valueOf id' := by
  rw [valueOf, valueOf]
  split_ifs with heq
  · rw [heq, AList.lookup_erase, Option.bind_none]
  · rw [AList.lookup_erase_ne heq]
    refine Option.bind_congr fun ref' hid' ↦ AList.lookup_erase_ne ?_
    rintro rfl
    exact heq (h.distinct id' id ref' hid' hid)

end LuaBackend

/-! ### The engine keeps its references -/

theorem makeBackendId_inj {ref ref' : ℕ} (h : makeBackendId ref = makeBackendId ref') :
    ref = ref' := by
  have htext : ref.repr = ref'.repr := by
    simpa [makeBackendId, String.append_right_inj] using h
  exact Int.ofNat_inj.1 (toString_int_inj.1 htext)

namespace EngineTables

/-- Every reference has one id, every handle one reference, and the backend holds nothing else. -/
structure Inv (t : EngineTables) : Prop where
  backend : t.backend.Inv
  ids : ∀ ref id, t.refToBackendId.lookup ref = some id → id = makeBackendId ref
  compiled : ∀ id, id ∈ t.backend.compiled ↔ ∃ ref ∈ t.refToBackendId, id = makeBackendId ref
  below : ∀ ref ∈ t.refToBackendId, ref < t.nextRefId
  handles : ∀ ref handle, t.coroutineHandles.lookup ref = some handle →
    handle ∈ t.backend.coroutines ∧ ref < t.nextRefId
  distinct : ∀ ref ref' handle, t.coroutineHandles.lookup ref = some handle →
    t.coroutineHandles.lookup ref' = some handle → ref = ref'
  owned : ∀ handle ∈ t.backend.coroutines, ∃ ref, t.coroutineHandles.lookup ref = some handle
  flags : ∀ ref, ref ∈ t.coroutineRegistry ↔ ref ∈ t.coroutineHandles

variable {lib : LuaLibrary} {refs : RefSupply} {order : HashOrder ℕ} {t t' : EngineTables}
  {ref slot n : ℕ} {chunk : Chunk}

/-- Tables without references. -/
theorem inv_of_empty (hids : t.refToBackendId = ∅) (hflags : t.coroutineRegistry = ∅)
    (hhandles : t.coroutineHandles = ∅) (hbackend : t.backend = { refCount := n }) : t.Inv where
  backend := hbackend ▸ LuaBackend.inv_empty n
  ids _ _ h := by rw [hids] at h; cases h
  compiled id := by
    rw [hids, hbackend]
    exact iff_of_false (AList.notMem_empty id) fun ⟨ref, hmem, _⟩ ↦ AList.notMem_empty ref hmem
  below ref h := absurd (hids ▸ h) (AList.notMem_empty ref)
  handles _ _ h := by rw [hhandles] at h; cases h
  distinct _ _ _ h := by rw [hhandles] at h; cases h
  owned handle h := absurd (hbackend ▸ h) (AList.notMem_empty handle)
  flags ref := by rw [hflags, hhandles]; exact Iff.rfl

theorem Inv.notMem_compiled (h : t.Inv) : makeBackendId t.nextRefId ∉ t.backend.compiled := by
  intro hmem
  obtain ⟨ref, href, heq⟩ := (h.compiled _).1 hmem
  exact lt_irrefl _ (makeBackendId_inj heq ▸ h.below ref href)

theorem Inv.threadAt_eq (h : t.Inv) :
    t.threadAt ref =
      (t.coroutineHandles.lookup ref).bind (AList.lookup · t.backend.coroutines) := by
  rw [threadAt]
  rcases hhandle : t.coroutineHandles.lookup ref with - | handle
  · rfl
  · obtain ⟨hmem, -⟩ := h.handles ref handle hhandle
    obtain ⟨chunk, hthread⟩ := exists_lookup hmem
    rw [h.backend.thread] at hthread
    have hzero : handle ≠ 0 := fun heq ↦ h.backend.zero (heq ▸ mem_of_lookup hthread)
    exact if_pos ⟨hzero, (h.flags ref).2 (mem_of_lookup hhandle)⟩

/-- The tables when the next reference has a chunk. -/
def addChunk (t : EngineTables) (slot : ℕ) (chunk : Chunk) : EngineTables :=
  { t with
    nextRefId := t.nextRefId + 1
    refToBackendId := t.refToBackendId.insert t.nextRefId (makeBackendId t.nextRefId)
    backend := { t.backend with
      refCount := t.backend.refCount + 1
      compiled := t.backend.compiled.insert (makeBackendId t.nextRefId) slot
      registry := t.backend.registry.insert slot (.chunk chunk) } }

theorem Inv.addChunk (h : t.Inv) (hslot : slot ∉ t.backend.registry) (hzero : slot ≠ 0)
    (chunk : Chunk) : (t.addChunk slot chunk).Inv where
  backend := h.backend.insertChunk h.notMem_compiled hslot hzero chunk
  ids ref id hid := by
    rcases lookup_insert_eq_some_iff.1 hid with ⟨rfl, rfl⟩ | ⟨-, hid⟩
    · rfl
    · exact h.ids ref id hid
  compiled id := by
    have hmem : id ∈ (t.addChunk slot chunk).backend.compiled ↔
        id = makeBackendId t.nextRefId ∨ id ∈ t.backend.compiled := AList.mem_insert _
    rw [hmem, h.compiled]
    constructor
    · rintro (rfl | ⟨ref, href, rfl⟩)
      · exact ⟨_, (AList.mem_insert _).2 (.inl rfl), rfl⟩
      · exact ⟨ref, (AList.mem_insert _).2 (.inr href), rfl⟩
    · rintro ⟨ref, href, rfl⟩
      rcases (AList.mem_insert _).1 href with rfl | href
      · exact .inl rfl
      · exact .inr ⟨ref, href, rfl⟩
  below ref href := by
    rcases (AList.mem_insert _).1 href with rfl | href
    · exact Nat.lt_succ_self _
    · exact Nat.lt_succ_of_lt (h.below ref href)
  handles ref handle hh :=
    ⟨(h.handles ref handle hh).1, Nat.lt_succ_of_lt (h.handles ref handle hh).2⟩
  distinct := h.distinct
  owned := h.owned
  flags := h.flags

theorem Inv.chunkAt_addChunk (h : t.Inv) (hslot : slot ∉ t.backend.registry) (chunk : Chunk) :
    (t.addChunk slot chunk).chunkAt = Function.update t.chunkAt t.nextRefId (some chunk) := by
  funext ref
  rw [chunkAt, EngineTables.addChunk]
  rcases eq_or_ne ref t.nextRefId with rfl | hne
  · rw [AList.lookup_insert, Option.bind_some, h.backend.valueOf_insertChunk hslot, if_pos rfl,
      Function.update_self]
  · rw [AList.lookup_insert_ne hne, Function.update_of_ne hne, chunkAt]
    have hvalues : ∀ id ∈ t.refToBackendId.lookup ref, LuaBackend.valueOf
        { t.backend with
          refCount := t.backend.refCount + 1
          compiled := t.backend.compiled.insert (makeBackendId t.nextRefId) slot
          registry := t.backend.registry.insert slot (.chunk chunk) } id =
        t.backend.valueOf id := by
      intro id hid
      rw [h.backend.valueOf_insertChunk hslot, if_neg]
      rintro rfl
      exact hne (makeBackendId_inj (h.ids ref _ hid)).symm
    rw [Option.bind_congr hvalues]

/-- The tables when a reference has a thread. -/
def addThread (t : EngineTables) (ref slot : ℕ) (chunk : Chunk) : EngineTables :=
  { t with
    coroutineRegistry := t.coroutineRegistry.insert ref true
    coroutineHandles := t.coroutineHandles.insert ref slot
    backend := { t.backend with
      refCount := t.backend.refCount + 1
      coroutines := t.backend.coroutines.insert slot chunk
      registry := t.backend.registry.insert slot (.thread chunk) } }

theorem Inv.notMem_coroutines (h : t.Inv) (hslot : slot ∉ t.backend.registry) :
    slot ∉ t.backend.coroutines := by
  intro hmem
  obtain ⟨chunk, hthread⟩ := exists_lookup hmem
  exact hslot (mem_of_lookup ((h.backend.thread _ _).1 hthread))

theorem Inv.addThread (h : t.Inv) (hslot : slot ∉ t.backend.registry) (hzero : slot ≠ 0)
    (hnot : ref ∉ t.coroutineHandles) (hlt : ref < t.nextRefId) (chunk : Chunk) :
    (t.addThread ref slot chunk).Inv where
  backend := h.backend.insertThread hslot hzero chunk
  ids := h.ids
  compiled := h.compiled
  below := h.below
  handles ref' handle hh := by
    rcases lookup_insert_eq_some_iff.1 hh with ⟨rfl, rfl⟩ | ⟨-, hold⟩
    · exact ⟨(AList.mem_insert _).2 (.inl rfl), hlt⟩
    · obtain ⟨hmem, hlt'⟩ := h.handles ref' handle hold
      exact ⟨(AList.mem_insert _).2 (.inr hmem), hlt'⟩
  distinct ref₁ ref₂ handle h₁ h₂ := by
    have hnew : ∀ ref', t.coroutineHandles.lookup ref' ≠ some slot := fun ref' hh ↦
      h.notMem_coroutines hslot (h.handles ref' slot hh).1
    rcases lookup_insert_eq_some_iff.1 h₁ with ⟨rfl, hs₁⟩ | ⟨-, hold₁⟩ <;>
      rcases lookup_insert_eq_some_iff.1 h₂ with ⟨rfl, hs₂⟩ | ⟨-, hold₂⟩
    · rfl
    · exact absurd (hs₁ ▸ hold₂) (hnew ref₂)
    · exact absurd (hs₂ ▸ hold₁) (hnew ref₁)
    · exact h.distinct ref₁ ref₂ handle hold₁ hold₂
  owned handle hmem := by
    rcases (AList.mem_insert _).1 hmem with rfl | hmem
    · exact ⟨ref, AList.lookup_insert _⟩
    · obtain ⟨ref', href⟩ := h.owned handle hmem
      have hne : ref' ≠ ref := fun heq ↦ hnot (heq ▸ mem_of_lookup href)
      exact ⟨ref', lookup_insert_eq_some_iff.2 (.inr ⟨hne, href⟩)⟩
  flags ref' := by
    have hflag : ref' ∈ (t.addThread ref slot chunk).coroutineRegistry ↔
        ref' = ref ∨ ref' ∈ t.coroutineRegistry := AList.mem_insert _
    rw [hflag, h.flags]
    exact (AList.mem_insert _).symm

theorem Inv.chunkAt_addThread (h : t.Inv) (hslot : slot ∉ t.backend.registry) :
    (t.addThread ref slot chunk).chunkAt = t.chunkAt := by
  funext ref'
  have hvalues : ∀ id ∈ t.refToBackendId.lookup ref',
      (t.addThread ref slot chunk).backend.valueOf id = t.backend.valueOf id :=
    fun id _ ↦ h.backend.valueOf_insertThread hslot
  rw [chunkAt, chunkAt, ← Option.bind_congr hvalues]
  rfl

theorem Inv.threadAt_addThread (h : t.Inv) (h' : (t.addThread ref slot chunk).Inv)
    (hslot : slot ∉ t.backend.registry) :
    (t.addThread ref slot chunk).threadAt = Function.update t.threadAt ref (some chunk) := by
  funext ref'
  rw [h'.threadAt_eq, EngineTables.addThread]
  rcases eq_or_ne ref' ref with rfl | hne
  · rw [AList.lookup_insert, Option.bind_some, AList.lookup_insert, Function.update_self]
  · rw [AList.lookup_insert_ne hne, Function.update_of_ne hne, h.threadAt_eq]
    refine Option.bind_congr fun handle hh ↦ AList.lookup_insert_ne ?_
    rintro rfl
    exact h.notMem_coroutines hslot (h.handles ref' _ hh).1

/-- The tables when a reference has no chunk any more. -/
def removeChunk (t : EngineTables) (ref slot : ℕ) : EngineTables :=
  { t with
    refToBackendId := t.refToBackendId.erase ref
    backend := { t.backend with
      compiled := t.backend.compiled.erase (makeBackendId ref)
      registry := t.backend.registry.erase slot } }

theorem Inv.removeChunk (h : t.Inv)
    (hslot : t.backend.compiled.lookup (makeBackendId ref) = some slot) :
    (t.removeChunk ref slot).Inv where
  backend := h.backend.eraseChunk hslot
  ids ref' id hid := h.ids ref' id (lookup_erase_eq_some_iff.1 hid).2
  compiled id := by
    have hmem : id ∈ (t.removeChunk ref slot).backend.compiled ↔
        id ≠ makeBackendId ref ∧ id ∈ t.backend.compiled := AList.mem_erase
    rw [hmem, h.compiled]
    constructor
    · rintro ⟨hne, ref', href, rfl⟩
      exact ⟨ref', AList.mem_erase.2 ⟨fun heq ↦ hne (heq ▸ rfl), href⟩, rfl⟩
    · rintro ⟨ref', href, rfl⟩
      obtain ⟨hne, href⟩ := AList.mem_erase.1 href
      exact ⟨fun heq ↦ hne (makeBackendId_inj heq), ref', href, rfl⟩
  below ref' href := h.below ref' (AList.mem_erase.1 href).2
  handles := h.handles
  distinct := h.distinct
  owned := h.owned
  flags := h.flags

theorem Inv.chunkAt_removeChunk (h : t.Inv)
    (hslot : t.backend.compiled.lookup (makeBackendId ref) = some slot) :
    (t.removeChunk ref slot).chunkAt = Function.update t.chunkAt ref none := by
  funext ref'
  rw [chunkAt, EngineTables.removeChunk]
  rcases eq_or_ne ref' ref with rfl | hne
  · rw [AList.lookup_erase, Option.bind_none, Function.update_self]
  · rw [AList.lookup_erase_ne hne, Function.update_of_ne hne, chunkAt]
    have hvalues : ∀ id ∈ t.refToBackendId.lookup ref', LuaBackend.valueOf
        { t.backend with
          compiled := t.backend.compiled.erase (makeBackendId ref)
          registry := t.backend.registry.erase slot } id = t.backend.valueOf id := by
      intro id hid
      rw [h.backend.valueOf_eraseChunk hslot, if_neg]
      rintro rfl
      exact hne (makeBackendId_inj (h.ids ref' _ hid)).symm
    rw [Option.bind_congr hvalues]

/-- The tables when a reference has no thread any more. -/
def removeThread (t : EngineTables) (ref handle : ℕ) : EngineTables :=
  { t with
    coroutineRegistry := t.coroutineRegistry.erase ref
    coroutineHandles := t.coroutineHandles.erase ref
    backend := { t.backend with
      coroutines := t.backend.coroutines.erase handle
      registry := t.backend.registry.erase handle } }

theorem Inv.removeThread {handle : ℕ} (h : t.Inv)
    (hhandle : t.coroutineHandles.lookup ref = some handle) :
    (t.removeThread ref handle).Inv where
  backend := h.backend.eraseThread (h.handles ref handle hhandle).1
  ids := h.ids
  compiled := h.compiled
  below := h.below
  handles ref' handle' hh := by
    obtain ⟨hne, hold⟩ := lookup_erase_eq_some_iff.1 hh
    obtain ⟨hmem, hlt⟩ := h.handles ref' handle' hold
    refine ⟨AList.mem_erase.2 ⟨?_, hmem⟩, hlt⟩
    rintro rfl
    exact hne (h.distinct ref' ref _ hold hhandle)
  distinct ref₁ ref₂ handle' h₁ h₂ := h.distinct ref₁ ref₂ handle'
    (lookup_erase_eq_some_iff.1 h₁).2 (lookup_erase_eq_some_iff.1 h₂).2
  owned handle' hmem := by
    obtain ⟨hne, hmem⟩ := AList.mem_erase.1 hmem
    obtain ⟨ref', href⟩ := h.owned handle' hmem
    refine ⟨ref', lookup_erase_eq_some_iff.2 ⟨?_, href⟩⟩
    rintro rfl
    exact hne (Option.some.inj (href.symm.trans hhandle))
  flags ref' := by
    have hflag : ref' ∈ (t.removeThread ref handle).coroutineRegistry ↔
        ref' ≠ ref ∧ ref' ∈ t.coroutineRegistry := AList.mem_erase
    rw [hflag, h.flags]
    exact AList.mem_erase.symm

theorem Inv.chunkAt_removeThread {handle : ℕ} (h : t.Inv)
    (hhandle : t.coroutineHandles.lookup ref = some handle) :
    (t.removeThread ref handle).chunkAt = t.chunkAt := by
  funext ref'
  have hvalues : ∀ id ∈ t.refToBackendId.lookup ref',
      (t.removeThread ref handle).backend.valueOf id = t.backend.valueOf id :=
    fun id _ ↦ h.backend.valueOf_eraseThread (h.handles ref handle hhandle).1
  rw [chunkAt, chunkAt, ← Option.bind_congr hvalues]
  rfl

theorem Inv.threadAt_removeThread {handle : ℕ} (h : t.Inv)
    (hhandle : t.coroutineHandles.lookup ref = some handle) :
    (t.removeThread ref handle).threadAt = Function.update t.threadAt ref none := by
  funext ref'
  rw [(h.removeThread hhandle).threadAt_eq, EngineTables.removeThread]
  rcases eq_or_ne ref' ref with rfl | hne
  · rw [AList.lookup_erase, Option.bind_none, Function.update_self]
  · rw [AList.lookup_erase_ne hne, Function.update_of_ne hne, h.threadAt_eq]
    refine Option.bind_congr fun handle' hh ↦ AList.lookup_erase_ne ?_
    rintro rfl
    exact hne (h.distinct ref' ref _ hh hhandle)

/-- A number that is used up for nothing. -/
theorem Inv.skip (h : t.Inv) : Inv { t with nextRefId := t.nextRefId + 1 } where
  backend := h.backend
  ids := h.ids
  compiled := h.compiled
  below ref href := Nat.lt_succ_of_lt (h.below ref href)
  handles ref handle hh :=
    ⟨(h.handles ref handle hh).1, Nat.lt_succ_of_lt (h.handles ref handle hh).2⟩
  distinct := h.distinct
  owned := h.owned
  flags := h.flags

/-! ### Calls -/

/-- The references as the tables describe them. -/
def references (t : EngineTables) : LiveReferences :=
  { t.view with coroutines := t.threadAt }

/-- A call comes back with the answer of the references, and leaves their tables. -/
def Follows {α : Type} (x : Option (α × EngineTables)) (y : α × LiveReferences) : Prop :=
  ∃ t', x = some (y.1, t') ∧ t'.Inv ∧ t'.references = y.2

theorem resetState_spec (h : t.Inv) (order : HashOrder ℕ) :
    ∃ t', t.resetState order = some t' ∧ t'.Inv ∧ t'.references = t.references.resetState := by
  have hmem : ∀ handle ∈ order.visit (t.coroutineHandles.entries.map Sigma.snd),
      handle ∈ t.backend.coroutines := by
    intro handle hmem
    obtain ⟨ref, href⟩ := mem_values.1 ((order.perm _).mem_iff.1 hmem)
    exact (h.handles ref handle href).1
  obtain ⟨b, hclose, hb⟩ := LuaBackend.exists_closeAll h.backend
    ((order.perm _).nodup_iff.2 (nodup_values h.distinct)) hmem
  refine ⟨{
    generation := t.generation + 1
    maxExpressionLength := t.maxExpressionLength
    autoResetThresholdKB := t.autoResetThresholdKB
    backend := { refCount := b.refCount } }, ?_, inv_of_empty rfl rfl rfl rfl, rfl⟩
  rw [resetState, hclose, Option.bind_eq_bind, Option.bind_some, LuaBackend.reset_eq hb]
  rfl

theorem autoReset_spec (h : t.Inv) (memKB : ℕ) :
    ∃ t', t.autoReset order memKB = some t' ∧ t'.Inv ∧
      t'.references = t.references.autoReset memKB := by
  have hsame : t.references.autoResetThresholdKB = t.autoResetThresholdKB := rfl
  rw [autoReset, LiveReferences.autoReset, hsame]
  split_ifs
  · exact resetState_spec h order
  · exact ⟨t, rfl, h, rfl⟩

theorem register_spec (h : t.Inv) (chunk : Chunk) :
    Follows (t.register lib refs chunk) (t.references.register lib chunk) := by
  rw [Follows, register, LiveReferences.register, LuaEngine.register]
  rcases hload : lib.load chunk with message | ⟨⟩
  · rw [LuaBackend.compile_error hload]
    exact ⟨_, rfl, h.skip, rfl⟩
  · rw [LuaBackend.compile_ok hload h.notMem_compiled]
    refine ⟨t.addChunk (refs.newRef t.backend.refCount t.backend.registry) chunk, rfl,
      h.addChunk (refs.fresh _ _) (refs.ne_zero _ _) chunk, ?_⟩
    rw [references, view, h.chunkAt_addChunk (refs.fresh _ _)]
    rfl

theorem compileExpression_spec (h : t.Inv) (memKB : ℕ) (source : String) :
    Follows (t.compileExpression lib refs order memKB source)
      (t.references.compileExpression lib memKB source) := by
  have hexceeds : t.references.exceeds source = t.view.exceeds source := rfl
  rw [compileExpression, LiveReferences.compileExpression, hexceeds]
  split_ifs
  · exact ⟨t, rfl, h, rfl⟩
  · exact ⟨t, rfl, h, rfl⟩
  · obtain ⟨t', hreset, h', hrefs⟩ := autoReset_spec h memKB
    rw [hreset, Option.bind_some, ← hrefs]
    exact register_spec h' _

theorem compileAction_spec (h : t.Inv) (memKB : ℕ) (source : String) :
    Follows (t.compileAction lib refs order memKB source)
      (t.references.compileAction lib memKB source) := by
  have hexceeds : t.references.exceeds source = t.view.exceeds source := rfl
  rw [compileAction, LiveReferences.compileAction, hexceeds]
  split_ifs
  · exact ⟨t, rfl, h, rfl⟩
  · exact ⟨t, rfl, h, rfl⟩
  · obtain ⟨t', hreset, h', hrefs⟩ := autoReset_spec h memKB
    rw [hreset, Option.bind_some, ← hrefs]
    exact register_spec h' _

theorem registerCoroutine_spec (h : t.Inv) (chunk : Chunk) :
    Follows (t.registerCoroutine lib refs chunk) (t.references.registerCoroutine lib chunk) := by
  rw [Follows, registerCoroutine, LiveReferences.registerCoroutine]
  rcases hload : lib.load chunk with message | ⟨⟩
  · rw [LuaBackend.compile_error hload]
    exact ⟨_, rfl, h.skip, rfl⟩
  · rw [LuaBackend.compile_ok hload h.notMem_compiled]
    -- The function has got its reference; the thread gets the next one.
    have hchunk := refs.fresh t.backend.refCount t.backend.registry
    have h₁ := h.addChunk hchunk (refs.ne_zero _ _) chunk
    have hvalue : (t.addChunk (refs.newRef t.backend.refCount t.backend.registry)
        chunk).backend.valueOf (makeBackendId t.nextRefId) = some (.chunk chunk) :=
      (h.backend.valueOf_insertChunk hchunk).trans (if_pos rfl)
    have hcreate := LuaBackend.createCoroutine_of_value refs hvalue
    dsimp only [EngineTables.addChunk] at hcreate
    have hthread := refs.fresh (t.backend.refCount + 1)
      (t.addChunk (refs.newRef t.backend.refCount t.backend.registry) chunk).backend.registry
    have hne := refs.ne_zero (t.backend.refCount + 1)
      (t.addChunk (refs.newRef t.backend.refCount t.backend.registry) chunk).backend.registry
    have hnot : t.nextRefId ∉ t.coroutineHandles := by
      intro hmem
      obtain ⟨handle, hhandle⟩ := exists_lookup hmem
      exact lt_irrefl _ (h.handles _ handle hhandle).2
    have h₂ := h₁.addThread hthread hne hnot (Nat.lt_succ_self _) chunk
    refine ⟨_, ?_, h₂, ?_⟩
    · rw [Option.bind_eq_bind, Option.bind_some]
      dsimp only
      rw [hcreate]
      exact if_neg hne
    · rw [references, view, h₁.chunkAt_addThread hthread, h.chunkAt_addChunk hchunk,
        h₁.threadAt_addThread h₂ hthread]
      rfl

theorem compileCoroutine_spec (h : t.Inv) (memKB : ℕ) (source : String) :
    Follows (t.compileCoroutine lib refs order memKB source)
      (t.references.compileCoroutine lib memKB source) := by
  rw [compileCoroutine, LiveReferences.compileCoroutine]
  split_ifs
  · exact ⟨t, rfl, h, rfl⟩
  · obtain ⟨t', hreset, h', hrefs⟩ := autoReset_spec h memKB
    rw [hreset, Option.bind_some, ← hrefs]
    exact registerCoroutine_spec h' _

theorem releaseChunk_spec (h : t.Inv) (ref : ℕ) :
    ∃ t', t.releaseChunk ref = some t' ∧ t'.Inv ∧
      t'.references = { t.references with chunks := Function.update t.chunkAt ref none } := by
  rcases hid : t.refToBackendId.lookup ref with - | id
  · have hnone : t.chunkAt ref = none := by
      rw [chunkAt, hid, Option.bind_none]
    refine ⟨t, by rw [releaseChunk, hid], h, ?_⟩
    rw [← hnone, Function.update_eq_self]
    rfl
  · obtain rfl := h.ids ref id hid
    obtain ⟨slot, hslot⟩ := exists_lookup ((h.compiled _).2 ⟨ref, mem_of_lookup hid, rfl⟩)
    refine ⟨t.removeChunk ref slot, ?_, h.removeChunk hslot, ?_⟩
    · rw [releaseChunk, hid]
      dsimp only
      rw [LuaBackend.removeCompiled_of_lookup h.backend hslot]
      rfl
    · rw [references, view, h.chunkAt_removeChunk hslot]
      rfl

/-- The flag goes with the thread. -/
theorem releaseThread_spec (h : t.Inv) (ref : ℕ) :
    ∃ t', t.releaseThread ref = some t' ∧
      Inv { t' with coroutineRegistry := t'.coroutineRegistry.erase ref } ∧
      references { t' with coroutineRegistry := t'.coroutineRegistry.erase ref } =
        { t.references with coroutines := Function.update t.threadAt ref none } := by
  rcases hhandle : t.coroutineHandles.lookup ref with - | handle
  · have hnone : t.threadAt ref = none := by
      rw [threadAt, hhandle]
    have hflag : t.coroutineRegistry.erase ref = t.coroutineRegistry := by
      refine AList.ext (List.kerase_of_notMem_keys fun hmem ↦ ?_)
      exact AList.lookup_eq_none.1 hhandle ((h.flags ref).1 hmem)
    refine ⟨t, by rw [releaseThread, hhandle], ?_, ?_⟩
    · rwa [hflag]
    · rw [hflag, ← hnone, Function.update_eq_self]
      rfl
  · have hmem := (h.handles ref handle hhandle).1
    have hzero : handle ≠ 0 := by
      rintro rfl
      obtain ⟨chunk, hthread⟩ := exists_lookup hmem
      exact h.backend.zero (mem_of_lookup ((h.backend.thread _ _).1 hthread))
    refine ⟨{ t with
      coroutineHandles := t.coroutineHandles.erase ref
      backend := (t.removeThread ref handle).backend }, ?_, h.removeThread hhandle, ?_⟩
    · rw [releaseThread, hhandle]
      dsimp only
      rw [if_pos hzero, LuaBackend.closeCoroutine_of_mem h.backend hmem]
      rfl
    · show (t.removeThread ref handle).references = _
      rw [references, view, h.chunkAt_removeThread hhandle, h.threadAt_removeThread hhandle]
      rfl

theorem releaseRef_spec (h : t.Inv) (ref : ℕ) :
    ∃ t', t.releaseRef ref = some t' ∧ t'.Inv ∧ t'.references = t.references.releaseRef ref := by
  obtain ⟨t₁, hchunk, h₁, hrefs₁⟩ := releaseChunk_spec h ref
  obtain ⟨t₂, hthread, h₂, hrefs₂⟩ := releaseThread_spec h₁ ref
  refine ⟨_, ?_, h₂, ?_⟩
  · rw [releaseRef, hchunk, Option.bind_eq_bind, Option.bind_some, hthread]
    rfl
  · have hthreads : t₁.threadAt = t.threadAt := congrArg LiveReferences.coroutines hrefs₁
    rw [hrefs₂, hrefs₁, hthreads]
    rfl

/-- One call. -/
theorem call_spec (h : t.Inv) (call : ReferenceCall) :
    Follows (t.call lib refs order call) (t.references.call lib call) := by
  cases call with
  | compileExpression memKB source => exact compileExpression_spec h memKB source
  | compileAction memKB source => exact compileAction_spec h memKB source
  | compileCoroutine memKB source => exact compileCoroutine_spec h memKB source
  | releaseRef ref =>
    obtain ⟨t', hrelease, h', hrefs⟩ := releaseRef_spec h ref
    exact ⟨t', by rw [call, hrelease, Option.map_some]; rfl, h', hrefs⟩
  | resetState =>
    obtain ⟨t', hreset, h', hrefs⟩ := resetState_spec h order
    exact ⟨t', by rw [call, hreset, Option.map_some]; rfl, h', hrefs⟩

theorem run_spec (h : t.Inv) (calls : List ReferenceCall) :
    Follows (t.run lib refs order calls) (t.references.run lib calls) := by
  induction calls generalizing t with
  | nil => exact ⟨t, rfl, h, rfl⟩
  | cons call calls ih =>
    have hfollows : Follows (t.call lib refs order call) (t.references.call lib call) :=
      call_spec h call
    obtain ⟨t₁, hcall, h₁, hrefs₁⟩ := hfollows
    obtain ⟨t₂, hrun, h₂, hrefs₂⟩ := ih h₁
    rw [hrefs₁] at hrun hrefs₂
    refine ⟨t₂, ?_, h₂, hrefs₂⟩
    rw [run, hcall, Option.bind_some]
    dsimp only
    rw [hrun, Option.map_some]
    rfl

/-- Everything in the registry is there for one reference. -/
theorem Inv.existsUnique_holds (h : t.Inv) (slot : ℕ) (value : RegistryValue) :
    t.backend.registry.lookup slot = some value ↔ ∃! ref, t.Holds ref slot value := by
  cases value with
  | chunk chunk =>
    constructor
    · intro hvalue
      obtain ⟨id, hslot⟩ := h.backend.held slot chunk hvalue
      obtain ⟨ref, hmem, rfl⟩ := (h.compiled id).1 (mem_of_lookup hslot)
      obtain ⟨id, hid⟩ := exists_lookup hmem
      obtain rfl := h.ids ref id hid
      refine ⟨ref, ⟨?_, ?_⟩, ?_⟩
      · rw [chunkAt, hid, Option.bind_some, LuaBackend.valueOf, hslot, Option.bind_some, hvalue]
      · rw [hid, Option.bind_some, hslot]
      · rintro ref' ⟨-, hslot'⟩
        obtain ⟨id', hid', hslot'⟩ := Option.bind_eq_some_iff.1 hslot'
        have hsame := h.backend.distinct id' _ slot hslot' hslot
        rw [h.ids ref' id' hid'] at hsame
        exact makeBackendId_inj hsame
    · rintro ⟨ref, ⟨hchunk, hslot⟩, -⟩
      obtain ⟨id, hid, hslot⟩ := Option.bind_eq_some_iff.1 hslot
      obtain ⟨chunk', hvalue⟩ := h.backend.chunk id slot hslot
      rw [chunkAt, hid, Option.bind_some, LuaBackend.valueOf, hslot, Option.bind_some,
        hvalue] at hchunk
      rw [hvalue, Option.some.inj hchunk]
  | thread chunk =>
    constructor
    · intro hvalue
      rw [← h.backend.thread] at hvalue
      obtain ⟨ref, href⟩ := h.owned slot (mem_of_lookup hvalue)
      refine ⟨ref, ⟨?_, href⟩, fun ref' ⟨_, href'⟩ ↦ h.distinct ref' ref slot href' href⟩
      rw [h.threadAt_eq, href, Option.bind_some, hvalue]
    · rintro ⟨ref, ⟨hthread, href⟩, -⟩
      rw [h.threadAt_eq, href, Option.bind_some] at hthread
      exact (h.backend.thread slot chunk).1 hthread

/-- The number of a reference is used again after a reset. -/
example : (run ⟨fun _ ↦ ⟨true, [], []⟩, fun _ ↦ .ok (), fun _ ↦ 0⟩ .ascending (.insertion ℕ) {}
    [.compileCoroutine 0 "f()", .compileAction 0 "", .resetState, .compileAction 0 "g()",
      .releaseRef 7]).map (fun (answers, t) ↦ (answers, t.chunkAt 1, t.backend.registry.keys)) =
    some ([.ok (some 1), .ok none, .ok none, .ok (some 1), .ok none],
      some ⟨.action, "g()"⟩, [1]) := by
  rfl

end EngineTables

end FastRules
