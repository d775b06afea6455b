import FastRules.Memory.ObjectPool
import FastRules.Rule.Result

/-!
# The memory manager

`MemoryManager` pools contexts and vectors of results. It clears a context that is released to it,
but `RuleContext::clear` keeps the last error: whoever gets the context next can read it. So a
context comes out of the pool as new exactly if its last holder has left no error in it
(`contexts_fresh_iff`).
-/

namespace FastRules

/-! ### Contexts -/

/-- A `RuleContext` with its variables. -/
structure PooledContext extends RuleContext where
  /-- `variables_`. The values can be empty. -/
  vars : String → Option (Option AnyValue) := fun _ ↦ none

namespace PooledContext

variable (c : PooledContext)

def setResult (ruleName : String) (result : RuleResult) : PooledContext :=
  { c with results := Function.update c.results ruleName (some result) }

def getResult (ruleName : String) : Option RuleResult :=
  c.results ruleName

def hasResult (ruleName : String) : Bool :=
  (c.results ruleName).isSome

def setVariable (name : String) (value : Option AnyValue) : PooledContext :=
  { c with vars := Function.update c.vars name (some value) }

def getVariable (name : String) : Option (Option AnyValue) :=
  c.vars name

/-- `RuleContext::clear`, which keeps the last error. -/
def clear : PooledContext :=
  { c with results := fun _ ↦ none, vars := fun _ ↦ none }

def setLastError (ruleName error : String) : PooledContext :=
  { c with lastError := some (ruleName, error) }

def getLastError : Option (String × String) :=
  c.lastError

def clearLastError : PooledContext :=
  { c with lastError := none }

/-- Nobody can tell the two contexts apart. -/
structure LooksLike (d : PooledContext) : Prop where
  getResult : ∀ ruleName, c.getResult ruleName = d.getResult ruleName
  hasResult : ∀ ruleName, c.hasResult ruleName = d.hasResult ruleName
  getVariable : ∀ name, c.getVariable name = d.getVariable name
  getLastError : c.getLastError = d.getLastError

theorem LooksLike.refl : c.LooksLike c :=
  ⟨fun _ ↦ rfl, fun _ ↦ rfl, fun _ ↦ rfl, rfl⟩

/-- Clearing makes a context as new if there is no last error. -/
theorem clear_looksLike_new : c.clear.LooksLike {} ↔ c.getLastError = none :=
  ⟨fun h ↦ h.getLastError, fun h ↦ ⟨fun _ ↦ rfl, fun _ ↦ rfl, fun _ ↦ rfl, h⟩⟩

end PooledContext

/-- What a holder does to a context. -/
inductive ContextCall
  | setResult (ruleName : String) (result : RuleResult)
  | setVariable (name : String) (value : Option AnyValue)
  | setLastError (ruleName error : String)
  | clearLastError
  | clear
  /-- The context becomes a copy of another one. -/
  | assign (other : PooledContext)

def ContextCall.run (c : PooledContext) : ContextCall → PooledContext
  | .setResult ruleName result => c.setResult ruleName result
  | .setVariable name value => c.setVariable name value
  | .setLastError ruleName error => c.setLastError ruleName error
  | .clearLastError => c.clearLastError
  | .clear => c.clear
  | .assign other => other

/-! ### The manager -/

/-- A `MemoryManager`. -/
structure MemoryManager where
  contextPool : MemoryPool PooledContext := { maxSize := 1000 }
  resultVectorPool : VectorPool RuleResult := { maxSize := 1000 }

namespace MemoryManager

/-- The capacity of new vectors. -/
def initialCapacity : UInt64 :=
  10

variable (m : MemoryManager)

def acquireContext (fresh : UInt64) : Owned PooledContext × MemoryManager :=
  let (context, contextPool) := m.contextPool.acquire {} fresh
  (context, { m with contextPool })

/-- `releaseContext`, also of a null pointer. -/
def releaseContext : Option (Owned PooledContext) → MemoryManager
  | none => m
  | some context =>
    { m with
      contextPool := m.contextPool.release {}
        (some { context with object := context.object.clear }) }

def acquireResultVector (fresh : UInt64) : Owned (RoomyVector RuleResult) × MemoryManager :=
  let (results, resultVectorPool) := m.resultVectorPool.acquire initialCapacity fresh
  (results, { m with resultVectorPool })

def releaseResultVector (results : Option (Owned (RoomyVector RuleResult))) : MemoryManager :=
  { m with resultVectorPool := m.resultVectorPool.release initialCapacity results }

def preallocate (freshContexts freshVectors : ℕ → UInt64) : MemoryManager where
  contextPool := m.contextPool.preallocate {} freshContexts 100
  resultVectorPool := m.resultVectorPool.preallocate initialCapacity freshVectors 100

end MemoryManager

/-! ### The holders of the contexts -/

/-- A manager with the contexts that are held. -/
structure ContextHolders where
  manager : MemoryManager := {}
  held : List (Owned PooledContext) := []
  /-- What the last holders of the pooled contexts have left in them, for each address. -/
  left : UInt64 → Option PooledContext := fun _ ↦ none

/-- What happens to a manager and its contexts. An address that no held context has stands for the
null pointer. -/
inductive ManagerCall
  | acquireContext (fresh : UInt64)
  /-- A holder does something to its context. -/
  | use (address : UInt64) (call : ContextCall)
  | releaseContext (address : UInt64)
  | acquireResultVector (fresh : UInt64)
  | releaseResultVector (results : Option (Owned (RoomyVector RuleResult)))
  | preallocate (freshContexts freshVectors : ℕ → UInt64)

namespace ContextHolders

variable (s : ContextHolders)

/-- The holder of the context leaves it to the pool, if there is room for it. -/
def leave : Option (Owned PooledContext) → UInt64 → Option PooledContext
  | none => s.left
  | some context =>
    if s.manager.contextPool.HasRoom then
      Function.update s.left context.address (some context.object)
    else s.left

def step : ManagerCall → ContextHolders
  | .acquireContext fresh =>
    let (context, manager) := s.manager.acquireContext fresh
    { manager
      held := context :: s.held
      left := Function.update s.left context.address none }
  | .use address call =>
    { s with
      held := s.held.map fun context ↦
        if context.address = address then { context with object := call.run context.object }
        else context }
  | .releaseContext address =>
    let context := s.held.find? fun context ↦ context.address = address
    { manager := s.manager.releaseContext context
      held := s.held.eraseP fun context ↦ context.address = address
      left := s.leave context }
  | .acquireResultVector fresh => { s with manager := (s.manager.acquireResultVector fresh).2 }
  | .releaseResultVector results => { s with manager := s.manager.releaseResultVector results }
  | .preallocate freshContexts freshVectors =>
    { s with manager := s.manager.preallocate freshContexts freshVectors }

/-- The contexts as the objects of their pool. -/
def clients : PoolClients PooledContext where
  pool := s.manager.contextPool
  held := s.held

/-- The allocator gives different addresses to contexts that exist at the same time. -/
def IsRun (calls : List ManagerCall) : Prop :=
  EventRun.Along step (fun s call ↦ (s.step call).clients.Distinct) {} calls

/-- A context that is acquired is like a new one. -/
def HandsOutFresh : ManagerCall → Prop
  | .acquireContext fresh => (s.manager.acquireContext fresh).1.object.LooksLike {}
  | _ => True

/-- If the context that is acquired had a holder before, that one has left no error in it. -/
def NoErrorLeft : ManagerCall → Prop
  | .acquireContext _ =>
    ∀ context c, s.manager.contextPool.queue.head? = some context →
      s.left context.address = some c → c.getLastError = none
  | _ => True

/-- The contexts of a queue are what their last holders have left, cleared, or new. -/
structure Remembers (left : UInt64 → Option PooledContext) (queue : List (Owned PooledContext)) :
    Prop where
  object : ∀ context ∈ queue,
    context.object = ((left context.address).map PooledContext.clear).getD {}
  mem : ∀ address c, left address = some c → address ∈ queue.map Owned.address

section Remembers

variable {left : UInt64 → Option PooledContext} {queue : List (Owned PooledContext)}
  {context : Owned PooledContext} {address : UInt64}

/-- A context is made and handed out. -/
theorem Remembers.make (h : Remembers left []) :
    Remembers (Function.update left address none) [] where
  object _ hcontext := absurd hcontext List.not_mem_nil
  mem address' c hc := by
    by_cases heq : address' = address
    · rw [heq, Function.update_self] at hc
      cases hc
    · rw [Function.update_of_ne heq] at hc
      exact h.mem address' c hc

/-- The first context is handed out. -/
theorem Remembers.pop (h : Remembers left (context :: queue))
    (hfirst : context.address ∉ queue.map Owned.address) :
    Remembers (Function.update left context.address none) queue where
  object context' hcontext' := by
    have hne : context'.address ≠ context.address :=
      fun heq ↦ hfirst (heq ▸ List.mem_map_of_mem hcontext')
    rw [Function.update_of_ne hne]
    exact h.object context' (List.mem_cons_of_mem _ hcontext')
  mem address' c hc := by
    by_cases heq : address' = context.address
    · rw [heq, Function.update_self] at hc
      cases hc
    · rw [Function.update_of_ne heq] at hc
      exact List.mem_of_ne_of_mem heq (h.mem address' c hc)

/-- A context comes back. -/
theorem Remembers.push (h : Remembers left queue)
    (hnew : context.address ∉ queue.map Owned.address) :
    Remembers (Function.update left context.address (some context.object))
      (queue ++ [{ context with object := context.object.clear }]) where
  object context' hcontext' := by
    rcases List.mem_append.1 hcontext' with hold | hlast
    · have hne : context'.address ≠ context.address :=
        fun heq ↦ hnew (heq ▸ List.mem_map_of_mem hold)
      rw [Function.update_of_ne hne]
      exact h.object context' hold
    · obtain rfl := List.mem_singleton.1 hlast
      rw [Function.update_self]
      rfl
  mem address' c hc := by
    rw [List.map_append]
    by_cases heq : address' = context.address
    · exact List.mem_append_right _ (heq ▸ List.mem_singleton_self _)
    · rw [Function.update_of_ne heq] at hc
      exact List.mem_append_left _ (h.mem address' c hc)

/-- New contexts come. -/
theorem Remembers.append_new {new : List (Owned PooledContext)} (h : Remembers left queue)
    (hobject : ∀ context ∈ new, context.object = {})
    (hnew : ∀ context ∈ new, context.address ∉ queue.map Owned.address) :
    Remembers left (queue ++ new) where
  object context hcontext := by
    rcases List.mem_append.1 hcontext with hold | hcontext
    · exact h.object context hold
    · have hleft : left context.address = none :=
        Option.eq_none_iff_forall_ne_some.2 fun c hc ↦ hnew context hcontext (h.mem _ c hc)
      rw [hobject context hcontext, hleft]
      rfl
  mem address c hc := by
    rw [List.map_append]
    exact List.mem_append_left _ (h.mem address c hc)

end Remembers

/-- The contexts that exist have different addresses, and the pooled ones are known by what their
last holders have left. -/
structure Pooled : Prop where
  distinct : s.clients.Distinct
  remembers : Remembers s.left s.manager.contextPool.queue

variable {s}

theorem Pooled.handsOutFresh_iff (h : s.Pooled) (call : ManagerCall) :
    s.HandsOutFresh call ↔ s.NoErrorLeft call := by
  cases call with
  | acquireContext fresh =>
    show (ObjectPool.acquire _ s.manager.contextPool fresh).1.object.LooksLike {} ↔
      ∀ context c, s.manager.contextPool.queue.head? = some context → _
    rcases hqueue : s.manager.contextPool.queue with - | ⟨context, queue⟩
    · rw [ObjectPool.acquire_of_nil _ _ hqueue]
      exact iff_of_true (PooledContext.LooksLike.refl _) fun _ _ hhead ↦ nomatch hhead
    · have hobject := h.remembers.object context (hqueue ▸ List.mem_cons_self)
      rw [ObjectPool.acquire_of_cons _ _ hqueue]
      show context.object.LooksLike {} ↔ _
      rw [hobject]
      rcases hleft : s.left context.address with - | c
      · refine iff_of_true (PooledContext.LooksLike.refl _) fun context' c hhead hc ↦ ?_
        obtain rfl := Option.some.inj hhead
        rw [hleft] at hc
        cases hc
      · refine (PooledContext.clear_looksLike_new c).trans ⟨fun hc context' c' hhead hc' ↦ ?_,
          fun hall ↦ hall context c rfl hleft⟩
        obtain rfl := Option.some.inj hhead
        obtain rfl := Option.some.inj (hleft.symm.trans hc')
        exact hc
  | _ => exact Iff.rfl

theorem pooled_start : ({} : ContextHolders).Pooled where
  distinct := ⟨List.nodup_nil, List.not_mem_nil⟩
  remembers := ⟨fun _ h ↦ absurd h List.not_mem_nil, fun _ _ h ↦ nomatch h⟩

section Step

variable (h : s.Pooled)
include h

theorem Pooled.acquireContext {fresh : UInt64}
    (hd : (s.step (.acquireContext fresh)).clients.Distinct) :
    (s.step (.acquireContext fresh)).Pooled := by
  refine ⟨hd, ?_⟩
  have hremembers := h.remembers
  rcases hqueue : s.manager.contextPool.queue with - | ⟨context, queue⟩
  · rw [hqueue] at hremembers
    have hacquire : s.manager.contextPool.acquire {} fresh = _ :=
      ObjectPool.acquire_of_nil _ _ hqueue
    rw [step, MemoryManager.acquireContext, hacquire]
    show Remembers (Function.update s.left fresh none) s.manager.contextPool.queue
    rw [hqueue]
    exact hremembers.make
  · rw [hqueue] at hremembers
    have hacquire : s.manager.contextPool.acquire {} fresh = _ :=
      ObjectPool.acquire_of_cons _ _ hqueue
    have hnodup := h.distinct.nodup
    rw [PoolClients.live, clients, hqueue, List.cons_append, List.map_cons,
      List.map_append] at hnodup
    rw [step, MemoryManager.acquireContext, hacquire]
    exact hremembers.pop fun hmem ↦
      (List.nodup_cons.1 hnodup).1 (List.mem_append_left _ hmem)

theorem Pooled.releaseContext {address : UInt64}
    (hd : (s.step (.releaseContext address)).clients.Distinct) :
    (s.step (.releaseContext address)).Pooled := by
  refine ⟨hd, ?_⟩
  rcases hfind : s.held.find? fun context ↦ context.address = address with - | context
  · rw [step, hfind]
    exact h.remembers
  · have hnew : context.address ∉ s.manager.contextPool.queue.map Owned.address := by
      have hnodup := h.distinct.nodup
      rw [PoolClients.live, List.map_append] at hnodup
      exact fun hmem ↦ List.disjoint_of_nodup_append hnodup hmem
        (List.mem_map_of_mem (List.mem_of_find?_eq_some hfind))
    rw [step, hfind]
    show Remembers (s.leave (some context)) (ObjectPool.release _ s.manager.contextPool _).queue
    by_cases hroom : s.manager.contextPool.HasRoom
    · rw [leave, if_pos hroom, ObjectPool.release_of_room _ _ hroom]
      exact h.remembers.push hnew
    · rw [leave, if_neg hroom, ObjectPool.release_of_full _ _ hroom]
      exact h.remembers

theorem Pooled.preallocate {freshContexts freshVectors : ℕ → UInt64}
    (hd : (s.step (.preallocate freshContexts freshVectors)).clients.Distinct) :
    (s.step (.preallocate freshContexts freshVectors)).Pooled := by
  have hnodup := hd.nodup
  refine ⟨hd, ?_⟩
  rw [step, MemoryManager.preallocate, MemoryPool.preallocate, ObjectPool.preallocate,
    ObjectPool.preallocateFrom_eq] at hnodup ⊢
  refine h.remembers.append_new (fun context hcontext ↦ ?_) fun context hcontext hmem ↦ ?_
  · obtain ⟨i, -, rfl⟩ := List.mem_map.1 hcontext
    rfl
  · rw [PoolClients.live, clients, List.map_append, List.map_append] at hnodup
    exact List.disjoint_of_nodup_append (List.Nodup.of_append_left hnodup) hmem
      (List.mem_map_of_mem hcontext)

/-- Every call keeps the pooled contexts so. -/
theorem Pooled.step (call : ManagerCall) (hd : (s.step call).clients.Distinct) :
    (s.step call).Pooled := by
  cases call with
  | acquireContext fresh => exact h.acquireContext hd
  | releaseContext address => exact h.releaseContext hd
  | preallocate freshContexts freshVectors => exact h.preallocate hd
  | use | acquireResultVector | releaseResultVector => exact ⟨hd, h.remembers⟩

end Step

end ContextHolders

open ContextHolders in
/-- **Pooled contexts.** Whatever the holders do: all contexts that are handed out are as new
exactly if none of their last holders has left an error in them. -/
theorem contexts_fresh_iff (calls : List ManagerCall) (hrun : IsRun calls) :
    EventRun.Along step HandsOutFresh {} calls ↔ EventRun.Along step NoErrorLeft {} calls :=
  EventRun.along_iff hrun pooled_start (fun _ call h _ ↦ h.handsOutFresh_iff call)
    fun _ call h hd _ ↦ h.step call hd

/-- A context that is used by one after the other. -/
def sharedCalls (uses : List ContextCall) : List ManagerCall :=
  [.acquireContext 16] ++ uses.map (.use 16) ++ [.releaseContext 16, .acquireContext 32]

theorem sharedCalls_fresh :
    EventRun.Along ContextHolders.step ContextHolders.HandsOutFresh {}
      (sharedCalls [.setResult "total" {}, .setLastError "total" "timeout", .clearLastError]) := by
  have hrun : ContextHolders.IsRun
      (sharedCalls [.setResult "total" {}, .setLastError "total" "timeout", .clearLastError]) := by
    refine ⟨?_, ?_, ?_, ?_, ?_, ?_, trivial⟩ <;> constructor <;> decide +kernel
  refine (contexts_fresh_iff _ hrun).2 ⟨?_, trivial, trivial, trivial, trivial, ?_, trivial⟩
  · exact fun _ _ hhead ↦ nomatch hhead
  · intro context c hhead hc
    obtain rfl := Option.some.inj hhead
    obtain rfl := Option.some.inj hc
    rfl

/-- The error of the first holder is read by the second one. -/
theorem sharedCalls_notFresh :
    ContextHolders.IsRun (sharedCalls [.setLastError "total" "timeout"]) ∧
      ¬EventRun.Along ContextHolders.step ContextHolders.HandsOutFresh {}
        (sharedCalls [.setLastError "total" "timeout"]) := by
  refine ⟨?_, fun h ↦ ?_⟩
  · refine ⟨?_, ?_, ?_, ?_, trivial⟩ <;> constructor <;> decide +kernel
  · exact absurd h.2.2.2.1.getLastError (by decide +kernel)

end FastRules
