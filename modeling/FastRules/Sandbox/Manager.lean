import FastRules.Foundations.EventRun
import FastRules.Sandbox.StateData
import Mathlib.Logic.Function.Basic

/-!
# The sandbox manager

`SandboxManager` and `SandboxGuard` over the life of Lua states. The table of the manager is keyed
by the addresses of the states and outlives them; `applySandbox` compares an entry with what is
registered in the state that lives at the address, the other operations do not.

The invariant (`Inv`) says what the table would have to mean: an entry at the address of an open
state is that state's own, and a guard's address has an entry. One step can break it in two ways
only: a state is opened at an address that still has an entry, or the sandbox of a state is removed
while a guard, other than the one that removes it, is alive (`Careful`). Exactly the runs without
such a step keep the sandbox where the manager reports one (`sandboxed_iff`).

Left out are null pointers, for which every function returns at once, the logger, and exceptions
within `applySandbox`.
-/

open EventRun

namespace FastRules

/-! ### Restrictions -/

/-- `SandboxConfig`, as far as the manager reads it. -/
structure SandboxConfig where
  maxMemoryBytes : Size := 1024 * 1024 * 100
  maxInstructions : Size := 1000000
  enabled : Bool := true
  restrictedModules : List String := ["os", "io", "debug", "package"]
  restrictedFunctions : List String :=
    ["dofile", "loadfile", "load", "loadstring", "require", "module", "setmetatable",
      "getmetatable", "rawget", "rawset", "rawequal", "collectgarbage", "gcinfo", "newproxy",
      "system", "exec", "spawn", "popen"]

/-- A Lua state: which one of all that were ever opened, the globals that are not nil, what is
registered under `kSandboxDataKey`, the allocator and the hook. -/
structure LuaState where
  id : ℕ
  globals : List String
  registry : Option DataPtr
  alloc : Allocator
  slot : Option HookSlot

/-- An entry of `sandboxedStates_`. -/
structure SandboxEntry where
  ptr : DataPtr
  data : SandboxStateData

/-- A state that has just been opened, with its own allocator and possibly a hook of its own. -/
def LuaState.fresh (id : ℕ) (globals : List String) (hook : Option (HookMask × Int)) :
    LuaState where
  id := id
  globals := globals
  registry := none
  alloc := .host id
  slot := hook.map fun (mask, count) ↦ ⟨.host id, mask, count⟩

/-- The entry is registered in the state. -/
def LuaState.owns (L : LuaState) : Option SandboxEntry → Bool
  | none => false
  | some existing => L.registry = some existing.ptr

/-- `lua_setglobal` with nil. -/
def LuaState.removeGlobals (L : LuaState) (names : List String) : LuaState :=
  { L with globals := L.globals.filter (· ∉ names) }

namespace SandboxManager

def restrictDangerousFunctions (config : SandboxConfig) (L : LuaState) : LuaState :=
  L.removeGlobals config.restrictedFunctions

def restrictDangerousModules (config : SandboxConfig) (L : LuaState) : LuaState :=
  L.removeGlobals config.restrictedModules

def setMemoryLimit (maxBytes : Size) (L : LuaState) (d : SandboxEntry) : LuaState × SandboxEntry :=
  let set := d.data.setMemoryLimit d.ptr L.alloc maxBytes
  ({ L with alloc := set.2 }, { d with data := set.1 })

def setInstructionLimit (maxInstructions : Size) (L : LuaState) (d : SandboxEntry) :
    LuaState × SandboxEntry :=
  let set := d.data.setInstructionLimit L.slot maxInstructions
  ({ L with slot := set.2 }, { d with data := set.1 })

/-- What `applySandbox` does to a state that has no entry of its own; the new data is at `ptr`. -/
def install (config : SandboxConfig) (ptr : DataPtr) (L : LuaState) : LuaState × SandboxEntry :=
  let L := restrictDangerousModules config (restrictDangerousFunctions config L)
  let (L, d) := setMemoryLimit config.maxMemoryBytes { L with registry := some ptr } ⟨ptr, {}⟩
  setInstructionLimit config.maxInstructions L d

/-- What `removeSandbox` does to a state, given the entry at its address. -/
def uninstall (d : SandboxEntry) (L : LuaState) : LuaState :=
  { L with
    slot := d.data.chainedHook.map fun hook ↦
      { hook
        mask := d.data.chainedMask
        count := if 0 < d.data.chainedCount then d.data.chainedCount else kInstructionHookStep }
    registry := none
    alloc := if d.data.allocInstalled then d.data.origAlloc else L.alloc }

end SandboxManager

/-- `SandboxGuard`. -/
structure SandboxGuard where
  lua : ℕ
  wasSandboxed : Bool

/-- The open states and the entries of the manager by address, and the guards that are alive. -/
structure SandboxWorld where
  opened : ℕ
  states : ℕ → Option LuaState
  sandboxedStates : ℕ → Option SandboxEntry
  guards : ℕ → Option SandboxGuard

namespace SandboxWorld

/-- Nothing has been opened. -/
def initial : SandboxWorld where
  opened := 0
  states := fun _ ↦ none
  sandboxedStates := fun _ ↦ none
  guards := fun _ ↦ none

variable (config : SandboxConfig) (w : SandboxWorld)

/-- Put a state and an entry at an address. -/
def put (lua : ℕ) (L : LuaState) (d : Option SandboxEntry) : SandboxWorld :=
  { w with
    states := Function.update w.states lua (some L)
    sandboxedStates := Function.update w.sandboxedStates lua d }

section Put

variable {w} {lua lua' : ℕ} {L : LuaState} {d : Option SandboxEntry}

@[simp] theorem put_states_self : (w.put lua L d).states lua = some L :=
  Function.update_self ..

@[simp] theorem put_sandboxedStates_self : (w.put lua L d).sandboxedStates lua = d :=
  Function.update_self ..

theorem put_states_of_ne (h : lua' ≠ lua) : (w.put lua L d).states lua' = w.states lua' :=
  Function.update_of_ne h ..

theorem put_sandboxedStates_of_ne (h : lua' ≠ lua) :
    (w.put lua L d).sandboxedStates lua' = w.sandboxedStates lua' :=
  Function.update_of_ne h ..

@[simp] theorem put_guards : (w.put lua L d).guards = w.guards := rfl

end Put

/-- A new state. -/
def openState (lua : ℕ) (globals : List String) (hook : Option (HookMask × Int)) : SandboxWorld :=
  { w with
    opened := w.opened + 1
    states := Function.update w.states lua (some (.fresh w.opened globals hook)) }

/-- `lua_close`. -/
def closeState (lua : ℕ) : SandboxWorld :=
  { w with states := Function.update w.states lua none }

section Open

variable {w} {lua lua' : ℕ} {globals : List String} {hook : Option (HookMask × Int)}

@[simp] theorem openState_states_self :
    (w.openState lua globals hook).states lua = some (.fresh w.opened globals hook) :=
  Function.update_self ..

theorem openState_states_of_ne (h : lua' ≠ lua) :
    (w.openState lua globals hook).states lua' = w.states lua' :=
  Function.update_of_ne h ..

@[simp] theorem closeState_states_self : (w.closeState lua).states lua = none :=
  Function.update_self ..

theorem closeState_states_of_ne (h : lua' ≠ lua) :
    (w.closeState lua).states lua' = w.states lua' :=
  Function.update_of_ne h ..

end Open

/-- `SandboxManager::applySandbox`. An entry that is not registered in the state is stale. -/
def applySandbox (lua : ℕ) (ptr : DataPtr) : SandboxWorld :=
  match w.states lua with
  | none => w
  | some L =>
    if !config.enabled then w
    else if L.owns (w.sandboxedStates lua) then w
    else
      let (L, d) := SandboxManager.install config ptr L
      w.put lua L (some d)

/-- `SandboxManager::removeSandbox`. -/
def removeSandbox (lua : ℕ) : SandboxWorld :=
  match w.states lua, w.sandboxedStates lua with
  | some L, some d => w.put lua (SandboxManager.uninstall d L) none
  | _, _ => w

/-- `SandboxManager::isSandboxed`. -/
def isSandboxed (lua : ℕ) : Bool :=
  (w.sandboxedStates lua).isSome

/-- The constructor of `SandboxGuard`. -/
def constructGuard (g lua : ℕ) (ptr : DataPtr) : SandboxWorld :=
  let wasSandboxed := w.isSandboxed lua
  let w' := if wasSandboxed then w else w.applySandbox config lua ptr
  { w' with guards := Function.update w'.guards g (some { lua, wasSandboxed }) }

/-- The destructor of `SandboxGuard`. -/
def destructGuard (g : ℕ) : SandboxWorld :=
  match w.guards g with
  | none => w
  | some guard =>
    let w' := if guard.wasSandboxed then w else w.removeSandbox guard.lua
    { w' with guards := Function.update w'.guards g none }

end SandboxWorld

/-- What a program does with Lua states and their sandboxes. -/
inductive SandboxOp
  | openState (lua : ℕ) (globals : List String) (hook : Option (HookMask × Int))
  | closeState (lua : ℕ)
  | applySandbox (lua : ℕ) (ptr : DataPtr)
  | removeSandbox (lua : ℕ)
  | constructGuard (g lua : ℕ) (ptr : DataPtr)
  | destructGuard (g : ℕ)

namespace SandboxWorld

/-- The world after an operation. -/
def step (config : SandboxConfig) (w : SandboxWorld) : SandboxOp → SandboxWorld
  | .openState lua globals hook => w.openState lua globals hook
  | .closeState lua => w.closeState lua
  | .applySandbox lua ptr => w.applySandbox config lua ptr
  | .removeSandbox lua => w.removeSandbox lua
  | .constructGuard g lua ptr => w.constructGuard config g lua ptr
  | .destructGuard g => w.destructGuard g

/-- Only open states are used, states are opened where none is, and new data shares its address with
no data of another state. -/
def Legal (w : SandboxWorld) : SandboxOp → Prop
  | .openState lua _ _ => w.states lua = none
  | .closeState lua => w.states lua ≠ none
  | .applySandbox lua ptr =>
    w.states lua ≠ none ∧ ∀ a d, w.sandboxedStates a = some d → a ≠ lua → d.ptr ≠ ptr
  | .removeSandbox lua => w.states lua ≠ none
  | .constructGuard g lua ptr =>
    w.guards g = none ∧ w.states lua ≠ none ∧
      ∀ a d, w.sandboxedStates a = some d → a ≠ lua → d.ptr ≠ ptr
  | .destructGuard g =>
    ∃ guard, w.guards g = some guard ∧
      (guard.wasSandboxed = false → w.isSandboxed guard.lua → w.states guard.lua ≠ none)

end SandboxWorld

/-! ### What a sandbox promises -/

/-- The restrictions are installed in a state, for this entry. -/
structure Restricted (config : SandboxConfig) (L : LuaState) (d : SandboxEntry) : Prop where
  globals : ∀ name ∈ L.globals,
    name ∉ config.restrictedFunctions ∧ name ∉ config.restrictedModules
  registry : L.registry = some d.ptr
  alloc : L.alloc = .sandboxLimitAlloc d.ptr
  memLimit : d.data.memLimit = config.maxMemoryBytes
  hook : config.maxInstructions ≠ 0 →
    ∃ slot, L.slot = some slot ∧ slot.hook = .sandboxInstructionHook ∧ slot.mask.count = true
  instructionLimit : d.data.instructionLimit = config.maxInstructions

namespace SandboxWorld

variable {config : SandboxConfig} {w : SandboxWorld} {lua : ℕ} {L : LuaState} {d : SandboxEntry}

/-- The state that lives at the address is restricted. -/
def RestrictedAt (config : SandboxConfig) (w : SandboxWorld) (lua : ℕ) (L : LuaState) : Prop :=
  ∃ d, w.sandboxedStates lua = some d ∧ Restricted config L d

/-- Where the manager reports a sandbox, and where a guard is alive, there is one. -/
def Sandboxed (config : SandboxConfig) (w : SandboxWorld) : Prop :=
  (∀ lua L, w.states lua = some L → w.isSandboxed lua → w.RestrictedAt config lua L) ∧
    ∀ g guard L, w.guards g = some guard → w.states guard.lua = some L →
      w.RestrictedAt config guard.lua L

/-- The operation removes the sandbox of the state at this address. -/
def Removes (w : SandboxWorld) (lua : ℕ) : SandboxOp → Prop
  | .removeSandbox lua' => lua' = lua ∧ w.isSandboxed lua
  | .destructGuard g =>
    ∃ guard, w.guards g = some guard ∧ guard.wasSandboxed = false ∧ guard.lua = lua ∧
      w.isSandboxed lua
  | _ => False

/-- The state with this number has been closed. -/
def Dead (w : SandboxWorld) (owner : ℕ) : Prop :=
  ∀ lua L, w.states lua = some L → L.id ≠ owner

/-- A removal installs no allocator and no hook of a dead state. -/
def RestoresLiving (config : SandboxConfig) (w : SandboxWorld) (op : SandboxOp) : Prop :=
  ∀ lua L owner, w.Removes lua op → (w.step config op).states lua = some L →
    (w.step config op).Dead owner →
    L.alloc ≠ .host owner ∧ ∀ slot, L.slot = some slot → slot.hook ≠ .host owner

/-- What the sandbox promises of an operation and the world after it. -/
def Keeps (config : SandboxConfig) (w : SandboxWorld) (op : SandboxOp) : Prop :=
  Sandboxed config (w.step config op) ∧ w.RestoresLiving config op

/-- No state is opened where an entry is left, and no sandbox is removed while a guard of the state
is alive, other than the one that removes it. -/
def Careful (w : SandboxWorld) : SandboxOp → Prop
  | .openState lua _ _ => w.isSandboxed lua = false
  | .removeSandbox lua =>
    w.isSandboxed lua → ∀ g guard, w.guards g = some guard → guard.lua ≠ lua
  | .destructGuard g =>
    ∀ guard, w.guards g = some guard → guard.wasSandboxed = false →
      ∀ g' guard', w.guards g' = some guard' → g' ≠ g → guard'.lua ≠ guard.lua
  | _ => True

end SandboxWorld

/-! ### Installing and removing -/

/-- The allocator and the hook of the state are its own. -/
structure LuaState.Plain (L : LuaState) : Prop where
  alloc : L.alloc = .host L.id
  hook : ∀ slot, L.slot = some slot → slot.hook = .host L.id

theorem LuaState.plain_fresh {id : ℕ} {globals : List String} {hook : Option (HookMask × Int)} :
    (LuaState.fresh id globals hook).Plain := by
  refine ⟨rfl, fun slot hslot ↦ ?_⟩
  obtain ⟨hook', -, rfl⟩ := Option.map_eq_some_iff.1 hslot
  rfl

/-- The entry has saved the allocator and the hook of this state. -/
structure SavedFrom (L : LuaState) (d : SandboxEntry) : Prop where
  installed : d.data.allocInstalled = true
  alloc : d.data.origAlloc = .host L.id
  hook : ∀ hook, d.data.chainedHook = some hook → hook = .host L.id

namespace SandboxManager

variable {config : SandboxConfig} {ptr : DataPtr} {L : LuaState}

/-- The data before the instruction limit is set. -/
theorem install_snd :
    (install config ptr L).2 =
      ⟨ptr, (({ memLimit := config.maxMemoryBytes
                origAlloc := L.alloc
                allocInstalled := true } : SandboxStateData).setInstructionLimit L.slot
              config.maxInstructions).1⟩ := rfl

theorem restricted_install :
    Restricted config (install config ptr L).1 (install config ptr L).2 where
  globals name hname := by
    obtain ⟨hname, hmodules⟩ := List.mem_filter.1 hname
    exact ⟨of_decide_eq_true (List.mem_filter.1 hname).2, of_decide_eq_true hmodules⟩
  registry := rfl
  alloc := rfl
  memLimit := by
    rw [install_snd, SandboxStateData.setInstructionLimit_fst]
    exact SandboxStateData.memLimit_captureHook _ _
  hook hlimit := ⟨_, SandboxStateData.setInstructionLimit_snd _ _ hlimit, rfl, rfl⟩
  instructionLimit := by
    rw [install_snd, SandboxStateData.setInstructionLimit_fst]
    exact SandboxStateData.instructionLimit_captureHook _ _

theorem savedFrom_install (h : L.Plain) :
    SavedFrom (install config ptr L).1 (install config ptr L).2 := by
  rw [install_snd, SandboxStateData.setInstructionLimit_fst]
  cases hslot : L.slot with
  | none =>
    rw [SandboxStateData.captureHook_none]
    exact ⟨rfl, h.alloc, fun hook hhook ↦ by cases hhook⟩
  | some existing =>
    have hhost := h.hook existing hslot
    rw [SandboxStateData.captureHook_some rfl (by rw [hhost]; exact Hook.noConfusion)]
    exact ⟨rfl, h.alloc, fun hook hhook ↦ Option.some.inj hhook ▸ hhost⟩

theorem plain_uninstall {d : SandboxEntry} (h : SavedFrom L d) : (uninstall d L).Plain := by
  refine ⟨?_, fun slot hslot ↦ ?_⟩
  · rw [uninstall, if_pos h.installed]
    exact h.alloc
  · obtain ⟨hook, hhook, rfl⟩ := Option.map_eq_some_iff.1 hslot
    exact h.hook hook hhook

end SandboxManager

/-! ### What the table means -/

namespace SandboxWorld

variable {config : SandboxConfig} {w : SandboxWorld}

/-- What a state and the entry at its address say about each other. -/
def Agrees (config : SandboxConfig) (L : LuaState) : Option SandboxEntry → Prop
  | none => L.Plain
  | some d => Restricted config L d ∧ SavedFrom L d

/-- The entries of open states are their own, and the address of a guard has an entry. -/
structure Inv (config : SandboxConfig) (w : SandboxWorld) : Prop where
  agrees : ∀ lua L, w.states lua = some L → Agrees config L (w.sandboxedStates lua)
  guards : ∀ g guard, w.guards g = some guard → w.isSandboxed guard.lua

theorem inv_initial : Inv config initial where
  agrees lua L hL := by cases hL
  guards g guard hguard := by cases hguard

theorem Inv.sandboxed (h : Inv config w) : Sandboxed config w := by
  have hat (lua : ℕ) (L : LuaState) (hL : w.states lua = some L) (hlua : w.isSandboxed lua) :
      w.RestrictedAt config lua L := by
    obtain ⟨d, hd⟩ := Option.isSome_iff_exists.1 hlua
    have hagrees := h.agrees lua L hL
    rw [hd] at hagrees
    exact ⟨d, hd, hagrees.1⟩
  exact ⟨hat, fun g guard L hguard hL ↦ hat guard.lua L hL (h.guards g guard hguard)⟩

/-- A state and its entry are replaced by ones that agree. -/
theorem Inv.put (h : Inv config w) {lua : ℕ} {L : LuaState} {d : Option SandboxEntry}
    (hagrees : Agrees config L d)
    (hguards : d = none → ∀ g guard, w.guards g = some guard → guard.lua ≠ lua) :
    Inv config (w.put lua L d) where
  agrees lua' L' hL' := by
    by_cases hlua : lua' = lua
    · subst hlua
      rw [put_states_self, Option.some.injEq] at hL'
      rw [put_sandboxedStates_self, ← hL']
      exact hagrees
    · rw [put_states_of_ne hlua] at hL'
      rw [put_sandboxedStates_of_ne hlua]
      exact h.agrees lua' L' hL'
  guards g guard hguard := by
    rw [put_guards] at hguard
    by_cases hlua : guard.lua = lua
    · rw [isSandboxed, hlua, put_sandboxedStates_self]
      exact Option.isSome_iff_ne_none.2 fun hd ↦ hguards hd g guard hguard hlua
    · rw [isSandboxed, put_sandboxedStates_of_ne hlua]
      exact h.guards g guard hguard

theorem Inv.openState (h : Inv config w) {lua : ℕ} (hlua : w.isSandboxed lua = false)
    (globals : List String) (hook : Option (HookMask × Int)) :
    Inv config (w.openState lua globals hook) where
  agrees lua' L' hL' := by
    by_cases hne : lua' = lua
    · subst hne
      have hentry : w.sandboxedStates lua' = none := Option.not_isSome_iff_eq_none.1 (by
        rw [← isSandboxed, hlua]
        exact Bool.false_ne_true)
      rw [openState_states_self, Option.some.injEq] at hL'
      show Agrees config L' (w.sandboxedStates lua')
      rw [hentry, ← hL']
      exact LuaState.plain_fresh
    · rw [openState_states_of_ne hne] at hL'
      exact h.agrees lua' L' hL'
  guards := h.guards

theorem Inv.closeState (h : Inv config w) (lua : ℕ) : Inv config (w.closeState lua) where
  agrees lua' L' hL' := by
    by_cases hne : lua' = lua
    · rw [hne, closeState_states_self] at hL'
      cases hL'
    · rw [closeState_states_of_ne hne] at hL'
      exact h.agrees lua' L' hL'
  guards := h.guards

/-- An entry of an open state is registered in it, so only a state without one is sandboxed. -/
theorem Inv.applySandbox (h : Inv config w) (henabled : config.enabled = true) {lua : ℕ}
    (hlua : w.states lua ≠ none) (ptr : DataPtr) :
    Inv config (w.applySandbox config lua ptr) ∧
      (w.applySandbox config lua ptr).isSandboxed lua ∧
      (w.applySandbox config lua ptr).guards = w.guards := by
  obtain ⟨L, hL⟩ := Option.ne_none_iff_exists'.1 hlua
  have hagrees := h.agrees lua L hL
  rw [SandboxWorld.applySandbox, hL]
  simp only [henabled, Bool.not_true, Bool.false_eq_true, if_false]
  cases hentry : w.sandboxedStates lua with
  | some d =>
    rw [hentry] at hagrees
    rw [if_pos (by rw [LuaState.owns, hagrees.1.registry, decide_eq_true_iff])]
    exact ⟨h, by rw [isSandboxed, hentry]; rfl, rfl⟩
  | none =>
    rw [hentry] at hagrees
    rw [if_neg (by rw [LuaState.owns]; exact Bool.false_ne_true)]
    refine ⟨h.put ⟨SandboxManager.restricted_install, SandboxManager.savedFrom_install hagrees⟩
      fun hnone ↦ absurd hnone (Option.some_ne_none _), ?_, rfl⟩
    rw [isSandboxed, put_sandboxedStates_self]
    rfl

theorem Inv.removeSandbox (h : Inv config w) {lua : ℕ}
    (hguards : w.isSandboxed lua → ∀ g guard, w.guards g = some guard → guard.lua ≠ lua) :
    Inv config (w.removeSandbox lua) := by
  rw [SandboxWorld.removeSandbox]
  split
  next L d hL hd =>
    have hagrees := h.agrees lua L hL
    rw [hd] at hagrees
    exact h.put (SandboxManager.plain_uninstall hagrees.2) fun _ ↦
      hguards (by rw [isSandboxed, hd]; rfl)
  next => exact h

theorem Inv.addGuard (h : Inv config w) (g : ℕ) {guard : SandboxGuard}
    (hguard : w.isSandboxed guard.lua) :
    Inv config { w with guards := Function.update w.guards g (some guard) } where
  agrees := h.agrees
  guards g' guard' hguard' := by
    by_cases hg : g' = g
    · subst hg
      obtain rfl := Option.some.inj ((Function.update_self g' _ w.guards).symm.trans hguard')
      exact hguard
    · exact h.guards g' guard' ((Function.update_of_ne hg _ w.guards).symm.trans hguard')

theorem guards_of_update_none {g g' : ℕ} {guard : SandboxGuard}
    (h : Function.update w.guards g none g' = some guard) :
    w.guards g' = some guard ∧ g' ≠ g := by
  by_cases hg : g' = g
  · rw [hg, Function.update_self] at h
    cases h
  · exact ⟨(Function.update_of_ne hg _ w.guards).symm.trans h, hg⟩

theorem Inv.dropGuard (h : Inv config w) (g : ℕ) :
    Inv config { w with guards := Function.update w.guards g none } where
  agrees := h.agrees
  guards g' guard' hguard' := h.guards g' guard' (guards_of_update_none hguard').1

theorem removeSandbox_guards (lua : ℕ) : (w.removeSandbox lua).guards = w.guards := by
  rw [removeSandbox]
  split <;> rfl

/-- Removing the sandbox of a state does not look at the guards. -/
theorem removeSandbox_withGuards (lua : ℕ) (guards : ℕ → Option SandboxGuard) :
    ({ w with guards } : SandboxWorld).removeSandbox lua =
      { w.removeSandbox lua with guards } := by
  rw [removeSandbox, removeSandbox]
  dsimp only
  split <;> rfl

theorem destructGuard_of_wasSandboxed {g : ℕ} {guard : SandboxGuard}
    (hguard : w.guards g = some guard) (hwas : guard.wasSandboxed = true) :
    w.destructGuard g = { w with guards := Function.update w.guards g none } := by
  rw [destructGuard, hguard]
  dsimp only
  rw [if_pos hwas]

/-- A guard that applied the sandbox removes it. -/
theorem destructGuard_of_owner {g : ℕ} {guard : SandboxGuard} (hguard : w.guards g = some guard)
    (hwas : guard.wasSandboxed = false) :
    w.destructGuard g =
      ({ w with guards := Function.update w.guards g none } : SandboxWorld).removeSandbox
        guard.lua := by
  rw [destructGuard, hguard, removeSandbox_withGuards]
  dsimp only
  rw [if_neg (by rw [hwas]; exact Bool.false_ne_true), removeSandbox_guards]

theorem Inv.step (h : Inv config w) (henabled : config.enabled = true) {op : SandboxOp}
    (hlegal : w.Legal op) (hcareful : w.Careful op) : Inv config (w.step config op) := by
  cases op with
  | openState lua globals hook => exact h.openState hcareful globals hook
  | closeState lua => exact h.closeState lua
  | applySandbox lua ptr => exact (h.applySandbox henabled hlegal.1 ptr).1
  | removeSandbox lua => exact h.removeSandbox hcareful
  | constructGuard g lua ptr =>
    show Inv config (w.constructGuard config g lua ptr)
    rw [constructGuard]
    cases hlua : w.isSandboxed lua with
    | true => exact h.addGuard g hlua
    | false =>
      obtain ⟨hinv, hsandboxed, -⟩ := h.applySandbox henabled hlegal.2.1 ptr
      exact hinv.addGuard g hsandboxed
  | destructGuard g =>
    obtain ⟨guard, hguard, -⟩ := hlegal
    show Inv config (w.destructGuard g)
    cases hwas : guard.wasSandboxed with
    | true =>
      rw [destructGuard_of_wasSandboxed hguard hwas]
      exact h.dropGuard g
    | false =>
      rw [destructGuard_of_owner hguard hwas]
      refine (h.dropGuard g).removeSandbox fun _ g' guard' hguard' ↦ ?_
      obtain ⟨hguard', hne⟩ := guards_of_update_none hguard'
      exact hcareful guard hguard hwas g' guard' hguard' hne

/-! ### Exactly the careful runs -/

theorem removeSandbox_of_entry {lua : ℕ} {L : LuaState} {d : SandboxEntry}
    (hL : w.states lua = some L) (hd : w.sandboxedStates lua = some d) :
    w.removeSandbox lua = w.put lua (SandboxManager.uninstall d L) none := by
  rw [removeSandbox, hL, hd]

/-- Where there is a state after a removal, it has no entry. -/
theorem removeSandbox_sandboxedStates {lua : ℕ} (h : (w.removeSandbox lua).states lua ≠ none) :
    (w.removeSandbox lua).sandboxedStates lua = none := by
  cases hL : w.states lua with
  | none =>
    have heq : w.removeSandbox lua = w := by rw [removeSandbox, hL]
    exact absurd hL (heq ▸ h)
  | some L =>
    cases hd : w.sandboxedStates lua with
    | none =>
      have heq : w.removeSandbox lua = w := by rw [removeSandbox, hL, hd]
      rw [heq, hd]
    | some d => rw [removeSandbox_of_entry hL hd, put_sandboxedStates_self]

theorem Removes.sandboxedStates {lua : ℕ} {op : SandboxOp} (h : w.Removes lua op)
    (hstate : (w.step config op).states lua ≠ none) :
    (w.step config op).sandboxedStates lua = none := by
  cases op with
  | removeSandbox lua' =>
    obtain ⟨rfl, -⟩ := h
    exact removeSandbox_sandboxedStates hstate
  | destructGuard g =>
    obtain ⟨guard, hguard, hwas, rfl, -⟩ := h
    rw [step, destructGuard_of_owner hguard hwas] at hstate ⊢
    exact removeSandbox_sandboxedStates hstate
  | openState lua globals hook => exact h.elim
  | closeState lua => exact h.elim
  | applySandbox lua ptr => exact h.elim
  | constructGuard g lua ptr => exact h.elim

/-- In a world in order, what a removal restores is the state's own. -/
theorem Inv.restoresLiving {op : SandboxOp} (h : Inv config (w.step config op)) :
    w.RestoresLiving config op := by
  intro lua L owner hremoves hL hdead
  have hagrees := h.agrees lua L hL
  rw [hremoves.sandboxedStates (by rw [hL]; exact Option.some_ne_none L)] at hagrees
  have howner := hdead lua L hL
  refine ⟨fun halloc ↦ howner ?_, fun slot hslot hhook ↦ howner ?_⟩
  · exact Allocator.host.inj (hagrees.alloc.symm.trans halloc)
  · exact Hook.host.inj ((hagrees.hook slot hslot).symm.trans hhook)

/-- A guard of an open state without an entry is one of an unrestricted state. -/
theorem Sandboxed.entry_of_guard {g : ℕ} {guard : SandboxGuard} (h : Sandboxed config w)
    (hguard : w.guards g = some guard) (hstate : w.states guard.lua ≠ none) :
    w.sandboxedStates guard.lua ≠ none := by
  obtain ⟨L, hL⟩ := Option.ne_none_iff_exists'.1 hstate
  obtain ⟨d, hd, -⟩ := h.2 g guard L hguard hL
  rw [hd]
  exact Option.some_ne_none d

/-- The sandbox of an open state is removed only where no guard of the state is alive. -/
theorem Sandboxed.no_guard {lua : ℕ} (h : Sandboxed config (w.removeSandbox lua))
    (hstate : w.states lua ≠ none) (hlua : w.isSandboxed lua) {g : ℕ} {guard : SandboxGuard}
    (hguard : w.guards g = some guard) : guard.lua ≠ lua := by
  rintro rfl
  obtain ⟨L, hL⟩ := Option.ne_none_iff_exists'.1 hstate
  obtain ⟨d, hd⟩ := Option.isSome_iff_exists.1 hlua
  rw [removeSandbox_of_entry hL hd] at h
  refine h.entry_of_guard hguard ?_ put_sandboxedStates_self
  rw [put_states_self]
  exact Option.some_ne_none _

theorem Inv.keeps_iff (h : Inv config w) (henabled : config.enabled = true) {op : SandboxOp}
    (hlegal : w.Legal op) : Keeps config w op ↔ w.Careful op := by
  refine ⟨fun hkeeps ↦ ?_, fun hcareful ↦
    have hinv := h.step henabled hlegal hcareful
    ⟨hinv.sandboxed, hinv.restoresLiving⟩⟩
  have hsandboxed := hkeeps.1
  cases op with
  | openState lua globals hook =>
    -- nothing is registered in a state that has just been opened
    refine Bool.eq_false_iff.2 fun hlua ↦ ?_
    obtain ⟨d, -, hrestricted⟩ := hsandboxed.1 lua _ openState_states_self hlua
    cases hrestricted.registry
  | closeState lua => trivial
  | applySandbox lua ptr => trivial
  | removeSandbox lua =>
    exact fun hlua g guard hguard ↦ hsandboxed.no_guard hlegal hlua hguard
  | constructGuard g lua ptr => trivial
  | destructGuard g =>
    intro guard hguard hwas g' guard' hguard' hne
    obtain ⟨guard₀, hguard₀, hstate⟩ := hlegal
    obtain rfl := Option.some.inj (hguard₀.symm.trans hguard)
    have hlua := h.guards g guard₀ hguard
    rw [SandboxWorld.step, destructGuard_of_owner hguard hwas] at hsandboxed
    exact hsandboxed.no_guard (hstate hwas hlua) hlua
      ((Function.update_of_ne hne _ w.guards).trans hguard')

end SandboxWorld

open SandboxWorld in
/-- **Sandboxed means sandboxed** in exactly the careful runs. -/
theorem sandboxed_iff (config : SandboxConfig) (henabled : config.enabled = true)
    (ops : List SandboxOp) (hlegal : Along (step config) Legal initial ops) :
    Along (step config) (Keeps config) initial ops ↔ Along (step config) Careful initial ops :=
  along_iff hlegal inv_initial (fun _ _ h hlegal ↦ h.keeps_iff henabled hlegal)
    fun _ _ h hlegal hcareful ↦ h.step henabled hlegal hcareful

open SandboxWorld in
/-- A state is sandboxed, released and closed before another is opened in its place. -/
theorem sandboxed_released :
    Along (step {}) (Keeps {}) initial
      [.openState 0 ["os"] none, .applySandbox 0 7, .removeSandbox 0, .closeState 0,
        .openState 0 ["os"] none] := by
  refine (sandboxed_iff {} rfl _ ?_).2 ?_
  · exact ⟨rfl, ⟨Option.some_ne_none _, fun _ _ h ↦ by cases h⟩, Option.some_ne_none _,
      Option.some_ne_none _, rfl, trivial⟩
  · exact ⟨rfl, trivial, fun _ _ _ h ↦ (by cases h), trivial, rfl, trivial⟩

open SandboxWorld in
/-- A state is closed without a removal, and the next one gets its address. -/
theorem not_sandboxed_recycled :
    Along (step {}) Legal initial
        [.openState 0 ["os"] none, .applySandbox 0 7, .closeState 0, .openState 0 ["os"] none] ∧
      ¬Along (step {}) (Keeps {}) initial
        [.openState 0 ["os"] none, .applySandbox 0 7, .closeState 0,
          .openState 0 ["os"] none] := by
  refine ⟨⟨rfl, ⟨Option.some_ne_none _, fun _ _ h ↦ by cases h⟩, Option.some_ne_none _, rfl,
    trivial⟩, fun h ↦ ?_⟩
  obtain ⟨-, -, -, ⟨hsandboxed, -⟩, -⟩ := h
  obtain ⟨d, -, hrestricted⟩ := hsandboxed.1 0 _ openState_states_self rfl
  cases hrestricted.registry

end FastRules
