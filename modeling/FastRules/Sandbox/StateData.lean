import Mathlib.Data.Nat.Notation
import Mathlib.Order.Defs.PartialOrder
import Mathlib.Algebra.Order.Ring.Int

/-!
# What the sandbox keeps for a Lua state

`SandboxStateData` with the allocators and hooks it saves. A `size_t` has 64 bits. The allocator and
the hook a host gave a state are named by the state they belong to.
-/

namespace FastRules

/-- A `size_t`. -/
abbrev Size := BitVec 64

/-- Where a `SandboxStateData` lives. -/
abbrev DataPtr := ℕ

/-- A `lua_Alloc` with its `ud`. -/
inductive Allocator
  | null
  | host (owner : ℕ)
  | sandboxLimitAlloc (ud : DataPtr)
  deriving DecidableEq

/-- A `lua_Hook`. -/
inductive Hook
  | host (owner : ℕ)
  | sandboxInstructionHook
  deriving DecidableEq

/-- Which events a hook asks for: `LUA_MASKCALL` and so on. -/
structure HookMask where
  call : Bool := false
  ret : Bool := false
  line : Bool := false
  count : Bool := false
  deriving DecidableEq

/-- The hook slot of a Lua state: `lua_gethook`, `lua_gethookmask` and `lua_gethookcount`. -/
structure HookSlot where
  hook : Hook
  mask : HookMask
  count : Int
  deriving DecidableEq

/-- `SandboxStateData`. A limit of 0 is none. -/
structure SandboxStateData where
  instructionCount : Size := 0
  instructionLimit : Size := 0
  memUsed : Size := 0
  memLimit : Size := 0
  /-- `origAlloc` with `origUd`. -/
  origAlloc : Allocator := .null
  allocInstalled : Bool := false
  chainedHook : Option Hook := none
  chainedMask : HookMask := {}
  chainedCount : Int := 0
  deriving DecidableEq

/-- `kInstructionHookStep`: the instructions between two calls of the count hook. -/
def kInstructionHookStep : ℕ := 1000

namespace SandboxStateData

/-- What `SandboxManager::setMemoryLimit` does to the data, which lives at `ptr`, and the allocator
of a state. The allocator is exchanged once. -/
def setMemoryLimit (d : SandboxStateData) (ptr : DataPtr) (alloc : Allocator) (maxBytes : Size) :
    SandboxStateData × Allocator :=
  let d := { d with memLimit := maxBytes }
  if d.allocInstalled then (d, alloc)
  else ({ d with origAlloc := alloc, allocInstalled := true }, .sandboxLimitAlloc ptr)

/-- Save the hook that is installed, once, and never the sandbox's own. -/
def captureHook (d : SandboxStateData) (slot : Option HookSlot) : SandboxStateData :=
  match d.chainedHook, slot with
  | none, some existing =>
    if existing.hook = .sandboxInstructionHook then d
    else
      { d with
        chainedHook := some existing.hook
        chainedMask := existing.mask
        chainedCount := existing.count }
  | _, _ => d

/-- A count hook must fire at least as often as the hook it replaced. -/
def hookCount (d : SandboxStateData) : Int :=
  if 0 < d.chainedCount ∧ d.chainedCount < kInstructionHookStep then d.chainedCount
  else kInstructionHookStep

/-- What `SandboxManager::setInstructionLimit` does to the data and the hook slot of a state. -/
def setInstructionLimit (d : SandboxStateData) (slot : Option HookSlot) (maxInstructions : Size) :
    SandboxStateData × Option HookSlot :=
  let d := { d with instructionLimit := maxInstructions, instructionCount := 0 }.captureHook slot
  if maxInstructions = 0 ∧ d.chainedHook = none then
    (d, none)
  else
    (d, some
      { hook := .sandboxInstructionHook
        mask := { d.chainedMask with count := true }
        count := d.hookCount })

section Memory

variable (d : SandboxStateData) (ptr : DataPtr) (alloc : Allocator) (maxBytes : Size)

@[simp] theorem memLimit_setMemoryLimit :
    (d.setMemoryLimit ptr alloc maxBytes).1.memLimit = maxBytes := by
  rw [setMemoryLimit]
  split_ifs <;> rfl

@[simp] theorem memUsed_setMemoryLimit :
    (d.setMemoryLimit ptr alloc maxBytes).1.memUsed = d.memUsed := by
  rw [setMemoryLimit]
  split_ifs <;> rfl

end Memory

variable (d : SandboxStateData) (slot : Option HookSlot) (maxInstructions : Size)

@[simp] theorem instructionLimit_captureHook :
    (d.captureHook slot).instructionLimit = d.instructionLimit := by
  unfold captureHook
  split
  · split_ifs <;> rfl
  · rfl

@[simp] theorem instructionCount_captureHook :
    (d.captureHook slot).instructionCount = d.instructionCount := by
  unfold captureHook
  split
  · split_ifs <;> rfl
  · rfl

@[simp] theorem memLimit_captureHook : (d.captureHook slot).memLimit = d.memLimit := by
  unfold captureHook
  split
  · split_ifs <;> rfl
  · rfl

theorem captureHook_none : d.captureHook none = d := by
  unfold captureHook
  split
  · contradiction
  · rfl

variable {d} in
theorem captureHook_some (hd : d.chainedHook = none) {existing : HookSlot}
    (h : existing.hook ≠ .sandboxInstructionHook) :
    d.captureHook (some existing) =
      { d with
        chainedHook := some existing.hook
        chainedMask := existing.mask
        chainedCount := existing.count } := by
  unfold captureHook
  rw [hd]
  exact if_neg h

/-- The data after a new limit, whatever becomes of the slot. -/
theorem setInstructionLimit_fst :
    (d.setInstructionLimit slot maxInstructions).1 =
      { d with instructionLimit := maxInstructions, instructionCount := 0 }.captureHook slot := by
  rw [setInstructionLimit]
  split_ifs <;> rfl

variable {maxInstructions}

/-- Under a limit the sandbox's hook is in the slot. -/
theorem setInstructionLimit_snd (h : maxInstructions ≠ 0) :
    (d.setInstructionLimit slot maxInstructions).2 = some
      { hook := .sandboxInstructionHook
        mask := { (d.setInstructionLimit slot maxInstructions).1.chainedMask with count := true }
        count := (d.setInstructionLimit slot maxInstructions).1.hookCount } := by
  rw [setInstructionLimit, if_neg (fun hzero ↦ h hzero.1)]

theorem hookCount_pos : 0 < d.hookCount := by
  rw [hookCount]
  split_ifs with h
  · exact h.1
  · decide

theorem hookCount_le : d.hookCount ≤ kInstructionHookStep := by
  rw [hookCount]
  split_ifs with h
  · exact h.2.le
  · exact le_rfl

end SandboxStateData

end FastRules
