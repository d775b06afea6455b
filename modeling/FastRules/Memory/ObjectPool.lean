import FastRules.Foundations.EventRun
import Mathlib.Algebra.Group.Nat.Defs
import Mathlib.Data.Fintype.Card
import Mathlib.Data.List.Nodup

/-!
# Memory pools

`MemoryPool` and `VectorPool` keep released objects for later, and count the objects that they have
made and not yet destroyed. Both are an `ObjectPool`: they differ in what they do to an object that
they make, hand out or take back.

The counter is a `size_t`. It does not wrap since objects that exist at the same time have different
addresses (`PoolClients.Distinct`), of which there are fewer than `2 ^ 64`.
-/

namespace FastRules

/-- An object that a `std::unique_ptr` points to. -/
structure Owned (T : Type) where
  address : UInt64
  object : T
  deriving DecidableEq, Repr

/-- What a pool does to its objects. -/
structure Handling (T : Type) where
  /-- The objects that it makes. -/
  make : T
  handOut : T → T
  takeBack : T → T

/-- The members of a `MemoryPool` or a `VectorPool`; the next object comes first. -/
structure ObjectPool (T : Type) where
  queue : List (Owned T) := []
  maxSize : UInt64 := 1000
  allocatedCount : UInt64 := 0
  releasedCount : UInt64 := 0

/-- `decrementAllocated`. -/
def decrementAllocated (count : UInt64) : UInt64 :=
  if 0 < count then count - 1 else count

namespace ObjectPool

variable {T : Type} (handling : Handling T) (pool : ObjectPool T)

/-- `pool_.size() < maxSize_`. -/
def HasRoom : Prop :=
  pool.queue.length < pool.maxSize.toNat

instance : Decidable pool.HasRoom :=
  inferInstanceAs (Decidable (_ < _))

/-- `acquire`. A new object gets the address `fresh`. -/
def acquire (fresh : UInt64) : Owned T × ObjectPool T :=
  match pool.queue with
  | obj :: queue => ({ obj with object := handling.handOut obj.object }, { pool with queue })
  | [] =>
    (⟨fresh, handling.make⟩, { pool with allocatedCount := pool.allocatedCount + 1 })

/-- `release`, also of a null pointer. -/
def release : Option (Owned T) → ObjectPool T
  | none => pool
  | some obj =>
    let pool := if pool.HasRoom then
        { pool with
          queue := pool.queue ++ [{ obj with object := handling.takeBack obj.object }] }
      else { pool with allocatedCount := decrementAllocated pool.allocatedCount }
    { pool with releasedCount := pool.releasedCount + 1 }

/-- The loop of `preallocate` from `i` on. -/
def preallocateFrom (fresh : ℕ → UInt64) : ℕ → ℕ → ObjectPool T → ObjectPool T
  | _, 0, pool => pool
  | i, n + 1, pool =>
    if pool.HasRoom then
      preallocateFrom fresh (i + 1) n
        { pool with
          queue := pool.queue ++ [⟨fresh i, handling.make⟩]
          allocatedCount := pool.allocatedCount + 1 }
    else pool

/-- `preallocate`. The objects get the addresses `fresh 0`, `fresh 1` and so on. -/
def preallocate (fresh : ℕ → UInt64) (count : UInt64) : ObjectPool T :=
  preallocateFrom handling fresh 0 count.toNat pool

/-- `getStats`. -/
def getStats : UInt64 × UInt64 :=
  (UInt64.ofNat pool.queue.length, pool.allocatedCount)

/-- `clear`. -/
def clear : ObjectPool T :=
  { pool with
    queue := []
    allocatedCount := pool.queue.foldl (fun count _ ↦ decrementAllocated count)
      pool.allocatedCount }

end ObjectPool

/-! ### The two pools -/

/-- A `MemoryPool`. -/
abbrev MemoryPool := ObjectPool

namespace MemoryPool

/-- A `MemoryPool` leaves its objects as they are. The default constructor gives `new`. -/
def handling {T : Type} (new : T) : Handling T where
  make := new
  handOut := id
  takeBack := id

variable {T : Type} (new : T) (pool : MemoryPool T)

def acquire : UInt64 → Owned T × MemoryPool T :=
  ObjectPool.acquire (handling new) pool

def release : Option (Owned T) → MemoryPool T :=
  ObjectPool.release (handling new) pool

def preallocate : (ℕ → UInt64) → UInt64 → MemoryPool T :=
  ObjectPool.preallocate (handling new) pool

end MemoryPool

/-- A `std::vector` and how many elements it has room for. -/
structure RoomyVector (T : Type) where
  elements : List T := []
  capacity : ℕ := 0
  deriving DecidableEq, Repr

namespace RoomyVector

variable {T : Type}

/-- `clear`, which keeps the room. -/
def clear (v : RoomyVector T) : RoomyVector T :=
  { v with elements := [] }

/-- `reserve`. -/
def reserve (v : RoomyVector T) (capacity : UInt64) : RoomyVector T :=
  { v with capacity := max v.capacity capacity.toNat }

end RoomyVector

/-- A `VectorPool`. -/
abbrev VectorPool (T : Type) := ObjectPool (RoomyVector T)

namespace VectorPool

/-- A `VectorPool` empties its vectors when it hands them out and when it takes them back. -/
def handling (T : Type) (initialCapacity : UInt64) : Handling (RoomyVector T) where
  make := RoomyVector.reserve {} initialCapacity
  handOut := RoomyVector.clear
  takeBack := RoomyVector.clear

variable {T : Type} (initialCapacity : UInt64) (pool : VectorPool T)

def acquire : UInt64 → Owned (RoomyVector T) × VectorPool T :=
  ObjectPool.acquire (handling T initialCapacity) pool

def release : Option (Owned (RoomyVector T)) → VectorPool T :=
  ObjectPool.release (handling T initialCapacity) pool

def preallocate : (ℕ → UInt64) → UInt64 → VectorPool T :=
  ObjectPool.preallocate (handling T initialCapacity) pool

end VectorPool

/-! ### Counting -/

/-- The decrement of a counter that saturates at zero. -/
theorem toNat_decrementAllocated (count : UInt64) :
    (decrementAllocated count).toNat = count.toNat - 1 := by
  rw [decrementAllocated]
  split_ifs with h
  · exact UInt64.toNat_sub_of_le _ _ (UInt64.le_iff_toNat_le.2 (UInt64.lt_iff_toNat_lt.1 h))
  · have hzero : ¬0 < count.toNat := fun hpos ↦ h (UInt64.lt_iff_toNat_lt.2 hpos)
    omega

theorem toNat_foldl_decrementAllocated {T : Type} (objects : List T) (count : UInt64) :
    (objects.foldl (fun count _ ↦ decrementAllocated count) count).toNat =
      count.toNat - objects.length := by
  induction objects generalizing count with
  | nil => rfl
  | cons obj objects ih =>
    rw [List.foldl_cons, ih, toNat_decrementAllocated, List.length_cons]
    omega

namespace ObjectPool

variable {T : Type} (handling : Handling T) (pool : ObjectPool T)

theorem acquire_of_nil {fresh : UInt64} (h : pool.queue = []) :
    pool.acquire handling fresh =
      (⟨fresh, handling.make⟩, { pool with allocatedCount := pool.allocatedCount + 1 }) := by
  rw [acquire, h]

theorem acquire_of_cons {fresh : UInt64} {obj : Owned T} {queue : List (Owned T)}
    (h : pool.queue = obj :: queue) :
    pool.acquire handling fresh =
      ({ obj with object := handling.handOut obj.object }, { pool with queue }) := by
  rw [acquire, h]

theorem release_of_room {obj : Owned T} (h : pool.HasRoom) :
    pool.release handling (some obj) =
      { pool with
        queue := pool.queue ++ [{ obj with object := handling.takeBack obj.object }]
        releasedCount := pool.releasedCount + 1 } := by
  rw [release, if_pos h]

theorem release_of_full {obj : Owned T} (h : ¬pool.HasRoom) :
    pool.release handling (some obj) =
      { pool with
        allocatedCount := decrementAllocated pool.allocatedCount
        releasedCount := pool.releasedCount + 1 } := by
  rw [release, if_neg h]

/-- As many objects are made as are wanted and have room. -/
theorem preallocateFrom_eq (fresh : ℕ → UInt64) (i n : ℕ) :
    preallocateFrom handling fresh i n pool =
      { pool with
        queue := pool.queue ++ (List.range' i (min n (pool.maxSize.toNat - pool.queue.length))).map
          fun j ↦ ⟨fresh j, handling.make⟩
        allocatedCount := pool.allocatedCount +
          UInt64.ofNat (min n (pool.maxSize.toNat - pool.queue.length)) } := by
  induction n generalizing i pool with
  | zero => simp [preallocateFrom]
  | succ n ih =>
    rw [preallocateFrom]
    split_ifs with h
    · have hroom : pool.queue.length < pool.maxSize.toNat := h
      have hmin : min (n + 1) (pool.maxSize.toNat - pool.queue.length) =
          min n (pool.maxSize.toNat - (pool.queue.length + 1)) + 1 := by
        omega
      rw [ih, hmin, List.range'_succ]
      simp [UInt64.add_assoc, UInt64.add_comm]
    · have hfull : pool.maxSize.toNat - pool.queue.length = 0 :=
        Nat.sub_eq_zero_of_le (not_lt.1 h)
      simp [hfull]

end ObjectPool

/-! ### The holders of the objects -/

/-- A pool and the objects that were acquired from it and not yet released. -/
structure PoolClients (T : Type) where
  pool : ObjectPool T
  held : List (Owned T) := []

/-- What happens to a pool and its objects. An address that no held object has stands for the null
pointer. -/
inductive PoolCall (T : Type)
  | acquire (fresh : UInt64)
  /-- A holder changes an object. -/
  | use (address : UInt64) (change : T → T)
  | release (address : UInt64)
  | preallocate (fresh : ℕ → UInt64) (count : UInt64)
  | clear

namespace PoolClients

variable {T : Type} (handling : Handling T) (s : PoolClients T)

def step : PoolCall T → PoolClients T
  | .acquire fresh =>
    { pool := (s.pool.acquire handling fresh).2
      held := (s.pool.acquire handling fresh).1 :: s.held }
  | .use address change =>
    { s with
      held := s.held.map fun obj ↦
        if obj.address = address then { obj with object := change obj.object } else obj }
  | .release address =>
    { pool := s.pool.release handling (s.held.find? fun obj ↦ obj.address = address)
      held := s.held.eraseP fun obj ↦ obj.address = address }
  | .preallocate fresh count => { s with pool := s.pool.preallocate handling fresh count }
  | .clear => { s with pool := s.pool.clear }

/-- The objects that exist. -/
def live : List (Owned T) :=
  s.pool.queue ++ s.held

/-- The objects that exist have different addresses, and none of them is null. -/
structure Distinct : Prop where
  nodup : (s.live.map Owned.address).Nodup
  ne_null : 0 ∉ s.live.map Owned.address

variable {s handling}

/-- There are fewer objects than values of the counter. -/
theorem Distinct.length_lt (h : s.Distinct) : s.pool.queue.length + s.held.length < 2 ^ 64 := by
  have hnodup : ((0 :: s.live.map Owned.address).map UInt64.toFin).Nodup :=
    (List.nodup_cons.2 ⟨h.ne_null, h.nodup⟩).map fun _ _ ↦ UInt64.toFin_inj.1
  have hcard := hnodup.length_le_card
  rw [Fintype.card_fin, List.length_map, List.length_cons, List.length_map, live,
    List.length_append] at hcard
  exact hcard

/-- The counter is the number of objects, and the pool is not too large. -/
structure Accounted (maxSize : UInt64) (s : PoolClients T) : Prop where
  maxSize_eq : s.pool.maxSize = maxSize
  length_le : s.pool.queue.length ≤ maxSize.toNat
  count : s.pool.allocatedCount.toNat = s.pool.queue.length + s.held.length

variable {maxSize : UInt64}

theorem accounted_start (T : Type) (maxSize : UInt64) :
    (PoolClients.mk { maxSize } [] : PoolClients T).Accounted maxSize :=
  ⟨rfl, Nat.zero_le _, rfl⟩

section Step

variable (h : s.Accounted maxSize)
include h

theorem Accounted.acquire {fresh : UInt64} (hd : (step handling s (.acquire fresh)).Distinct) :
    (step handling s (.acquire fresh)).Accounted maxSize := by
  have hcount := h.count
  rcases hqueue : s.pool.queue with - | ⟨obj, queue⟩
  · -- a new object is made
    have hlt := hd.length_lt
    rw [step, s.pool.acquire_of_nil handling hqueue] at hlt ⊢
    rw [hqueue, List.length_nil, Nat.zero_add] at hcount
    have hlt' : s.held.length + 1 < 2 ^ 64 := by simpa [hqueue] using hlt
    refine ⟨h.maxSize_eq, h.length_le, ?_⟩
    show (s.pool.allocatedCount + 1).toNat = s.pool.queue.length + (s.held.length + 1)
    rw [UInt64.toNat_add, hcount, hqueue, List.length_nil, Nat.zero_add]
    exact Nat.mod_eq_of_lt hlt'
  · have hle := h.length_le
    rw [hqueue, List.length_cons] at hcount hle
    rw [step, s.pool.acquire_of_cons handling hqueue]
    refine ⟨h.maxSize_eq, Nat.le_of_succ_le hle, ?_⟩
    show s.pool.allocatedCount.toNat = queue.length + (s.held.length + 1)
    omega

omit h in
/-- A held object is released. -/
theorem length_eraseP {address : UInt64} {obj : Owned T}
    (hobj : (s.held.find? fun obj ↦ obj.address = address) = some obj) :
    (s.held.eraseP fun obj ↦ obj.address = address).length + 1 = s.held.length := by
  have hmem := List.mem_of_find?_eq_some hobj
  rw [List.length_eraseP_of_mem hmem (List.find?_some hobj)]
  exact Nat.sub_add_cancel (List.length_pos_of_mem hmem)

theorem Accounted.release (address : UInt64) :
    (step handling s (.release address)).Accounted maxSize := by
  have hcount := h.count
  rcases hfind : s.held.find? fun obj ↦ obj.address = address with - | obj
  · -- a null pointer
    have hheld : (s.held.eraseP fun obj ↦ obj.address = address) = s.held :=
      List.eraseP_of_forall_not fun obj hobj ↦ List.find?_eq_none.1 hfind obj hobj
    rw [step, hfind, hheld]
    exact h
  · have hlength := length_eraseP hfind
    rw [step, hfind]
    by_cases hroom : s.pool.HasRoom
    · rw [ObjectPool.release_of_room _ _ hroom]
      have hlt : s.pool.queue.length < maxSize.toNat := h.maxSize_eq ▸ hroom
      refine ⟨h.maxSize_eq, by rwa [List.length_append, List.length_singleton], ?_⟩
      show s.pool.allocatedCount.toNat = (s.pool.queue ++ [_]).length + List.length _
      rw [List.length_append, List.length_singleton, hcount, ← hlength]
      ac_rfl
    · rw [ObjectPool.release_of_full _ _ hroom]
      refine ⟨h.maxSize_eq, h.length_le, ?_⟩
      show (decrementAllocated s.pool.allocatedCount).toNat = s.pool.queue.length + List.length _
      rw [toNat_decrementAllocated, hcount, ← hlength, ← Nat.add_assoc, Nat.add_sub_cancel]

theorem Accounted.preallocate {fresh : ℕ → UInt64} {count : UInt64}
    (hd : (step handling s (.preallocate fresh count)).Distinct) :
    (step handling s (.preallocate fresh count)).Accounted maxSize := by
  have hlt := hd.length_lt
  have hle := h.length_le
  rw [step, ObjectPool.preallocate, ObjectPool.preallocateFrom_eq, h.maxSize_eq] at hlt ⊢
  obtain ⟨made, hmade⟩ :
      ∃ made, made = min count.toNat (maxSize.toNat - s.pool.queue.length) := ⟨_, rfl⟩
  rw [← hmade] at hlt ⊢
  rw [List.length_append, List.length_map, List.length_range'] at hlt
  have hsum : s.pool.queue.length + made + s.held.length < 2 ^ 64 := hlt
  have hsize : made < UInt64.size :=
    (show made ≤ s.pool.queue.length + made + s.held.length by omega).trans_lt hsum
  refine ⟨rfl, ?_, ?_⟩
  · rw [List.length_append, List.length_map, List.length_range']
    omega
  · show (s.pool.allocatedCount + UInt64.ofNat made).toNat = _ + s.held.length
    rw [UInt64.toNat_add, h.count, List.length_append, List.length_map, List.length_range',
      UInt64.toNat_ofNat_of_lt' hsize, Nat.mod_eq_of_lt (by omega)]
    ac_rfl

theorem Accounted.clear : (step handling s .clear).Accounted maxSize := by
  refine ⟨h.maxSize_eq, Nat.zero_le _, ?_⟩
  rw [step, ObjectPool.clear, toNat_foldl_decrementAllocated, h.count]
  show s.pool.queue.length + s.held.length - s.pool.queue.length = 0 + s.held.length
  omega

/-- Every call keeps the account. -/
theorem Accounted.step (call : PoolCall T) (hd : (step handling s call).Distinct) :
    (step handling s call).Accounted maxSize := by
  cases call with
  | acquire fresh => exact h.acquire hd
  | use address change =>
    exact ⟨h.maxSize_eq, h.length_le, by rw [PoolClients.step, List.length_map]; exact h.count⟩
  | release address => exact h.release address
  | preallocate fresh count => exact h.preallocate hd
  | clear => exact h.clear

end Step

/-- The statistics are those of the pooled objects and of all objects that exist. -/
structure Exact (s : PoolClients T) (maxSize : UInt64) : Prop where
  poolSize : s.pool.getStats.1.toNat = s.pool.queue.length
  allocated : s.pool.getStats.2.toNat = s.pool.queue.length + s.held.length
  length_le : s.pool.queue.length ≤ maxSize.toNat

theorem Accounted.exact (h : s.Accounted maxSize) : s.Exact maxSize where
  poolSize := UInt64.toNat_ofNat_of_lt' (h.length_le.trans_lt maxSize.toNat_lt)
  allocated := h.count
  length_le := h.length_le

/-- What the pool has come to after the calls. -/
def after (handling : Handling T) (maxSize : UInt64) (calls : List (PoolCall T)) : PoolClients T :=
  calls.foldl (step handling) ⟨{ maxSize }, []⟩

/-- The allocator gives different addresses to objects that exist at the same time. -/
def IsRun (handling : Handling T) (maxSize : UInt64) (calls : List (PoolCall T)) : Prop :=
  EventRun.Along (step handling) (fun s call ↦ (step handling s call).Distinct) ⟨{ maxSize }, []⟩
    calls

theorem IsRun.exact {calls : List (PoolCall T)} (h : IsRun handling maxSize calls) :
    (after handling maxSize calls).Exact maxSize := by
  have haccounted : (after handling maxSize calls).Accounted maxSize :=
    EventRun.Along.invariant h (accounted_start T maxSize)
      fun _ call haccounted hdistinct ↦ haccounted.step call hdistinct
  exact haccounted.exact

end PoolClients

open PoolClients in
/-- The accounting of both pools is exact, whatever is acquired, released, preallocated and cleared
in whatever order. -/
theorem poolAccounting_exact :
    (∀ (T : Type) (new : T) (maxSize : UInt64) (calls : List (PoolCall T)),
      IsRun (MemoryPool.handling new) maxSize calls →
        (after (MemoryPool.handling new) maxSize calls).Exact maxSize) ∧
    ∀ (T : Type) (initialCapacity maxSize : UInt64) (calls : List (PoolCall (RoomyVector T))),
      IsRun (VectorPool.handling T initialCapacity) maxSize calls →
        (after (VectorPool.handling T initialCapacity) maxSize calls).Exact maxSize :=
  ⟨fun _ _ _ _ hrun ↦ hrun.exact, fun _ _ _ _ hrun ↦ hrun.exact⟩

/-- Three objects in a pool for one, the last of them destroyed by `clear`. -/
def crowdedCalls : List (PoolCall (RoomyVector ℕ)) :=
  [.preallocate (fun _ ↦ 16) 5, .acquire 0, .acquire 32, .use 32 fun v ↦ { v with elements := [7] },
    .acquire 48, .release 32, .release 16, .release 0, .clear]

theorem crowdedCalls_exact :
    (PoolClients.after (VectorPool.handling ℕ 10) 1 crowdedCalls).Exact 1 := by
  refine poolAccounting_exact.2 ℕ 10 1 crowdedCalls ?_
  refine ⟨?_, ?_, ?_, ?_, ?_, ?_, ?_, ?_, ?_, trivial⟩ <;> constructor <;> decide +kernel

end FastRules
