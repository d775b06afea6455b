import FastRules.Foundations.EventRun
import FastRules.Foundations.KeyedList
import FastRules.Sandbox.StateData
import Mathlib.Algebra.Order.Sub.Basic
import Mathlib.Algebra.Order.Ring.Int

/-!
# The memory cap

`sandboxLimitAlloc` over the C heap, from the moment `setMemoryLimit` installs it. The blocks of a
state may be older than the installation; the tracked usage does not count these, and stays at 0
where more is given back than it counts.

Along every run the tracked usage lies between the net growth and the sum of all blocks
(`Inv.tracked`, `MemoryCap.grown`). The first bound makes the cap hold (`memory_cap_holds`), the
second keeps the sums below `2 ^ 64`. Neither says that a smaller block is never denied: it is
denied exactly if what is tracked after the shrink is above the limit, which a block that was never
counted or a lowered limit can bring about (`shrinks_granted_iff`).
-/

open EventRun KeyedList

namespace FastRules

/-! ### The C heap -/

/-- The blocks a Lua state holds: addresses and sizes. -/
abbrev Blocks := List (ℕ × Size)

namespace Blocks

/-- The bytes of all blocks. -/
def bytes (blocks : Blocks) : ℕ :=
  (blocks.map fun b ↦ b.2.toNat).sum

/-- No two blocks share an address, and all of them fit in the address space. -/
structure Valid (blocks : Blocks) : Prop where
  distinct : DistinctKeys blocks
  fits : blocks.bytes < 2 ^ 64

@[simp] theorem bytes_nil : bytes [] = 0 := rfl

@[simp] theorem bytes_cons (b : ℕ × Size) (blocks : Blocks) :
    bytes (b :: blocks) = b.2.toNat + bytes blocks := by
  rw [bytes, List.map_cons, List.sum_cons, bytes]

theorem bytes_eraseKey {blocks : Blocks} {b : ℕ × Size} (h : DistinctKeys blocks)
    (hb : b ∈ blocks) : bytes (eraseKey b.1 blocks) + b.2.toNat = bytes blocks := by
  induction blocks with
  | nil => cases hb
  | cons x blocks ih =>
    obtain ⟨hx, hblocks⟩ := List.nodup_cons.1 h
    rcases List.mem_cons.1 hb with rfl | hb
    · -- no other block has the address of the first
      have hrest : eraseKey b.1 blocks = blocks :=
        List.filter_eq_self.2 fun y hy ↦ decide_eq_true fun hkey ↦
          hx (hkey ▸ List.mem_map_of_mem hy)
      rw [eraseKey, List.filter_cons_of_neg (by simp), ← eraseKey, hrest, bytes_cons, add_comm]
    · have hne : x.1 ≠ b.1 := fun hkey ↦ hx (hkey ▸ List.mem_map_of_mem hb)
      rw [eraseKey, List.filter_cons_of_pos (by simpa using hne), ← eraseKey, bytes_cons,
        bytes_cons, add_assoc, ih hblocks hb]

end Blocks

/-- `std::free`. -/
def free (ptr : Option ℕ) (blocks : Blocks) : Blocks :=
  match ptr with
  | none => blocks
  | some p => eraseKey p blocks

/-- `std::realloc` where it returns `np`. If that is null, the block stays as it was. -/
def realloc (ptr : Option ℕ) (nsize : Size) (np : Option ℕ) (blocks : Blocks) : Blocks :=
  match np with
  | none => blocks
  | some p => (p, nsize) :: free ptr blocks

/-! ### The allocator -/

/-- What is left of the tracked usage when `freed` bytes go. -/
def SandboxStateData.release (d : SandboxStateData) (freed : Size) : Size :=
  d.memUsed - if freed ≤ d.memUsed then freed else d.memUsed

/-- The subtraction stops at 0. -/
theorem SandboxStateData.toNat_release (d : SandboxStateData) (freed : Size) :
    (d.release freed).toNat = d.memUsed.toNat - freed.toNat := by
  rw [SandboxStateData.release]
  split_ifs with h
  · exact BitVec.toNat_sub_of_le h
  · have hlt : d.memUsed.toNat < freed.toNat := BitVec.lt_def.1 (BitVec.not_le.1 h)
    rw [BitVec.sub_self, Nat.sub_eq_zero_of_le hlt.le]
    rfl

/-- The data the allocator works on and the blocks of the state. -/
structure AllocState where
  data : SandboxStateData
  blocks : Blocks

/-- The arguments of a call, and what `std::realloc` returns if the call asks for it. -/
structure AllocCall where
  ptr : Option ℕ
  osize : Size
  nsize : Size
  np : Option ℕ

namespace AllocCall

/-- Without a block, `osize` is the kind of the object. -/
def freed (c : AllocCall) : Size :=
  if c.ptr.isSome then c.osize else 0

/-- Lua names a block it holds with its size; `std::realloc` returns space that is not in use. -/
structure Legal (c : AllocCall) (blocks : Blocks) : Prop where
  block : ∀ p, c.ptr = some p → (p, c.osize) ∈ blocks
  apart : ∀ p, c.np = some p → ∀ b ∈ free c.ptr blocks, b.1 ≠ p
  fits : c.np.isSome → (free c.ptr blocks).bytes + c.nsize.toNat < 2 ^ 64

theorem Legal.bytes_free {c : AllocCall} {blocks : Blocks} (h : c.Legal blocks)
    (hblocks : DistinctKeys blocks) :
    (free c.ptr blocks).bytes + c.freed.toNat = blocks.bytes := by
  obtain ⟨ptr, osize, nsize, np⟩ := c
  cases ptr with
  | none => rfl
  | some p => exact Blocks.bytes_eraseKey hblocks (h.block p rfl)

theorem distinctKeys_free {ptr : Option ℕ} {blocks : Blocks} (h : DistinctKeys blocks) :
    DistinctKeys (free ptr blocks) := by
  cases ptr with
  | none => exact h
  | some p => exact h.sublist (eraseKey_sublist p blocks)

end AllocCall

/-- `sandboxLimitAlloc`. Its `ud` is never null: `setMemoryLimit` installs it with the data. -/
def sandboxLimitAlloc (s : AllocState) (c : AllocCall) : Option ℕ × AllocState :=
  if c.nsize = 0 then
    (none,
      { data := { s.data with memUsed := s.data.release c.freed }
        blocks := free c.ptr s.blocks })
  else if s.data.memLimit ≠ 0 ∧ s.data.memLimit < s.data.release c.freed + c.nsize then
    (none, s)
  else
    let blocks := realloc c.ptr c.nsize c.np s.blocks
    match c.np with
    | none => (none, { s with blocks })
    | some np =>
      (some np,
        { data := { s.data with memUsed := s.data.release c.freed + c.nsize }
          blocks })

/-- The state after a call. -/
def AllocState.call (s : AllocState) (c : AllocCall) : AllocState :=
  (sandboxLimitAlloc s c).2

/-- The allocator as `setMemoryLimit` installs it on fresh data, in the place of `orig`. -/
def AllocState.installed (ptr : DataPtr) (orig : Allocator) (memLimit : Size) (blocks : Blocks) :
    AllocState where
  data := (({} : SandboxStateData).setMemoryLimit ptr orig memLimit).1
  blocks := blocks

section Call

variable {s : AllocState} {c : AllocCall}

/-- What a call can do: free, deny, fail or grant. -/
theorem sandboxLimitAlloc_cases (s : AllocState) (c : AllocCall) :
    (c.nsize = 0 ∧ sandboxLimitAlloc s c =
      (none, ⟨{ s.data with memUsed := s.data.release c.freed }, free c.ptr s.blocks⟩)) ∨
    (c.nsize ≠ 0 ∧ s.data.memLimit ≠ 0 ∧ s.data.memLimit < s.data.release c.freed + c.nsize ∧
      sandboxLimitAlloc s c = (none, s)) ∨
    (c.nsize ≠ 0 ∧ (s.data.memLimit = 0 ∨ s.data.release c.freed + c.nsize ≤ s.data.memLimit) ∧
      c.np = none ∧ sandboxLimitAlloc s c = (none, s)) ∨
    (c.nsize ≠ 0 ∧ (s.data.memLimit = 0 ∨ s.data.release c.freed + c.nsize ≤ s.data.memLimit) ∧
      ∃ np, c.np = some np ∧ sandboxLimitAlloc s c =
        (some np, ⟨{ s.data with memUsed := s.data.release c.freed + c.nsize },
          (np, c.nsize) :: free c.ptr s.blocks⟩)) := by
  obtain ⟨ptr, osize, nsize, np⟩ := c
  rw [sandboxLimitAlloc]
  split_ifs with hzero hlimit
  · exact .inl ⟨hzero, rfl⟩
  · exact .inr (.inl ⟨hzero, hlimit.1, hlimit.2, rfl⟩)
  · have hroom := not_and_or.1 hlimit
    rw [not_not, BitVec.not_lt] at hroom
    cases np with
    | none => exact .inr (.inr (.inl ⟨hzero, hroom, rfl, rfl⟩))
    | some np => exact .inr (.inr (.inr ⟨hzero, hroom, np, rfl, rfl⟩))

/-! ### What every run keeps -/

/-- The blocks are in order, and no byte is tracked that no block has. -/
structure AllocState.Inv (s : AllocState) : Prop where
  valid : s.blocks.Valid
  tracked : s.data.memUsed.toNat ≤ s.blocks.bytes

theorem AllocState.inv_installed {ptr : DataPtr} {orig : Allocator} {memLimit : Size}
    {blocks : Blocks} (h : blocks.Valid) : (installed ptr orig memLimit blocks).Inv :=
  ⟨h, Nat.zero_le _⟩

/-- Where `std::realloc` finds space, the sum the limit is compared with does not wrap around. -/
theorem AllocState.Inv.toNat_projected (hs : s.Inv) (hc : c.Legal s.blocks) (hnp : c.np.isSome) :
    (s.data.release c.freed + c.nsize).toNat =
      s.data.memUsed.toNat - c.freed.toNat + c.nsize.toNat := by
  have hbytes := hc.bytes_free hs.valid.distinct
  have hfits := hc.fits hnp
  have htracked := hs.tracked
  rw [BitVec.toNat_add, SandboxStateData.toNat_release, Nat.mod_eq_of_lt]
  omega

theorem AllocState.Inv.call (hs : s.Inv) (hc : c.Legal s.blocks) : (s.call c).Inv := by
  have hbytes := hc.bytes_free hs.valid.distinct
  have htracked := hs.tracked
  have hdistinct : DistinctKeys (free c.ptr s.blocks) :=
    AllocCall.distinctKeys_free hs.valid.distinct
  obtain ⟨-, h⟩ | ⟨-, -, -, h⟩ | ⟨-, -, -, h⟩ | ⟨-, -, np, hnp, h⟩ := sandboxLimitAlloc_cases s c
  · rw [AllocState.call, h]
    refine ⟨⟨hdistinct, ?_⟩, ?_⟩
    · exact lt_of_le_of_lt (Nat.le.intro hbytes) hs.valid.fits
    · rw [SandboxStateData.toNat_release]
      exact Nat.sub_le_of_le_add (hbytes ▸ htracked)
  · rw [AllocState.call, h]
    exact hs
  · rw [AllocState.call, h]
    exact hs
  · have hfits := hc.fits (hnp ▸ rfl)
    have hsum := hs.toNat_projected hc (hnp ▸ rfl)
    rw [AllocState.call, h]
    refine ⟨⟨?_, ?_⟩, ?_⟩
    · refine List.nodup_cons.2 ⟨fun hkey ↦ ?_, hdistinct⟩
      obtain ⟨b, hb, hfst⟩ := List.mem_map.1 hkey
      exact hc.apart np hnp b hb hfst
    · rw [Blocks.bytes_cons, add_comm]
      exact hfits
    · rw [Blocks.bytes_cons, hsum, add_comm]
      exact Nat.add_le_add_left (Nat.sub_le_of_le_add (hbytes ▸ htracked)) _

/-- The tracked usage is computed as over the natural numbers, except that it stays at 0 where more
is given back than it counts. -/
def TracksExactly (s : AllocState) (c : AllocCall) : Prop :=
  (s.call c).data.memUsed.toNat =
    if c.nsize = 0 then s.data.memUsed.toNat - c.freed.toNat
    else if (sandboxLimitAlloc s c).1.isSome then
      s.data.memUsed.toNat - c.freed.toNat + c.nsize.toNat
    else s.data.memUsed.toNat

theorem AllocState.Inv.tracksExactly (hs : s.Inv) (hc : c.Legal s.blocks) : TracksExactly s c := by
  obtain ⟨hzero, h⟩ | ⟨hzero, -, -, h⟩ | ⟨hzero, -, -, h⟩ | ⟨hzero, -, np, hnp, h⟩ :=
    sandboxLimitAlloc_cases s c
  · rw [TracksExactly, if_pos hzero, AllocState.call, h]
    exact SandboxStateData.toNat_release _ _
  · rw [TracksExactly, if_neg hzero, AllocState.call, h]
    rfl
  · rw [TracksExactly, if_neg hzero, AllocState.call, h]
    rfl
  · rw [TracksExactly, if_neg hzero, AllocState.call, h]
    exact hs.toNat_projected hc (hnp ▸ rfl)

/-! ### The cap -/

/-- The usage of a state that had `base` bytes when the allocator was installed. -/
structure MemoryCap (memLimit : Size) (base : ℕ) (s : AllocState) : Prop where
  inv : s.Inv
  limit : s.data.memLimit = memLimit
  grown : s.blocks.bytes ≤ base + s.data.memUsed.toNat
  capped : s.data.memUsed.toNat ≤ memLimit.toNat

variable {memLimit : Size} {base : ℕ}

theorem MemoryCap.call (hs : MemoryCap memLimit base s) (hlimit : memLimit ≠ 0)
    (hc : c.Legal s.blocks) : MemoryCap memLimit base (s.call c) := by
  have hbytes := hc.bytes_free hs.inv.valid.distinct
  have hgrown := hs.grown
  have hcapped := hs.capped
  have hinv := hs.inv.call hc
  obtain ⟨-, h⟩ | ⟨-, -, -, h⟩ | ⟨-, -, -, h⟩ | ⟨-, hroom, np, hnp, h⟩ :=
    sandboxLimitAlloc_cases s c
  · rw [AllocState.call, h] at hinv ⊢
    refine ⟨hinv, hs.limit, ?_, ?_⟩
    · show (free c.ptr s.blocks).bytes ≤ base + (s.data.release c.freed).toNat
      rw [SandboxStateData.toNat_release]
      omega
    · rw [SandboxStateData.toNat_release]
      exact (Nat.sub_le _ _).trans hcapped
  · rw [AllocState.call, h]
    exact hs
  · rw [AllocState.call, h]
    exact hs
  · have hsum := hs.inv.toNat_projected hc (hnp ▸ rfl)
    rw [hs.limit] at hroom
    rw [AllocState.call, h] at hinv ⊢
    refine ⟨hinv, hs.limit, ?_, ?_⟩
    · show Blocks.bytes ((np, c.nsize) :: free c.ptr s.blocks) ≤ base + BitVec.toNat _
      rw [Blocks.bytes_cons, hsum]
      show c.nsize.toNat + (free c.ptr s.blocks).bytes ≤ _
      omega
    · exact BitVec.le_def.1 (hroom.resolve_left hlimit)

end Call

/-- **The memory cap holds**, in every run of the allocator under a limit that stays as it is. -/
theorem memory_cap_holds (ptr : DataPtr) (orig : Allocator) (memLimit : Size) (blocks : Blocks)
    (calls : List AllocCall) (hlimit : memLimit ≠ 0) (hblocks : blocks.Valid)
    (hlegal : Along AllocState.call (fun s c ↦ c.Legal s.blocks)
      (.installed ptr orig memLimit blocks) calls) :
    Along AllocState.call TracksExactly (.installed ptr orig memLimit blocks) calls ∧
      let s := calls.foldl AllocState.call (.installed ptr orig memLimit blocks)
      (s.blocks.bytes : ℤ) - blocks.bytes ≤ s.data.memUsed.toNat ∧
        (s.blocks.bytes : ℤ) - blocks.bytes ≤ memLimit.toNat := by
  have hinstalled : MemoryCap memLimit blocks.bytes (.installed ptr orig memLimit blocks) :=
    ⟨AllocState.inv_installed hblocks, SandboxStateData.memLimit_setMemoryLimit ..,
      Nat.le_add_right _ _, Nat.zero_le _⟩
  refine ⟨hlegal.of_invariant (AllocState.inv_installed hblocks) (fun s c hs hc ↦ hs.call hc)
    fun s c hs hc ↦ hs.tracksExactly hc, ?_⟩
  have hcap := hlegal.invariant hinstalled fun s c hs hc ↦ hs.call hlimit hc
  have hgrown := hcap.grown
  have hcapped := hcap.capped
  constructor <;> omega

/-- A block of 1000 bytes from before the installation is freed and a smaller one allocated. -/
theorem memory_cap_holds_old :
    Along AllocState.call TracksExactly (.installed 7 (.host 0) 100 [(1, 1000)])
        [⟨some 1, 1000, 0, none⟩, ⟨none, 5, 60, some 2⟩, ⟨none, 5, 50, some 3⟩] ∧
      let s := [⟨some 1, 1000, 0, none⟩, ⟨none, 5, 60, some 2⟩,
        ⟨none, 5, 50, some 3⟩].foldl AllocState.call (.installed 7 (.host 0) 100 [(1, 1000)])
      (s.blocks.bytes : ℤ) - Blocks.bytes [(1, 1000)] ≤ s.data.memUsed.toNat ∧
        (s.blocks.bytes : ℤ) - Blocks.bytes [(1, 1000)] ≤ (100 : Size).toNat :=
  memory_cap_holds 7 (.host 0) 100 [(1, 1000)] _ (by decide) ⟨List.nodup_singleton 1, by decide⟩
    ⟨⟨by decide, by decide, by decide⟩, ⟨by decide, by decide, by decide⟩,
      ⟨by decide, by decide, by decide⟩, trivial⟩

/-! ### Shrinking a block -/

/-- A call of the allocator, or a new limit. -/
inductive AllocEvent
  | call (c : AllocCall)
  | setMemoryLimit (maxBytes : Size)

/-- The state after an event; the data lives at `ptr`. -/
def AllocState.handle (ptr : DataPtr) (s : AllocState) : AllocEvent → AllocState
  | .call c => s.call c
  | .setMemoryLimit maxBytes =>
    { s with data := (s.data.setMemoryLimit ptr (.sandboxLimitAlloc ptr) maxBytes).1 }

/-- The calls are legal. -/
def AllocEvent.Legal (s : AllocState) : AllocEvent → Prop
  | .call c => c.Legal s.blocks
  | .setMemoryLimit _ => True

/-- The call returns null, whatever `std::realloc` would have returned. -/
def Refuses (s : AllocState) (c : AllocCall) : Prop :=
  ∀ np, (sandboxLimitAlloc s { c with np }).1 = none

/-- The call asks for a block to become smaller, or to keep its size. -/
def AllocCall.Shrinks (c : AllocCall) : Prop :=
  c.ptr.isSome ∧ c.nsize ≠ 0 ∧ c.nsize ≤ c.osize

/-- A block is given no more than it has without a refusal. -/
def GrantsShrink (s : AllocState) : AllocEvent → Prop
  | .call c => c.Shrinks → ¬Refuses s c
  | .setMemoryLimit _ => True

/-- There is no limit, or a counted block leaves a usage within it, or of a larger block the new
size is within it. -/
def ShrinkFits (s : AllocState) : AllocEvent → Prop
  | .call c => c.Shrinks → s.data.memLimit = 0 ∨
      (c.osize ≤ s.data.memUsed ∧
        s.data.memUsed.toNat - (c.osize.toNat - c.nsize.toNat) ≤ s.data.memLimit.toNat) ∨
      (s.data.memUsed < c.osize ∧ c.nsize ≤ s.data.memLimit)
  | .setMemoryLimit _ => True

theorem refuses_iff {s : AllocState} {c : AllocCall} (hzero : c.nsize ≠ 0) :
    Refuses s c ↔
      s.data.memLimit ≠ 0 ∧ s.data.memLimit < s.data.release c.freed + c.nsize := by
  constructor
  · intro h
    obtain ⟨hsize, -⟩ | ⟨-, hlimit, hlt, -⟩ | ⟨-, -, hnp, -⟩ | ⟨-, -, np, -, heq⟩ :=
      sandboxLimitAlloc_cases s { c with np := some 0 }
    · exact absurd hsize hzero
    · exact ⟨hlimit, hlt⟩
    · cases hnp
    · exact absurd ((congrArg Prod.fst heq).symm.trans (h (some 0))) (by simp)
  · intro h np
    rw [sandboxLimitAlloc, if_neg hzero]
    exact congrArg Prod.fst (if_pos h)

/-- What a legal shrink would leave does not wrap around. -/
theorem AllocState.Inv.toNat_shrunk {s : AllocState} {c : AllocCall} (hs : s.Inv)
    (hc : c.Legal s.blocks) (hshrinks : c.Shrinks) :
    (s.data.release c.freed + c.nsize).toNat =
      s.data.memUsed.toNat - c.osize.toNat + c.nsize.toNat := by
  obtain ⟨hptr, -, hle⟩ := hshrinks
  have hfreed : c.freed = c.osize := if_pos hptr
  have hbytes := hc.bytes_free hs.valid.distinct
  have hfits := hs.valid.fits
  have htracked := hs.tracked
  have hle' := BitVec.le_def.1 hle
  rw [hfreed] at hbytes ⊢
  rw [BitVec.toNat_add, SandboxStateData.toNat_release, Nat.mod_eq_of_lt]
  omega

theorem AllocState.Inv.grantsShrink_iff {s : AllocState} {e : AllocEvent} (hs : s.Inv)
    (he : e.Legal s) : GrantsShrink s e ↔ ShrinkFits s e := by
  cases e with
  | setMemoryLimit maxBytes => exact Iff.rfl
  | call c =>
    refine forall_congr' fun hshrinks ↦ ?_
    have hshrunk := hs.toNat_shrunk he hshrinks
    have hle := BitVec.le_def.1 hshrinks.2.2
    rw [refuses_iff hshrinks.2.1, not_and_or, not_not, BitVec.not_lt, BitVec.le_def, hshrunk]
    refine or_congr_right ?_
    rw [BitVec.le_def, BitVec.le_def, BitVec.lt_def]
    omega

theorem AllocState.Inv.handle {ptr : DataPtr} {s : AllocState} {e : AllocEvent} (hs : s.Inv)
    (he : e.Legal s) : (s.handle ptr e).Inv := by
  cases e with
  | call c => exact hs.call he
  | setMemoryLimit maxBytes =>
    refine ⟨hs.valid, ?_⟩
    rw [AllocState.handle, SandboxStateData.memUsed_setMemoryLimit]
    exact hs.tracked

/-- **No shrink is refused** in a run exactly if at each of them what stays tracked fits. -/
theorem shrinks_granted_iff (ptr : DataPtr) (orig : Allocator) (memLimit : Size) (blocks : Blocks)
    (events : List AllocEvent) (hblocks : blocks.Valid)
    (hlegal : Along (AllocState.handle ptr) (fun s e ↦ e.Legal s)
      (.installed ptr orig memLimit blocks) events) :
    Along (AllocState.handle ptr) GrantsShrink (.installed ptr orig memLimit blocks) events ↔
      Along (AllocState.handle ptr) ShrinkFits (.installed ptr orig memLimit blocks) events :=
  along_iff hlegal (AllocState.inv_installed hblocks) (fun _ _ hs he ↦ hs.grantsShrink_iff he)
    fun _ _ hs he _ ↦ hs.handle he

/-- A block allocated under the limit shrinks. -/
theorem shrinks_granted_counted :
    Along (AllocState.handle 7) GrantsShrink (.installed 7 (.host 0) 100 [])
      [.call ⟨none, 5, 80, some 1⟩, .call ⟨some 1, 80, 30, some 1⟩] := by
  refine (shrinks_granted_iff 7 (.host 0) 100 [] _ ⟨List.nodup_nil, by decide⟩ ?_).2 ?_
  · exact ⟨⟨by decide, by decide, by decide⟩, ⟨by decide, by decide, by decide⟩, trivial⟩
  · exact ⟨fun h ↦ absurd h.1 (by decide), fun _ ↦ .inr (.inl (by decide)), trivial⟩

/-- A block of 1000 bytes that was never counted cannot shrink to 500 under a limit of 100. -/
theorem shrinks_not_granted :
    (Blocks.Valid [(1, 1000)]) ∧
      Along (AllocState.handle 7) (fun s e ↦ e.Legal s) (.installed 7 (.host 0) 100 [(1, 1000)])
        [.call ⟨some 1, 1000, 500, some 1⟩] ∧
      ¬Along (AllocState.handle 7) GrantsShrink (.installed 7 (.host 0) 100 [(1, 1000)])
        [.call ⟨some 1, 1000, 500, some 1⟩] := by
  have hrefuses : Refuses (.installed 7 (.host 0) 100 [(1, 1000)]) ⟨some 1, 1000, 500, some 1⟩ :=
    (refuses_iff (by decide)).2 (by decide)
  refine ⟨⟨List.nodup_singleton 1, by decide⟩,
    ⟨⟨by decide, by decide, by decide⟩, trivial⟩, fun h ↦ ?_⟩
  exact h.1 ⟨by decide, by decide, by decide⟩ hrefuses

end FastRules
