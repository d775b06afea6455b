import FastRules.Sandbox.StateData
import Mathlib.Logic.Function.Basic
import Mathlib.Data.List.Infix
import Mathlib.Tactic.Linarith
import Mathlib.Tactic.Ring

/-!
# The instruction limit

`sandboxInstructionHook` under the hook calls of the Lua virtual machine. Each thread has its own
slot with its own count; a coroutine takes over the slot of its creator. Every call of the hook adds
1000 to the count of the state, whatever made the machine call it: the interval can be shorter where
a displaced hook had a smaller count, and the lines, calls and returns a displaced hook asked for
count as well. A displaced hook that raises an error keeps the call from being counted.

So the counter says how often the hook ran, not how many instructions were executed
(`Accounting.run_raises`), and the limit is kept exactly if the calls come in time
(`instructionLimit_iff`). They do in a program of one thread where nothing but a count hook was
displaced, unless its count is too small for the limit (`onBudget_of_counted`).
-/

namespace FastRules

/-! ### The hooks of a Lua thread -/

/-- The slot of a thread with the instructions that are left until the next count event. -/
structure ThreadHook where
  slot : HookSlot
  remaining : Int

/-- What a thread does that a hook can see. -/
inductive HookEvent
  | instruction
  | line
  | call
  | ret
  deriving DecidableEq

namespace ThreadHook

/-- `lua_sethook` starts the count afresh, and so does a new thread. -/
def ofSlot (slot : HookSlot) : ThreadHook where
  slot := slot
  remaining := slot.count

/-- Whether an event is one to call the hook for. -/
def step (t : ThreadHook) : HookEvent → ThreadHook × Bool
  | .instruction =>
    if t.slot.mask.count then
      if t.remaining - 1 = 0 then (ofSlot t.slot, true)
      else ({ t with remaining := t.remaining - 1 }, false)
    else (t, false)
  | .line => (t, t.slot.mask.line)
  | .call => (t, t.slot.mask.call)
  | .ret => (t, t.slot.mask.ret)

end ThreadHook

/-! ### The hook of the sandbox -/

/-- How a call of the hook ends. -/
inductive HookOutcome
  | returned
  | chainedError
  | limitExceeded (message : String)
  deriving DecidableEq

/-- What each call of the hook adds to the counter. -/
def SandboxStateData.charge (d : SandboxStateData) : SandboxStateData :=
  { d with instructionCount := d.instructionCount + BitVec.ofNat 64 kInstructionHookStep }

/-- `sandboxInstructionHook` on the data it finds in the registry; `chainedRaises` says whether the
displaced hook raises an error. -/
def sandboxInstructionHook (d : SandboxStateData) (chainedRaises : Bool) :
    HookOutcome × SandboxStateData :=
  if (d.chainedHook ≠ none ∧ d.chainedHook ≠ some .sandboxInstructionHook) ∧ chainedRaises then
    (.chainedError, d)
  else if d.instructionLimit = 0 then
    (.returned, d)
  else if d.instructionLimit < d.charge.instructionCount then
    let limit := (d.instructionLimit.setWidth 32).toInt
    (.limitExceeded s!"Sandbox instruction limit exceeded ({limit})", d.charge)
  else (.returned, d.charge)

/-! ### Programs -/

/-- What happens while a program runs: a thread does something, possibly on behalf of a hook, when
no hook is called; or it creates a coroutine. -/
inductive VmEvent
  | step (thread : ℕ) (event : HookEvent) (inHook chainedRaises : Bool)
  | spawn (parent child : ℕ)

/-- If the hook is called now, the displaced hook raises an error. -/
def VmEvent.chainedRaises : VmEvent → Bool
  | .step _ _ _ chainedRaises => chainedRaises
  | .spawn _ _ => false

/-- The hooks of the threads and the number of instructions that they have executed. -/
structure Vm where
  threads : ℕ → Option ThreadHook
  executed : ℕ

namespace Vm

/-- An instruction is counted as executed before its count event. -/
def execute (vm : Vm) (event : HookEvent) : Vm :=
  if event = .instruction then { vm with executed := vm.executed + 1 } else vm

/-- The machine after an event, and whether it calls the hook of the sandbox. -/
def step (vm : Vm) : VmEvent → Vm × Bool
  | .step thread event inHook _ =>
    match vm.threads thread with
    | none => (vm.execute event, false)
    | some t =>
      ({ vm.execute event with
          threads := Function.update vm.threads thread (some (t.step event).1) },
        (t.step event).2 && !inHook && t.slot.hook = .sandboxInstructionHook)
  | .spawn parent child =>
    ({ vm with
        threads := Function.update vm.threads child
          ((vm.threads parent).map fun t ↦ .ofSlot t.slot) },
      false)

/-- The machine after a program. -/
def run (vm : Vm) (events : List VmEvent) : Vm :=
  events.foldl (fun vm e ↦ (vm.step e).1) vm

/-- The calls of the hook of the sandbox in which the displaced hook, if there is one, returns: how
many instructions have been executed at each. -/
def hookCalls (chained : Bool) : Vm → List VmEvent → List ℕ
  | _, [] => []
  | vm, e :: events =>
    let vm' := (vm.step e).1
    if (vm.step e).2 && !(chained && e.chainedRaises) then
      vm'.executed :: vm'.hookCalls chained events
    else vm'.hookCalls chained events

end Vm

/-- A state and the data of its sandbox. `raises` has the number of executed instructions at each
error of the limit. -/
structure Accounting where
  vm : Vm
  data : SandboxStateData
  raises : List ℕ

namespace Accounting

/-- The virtual machine calls the hook. -/
def callHook (s : Accounting) (chainedRaises : Bool) : Accounting :=
  match sandboxInstructionHook s.data chainedRaises with
  | (.limitExceeded _, d) => { s with data := d, raises := s.raises ++ [s.vm.executed] }
  | (_, d) => { s with data := d }

/-- The state after an event. -/
def step (s : Accounting) (e : VmEvent) : Accounting :=
  let s' := { s with vm := (s.vm.step e).1 }
  if (s.vm.step e).2 then s'.callHook e.chainedRaises else s'

/-- The state after a program. -/
def run (s : Accounting) (events : List VmEvent) : Accounting :=
  events.foldl step s

/-- `setInstructionLimit` on a state whose threads carry these hooks. -/
def start (d : SandboxStateData) (threads : ℕ → Option ThreadHook) (main : ℕ)
    (maxInstructions : Size) : Accounting :=
  let slot := (threads main).map ThreadHook.slot
  { vm :=
      { threads := Function.update threads main
          ((d.setInstructionLimit slot maxInstructions).2.map .ofSlot)
        executed := 0 }
    data := (d.setInstructionLimit slot maxInstructions).1
    raises := [] }

end Accounting

/-! ### When the limit is exceeded -/

/-- After so many calls the counter, which is a `size_t`, is above the limit. -/
def Exceeds (limit : Size) (calls : ℕ) : Prop :=
  limit.toNat < kInstructionHookStep * calls % 2 ^ 64

instance (limit : Size) (calls : ℕ) : Decidable (Exceeds limit calls) :=
  inferInstanceAs (Decidable (_ < _))

/-- The calls, after `before` others, that find the counter above the limit. -/
def overLimit (limit : Size) : ℕ → List ℕ → List ℕ
  | _, [] => []
  | before, n :: calls =>
    if Exceeds limit (before + 1) then n :: overLimit limit (before + 1) calls
    else overLimit limit (before + 1) calls

theorem mem_overLimit {limit : Size} {before n : ℕ} {calls : List ℕ} :
    n ∈ overLimit limit before calls ↔
      ∃ i, calls[i]? = some n ∧ Exceeds limit (before + i + 1) := by
  induction calls generalizing before with
  | nil => simp [overLimit]
  | cons m calls ih =>
    have hsplit : (∃ i, (m :: calls)[i]? = some n ∧ Exceeds limit (before + i + 1)) ↔
        (n = m ∧ Exceeds limit (before + 1)) ∨ n ∈ overLimit limit (before + 1) calls := by
      rw [ih]
      constructor
      · rintro ⟨i | i, hi, hexceeds⟩
        · exact .inl ⟨(Option.some.inj hi).symm, hexceeds⟩
        · exact .inr ⟨i, hi, by rwa [Nat.add_right_comm before 1 i]⟩
      · rintro (⟨rfl, hexceeds⟩ | ⟨i, hi, hexceeds⟩)
        · exact ⟨0, rfl, hexceeds⟩
        · exact ⟨i + 1, hi, by rwa [← Nat.add_assoc, Nat.add_right_comm before i 1]⟩
    rw [hsplit, overLimit]
    split_ifs with h
    · rw [List.mem_cons, and_iff_left h]
    · exact (or_iff_right fun hn ↦ h hn.2).symm

/-! ### What the counter says -/

/-- A hook other than the sandbox's own is chained. -/
def SandboxStateData.chains (d : SandboxStateData) : Bool :=
  d.chainedHook ≠ none ∧ d.chainedHook ≠ some .sandboxInstructionHook

theorem SandboxStateData.limit_charge (d : SandboxStateData) :
    d.charge.instructionLimit = d.instructionLimit := by
  rw [charge]

theorem SandboxStateData.chains_charge (d : SandboxStateData) : d.charge.chains = d.chains := by
  rw [chains, chains, charge]

/-- The counter after so many calls under a limit. -/
structure CountsCalls (limit : Size) (chained : Bool) (calls : ℕ) (d : SandboxStateData) :
    Prop where
  limit : d.instructionLimit = limit
  chains : d.chains = chained
  count : d.instructionCount.toNat = kInstructionHookStep * calls % 2 ^ 64

section Hook

variable {limit : Size} {chained : Bool} {calls : ℕ} {d : SandboxStateData}

/-- A call in which the displaced hook raises an error is not counted. -/
theorem CountsCalls.chainedError (h : CountsCalls limit chained calls d)
    {chainedRaises : Bool} (hraises : (chained && chainedRaises) = true) :
    sandboxInstructionHook d chainedRaises = (.chainedError, d) := by
  rw [← h.chains, Bool.and_eq_true, SandboxStateData.chains, decide_eq_true_iff] at hraises
  exact if_pos hraises

/-- Any other call is counted, and raises the error if that brings the counter above the limit. -/
theorem CountsCalls.counted (h : CountsCalls limit chained calls d) (hlimit : limit ≠ 0)
    {chainedRaises : Bool} (hraises : (chained && chainedRaises) = false) :
    ∃ d', CountsCalls limit chained (calls + 1) d' ∧
      (Exceeds limit (calls + 1) →
        ∃ message, sandboxInstructionHook d chainedRaises = (.limitExceeded message, d')) ∧
      (¬Exceeds limit (calls + 1) →
        sandboxInstructionHook d chainedRaises = (.returned, d')) := by
  have hcount : d.charge.instructionCount.toNat = kInstructionHookStep * (calls + 1) % 2 ^ 64 := by
    rw [SandboxStateData.charge, BitVec.toNat_add, h.count, BitVec.toNat_ofNat, ← Nat.add_mod,
      Nat.mul_succ]
  have hchained : ¬((d.chainedHook ≠ none ∧ d.chainedHook ≠ some .sandboxInstructionHook) ∧
      chainedRaises = true) := by
    rw [← h.chains, SandboxStateData.chains] at hraises
    simpa using hraises
  have hzero : d.instructionLimit ≠ 0 := h.limit.symm ▸ hlimit
  have hiff : d.instructionLimit < d.charge.instructionCount ↔ Exceeds limit (calls + 1) := by
    rw [BitVec.lt_def, hcount, h.limit, Exceeds]
  refine ⟨d.charge, ⟨d.limit_charge.trans h.limit, d.chains_charge.trans h.chains, hcount⟩,
    fun hexceeds ↦ ?_, fun hexceeds ↦ ?_⟩
  · rw [sandboxInstructionHook, if_neg hchained, if_neg hzero, if_pos (hiff.2 hexceeds)]
    exact ⟨_, rfl⟩
  · rw [sandboxInstructionHook, if_neg hchained, if_neg hzero, if_neg (mt hiff.1 hexceeds)]

end Hook

namespace Accounting

variable {limit : Size} {chained : Bool} {calls : ℕ} {s : Accounting}

theorem step_vm (e : VmEvent) : (s.step e).vm = (s.vm.step e).1 := by
  rw [step]
  split_ifs
  · rw [callHook]
    split <;> rfl
  · rfl

theorem run_vm (s : Accounting) (events : List VmEvent) : (s.run events).vm = s.vm.run events := by
  induction events generalizing s with
  | nil => rfl
  | cons e events ih =>
    rw [run, List.foldl_cons, ← run, ih, step_vm]
    rfl

/-- The errors of the limit, in every program, are the calls that find the counter above it. -/
theorem run_raises (h : CountsCalls limit chained calls s.data) (hlimit : limit ≠ 0)
    (events : List VmEvent) :
    (s.run events).raises = s.raises ++ overLimit limit calls (s.vm.hookCalls chained events) := by
  induction events generalizing s calls with
  | nil => exact (List.append_nil _).symm
  | cons e events ih =>
    rw [run, List.foldl_cons, ← run, Vm.hookCalls, step]
    cases hcalled : (s.vm.step e).2 with
    | false =>
      simp only [Bool.false_eq_true, if_false, Bool.false_and]
      exact ih h
    | true =>
      simp only [if_true, Bool.true_and, Bool.not_eq_true']
      cases hraises : chained && e.chainedRaises with
      | true =>
        simp only [callHook, h.chainedError hraises, Bool.true_eq_false, if_false]
        exact ih h
      | false =>
        obtain ⟨d, hd, hover, hbelow⟩ := h.counted hlimit hraises
        rw [if_pos rfl]
        by_cases hexceeds : Exceeds limit (calls + 1)
        · obtain ⟨message, hhook⟩ := hover hexceeds
          rw [overLimit, if_pos hexceeds]
          simp only [callHook, hhook]
          rw [ih hd, List.append_assoc, List.singleton_append]
        · rw [overLimit, if_neg hexceeds]
          simp only [callHook, hbelow hexceeds]
          exact ih hd

/-- The count of the hook that `setInstructionLimit` installs. -/
def interval (s : Accounting) : ℕ :=
  s.data.hookCount.toNat

theorem countsCalls_start (d : SandboxStateData) (threads : ℕ → Option ThreadHook) (main : ℕ)
    (limit : Size) :
    CountsCalls limit (start d threads main limit).data.chains 0
      (start d threads main limit).data := by
  refine ⟨?_, rfl, ?_⟩
  · rw [start, SandboxStateData.setInstructionLimit_fst]
    exact SandboxStateData.instructionLimit_captureHook _ _
  · rw [start, SandboxStateData.setInstructionLimit_fst]
    exact congrArg BitVec.toNat (SandboxStateData.instructionCount_captureHook _ _)

end Accounting

/-! ### Keeping the budget -/

/-- No error of the limit before so many instructions are executed, and one no later than an
interval after 1000 more. -/
def OnBudget (limit : Size) (interval : ℕ) (s : Accounting) : Prop :=
  (∀ n ∈ s.raises, limit.toNat ≤ n) ∧
    (limit.toNat + 1000 + interval < s.vm.executed →
      ∃ n ∈ s.raises, n ≤ limit.toNat + 1000 + interval)

/-- The calls of the hook that bring 1000 times their number above the limit come no earlier than
that, and one of them no later. -/
def CalledInTime (limit : Size) (interval executed : ℕ) (calls : List ℕ) : Prop :=
  (∀ i n, calls[i]? = some n → Exceeds limit (i + 1) → limit.toNat ≤ n) ∧
    (limit.toNat + 1000 + interval < executed →
      ∃ i n, calls[i]? = some n ∧ Exceeds limit (i + 1) ∧ n ≤ limit.toNat + 1000 + interval)

theorem Accounting.onBudget_run_iff (d : SandboxStateData) (threads : ℕ → Option ThreadHook)
    (main : ℕ) {limit : Size} (hlimit : limit ≠ 0) (interval : ℕ) (events : List VmEvent) :
    OnBudget limit interval ((start d threads main limit).run events) ↔
      CalledInTime limit interval ((start d threads main limit).vm.run events).executed
        ((start d threads main limit).vm.hookCalls (start d threads main limit).data.chains
          events) := by
  have hraises := run_raises (countsCalls_start d threads main limit) hlimit events
  have hmem (n : ℕ) : n ∈ ((start d threads main limit).run events).raises ↔
      ∃ i, ((start d threads main limit).vm.hookCalls
        (start d threads main limit).data.chains events)[i]? = some n ∧
        Exceeds limit (i + 1) := by
    rw [hraises, start, List.nil_append, mem_overLimit]
    simp only [Nat.zero_add]
  rw [OnBudget, CalledInTime, run_vm]
  simp only [hmem]
  refine and_congr ⟨fun h i n hi hexceeds ↦ h n ⟨i, hi, hexceeds⟩, ?_⟩
    (imp_congr_right fun _ ↦ ⟨?_, ?_⟩)
  · rintro h n ⟨i, hi, hexceeds⟩
    exact h i n hi hexceeds
  · rintro ⟨n, ⟨i, hi, hexceeds⟩, hle⟩
    exact ⟨i, n, hi, hexceeds, hle⟩
  · rintro ⟨i, n, hi, hexceeds, hle⟩
    exact ⟨n, ⟨i, hi, hexceeds⟩, hle⟩

/-! ### Programs of one thread -/

/-- The event is one of a thread, outside of hooks, and the displaced hook returns. -/
def VmEvent.Plain (main : ℕ) : VmEvent → Prop
  | .step thread _ inHook chainedRaises =>
    thread = main ∧ inHook = false ∧ chainedRaises = false
  | .spawn _ _ => False

namespace Vm

variable {slot : HookSlot} {main calls : ℕ} {vm : Vm}

/-- A thread has made so many calls of a count hook, each after `slot.count` instructions. -/
def Counts (slot : HookSlot) (main calls : ℕ) (vm : Vm) : Prop :=
  ∃ remaining, vm.threads main = some ⟨slot, remaining⟩ ∧ 0 < remaining ∧
    (vm.executed : ℤ) + remaining = slot.count * (calls + 1)

/-- An instruction is the last one of an interval, or there is no call. -/
theorem Counts.step (h : vm.Counts slot main calls) (hcount : 0 < slot.count)
    (hhook : slot.hook = .sandboxInstructionHook) (hmask : slot.mask = { count := true })
    {e : VmEvent} (he : e.Plain main) :
    ((vm.step e).2 = true ∧ (((vm.step e).1.executed : ℕ) : ℤ) = slot.count * (calls + 1) ∧
        (vm.step e).1.Counts slot main (calls + 1)) ∨
      ((vm.step e).2 = false ∧ (vm.step e).1.Counts slot main calls) := by
  obtain ⟨remaining, hthread, hpos, hsum⟩ := h
  cases e with
  | spawn parent child => exact he.elim
  | step thread event inHook chainedRaises =>
    obtain ⟨rfl, rfl, -⟩ := he
    rw [Vm.step, hthread]
    cases event with
    | instruction =>
      by_cases hlast : remaining - 1 = 0
      · have hexecuted : ((vm.executed + 1 : ℕ) : ℤ) = slot.count * (calls + 1) := by
          push_cast
          linarith
        refine .inl ⟨?_, hexecuted, slot.count, ?_, hcount, ?_⟩
        · simp [ThreadHook.step, hmask, hlast, hhook]
        · simp [ThreadHook.step, hmask, hlast, ThreadHook.ofSlot]
        · refine (congrArg (· + slot.count) hexecuted).trans ?_
          push_cast
          ring
      · refine .inr ⟨?_, remaining - 1, ?_, by omega, ?_⟩
        · simp [ThreadHook.step, hmask, hlast]
        · simp [ThreadHook.step, hmask, hlast]
        · refine Eq.trans ?_ hsum
          show ((vm.executed + 1 : ℕ) : ℤ) + (remaining - 1) = vm.executed + remaining
          push_cast
          ring
    | line | call | ret => exact .inr ⟨by simp [ThreadHook.step, hmask],
        remaining, by simp [ThreadHook.step], hpos, hsum⟩

/-- The calls come at the multiples of the count. -/
theorem Counts.run (h : vm.Counts slot main calls) (hcount : 0 < slot.count)
    (hhook : slot.hook = .sandboxInstructionHook) (hmask : slot.mask = { count := true })
    (chained : Bool) {events : List VmEvent} (hevents : ∀ e ∈ events, e.Plain main) :
    (∀ i n : ℕ, (vm.hookCalls chained events)[i]? = some n →
        (n : ℤ) = slot.count * (calls + i + 1)) ∧
      (vm.run events).Counts slot main (calls + (vm.hookCalls chained events).length) := by
  induction events generalizing vm calls with
  | nil => exact ⟨fun i n hi ↦ by simp [hookCalls] at hi, h⟩
  | cons e events ih =>
    rw [List.forall_mem_cons] at hevents
    have hraises : e.chainedRaises = false := by
      cases e with
      | step thread event inHook chainedRaises => exact hevents.1.2.2
      | spawn parent child => rfl
    rw [hookCalls, hraises, Bool.and_false, Bool.not_false, Bool.and_true, Vm.run, List.foldl_cons,
      ← Vm.run]
    obtain ⟨hcalled, hexecuted, hnext⟩ | ⟨hcalled, hnext⟩ := h.step hcount hhook hmask hevents.1
    · obtain ⟨hcalls, hrun⟩ := ih hnext hevents.2
      rw [if_pos hcalled]
      refine ⟨?_, by rwa [List.length_cons, ← Nat.add_assoc, Nat.add_right_comm]⟩
      rintro (_ | i) n hi
      · rw [← Option.some.inj hi, hexecuted, Nat.cast_zero, add_zero]
      · rw [hcalls i n hi]
        push_cast
        ring
    · rw [if_neg (by simp [hcalled])]
      exact ih hnext hevents.2

end Vm

theorem Accounting.counts_start (d : SandboxStateData) (threads : ℕ → Option ThreadHook)
    (main : ℕ) {limit : Size} (hlimit : limit ≠ 0) :
    (start d threads main limit).vm.Counts
      { hook := .sandboxInstructionHook
        mask := { (start d threads main limit).data.chainedMask with count := true }
        count := (start d threads main limit).data.hookCount } main 0 := by
  refine ⟨(start d threads main limit).data.hookCount, ?_, SandboxStateData.hookCount_pos _, ?_⟩
  · rw [start, SandboxStateData.setInstructionLimit_snd _ _ hlimit]
    exact Function.update_self ..
  · simp [start]

/-- **A program of one thread keeps the limit** if at most a count hook was displaced and its count
is not too small for the limit. -/
theorem onBudget_of_counted (d : SandboxStateData) (threads : ℕ → Option ThreadHook) (main : ℕ)
    {limit : Size} (hlimit : limit ≠ 0) (hsize : limit.toNat + 1000 < 2 ^ 64)
    (hmask : ∃ count, (Accounting.start d threads main limit).data.chainedMask = { count })
    (hcount : limit.toNat ≤
      (Accounting.start d threads main limit).interval * (limit.toNat / 1000 + 1))
    {events : List VmEvent} (hevents : ∀ e ∈ events, e.Plain main) :
    OnBudget limit (Accounting.start d threads main limit).interval
      ((Accounting.start d threads main limit).run events) := by
  rw [Accounting.onBudget_run_iff d threads main hlimit]
  have hpos := (Accounting.start d threads main limit).data.hookCount_pos
  have hle := (Accounting.start d threads main limit).data.hookCount_le
  have hstart := Accounting.counts_start d threads main hlimit
  generalize Accounting.start d threads main limit = s at *
  obtain ⟨count, hmask⟩ := hmask
  obtain ⟨hcalls, remaining, -, hremaining, hsum⟩ :=
    hstart.run hpos rfl (by rw [hmask]) s.data.chains hevents
  have hinterval : (s.interval : ℤ) = s.data.hookCount := Int.toNat_of_nonneg hpos.le
  have hstep : s.interval ≤ 1000 := by
    rw [← Int.ofNat_le, hinterval]
    exact hle
  have hcall (i n : ℕ) (hi : (s.vm.hookCalls s.data.chains events)[i]? = some n) :
      n = s.interval * (i + 1) := by
    rw [← Int.ofNat_inj, hcalls i n hi, ← hinterval]
    push_cast
    ring
  -- the call that brings the counter above the limit
  have hfirst : s.interval * (limit.toNat / 1000 + 1) ≤ limit.toNat + 1000 :=
    (Nat.mul_le_mul_right _ hstep).trans (by omega)
  refine ⟨fun i n hi hexceeds ↦ ?_, fun hlt ↦ ?_⟩
  · have habove : limit.toNat < 1000 * (i + 1) := lt_of_lt_of_le hexceeds (Nat.mod_le _ _)
    rw [hcall i n hi]
    exact hcount.trans (Nat.mul_le_mul_left _ (by omega))
  · have hlength : limit.toNat / 1000 < (s.vm.hookCalls s.data.chains events).length := by
      by_contra hshort
      have hexecuted : (s.vm.run events).executed <
          s.interval * ((s.vm.hookCalls s.data.chains events).length + 1) := by
        rw [← Int.ofNat_lt]
        push_cast at hsum ⊢
        rw [hinterval]
        linarith
      have hfew : (s.vm.run events).executed < limit.toNat + 1000 :=
        (hexecuted.trans_le (Nat.mul_le_mul_left _ (Nat.succ_le_succ (not_lt.1 hshort)))).trans_le
          hfirst
      omega
    refine ⟨limit.toNat / 1000, _, List.getElem?_eq_getElem hlength, ?_, ?_⟩
    · rw [Exceeds, kInstructionHookStep, Nat.mod_eq_of_lt] <;> omega
    · rw [hcall _ _ (List.getElem?_eq_getElem hlength)]
      exact hfirst.trans (Nat.le_add_right _ _)

end FastRules
