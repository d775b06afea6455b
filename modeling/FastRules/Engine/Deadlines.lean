import FastRules.Foundations.EventRun
import FastRules.Rule.Result

/-!
# Deadlines of nested calls

A call of `LuaEngine::evaluateExpression` or `executeAction` with a timeout lets `g_deadline` point
to its own deadline, and a `DeadlineGuard` puts back what was there before when the call is left. So
a deadline survives the calls made inside of it (`CallStack.run_nested`). But a call puts in its
deadline even if that is later than the one already there: as long as such a call runs, it is beyond
the reach of the calls around it (`nestedTimeouts_iff`).
-/

namespace FastRules

/-- A pointer to the `deadline` of a call, with what is there. No deadline changes while there is a
pointer to it. -/
structure DeadlinePointer where
  /-- How many calls are around the call. -/
  frame : ℕ
  deadline : Time
  deriving DecidableEq, Repr

/-- The local variables of a call. -/
structure CallFrame where
  /-- `deadline`, if there is a timeout. -/
  deadline : Option Time
  /-- `DeadlineGuard::previous`. -/
  previous : Option DeadlinePointer
  deriving DecidableEq, Repr

/-- The calls of engines on a thread, the innermost one first. -/
structure CallStack where
  /-- `g_deadline`. -/
  active : Option DeadlinePointer := none
  frames : List CallFrame := []
  deriving DecidableEq, Repr

/-- The ways to leave a call. -/
inductive Leaving
  | returns
  | throws
  deriving DecidableEq, Repr

/-- What happens to `g_deadline`. -/
inductive CallEvent
  /-- A call of `evaluateExpression` or `executeAction` gets to its guard. The timeout is in
  milliseconds. -/
  | call (timeout : Option Int) (now : Time)
  | leave (way : Leaving)
  deriving DecidableEq, Repr

/-- `now() + timeout.value()` if `hasTimeout`. -/
def deadlineOf (timeout : Option Int) (now : Time) : Option Time :=
  timeout.bind fun t ↦ if 0 < t then some (now + t * 1000000) else none

namespace CallStack

variable (s : CallStack)

def step : CallEvent → CallStack
  | .call timeout now =>
    { active := ((deadlineOf timeout now).map (DeadlinePointer.mk s.frames.length)).or s.active
      frames := ⟨deadlineOf timeout now, s.active⟩ :: s.frames }
  | .leave _ =>
    match s.frames with
    | [] => s
    | frame :: frames => { active := frame.previous, frames }

/-- The condition of the hook that ends a chunk. -/
def timesOut (now : Time) : Bool :=
  s.active.any fun p ↦ p.deadline < now

/-- The deadline is no later than those of the calls. -/
def BoundedBy (active : Option DeadlinePointer) (frames : List CallFrame) : Prop :=
  ∀ frame ∈ frames, ∀ d ∈ frame.deadline, ∃ p ∈ active, p.deadline ≤ d

/-- `g_deadline` is no later than the deadline of any call that runs. -/
def Bounded : Prop :=
  BoundedBy s.active s.frames

/-- A call that is made has no later deadline than the calls that run. -/
def Tightens : CallEvent → Prop
  | .call timeout now =>
    ∀ d ∈ deadlineOf timeout now, ∀ frame ∈ s.frames, ∀ d' ∈ frame.deadline, d ≤ d'
  | .leave _ => True

variable {s}

/-- Where `g_deadline` is bounded, no chunk outlives the deadline of a call around it. -/
theorem Bounded.timesOut (h : s.Bounded) {frame : CallFrame} (hframe : frame ∈ s.frames)
    {d now : Time} (hd : d ∈ frame.deadline) (hnow : d < now) : s.timesOut now = true := by
  obtain ⟨p, hp, hle⟩ := h frame hframe d hd
  rw [CallStack.timesOut, Option.mem_def.1 hp]
  exact decide_eq_true (hle.trans_lt hnow)

/-! ### Calls that are left -/

/-- Calls with the calls inside of them, all of which are left. -/
inductive Nested : List CallEvent → Prop
  | nil : Nested []
  | call {body rest : List CallEvent} (timeout : Option Int) (now : Time) (way : Leaving) :
    Nested body → Nested rest → Nested (.call timeout now :: (body ++ .leave way :: rest))

/-- Calls that are left again leave everything as it was. -/
theorem run_nested {events : List CallEvent} (h : Nested events) (s : CallStack) :
    events.foldl step s = s := by
  induction h generalizing s with
  | nil => rfl
  | call timeout now way _ _ hbody hrest =>
    rw [List.foldl_cons, List.foldl_append, hbody, List.foldl_cons]
    exact hrest s

/-! ### Calls that run -/

/-- What was active when each of the calls was made was bounded by the calls around it. -/
def StackedOver : Option DeadlinePointer → List CallFrame → Prop
  | _, [] => True
  | active, frame :: frames =>
    BoundedBy active (frame :: frames) ∧ StackedOver frame.previous frames

variable (s) in
/-- `g_deadline` is bounded, and stays so when calls are left. -/
def Stacked : Prop :=
  StackedOver s.active s.frames

theorem Stacked.bounded (h : s.Stacked) : s.Bounded := by
  rw [Stacked] at h
  rw [Bounded]
  rcases hframes : s.frames with - | ⟨frame, frames⟩
  · exact fun frame hframe ↦ absurd hframe List.not_mem_nil
  · rw [hframes] at h
    exact h.1

/-- A call keeps the deadlines around it exactly if it has no later one. -/
theorem Stacked.bounded_call_iff (h : s.Stacked) (timeout : Option Int)
    (now : Time) : (s.step (.call timeout now)).Bounded ↔ s.Tightens (.call timeout now) := by
  have hbounded : BoundedBy s.active s.frames := h.bounded
  rw [Bounded, step, Tightens]
  rcases deadlineOf timeout now with - | d
  · refine iff_of_true (fun frame hframe d' hd' ↦ ?_) fun d hd ↦ absurd hd (Option.not_mem_none d)
    rcases List.mem_cons.1 hframe with rfl | hframe
    · exact absurd hd' (Option.not_mem_none d')
    · exact hbounded frame hframe d' hd'
  · constructor
    · rintro hnew d' ⟨⟩ frame hframe d' hd'
      obtain ⟨p, ⟨⟩, hle⟩ := hnew frame (List.mem_cons_of_mem _ hframe) d' hd'
      exact hle
    · intro htightens frame hframe d' hd'
      refine ⟨⟨s.frames.length, d⟩, rfl, ?_⟩
      rcases List.mem_cons.1 hframe with rfl | hframe
      · exact (Option.some.inj hd').le
      · exact htightens d rfl frame hframe d' hd'

theorem Stacked.leave (h : s.Stacked) (way : Leaving) : (s.step (.leave way)).Stacked := by
  rcases hframes : s.frames with - | ⟨frame, frames⟩
  · simpa only [step, hframes] using h
  · rw [Stacked, hframes] at h
    simp only [step, hframes]
    exact h.2

theorem Stacked.bounded_iff (h : s.Stacked) (e : CallEvent) :
    (s.step e).Bounded ↔ s.Tightens e := by
  cases e with
  | call timeout now => exact h.bounded_call_iff timeout now
  | leave way => exact iff_of_true (h.leave way).bounded trivial

/-- Every event that keeps the deadlines keeps the stack so. -/
theorem Stacked.step (h : s.Stacked) {e : CallEvent} (he : s.Tightens e) : (s.step e).Stacked := by
  cases e with
  | call timeout now => exact ⟨(h.bounded_call_iff timeout now).2 he, h⟩
  | leave way => exact h.leave way

end CallStack

open CallStack in
/-- **Nested timeouts.** However calls are nested and left: `g_deadline` is at every moment bounded
by all calls that run exactly if no call is made with a later deadline than one of them, and when a
call is left, `g_deadline` is what it was when the call was made. -/
theorem nestedTimeouts_iff (events : List CallEvent) :
    (EventRun.Along step (fun s e ↦ (s.step e).Bounded) {} events ↔
      EventRun.Along step Tightens {} events) ∧
    ∀ before timeout now body way after,
      events = before ++ .call timeout now :: (body ++ .leave way :: after) → Nested body →
      ((before ++ .call timeout now :: (body ++ [.leave way])).foldl step {}).active =
        (before.foldl step {}).active := by
  constructor
  · have hstart : ({} : CallStack).Stacked := trivial
    exact EventRun.along_iff (EventRun.along_true _ _ _) hstart (fun _ e h _ ↦ h.bounded_iff e)
      fun _ _ h _ htightens ↦ h.step htightens
  · rintro before timeout now body way after - hbody
    rw [List.foldl_append, run_nested (.call timeout now way hbody .nil)]

/-- A rule with 10 milliseconds whose callback evaluates a rule with one second. -/
def patientCallback : List CallEvent :=
  [.call (some 10) 0, .call (some 1000) 2000000, .leave .returns, .leave .throws]

/-- While the callback runs, the rule is not ended in time. -/
theorem patientCallback_not_bounded :
    ¬EventRun.Along CallStack.step (fun s e ↦ (s.step e).Bounded) {} patientCallback ∧
      ((patientCallback.take 2).foldl CallStack.step {}).timesOut 500000000 = false := by
  refine ⟨fun h ↦ ?_, by decide⟩
  have hframe : CallFrame.mk (some 10000000) none ∈
      ((patientCallback.take 2).foldl CallStack.step {}).frames := by
    decide
  have hlate := h.2.1.timesOut hframe rfl (show (10000000 : Time) < 500000000 by decide)
  exact absurd hlate (by decide)

end FastRules
