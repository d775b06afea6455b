import FastRules.Rule.Result
import Mathlib.Logic.Function.Basic

/-!
# Coroutine tasks

The coroutines behind `AsyncWorkflowTask` and `AsyncTask`: they run from the call up to their first
suspension, and their frame stays when they are done. `AsyncWorkflowTask::get` looks at the
exception in the promise only after it has resumed the coroutine, and so is right for a coroutine
that has suspended before its body (`get_suspend`), but not for one that is done (`get_eq_iff`).
-/

namespace FastRules

/-! ### Frames -/

/-- What is left of the body of a coroutine: it ends, with a value or an exception, or it suspends
itself first. -/
inductive CoroutineBody (α : Type)
  | finish (outcome : Except Exn α)
  | suspend (rest : CoroutineBody α)

/-- How the body ends when all of it has run. -/
def CoroutineBody.outcome {α : Type} : CoroutineBody α → Except Exn α
  | finish outcome => outcome
  | suspend rest => rest.outcome

/-- A `promise_type`. -/
structure Promise (α : Type) where
  value : α
  exception : Option Exn := none

/-- The frame of a coroutine. Nothing is left of the body at the final suspension. -/
structure Frame (α : Type) where
  promise : Promise α
  rest : Option (CoroutineBody α)

namespace Frame

variable {α : Type}

/-- `handle.done()`. -/
def done (f : Frame α) : Bool :=
  f.rest.isNone

/-- Run to the next suspension, through `return_value` or `unhandled_exception` at the end. -/
def run (promise : Promise α) : CoroutineBody α → Frame α
  | .finish (.ok value) => ⟨{ promise with value := value }, none⟩
  | .finish (.error e) => ⟨{ promise with exception := some e }, none⟩
  | .suspend rest => ⟨promise, some rest⟩

/-- `handle.resume()`. A coroutine that is done may not be resumed. -/
def resume (f : Frame α) : Frame α :=
  match f.rest with
  | some rest => run f.promise rest
  | none => f

/-- The call of a coroutine, which does not suspend before its body. -/
def create [Inhabited α] (body : CoroutineBody α) : Frame α :=
  run { value := default } body

/-- Rethrow the exception in the promise, or return the value. -/
def report (f : Frame α) : Except Exn α :=
  match f.promise.exception with
  | some e => .error e
  | none => .ok f.promise.value

/-- `AsyncWorkflowTask::get`. -/
def get (f : Frame α) : Except Exn α × Frame α :=
  if f.done then (.ok f.promise.value, f) else (f.resume.report, f.resume)

/-- `AsyncTask::get`, whose value is moved out of the promise. -/
def asyncTaskGet [Inhabited α] (f : Frame α) : Except Exn α × Frame α :=
  match f.promise.exception with
  | some e => (.error e, f)
  | none => (.ok f.promise.value, { f with promise := { f.promise with value := default } })

section Get

variable [Inhabited α]

/-- A coroutine that is done stays as it is. -/
theorem get_snd_create (outcome : Except Exn α) :
    (create (.finish outcome)).get.2 = create (.finish outcome) := by
  rcases outcome with e | value <;> rfl

/-- Of a coroutine that is done nothing but its value is reported. -/
theorem get_eq_iff (outcome : Except Exn α) :
    (create (.finish outcome)).get.1 = outcome ↔ outcome.isOk = true := by
  rcases outcome with e | value
  · exact iff_of_false (fun h ↦ by cases h) Bool.false_ne_true
  · exact iff_of_true rfl rfl

/-- A coroutine that suspends itself before it does anything else is run by `get`, with any
outcome. -/
theorem get_suspend (outcome : Except Exn α) :
    (create (.suspend (.finish outcome))).get.1 = outcome := by
  rcases outcome with e | value <;> rfl

/-- The sibling reports any outcome. -/
theorem asyncTaskGet_create (outcome : Except Exn α) :
    (asyncTaskGet (create (.finish outcome))).1 = outcome := by
  rcases outcome with e | value <;> rfl

end Get

end Frame

/-! ### Tasks -/

/-- What is done with tasks. -/
inductive TaskCall
  | get (i : ℕ)
  | move (source target : ℕ)

/-- The variables that hold tasks, with the frames they own. -/
abbrev Tasks (α : Type) := ℕ → Option (Frame α)

namespace Tasks

variable {α : Type}

/-- Ask a task for its result, or move it from one variable into another. A variable that owns no
frame may not be asked. -/
def perform (tasks : Tasks α) : TaskCall → Tasks α
  | .get i => Function.update tasks i ((tasks i).map fun f ↦ f.get.2)
  | .move source target =>
    if source = target then tasks
    else Function.update (Function.update tasks target (tasks source)) source none

def performAll (tasks : Tasks α) (calls : List TaskCall) : Tasks α :=
  calls.foldl perform tasks

/-- The call of a coroutine initialises one variable. -/
def created [Inhabited α] (body : CoroutineBody α) : Tasks α :=
  Function.update (fun _ ↦ none) 0 (some (Frame.create body))

/-- All frames are the given one. -/
def OnlyFrame (f : Frame α) (tasks : Tasks α) : Prop :=
  ∀ i g, tasks i = some g → g = f

theorem OnlyFrame.perform {f : Frame α} (hf : f.get.2 = f) {tasks : Tasks α}
    (h : tasks.OnlyFrame f) (call : TaskCall) : (tasks.perform call).OnlyFrame f := by
  intro j g hg
  cases call with
  | get i =>
    rw [Tasks.perform] at hg
    by_cases hj : j = i
    · rw [hj, Function.update_self, Option.map_eq_some_iff] at hg
      obtain ⟨g', hg', rfl⟩ := hg
      rw [h i g' hg', hf]
    · rw [Function.update_of_ne hj] at hg
      exact h j g hg
  | move source target =>
    rw [Tasks.perform] at hg
    split_ifs at hg with hsame
    · exact h j g hg
    · by_cases hsource : j = source
      · rw [hsource, Function.update_self] at hg
        cases hg
      · rw [Function.update_of_ne hsource] at hg
        by_cases htarget : j = target
        · rw [htarget, Function.update_self] at hg
          exact h source g hg
        · rw [Function.update_of_ne htarget] at hg
          exact h j g hg

theorem OnlyFrame.performAll {f : Frame α} (hf : f.get.2 = f) (calls : List TaskCall)
    {tasks : Tasks α} (h : tasks.OnlyFrame f) : (tasks.performAll calls).OnlyFrame f := by
  induction calls generalizing tasks with
  | nil => exact h
  | cons call calls ih => exact ih (h.perform hf call)

/-- Whatever was done with the task of a coroutine that is done, its frame is as it was. -/
theorem eq_create_of_performAll [Inhabited α] {outcome : Except Exn α}
    {calls : List TaskCall} {i : ℕ}
    {f : Frame α} (h : (created (.finish outcome)).performAll calls i = some f) :
    f = Frame.create (.finish outcome) := by
  refine OnlyFrame.performAll (Frame.get_snd_create outcome) calls (fun j g hg ↦ ?_) i f h
  by_cases hj : j = 0
  · rw [hj, created, Function.update_self] at hg
    exact (Option.some.inj hg).symm
  · rw [created, Function.update_of_ne hj] at hg
    cases hg

end Tasks

end FastRules
