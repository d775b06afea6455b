import Mathlib.Data.List.Basic

/-!
# Runs of events

A deterministic state machine that takes a list of events, and what holds at each of them. Where two
properties of an event agree at every state of an invariant, and the invariant survives the events
that have one of them, they agree along every run (`along_iff`).
-/

namespace EventRun

variable {σ ε : Type*}

/-- At every event of a run, `P` holds of the state before it and the event. -/
def Along (step : σ → ε → σ) (P : σ → ε → Prop) : σ → List ε → Prop
  | _, [] => True
  | s, e :: events => P s e ∧ Along step P (step s e) events

variable {step : σ → ε → σ} {P Q R : σ → ε → Prop} {Inv : σ → Prop} {s : σ} {e : ε}
  {events : List ε}

@[simp] theorem along_nil : Along step P s [] := trivial

@[simp] theorem along_cons :
    Along step P s (e :: events) ↔ P s e ∧ Along step P (step s e) events := Iff.rfl

theorem along_true (step : σ → ε → σ) (s : σ) (events : List ε) :
    Along step (fun _ _ ↦ True) s events := by
  induction events generalizing s with
  | nil => exact along_nil
  | cons e events ih => exact ⟨trivial, ih _⟩

theorem along_append {later : List ε} :
    Along step P s (events ++ later) ↔ Along step P s events ∧
      Along step P (events.foldl step s) later := by
  induction events generalizing s with
  | nil => exact (and_iff_right trivial).symm
  | cons e events ih =>
    rw [List.cons_append, along_cons, along_cons, ih, and_assoc]
    rfl

/-- A run keeps what each of its events keeps. -/
theorem Along.invariant (h : Along step P s events) (hs : Inv s)
    (hstep : ∀ s e, Inv s → P s e → Inv (step s e)) : Inv (events.foldl step s) := by
  induction events generalizing s with
  | nil => exact hs
  | cons e events ih => exact ih h.2 (hstep s e hs h.1)

/-- What an invariant gives at one event, it gives along the run. -/
theorem Along.of_invariant (h : Along step P s events) (hs : Inv s)
    (hstep : ∀ s e, Inv s → P s e → Inv (step s e)) (hQ : ∀ s e, Inv s → P s e → Q s e) :
    Along step Q s events := by
  induction events generalizing s with
  | nil => exact along_nil
  | cons e events ih => exact ⟨hQ s e hs h.1, ih h.2 (hstep s e hs h.1)⟩

/-- Two properties that agree at each event, as long as one of them has held, agree along the
run. -/
theorem along_iff (hR : Along step R s events) (hs : Inv s)
    (hiff : ∀ s e, Inv s → R s e → (P s e ↔ Q s e))
    (hstep : ∀ s e, Inv s → R s e → Q s e → Inv (step s e)) :
    Along step P s events ↔ Along step Q s events := by
  induction events generalizing s with
  | nil => exact Iff.rfl
  | cons e events ih =>
    obtain ⟨he, hevents⟩ := hR
    rw [along_cons, along_cons, hiff s e hs he]
    exact and_congr_right fun hQ ↦ ih hevents (hstep s e hs he hQ)

end EventRun
