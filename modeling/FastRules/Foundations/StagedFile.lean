import FastRules.Foundations.Program

/-!
# Replacing a file through a second one

A target file and a file beside it, and what may become of them at each request of a program that
writes: any request may fail, a stream that fails loses what it likes, and a rename is done or not.
`files P` permits a request only while `P` holds of the target, so that a program that ensures
something under it never has a target in between of which `P` does not hold.
-/

namespace StagedFile

/-- Two files and the stream that the second one is written through. -/
structure Files where
  /-- The contents of the target, if there is one. -/
  target : Option String
  /-- The contents of the file beside it, if there is one. -/
  staged : Option String := none
  /-- What was written to the stream and is not in the file yet. -/
  buffered : String := ""
  /-- Nothing has failed on the stream. -/
  good : Bool := false

/-- The requests. -/
inductive Op
  /-- Open the staged file, emptied; the answer is whether it is open. -/
  | openStaged
  | write (text : String)
  /-- Flush the stream; the answer is whether nothing has failed on it. -/
  | flush
  /-- Rename the staged file to the target; the answer is whether that was done. -/
  | rename
  | removeStaged

/-- The answers. -/
abbrev Op.Ans : Op → Type
  | openStaged | flush | rename => Bool
  | write _ | removeStaged => Unit

/-- What may become of the files. -/
def Step : (op : Op) → Files → op.Ans → Files → Prop
  | .openStaged, s, opened, s' =>
    s' = if opened then ⟨s.target, some "", "", true⟩ else s
  | .write text, s, _, s' =>
    ∃ out rest lost good, s.buffered ++ text = out ++ rest ++ lost ∧
      (good = true → s.good = true ∧ lost = "") ∧
      s' = ⟨s.target, s.staged.map (· ++ out), rest, good⟩
  | .flush, s, good, s' =>
    ∃ out lost, s.buffered = out ++ lost ∧ (good = true → s.good = true ∧ lost = "") ∧
      s' = ⟨s.target, s.staged.map (· ++ out), "", good⟩
  | .rename, s, done, s' =>
    if done then s.staged.isSome ∧ s' = { s with target := s.staged, staged := none } else s' = s
  | .removeStaged, s, _, s' => s' = s ∨ s' = { s with staged := none }

/-- The files, for programs that keep `P` of the target. -/
def files (P : Option String → Prop) : Program.Interface Op Op.Ans Files where
  pre _ s := P s.target
  step := Step

/-! ### What the requests do -/

variable {s s' : Files} {t text : String}

/-- Only a rename changes the target. -/
theorem Step.target_eq {op : Op} {a : op.Ans} (h : Step op s a s') (hop : op ≠ .rename) :
    s'.target = s.target := by
  cases op with
  | openStaged =>
    rw [h]
    split_ifs <;> rfl
  | write text =>
    obtain ⟨out, rest, lost, good, -, -, rfl⟩ := h
    rfl
  | flush =>
    obtain ⟨out, lost, -, -, rfl⟩ := h
    rfl
  | rename => exact absurd rfl hop
  | removeStaged =>
    rcases h with rfl | rfl
    · rfl
    · rfl

/-- Unless something failed, the text is in the staged file or on its way to it. -/
def Holds (text : String) (s : Files) : Prop :=
  s.good = true → ∃ c, s.staged = some c ∧ c ++ s.buffered = text

theorem holds_of_open (h : Step .openStaged s true s') : Holds "" s' := by
  rw [show s' = ⟨s.target, some "", "", true⟩ from h]
  exact fun _ ↦ ⟨"", rfl, rfl⟩

theorem Holds.write (hs : Holds t s) (h : Step (.write text) s () s') : Holds (t ++ text) s' := by
  obtain ⟨out, rest, lost, good, heq, hgood, rfl⟩ := h
  intro hstill
  obtain ⟨hs', rfl⟩ := hgood hstill
  obtain ⟨c, hc, rfl⟩ := hs hs'
  refine ⟨c ++ out, congrArg (Option.map (· ++ out)) hc, ?_⟩
  rw [String.append_assoc, String.append_assoc, heq, String.append_empty]

/-- A stream that was flushed without a failure has written everything. -/
theorem Holds.flush (hs : Holds t s) (h : Step .flush s true s') : s'.staged = some t := by
  obtain ⟨out, lost, heq, hgood, rfl⟩ := h
  obtain ⟨hs', rfl⟩ := hgood rfl
  obtain ⟨c, hc, rfl⟩ := hs hs'
  rw [heq, String.append_empty]
  exact congrArg (Option.map (· ++ out)) hc

theorem target_of_rename (h : Step .rename s true s') : s'.target = s.staged :=
  congrArg Files.target h.2

theorem eq_of_rename (h : Step .rename s false s') : s' = s :=
  h

/-! ### Without faults -/

/-- Every request is carried out. -/
def faultless : (op : Op) → Files → op.Ans × Files
  | .openStaged, s => (true, ⟨s.target, some "", "", true⟩)
  | .write text, s =>
    ((), { s with staged := s.staged.map (· ++ (s.buffered ++ text)), buffered := "" })
  | .flush, s => (s.good, { s with staged := s.staged.map (· ++ s.buffered), buffered := "" })
  | .rename, s =>
    (s.staged.isSome, if s.staged.isSome then { s with target := s.staged, staged := none } else s)
  | .removeStaged, s => ((), { s with staged := none })

theorem faultless_step (op : Op) (s : Files) : Step op s (faultless op s).1 (faultless op s).2 := by
  cases op with
  | openStaged => exact rfl
  | write text => exact ⟨s.buffered ++ text, "", "", s.good, by simp, fun h ↦ ⟨h, rfl⟩, rfl⟩
  | flush => exact ⟨s.buffered, "", by simp, fun h ↦ ⟨h, rfl⟩, rfl⟩
  | rename =>
    simp only [Step, faultless]
    split_ifs with h
    · exact ⟨h, rfl⟩
    · rfl
  | removeStaged => exact .inr rfl

theorem steps_faultless {α : Type} (p : Program Op Op.Ans α) (s : Files) :
    Program.Steps Step (p, s) (.ret (p.run faultless s).1, (p.run faultless s).2) :=
  Program.Guarded.steps (fun op s _ ↦ faultless_step op s)
    (Program.guarded_of_invariant (I := fun _ ↦ True) (fun _ _ _ ↦ trivial) (fun _ _ h ↦ h) p
      trivial)

/-! ### Programs that keep something of the target -/

section Rules

variable {P : Option String → Prop} {α : Type} {Q : α → Files → Prop} {p p' : Program Op Op.Ans α}

/-- A request, and what follows it. -/
theorem ensures_request {op : Op} {f : op.Ans → Program Op Op.Ans α} (hP : P s.target)
    (h : ∀ a s', Step op s a s' → (f a).Ensures (files P) Q s') :
    (Program.perform op >>= f).Ensures (files P) Q s :=
  Program.ensures_perform_bind hP h

/-- What is kept of the target holds of it at every moment of a run, and what is ensured holds at
its end. -/
theorem ensures_steps (h : p.Ensures (files P) Q s) (hQ : ∀ a s', Q a s' → P s'.target)
    (hsteps : Program.Steps Step (p, s) (p', s')) :
    P s'.target ∧ ∀ a, p' = .ret a → Q a s' := by
  have hleft : p'.Ensures (files P) Q s' := Program.Ensures.of_steps h hsteps
  cases p' with
  | ret a => exact ⟨hQ a s' hleft, fun b hb ↦ Program.ret.inj hb ▸ hleft⟩
  | ask op next => exact ⟨hleft.1, fun _ hb ↦ nomatch hb⟩

end Rules

end StagedFile
