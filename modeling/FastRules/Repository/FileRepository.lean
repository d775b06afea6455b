import FastRules.Foundations.StagedFile
import FastRules.Rule.Result

/-!
# Repositories over a file

What `JsonRuleRepository` and `XmlRuleRepository` have in common: the data they hold, the flag for
changes that are not in the file yet, and `flush`, which writes a temporary file and renames it over
the target. The two differ in their data, in how it is read and written and in the name that their
messages begin with (`FileFormat`).

`history_ensures` is about a whole run of edits and flushes under every answer of the file system:
the target is at every moment as it was at the start or a complete document, the data are what the
edits make of them, and without pending changes the target is up to date.
-/

namespace FastRules

open Program
open StagedFile (Files files ensures_request target_of_rename eq_of_rename holds_of_open)

/-- The members of a repository: `data_` or `doc_`, and `dirty_`. -/
structure FileRepository (δ : Type) where
  data : δ
  dirty : Bool := false

/-- A call that may change what a repository holds. -/
inductive RuleEdit
  | save (rule : Rule)
  | remove (id : Int)

/-- What the repositories differ in. -/
structure FileFormat (δ : Type) where
  className : String
  /-- The data of a file; without a file, or with one that cannot be opened, those of a new
  repository. -/
  load : Option String → δ
  /-- The document that is written. -/
  serialize : δ → Except Exn String

/-! ### Writing -/

abbrev FileProgram := Program StagedFile.Op StagedFile.Op.Ans

/-- The loop of `atomicReplace`, with the number of attempts that are left. -/
def renameAttempts : ℕ → FileProgram Bool
  | 0 => pure false
  | attempts + 1 => do
    if ← perform StagedFile.Op.rename then return true
    renameAttempts attempts

/-- `atomicReplace`. -/
def atomicReplace (tmp target : String) : FileProgram (Except Exn Unit) := do
  if ← renameAttempts 40 then return .ok ()
  perform StagedFile.Op.removeStaged
  return .error (.standard ("Failed to replace " ++ target ++ " with " ++ tmp))

section Write

variable {δ : Type} (format : FileFormat δ) (tmp target : String)

/-- `write` of the repositories. -/
def FileFormat.write (data : δ) : FileProgram (Except Exn Unit) := do
  if !(← perform StagedFile.Op.openStaged) then
    return .error (.standard (format.className ++ ": cannot open " ++ tmp ++ " for writing"))
  match format.serialize data with
  | .error e => return .error e
  | .ok text => do
    perform (StagedFile.Op.write text)
    if !(← perform StagedFile.Op.flush) then
      return .error (.standard (format.className ++ ": failed writing " ++ tmp))
    atomicReplace tmp target

/-- `flush` of the repositories. -/
def FileFormat.flush (r : FileRepository δ) : FileProgram (Except Exn Unit × FileRepository δ) :=
  if r.dirty then do
    match ← format.write tmp target r.data with
    | .ok () => return (.ok (), { r with dirty := false })
    | .error e => return (.error e, r)
  else return (.ok (), r)

/-- The calls of a repository that the file is about. A flush is given the name of its temporary
file. -/
inductive StoreCall
  | edit (e : RuleEdit)
  | flush (tmp : String)

/-- The edits among the calls. -/
def StoreCall.edit? : StoreCall → Option RuleEdit
  | edit e => some e
  | flush _ => none

/-- One call after the other. An exception of a flush is caught, and the calls go on. -/
def FileFormat.history (edit : RuleEdit → FileRepository δ → FileRepository δ) :
    List StoreCall → FileRepository δ → FileProgram (FileRepository δ)
  | [], r => pure r
  | .edit e :: calls, r => FileFormat.history edit calls (edit e r)
  | .flush tmp :: calls, r => do
    let out ← format.flush tmp target r
    FileFormat.history edit calls out.2

end Write

/-! ### The target -/

namespace FileFormat

variable {δ : Type} (format : FileFormat δ)

/-- The file is the document of the data. -/
def Written (data : δ) (file : Option String) : Prop :=
  ∃ text, format.serialize data = .ok text ∧ file = some text

/-- No partial document: the file as it was at the start, or the document of some data. -/
def Whole (initial file : Option String) : Prop :=
  file = initial ∨ ∃ data, format.Written data file

/-- The file equals the data: it is their document, or the data are what was read from it at the
start. -/
def UpToDate (initial : Option String) (data : δ) (file : Option String) : Prop :=
  format.Written data file ∨ file = initial ∧ data = format.load initial

/-- What is kept between the calls. -/
structure Consistent (initial : Option String) (r : FileRepository δ) (file : Option String) :
    Prop where
  whole : format.Whole initial file
  upToDate : r.dirty = false → format.UpToDate initial r.data file

/-- What a flush promises of its result, the repository after it and the file after it. -/
structure Flushes (initial : Option String) (r : FileRepository δ) (file : Option String)
    (result : Except Exn Unit) (r' : FileRepository δ) (file' : Option String) : Prop where
  whole : format.Whole initial file'
  /-- Without an exception the file is up to date and no changes are pending. -/
  returned : result = .ok () →
    r' = { r with dirty := false } ∧ format.UpToDate initial r.data file' ∧
      (r.dirty = true → format.Written r.data file')
  /-- With one the file is as it was and the changes are still pending. -/
  threw : ∀ e, result = .error e → r' = r ∧ r.dirty = true ∧ file' = file

end FileFormat

/-! ### One flush -/

section Flush

variable {δ : Type} {format : FileFormat δ} {P : Option String → Prop} {s : Files}
  {tmp target : String} {data : δ} {r : FileRepository δ} {initial : Option String}

theorem renameAttempts_ensures (attempts : ℕ) (hP : P s.target) :
    Ensures (files P) (fun done s' ↦ s'.target = if done then s.staged else s.target)
      (renameAttempts attempts) s := by
  induction attempts with
  | zero => exact rfl
  | succ attempts ih =>
    refine ensures_request hP fun done s' hs' ↦ ?_
    cases done with
    | true => exact target_of_rename hs'
    | false =>
      obtain rfl := eq_of_rename hs'
      exact ih

theorem atomicReplace_ensures (hP : P s.target) :
    Ensures (files P) (fun result s' ↦
      s'.target = match result with | .ok _ => s.staged | .error _ => s.target)
      (atomicReplace tmp target) s := by
  refine (ensures_bind _ _ _).2 ((renameAttempts_ensures 40 hP).mono fun done s' hs' ↦ ?_)
  cases done with
  | true => exact hs'
  | false =>
    have htarget : s'.target = s.target := hs'
    refine ensures_request (htarget ▸ hP) fun _ s'' hs'' ↦ ?_
    exact (hs''.target_eq (by simp)).trans htarget

/-- Writing leaves the target as it was, or as the document of the data. -/
theorem write_ensures (hP : P s.target) :
    Ensures (files P) (fun result s' ↦ match result with
      | .ok _ => format.Written data s'.target
      | .error _ => s'.target = s.target) (format.write tmp target data) s := by
  refine ensures_request hP fun opened s₁ h₁ ↦ ?_
  have htarget₁ : s₁.target = s.target := h₁.target_eq (by simp)
  cases opened with
  | false => exact htarget₁
  | true =>
    rcases htext : format.serialize data with e | text
    · exact htarget₁
    · refine ensures_request (htarget₁ ▸ hP) fun _ s₂ h₂ ↦ ?_
      have htarget₂ : s₂.target = s.target := (h₂.target_eq (by simp)).trans htarget₁
      refine ensures_request (htarget₂ ▸ hP) fun good s₃ h₃ ↦ ?_
      have htarget₃ : s₃.target = s.target := (h₃.target_eq (by simp)).trans htarget₂
      cases good with
      | false => exact htarget₃
      | true =>
        -- everything is in the staged file before it can become the target
        have hstaged : s₃.staged = some text := by
          simpa using ((holds_of_open h₁).write h₂).flush h₃
        refine (atomicReplace_ensures (htarget₃ ▸ hP)).mono fun result s₄ h₄ ↦ ?_
        cases result with
        | ok _ => exact ⟨text, htext, h₄.trans hstaged⟩
        | error e => exact h₄.trans htarget₃

theorem flush_ensures (h : format.Consistent initial r s.target) :
    Ensures (files (format.Whole initial))
      (fun out s' ↦ format.Flushes initial r s.target out.1 out.2 s'.target)
      (format.flush tmp target r) s := by
  rw [FileFormat.flush]
  split_ifs with hdirty
  · refine (ensures_bind _ _ _).2 ((write_ensures h.whole).mono fun result s' hs' ↦ ?_)
    cases result with
    | ok _ =>
      exact {
        whole := .inr ⟨r.data, hs'⟩
        returned := fun _ ↦ ⟨rfl, .inl hs', fun _ ↦ hs'⟩
        threw := fun _ he ↦ nomatch he }
    | error e =>
      exact {
        whole := (show s'.target = s.target from hs') ▸ h.whole
        returned := fun he ↦ nomatch he
        threw := fun _ _ ↦ ⟨rfl, hdirty, hs'⟩ }
  · have hclean : r.dirty = false := Bool.eq_false_iff.2 hdirty
    exact {
      whole := h.whole
      returned := fun _ ↦ ⟨by rw [← hclean], h.upToDate hclean, fun ht ↦ absurd ht hdirty⟩
      threw := fun _ he ↦ nomatch he }

/-- A flush keeps what is kept between the calls. -/
theorem FileFormat.Flushes.consistent {file file' : Option String} {result : Except Exn Unit}
    {r' : FileRepository δ} (h : format.Consistent initial r file)
    (hflush : format.Flushes initial r file result r' file') :
    format.Consistent initial r' file' ∧ r'.data = r.data := by
  cases result with
  | ok _ =>
    obtain ⟨rfl, hcurrent, -⟩ := hflush.returned rfl
    exact ⟨⟨hflush.whole, fun _ ↦ hcurrent⟩, rfl⟩
  | error e =>
    obtain ⟨rfl, -, rfl⟩ := hflush.threw e rfl
    exact ⟨h, rfl⟩

/-- Where nothing fails, pending changes are written. -/
theorem flush_returns {text : String} (hdirty : r.dirty = true)
    (htext : format.serialize r.data = .ok text) :
    Steps StagedFile.Step (format.flush tmp target r, s)
      (.ret (.ok (), { r with dirty := false }), ⟨some text, none, "", true⟩) := by
  have hwrite : (format.write tmp target r.data).run StagedFile.faultless s =
      (.ok (), ⟨some text, none, "", true⟩) := by
    simp [FileFormat.write, htext, atomicReplace, renameAttempts, StagedFile.faultless]
  have hrun : (format.flush tmp target r).run StagedFile.faultless s =
      ((.ok (), { r with dirty := false }), ⟨some text, none, "", true⟩) := by
    rw [FileFormat.flush, if_pos hdirty, run_bind, hwrite]
    rfl
  have hsteps := StagedFile.steps_faultless (format.flush tmp target r) s
  rwa [hrun] at hsteps

end Flush

/-! ### A run of calls -/

section History

variable {δ : Type} {format : FileFormat δ} {edit : RuleEdit → FileRepository δ → FileRepository δ}
  {apply : RuleEdit → δ → δ} {initial : Option String} {target : String} {s : Files}
  {r : FileRepository δ}

/-- The edits make of the data what `apply` does, and mark what they change. -/
structure Marks (edit : RuleEdit → FileRepository δ → FileRepository δ) (apply : RuleEdit → δ → δ) :
    Prop where
  data : ∀ e r, (edit e r).data = apply e r.data
  unchanged : ∀ e r, (edit e r).dirty = false → r.dirty = false ∧ apply e r.data = r.data

/-- A `save` that changes and marks, and a `remove` that does so if it finds the id. -/
theorem Marks.of_calls {found : Int → δ → Bool}
    (hsave : ∀ rule r, edit (.save rule) r = ⟨apply (.save rule) r.data, true⟩)
    (hremove : ∀ id r, edit (.remove id) r =
      if found id r.data then ⟨apply (.remove id) r.data, true⟩ else r)
    (hself : ∀ id data, found id data = false → apply (.remove id) data = data) :
    Marks edit apply where
  data := by
    intro e r
    cases e with
    | save rule => rw [hsave]
    | remove id =>
      rw [hremove]
      split_ifs with hfound
      · rfl
      · exact (hself id r.data (Bool.eq_false_iff.2 hfound)).symm
  unchanged := by
    intro e r hclean
    cases e with
    | save rule =>
      rw [hsave] at hclean
      cases hclean
    | remove id =>
      rw [hremove] at hclean
      split_ifs at hclean with hfound
      exact ⟨hclean, hself id r.data (Bool.eq_false_iff.2 hfound)⟩

/-- The data after several edits. -/
theorem Marks.data_foldl (h : Marks edit apply) (edits : List RuleEdit) (r : FileRepository δ) :
    (edits.foldl (fun r e ↦ edit e r) r).data = edits.foldl (fun data e ↦ apply e data) r.data :=
  (List.foldl_hom FileRepository.data fun r e ↦ (h.data e r).symm).symm

/-- The data after the edits of a run. -/
def editAll (apply : RuleEdit → δ → δ) (calls : List StoreCall) (data : δ) : δ :=
  (calls.filterMap StoreCall.edit?).foldl (fun data e ↦ apply e data) data

theorem history_ensures (hedit : Marks edit apply) (calls : List StoreCall)
    (h : format.Consistent initial r s.target) :
    Ensures (files (format.Whole initial))
      (fun r' s' ↦ format.Consistent initial r' s'.target ∧ r'.data = editAll apply calls r.data)
      (format.history target edit calls r) s := by
  induction calls generalizing r s with
  | nil => exact ⟨h, rfl⟩
  | cons call calls ih =>
    cases call with
    | edit e =>
      have hnext : format.Consistent initial (edit e r) s.target := by
        refine ⟨h.whole, fun hclean ↦ ?_⟩
        -- an edit after which nothing is pending has changed nothing
        obtain ⟨hbefore, hsame⟩ := hedit.unchanged e r hclean
        rw [hedit.data, hsame]
        exact h.upToDate hbefore
      refine (ih hnext).mono fun r' s' hr' ↦ ⟨hr'.1, hr'.2.trans ?_⟩
      rw [hedit.data]
      rfl
    | flush tmp =>
      refine (ensures_bind _ _ _).2 ((flush_ensures h).mono fun out s₁ hout ↦ ?_)
      obtain ⟨hnext, hdata⟩ := hout.consistent h
      refine (ih hnext).mono fun r' s' hr' ↦ ⟨hr'.1, hr'.2.trans ?_⟩
      rw [hdata]
      rfl

end History

end FastRules
