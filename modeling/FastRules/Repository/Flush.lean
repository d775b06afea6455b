import FastRules.Repository.JsonRepository
import FastRules.Repository.XmlRepository

/-!
# Flushing

Both repositories are read from and written to their file as `FileRepository` describes. In every
run of saves, removals and flushes, whatever fails, the file is never a partial document; a flush
that returns leaves it up to date, and one that throws leaves it and the pending changes alone
(`repositories_flushAtomically`).
-/

namespace FastRules

open Program
open StagedFile (Files ensures_steps)

section Runs

variable {δ : Type}

/-- What every run of calls, and every flush after it, does to the file that the repository was
loaded from. -/
def FileFormat.FlushesAtomically (format : FileFormat δ)
    (edit : RuleEdit → FileRepository δ → FileRepository δ) (apply : RuleEdit → δ → δ) : Prop :=
  ∀ (target : String) (calls : List StoreCall) (start files : Files)
    (p : FileProgram (FileRepository δ)),
    Steps StagedFile.Step
      (format.history target edit calls { data := format.load start.target }, start) (p, files) →
    format.Whole start.target files.target ∧
    ∀ r, p = .ret r →
      r.data = editAll apply calls (format.load start.target) ∧
      ∀ (tmp : String) (files' : Files) (p' : FileProgram (Except Exn Unit × FileRepository δ)),
        Steps StagedFile.Step (format.flush tmp target r, files) (p', files') →
        format.Whole start.target files'.target ∧
        ∀ result r', p' = .ret (result, r') →
          format.Flushes start.target r files.target result r' files'.target

theorem FileFormat.flushesAtomically {format : FileFormat δ}
    {edit : RuleEdit → FileRepository δ → FileRepository δ} {apply : RuleEdit → δ → δ}
    (hedit : Marks edit apply) : format.FlushesAtomically edit apply := by
  intro target calls start files p hsteps
  -- a repository that was just loaded is up to date
  have hstart : format.Consistent start.target { data := format.load start.target } start.target :=
    ⟨.inl rfl, fun _ ↦ .inr ⟨rfl, rfl⟩⟩
  obtain ⟨hwhole, hend⟩ := ensures_steps (history_ensures hedit calls hstart)
    (fun _ _ h ↦ h.1.whole) hsteps
  refine ⟨hwhole, fun r hr ↦ ?_⟩
  obtain ⟨hconsistent, hdata⟩ := hend r hr
  refine ⟨hdata, fun tmp files' p' hsteps' ↦ ?_⟩
  obtain ⟨hwhole', hflush⟩ := ensures_steps (flush_ensures hconsistent) (fun _ _ h ↦ h.whole)
    hsteps'
  exact ⟨hwhole', fun result r' hr' ↦ hflush (result, r') hr'⟩

end Runs

/-! ### The repositories -/

namespace JsonRepository

variable (lib : JsonLibrary)

/-- `JsonRuleRepository::load`: anything that is not an array is an empty one. -/
def load : Option String → List Json
  | none => []
  | some text =>
    match lib.parse text with
    | .ok (.array elements) => elements
    | _ => []

/-- The file of a `JsonRuleRepository`. `dump` throws where a string is not UTF-8. -/
def format : FileFormat (List Json) where
  className := "JsonRuleRepository"
  load := load lib
  serialize data := liftLibrary (lib.dump (.array data))

/-- `JsonRuleRepository::write`. -/
def write (tmp target : String) : List Json → FileProgram (Except Exn Unit) :=
  (format lib).write tmp target

/-- `JsonRuleRepository::flush`. -/
def flush (tmp target : String) :
    FileRepository (List Json) → FileProgram (Except Exn Unit × FileRepository (List Json)) :=
  (format lib).flush tmp target

end JsonRepository

namespace XmlRepository

variable (lib : RepositoryXml)

/-- `XmlRuleRepository::load`. -/
def load : Option String → XmlNode
  | none => .element "" [] "" []
  | some text => lib.loadStream text

/-- The file of an `XmlRuleRepository`. -/
def format : FileFormat XmlNode where
  className := "XmlRuleRepository"
  load := load lib
  serialize doc := .ok (lib.save PugiXml.defaultIndent doc)

/-- `XmlRuleRepository::write`. -/
def write (tmp target : String) : XmlNode → FileProgram (Except Exn Unit) :=
  (format lib).write tmp target

/-- `XmlRuleRepository::flush`. -/
def flush (tmp target : String) :
    FileRepository XmlNode → FileProgram (Except Exn Unit × FileRepository XmlNode) :=
  (format lib).flush tmp target

end XmlRepository

/-- In every run of either repository flushes are atomic and forget nothing. -/
theorem repositories_flushAtomically (json : JsonLibrary) (xml : RepositoryXml) :
    (JsonRepository.format json).FlushesAtomically JsonRepository.edit JsonRepository.apply ∧
      (XmlRepository.format xml).FlushesAtomically (XmlRepository.edit xml)
        (XmlRepository.apply xml) :=
  ⟨FileFormat.flushesAtomically JsonRepository.edit_marks,
    FileFormat.flushesAtomically XmlRepository.edit_marks⟩

end FastRules
