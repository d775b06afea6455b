import FastRules.Json.Loader
import FastRules.Versioning.Replay

/-!
# Version histories as JSON

`JsonSerialization::serialize` and `deserialize` for histories and for the manager of all histories.
The manager is exported through the texts of its histories, each of which is parsed again, and is
imported through the text of each part of the document.
-/

namespace FastRules

/-- The two ways of writing a document that are used: compact, and indented by two blanks. -/
structure IndentingJson extends JsonLibrary where
  dumpIndented : Json → Except String String

/-- The library parses what it writes in either way. -/
structure IndentingJson.RestoresBoth (lib : IndentingJson) (j : Json) : Prop where
  compact : lib.Restores j
  indented : ∃ text, lib.dumpIndented j = .ok text ∧ lib.parse text = .ok j

namespace Json

/-! ### Accesses that may throw -/

/-- `j[key]`, where a member that is not there is added as `null`. -/
def subscript (key : String) : Json → Except Exn Json
  | .object members => .ok ((members.lookup key).getD .null)
  | .null => .ok .null
  | _ => .error (.standard "cannot use operator[]")

/-- The values that a loop over a document goes through. -/
def iterate : Json → List Json
  | .null => []
  | .array elements => elements
  | .object members => members.map Prod.snd
  | j => [j]

/-- `j.value(key, fallback)`, given how a member is converted. -/
def valueWith {α : Type} (convert : Json → Except Exn α) (key : String) (fallback : α) :
    Json → Except Exn α
  | .object members =>
    match members.lookup key with
    | some member => convert member
    | none => .ok fallback
  | _ => .error (.standard "cannot use value()")

def asString : Json → Except Exn String
  | .string s => .ok s
  | _ => .error (.standard "type must be string")

def asInt : Json → Except Exn Int
  | .integer n => .ok (toInt32 n)
  | .float n _ => .ok (toInt32 n)
  | .boolean b => .ok b.toInt
  | _ => .error (.standard "type must be number")

def asBool : Json → Except Exn Bool
  | .boolean b => .ok b
  | _ => .error (.standard "type must be boolean")

end Json

/-! ### Histories -/

section Export

variable (lib : IndentingJson) (calendar : Calendar)

/-- The object written for a version. -/
def RuleVersion.toJson (v : RuleVersion) : Json :=
  .object [
    ("action", .string v.action),
    ("author", .string v.author),
    ("changeSummary", .string v.changeSummary),
    ("createdAt", .string (calendar.isoText v.createdAt)),
    ("expression", .string v.expression),
    ("isActive", .boolean v.isActive),
    ("parentVersionId", .string v.parentVersionId),
    ("priority", .integer v.priority),
    ("ruleId", .string v.ruleName),
    ("versionId", .string v.versionId)]

/-- The object written for a history. -/
def RuleVersionHistory.toJson (h : RuleVersionHistory) : Json :=
  .object [
    ("ruleId", .string h.ruleName),
    ("ruleName", .string h.ruleName),
    ("versions", .array (h.versions.map (RuleVersion.toJson calendar)))]

/-- `JsonSerialization::serialize` of a history. -/
def serializeHistory (h : RuleVersionHistory) : Except Exn String :=
  liftLibrary (lib.dumpIndented (h.toJson calendar))

/-- One round of the loop in `JsonSerialization::deserializeRuleVersionHistory`. -/
def parseVersion (j : Json) : Except Exn RuleVersion := do
  let versionId ← j.valueWith Json.asString "versionId" ""
  let ruleName ← j.valueWith Json.asString "ruleId" ""
  let expression ← j.valueWith Json.asString "expression" ""
  let action ← j.valueWith Json.asString "action" ""
  let priority ← j.valueWith Json.asInt "priority" 0
  let isActive ← j.valueWith Json.asBool "isActive" true
  let createdAt := (stringMember "createdAt" j).elim calendar.now calendar.readIso
  let author ← j.valueWith Json.asString "author" ""
  let changeSummary ← j.valueWith Json.asString "changeSummary" ""
  let parentVersionId ← j.valueWith Json.asString "parentVersionId" ""
  return {
    versionId
    ruleName
    expression
    action
    priority
    isActive
    createdAt
    author
    changeSummary
    parentVersionId }

/-- `JsonSerialization::deserializeRuleVersionHistory` from the document on. -/
def parseHistory (j : Json) : Except Exn RuleVersionHistory := do
  let _ ← j.valueWith Json.asString "ruleId" ""
  let ruleName ← j.valueWith Json.asString "ruleName" ""
  let documents ← j.subscript "versions"
  let versions ← documents.iterate.mapM (parseVersion calendar)
  return { ruleName, versions }

/-- `JsonSerialization::deserializeRuleVersionHistory`. -/
def deserializeHistory (text : String) : Option RuleVersionHistory :=
  (liftLibrary (lib.parse text) >>= parseHistory calendar).toOption

/-! ### Managers -/

/-- One round of the loop in `JsonSerialization::serialize` of a manager. -/
def exportHistory (m : RuleVersionManager) (ruleId : String) : Except Exn (List Json) := do
  match readBounded 32 ruleId with
  | none => throw (.standard "stoi")
  | some id =>
    match m.getHistory id with
    | none => return []
    | some h => do
      let text ← serializeHistory lib calendar h
      let j ← liftLibrary (lib.parse text)
      return [j]

/-- The object written for a manager whose histories are already written. -/
def managerJson (exportDate : String) (histories : List Json) : Json :=
  .object [("exportDate", .string exportDate), ("histories", .array histories)]

/-- `JsonSerialization::serialize` of a manager. -/
def serializeManager (order : HashOrder ((_ : String) × RuleVersionHistory))
    (m : RuleVersionManager) : Except Exn String := do
  let histories ← (m.getTrackedRuleIds order).mapM (exportHistory lib calendar m)
  liftLibrary (lib.dumpIndented (managerJson (calendar.isoText calendar.now) histories.flatten))

/-- One round of the loop in `JsonSerialization::deserialize`. -/
def importHistory (clock : VersionClock) (j : Json) : Importer Unit :=
  match liftLibrary (lib.dump j) with
  | .error e => throw e
  | .ok text =>
    match deserializeHistory lib calendar text with
    | none => return ()
    | some h => replayHistory clock h

/-- The `try` block of `JsonSerialization::deserialize`. -/
def importManager (clock : VersionClock) (text : String) : Importer Unit :=
  match liftLibrary (lib.parse text) >>= Json.subscript "histories" with
  | .error e => throw e
  | .ok histories => histories.iterate.forM (importHistory lib calendar clock)

/-- `JsonSerialization::deserialize` into a manager: what was imported before an exception stays. -/
def deserializeManager (clock : VersionClock) (m : RuleVersionManager) (text : String) :
    RuleVersionManager :=
  ((importManager lib calendar clock text).run.run m).2

end Export

/-! ### Exporting and importing -/

/-- The version as it is read back. Its date is only given to the second, in local time. -/
def RuleVersion.reread (calendar : Calendar) (v : RuleVersion) : RuleVersion :=
  { v with
    priority := toInt32 v.priority
    createdAt := calendar.readIso (calendar.isoText v.createdAt) }

section RoundTrip

variable {lib : IndentingJson} {calendar : Calendar} {clock : VersionClock}

theorem parseVersion_toJson (v : RuleVersion) :
    parseVersion calendar (v.toJson calendar) = .ok (v.reread calendar) :=
  rfl

theorem parseVersions_toJson (versions : List RuleVersion) :
    (versions.map (RuleVersion.toJson calendar)).mapM (parseVersion calendar) =
      .ok (versions.map (RuleVersion.reread calendar)) := by
  induction versions with
  | nil => rfl
  | cons v versions ih =>
    rw [List.map_cons, List.mapM_cons, parseVersion_toJson, ih]
    rfl

theorem parseHistory_toJson (h : RuleVersionHistory) :
    parseHistory calendar (h.toJson calendar) =
      .ok { ruleName := h.ruleName, versions := h.versions.map (RuleVersion.reread calendar) } := by
  show (do
    let versions ← (h.versions.map (RuleVersion.toJson calendar)).mapM (parseVersion calendar)
    return ({ ruleName := h.ruleName, versions } : RuleVersionHistory)) = _
  rw [parseVersions_toJson]
  rfl

/-- Importing the document of a history takes a snapshot for each of its versions. -/
theorem run_importHistory {h : RuleVersionHistory} {ruleId : Id} (hh : h.IsAbout ruleId)
    (hlib : lib.Restores (h.toJson calendar)) (m : RuleVersionManager) :
    (importHistory lib calendar clock (h.toJson calendar)).run.run m =
      (.ok (), m.record clock (h.versions.map fun v ↦ v.imported ruleId)) := by
  obtain ⟨text, hdump, hparse⟩ := hlib
  have hread : deserializeHistory lib calendar text = some
      { ruleName := h.ruleName, versions := h.versions.map (RuleVersion.reread calendar) } := by
    rw [deserializeHistory, hparse]
    show (parseHistory calendar (h.toJson calendar)).toOption = _
    rw [parseHistory_toJson]
    rfl
  have habout : RuleVersionHistory.IsAbout
      { ruleName := h.ruleName,
        versions := h.versions.map (RuleVersion.reread calendar) } ruleId := by
    refine ⟨hh.isInt, fun v hv ↦ ?_⟩
    obtain ⟨u, hu, rfl⟩ := List.mem_map.1 hv
    exact hh.ruleName u hu
  rw [importHistory, hdump]
  dsimp only [liftLibrary]
  rw [hread]
  dsimp only
  rw [run_replayHistory habout, List.map_map]
  rfl

/-- The document of `JsonSerialization::serialize` of a manager. -/
def RuleVersionManager.toJson (calendar : Calendar)
    (order : HashOrder ((_ : String) × RuleVersionHistory)) (m : RuleVersionManager) : Json :=
  managerJson (calendar.isoText calendar.now)
    ((order.visit m.histories.entries).map fun e ↦ e.2.toJson calendar)

/-- The library restores the documents of an export. -/
structure IndentingJson.RestoresExport (lib : IndentingJson) (calendar : Calendar)
    (order : HashOrder ((_ : String) × RuleVersionHistory)) (m : RuleVersionManager) : Prop where
  history : ∀ i h, m.getHistory i = some h → lib.RestoresBoth (h.toJson calendar)
  manager : lib.RestoresBoth (m.toJson calendar order)

/-- Exporting the manager and importing it into a new one keeps the histories. -/
def JsonLossless (lib : IndentingJson) (calendar : Calendar)
    (order : HashOrder ((_ : String) × RuleVersionHistory)) (importClock : VersionClock)
    (m : RuleVersionManager) : Prop :=
  ∃ text, serializeManager lib calendar order m = .ok text ∧
    m.KeptBy (deserializeManager lib calendar importClock {} text)

variable {order : HashOrder ((_ : String) × RuleVersionHistory)} {importClock : VersionClock}
  {l : List Snapshot}

open RuleVersionManager

theorem exportHistory_eq {m : RuleVersionManager} {i : Id} {h : RuleVersionHistory}
    (hi : toInt32 i = i) (hh : m.getHistory i = some h)
    (hlib : lib.RestoresBoth (h.toJson calendar)) :
    exportHistory lib calendar m (toString i) = .ok [h.toJson calendar] := by
  obtain ⟨text, hdump, hparse⟩ := hlib.indented
  have htext : serializeHistory lib calendar h = .ok text := by
    rw [serializeHistory, hdump]
    rfl
  rw [exportHistory, readBounded_toString hi]
  dsimp only
  rw [hh]
  dsimp only
  rw [htext]
  show (do
    let j ← liftLibrary (lib.parse text)
    return [j]) = _
  rw [hparse]
  rfl

theorem mapM_exportHistory {m : RuleVersionManager} {ids : List Id}
    (hids : ∀ i ∈ ids, toInt32 i = i ∧ ∃ h, m.getHistory i = some h)
    (hlib : ∀ i h, m.getHistory i = some h → lib.RestoresBoth (h.toJson calendar)) :
    (ids.map toString).mapM (exportHistory lib calendar m) =
      .ok (ids.map fun i ↦ [(m.historyOf i).toJson calendar]) := by
  induction ids with
  | nil => rfl
  | cons i ids ih =>
    obtain ⟨hint, h, hh⟩ := hids i List.mem_cons_self
    have hof : m.historyOf i = h := by rw [historyOf, hh, Option.getD_some]
    rw [List.map_cons, List.mapM_cons, exportHistory_eq hint hh (hlib i h hh),
      ih fun j hj ↦ hids j (List.mem_cons_of_mem i hj), List.map_cons, hof]
    rfl

/-- An import of what was exported takes a snapshot for each version. -/
theorem exists_json_replay (importClock : VersionClock)
    (hids : ∀ s ∈ l, toInt32 s.rule.id = s.rule.id)
    (hlib : lib.RestoresExport calendar order (record clock {} l)) :
    ∃ (text : String) (ids : List Id),
      serializeManager lib calendar order (record clock {} l) = .ok text ∧ ids.Nodup ∧
      (∀ i, i ∈ ids ↔ ∃ h, (record clock {} l).getHistory i = some h) ∧
      deserializeManager lib calendar importClock {} text = record importClock {}
        (ids.flatMap fun i ↦ ((record clock {} l).versions i).map fun v ↦ v.imported i) := by
  obtain ⟨ids, hvisit, hkeys, hnodup, hmem⟩ := exists_trackedIds clock order l
  obtain ⟨text, hdump, hparse⟩ := hlib.manager.indented
  have hint : ∀ i ∈ ids, toInt32 i = i := fun i hi ↦ toInt32_of_getHistory hids ((hmem i).1 hi)
  have hdocument : (record clock {} l).toJson calendar order =
      managerJson (calendar.isoText calendar.now)
        (ids.map fun i ↦ ((record clock {} l).historyOf i).toJson calendar) := by
    rw [RuleVersionManager.toJson, hvisit, List.map_map]
    rfl
  refine ⟨text, ids, ?_, hnodup, hmem, ?_⟩
  · have hflat : (ids.map fun i ↦ [((record clock {} l).historyOf i).toJson calendar]).flatten =
        ids.map fun i ↦ ((record clock {} l).historyOf i).toJson calendar := by
      rw [← List.flatMap_def, ← List.map_eq_flatMap]
    rw [serializeManager, hkeys,
      mapM_exportHistory (fun i hi ↦ ⟨hint i hi, (hmem i).1 hi⟩) hlib.history]
    show liftLibrary (lib.dumpIndented (managerJson (calendar.isoText calendar.now)
      (ids.map fun i ↦ [((record clock {} l).historyOf i).toJson calendar]).flatten)) = _
    rw [hflat, ← hdocument, hdump]
    rfl
  · -- each history is imported by itself, whatever the manager holds by then
    have hbody : ∀ i ∈ ids, ∀ m : RuleVersionManager, (importHistory lib calendar importClock
        (((record clock {} l).historyOf i).toJson calendar)).run.run m =
          (.ok (), m.record importClock
            (((record clock {} l).versions i).map fun v ↦ v.imported i)) := by
      intro i hi m
      obtain ⟨h, hh⟩ := (hmem i).1 hi
      have hof : (record clock {} l).historyOf i = h := by rw [historyOf, hh, Option.getD_some]
      exact run_importHistory (historyOf_isAbout hids hh) (hof ▸ (hlib.history i h hh).compact) m
    have himport : importManager lib calendar importClock text = ids.forM fun i ↦
        importHistory lib calendar importClock
          (((record clock {} l).historyOf i).toJson calendar) := by
      rw [importManager, hparse, hdocument]
      exact List.forM_map
    rw [deserializeManager, himport, Importer.run_forM hbody]

/-- An export to JSON keeps the histories exactly if all priorities are zero. -/
theorem jsonLossless_iff (hids : ∀ s ∈ l, toInt32 s.rule.id = s.rule.id)
    (hlib : lib.RestoresExport calendar order (record clock {} l)) :
    JsonLossless lib calendar order importClock (record clock {} l) ↔
      ∀ s ∈ l, s.rule.priority = 0 := by
  obtain ⟨text, ids, htext, hnodup, hmem, himport⟩ :=
    exists_json_replay importClock hids hlib
  rw [← keptBy_replayed_iff importClock hnodup hmem, ← himport]
  constructor
  · rintro ⟨text', htext', hkept⟩
    obtain rfl := Except.ok.inj (htext.symm.trans htext')
    exact hkept
  · exact fun hkept ↦ ⟨text, htext, hkept⟩

end RoundTrip

end FastRules
