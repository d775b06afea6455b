import FastRules.Versioning.Replay
import FastRules.Xml.Loader

/-!
# Version histories as XML

`XmlSerialization::serialize` and `deserialize` for histories and for the manager of all histories.
The document of a history is copied, element by element, into the document of the manager under
another name, and is put together again under its own name to be imported.
-/

namespace FastRules.Xml

section Export

variable (lib : PugiXml) (calendar : Calendar)

/-! ### Histories -/

/-- The indentation of the exported documents. -/
def exportIndent : String :=
  "  "

/-- The element written for a version. -/
def versionElement (v : RuleVersion) : XmlNode :=
  .element "version" [] "" [
    .ofText "versionId" v.versionId,
    .ofText "ruleId" v.ruleName,
    .ofText "expression" v.expression,
    .ofText "action" v.action,
    .element "priority" [] (toString v.priority) [],
    .element "isActive" [] (XmlNode.boolText v.isActive) [],
    .ofText "createdAt" (calendar.isoText v.createdAt),
    .ofText "author" v.author,
    .ofText "changeSummary" v.changeSummary,
    .ofText "parentVersionId" v.parentVersionId]

/-- The root element of the document of a history. -/
def historyElement (h : RuleVersionHistory) : XmlNode :=
  .element "ruleVersionHistory" [("ruleId", cStr h.ruleName), ("ruleName", cStr h.ruleName)] ""
    [.element "versions" [] "" (h.versions.map (versionElement calendar))]

/-- `XmlSerialization::serialize` of a history. -/
def serializeHistory (h : RuleVersionHistory) : String :=
  lib.save exportIndent (.document (historyElement calendar h))

/-- `parseIsoTime`, or the present time without a text. -/
def readTime (text : String) : Time :=
  if text = "" then calendar.now else calendar.readIso text

/-- One round of the loop in `XmlSerialization::deserializeRuleVersionHistory`. -/
def parseVersion (ver : XmlNode) : RuleVersion where
  versionId := childText "versionId" ver
  ruleName := childText "ruleId" ver
  expression := childText "expression" ver
  action := childText "action" ver
  priority := (ver.child? "priority").elim 0 (lib.intText 0)
  isActive := (ver.child? "isActive").elim true (lib.boolText true)
  author := childText "author" ver
  changeSummary := childText "changeSummary" ver
  parentVersionId := childText "parentVersionId" ver
  createdAt := readTime calendar (childText "createdAt" ver)

/-- `XmlSerialization::deserializeRuleVersionHistory` from the root element on. -/
def parseHistory (root : XmlNode) : RuleVersionHistory where
  ruleName := (root.attribute? "ruleName").getD ""
  versions := (root.child? "versions").elim [] fun versions ↦
    (versions.children "version").map (parseVersion lib calendar)

/-- `XmlSerialization::deserializeRuleVersionHistory`. -/
def deserializeHistory (text : String) : Option RuleVersionHistory :=
  match lib.load text with
  | .error _ => none
  | .ok doc => (doc.child? "ruleVersionHistory").map (parseHistory lib calendar)

/-! ### Managers -/

/-- The element that a history is copied to. Nothing is copied of a text that is not read. -/
def copyHistory (h : RuleVersionHistory) : XmlNode :=
  match lib.load (serializeHistory lib calendar h) with
  | .error _ => .element "history" [] "" []
  | .ok doc =>
    match doc.child? "ruleVersionHistory" with
    | none => .element "history" [] "" []
    | some inner => .element "history" inner.attributes inner.text inner.elements

/-- One round of the loop in `XmlSerialization::serialize` of a manager. -/
def exportHistory (m : RuleVersionManager) (ruleId : String) : Except Exn (List XmlNode) :=
  match readBounded 32 ruleId with
  | none => .error (.standard "stoi")
  | some id => .ok ((m.getHistory id).map (copyHistory lib calendar)).toList

/-- The root element of the document of a manager. -/
def managerElement (exportDate : String) (histories : List XmlNode) : XmlNode :=
  .element "ruleVersionManager" [("exportDate", cStr exportDate)] ""
    [.element "histories" [] "" histories]

/-- `XmlSerialization::serialize` of a manager. -/
def serializeManager (order : HashOrder ((_ : String) × RuleVersionHistory))
    (m : RuleVersionManager) : Except Exn String := do
  let histories ← (m.getTrackedRuleIds order).mapM (exportHistory lib calendar m)
  return lib.save exportIndent
    (.document (managerElement (calendar.isoText calendar.now) histories.flatten))

/-- The document of a history, put together from its copy. -/
def innerElement (histNode : XmlNode) : XmlNode :=
  .element "ruleVersionHistory" [
    ("ruleId", cStr ((histNode.attribute? "ruleId").getD "")),
    ("ruleName", cStr ((histNode.attribute? "ruleName").getD ""))] histNode.text histNode.elements

/-- One round of the loop in `XmlSerialization::deserialize`. -/
def importHistory (clock : VersionClock) (histNode : XmlNode) : Importer Unit :=
  match deserializeHistory lib calendar
    (lib.save PugiXml.defaultIndent (.document (innerElement histNode))) with
  | none => return ()
  | some h => replayHistory clock h

/-- The `try` block of `XmlSerialization::deserialize`. -/
def importManager (clock : VersionClock) (text : String) : Importer Unit :=
  match lib.load text with
  | .error _ => return ()
  | .ok doc =>
    match (doc.child? "ruleVersionManager").bind (XmlNode.child? "histories") with
    | none => return ()
    | some histories => (histories.children "history").forM (importHistory lib calendar clock)

/-- `XmlSerialization::deserialize` into a manager: what was imported before an exception stays. -/
def deserializeManager (clock : VersionClock) (m : RuleVersionManager) (text : String) :
    RuleVersionManager :=
  ((importManager lib calendar clock text).run.run m).2

end Export

/-! ### Exporting and importing -/

/-- The version as it is read back. Its date is only given to the second, in local time. -/
def rereadVersion (lib : PugiXml) (calendar : Calendar) (v : RuleVersion) : RuleVersion where
  versionId := cStr v.versionId
  ruleName := cStr v.ruleName
  expression := cStr v.expression
  action := cStr v.action
  priority := lib.intText 0 (.element "priority" [] (toString v.priority) [])
  isActive := v.isActive
  author := cStr v.author
  changeSummary := cStr v.changeSummary
  parentVersionId := cStr v.parentVersionId
  createdAt := readTime calendar (cStr (calendar.isoText v.createdAt))

/-- The C strings of the versions are their strings. -/
def HistoryHasCStrings (h : RuleVersionHistory) : Prop :=
  ∀ v ∈ h.versions, NulFree v.expression ∧ NulFree v.action ∧ NulFree v.author ∧
    NulFree v.changeSummary

section RoundTrip

variable {lib : PugiXml} {calendar : Calendar} {clock : VersionClock} (hreads : lib.ReadsValues)
include hreads

theorem parseVersion_versionElement (v : RuleVersion) :
    parseVersion lib calendar (versionElement calendar v) = rereadVersion lib calendar v := by
  have hactive : ((versionElement calendar v).child? "isActive").elim true (lib.boolText true) =
      v.isActive := by
    show lib.boolText true (.element "isActive" [] (XmlNode.boolText v.isActive) []) = _
    have hne : XmlNode.boolText v.isActive ≠ "" := by cases v.isActive <;> decide
    rw [PugiXml.boolText, XmlNode.text, if_neg hne, hreads.asBool_boolText]
  rw [parseVersion, hactive]
  rfl

theorem parseHistory_historyElement (h : RuleVersionHistory) :
    parseHistory lib calendar (historyElement calendar h) =
      { ruleName := cStr h.ruleName, versions := h.versions.map (rereadVersion lib calendar) } := by
  have hversions : (XmlNode.element "versions" [] ""
      (h.versions.map (versionElement calendar))).children "version" =
        h.versions.map (versionElement calendar) := by
    refine List.filter_eq_self.2 fun node hnode ↦ ?_
    obtain ⟨v, -, rfl⟩ := List.mem_map.1 hnode
    exact decide_eq_true rfl
  show RuleVersionHistory.mk "" _ ((XmlNode.children "version" _).map (parseVersion lib calendar)) =
    _
  rw [hversions, List.map_map]
  refine congrArg (RuleVersionHistory.mk "" _) (List.map_congr_left fun v _ ↦ ?_)
  exact parseVersion_versionElement hreads v

/-- The copy of a history in the document of the manager. -/
def historyCopy (calendar : Calendar) (h : RuleVersionHistory) : XmlNode :=
  .element "history" (historyElement calendar h).attributes "" (historyElement calendar h).elements

omit hreads in
theorem copyHistory_eq {h : RuleVersionHistory}
    (hlib : lib.Restores exportIndent (.document (historyElement calendar h))) :
    copyHistory lib calendar h = historyCopy calendar h := by
  have hname : (historyElement calendar h).name = "ruleVersionHistory" := rfl
  rw [copyHistory, serializeHistory, show lib.load _ = _ from hlib]
  dsimp only
  rw [XmlNode.child?_document, if_pos hname]
  rfl

omit hreads in
/-- The document put together from the copy is that of the history. -/
theorem innerElement_historyCopy (h : RuleVersionHistory) :
    innerElement (historyCopy calendar h) = historyElement calendar h := by
  show XmlNode.element "ruleVersionHistory" [("ruleId", cStr (cStr h.ruleName)),
    ("ruleName", cStr (cStr h.ruleName))] "" _ = _
  rw [cStr_eq_self (nulFree_cStr h.ruleName)]
  rfl

/-- Importing the copy of a history takes a snapshot for each of its versions. -/
theorem run_importHistory {h : RuleVersionHistory} {ruleId : Id} (hh : h.IsAbout ruleId)
    (hstrings : HistoryHasCStrings h)
    (hlib : lib.Restores PugiXml.defaultIndent (.document (historyElement calendar h)))
    (m : RuleVersionManager) :
    (importHistory lib calendar clock (historyCopy calendar h)).run.run m =
      (.ok (), m.record clock (h.versions.map fun v ↦ v.imported ruleId)) := by
  have hname : (historyElement calendar h).name = "ruleVersionHistory" := rfl
  have hread : deserializeHistory lib calendar
      (lib.save PugiXml.defaultIndent (.document (historyElement calendar h))) = some
        { ruleName := cStr h.ruleName,
          versions := h.versions.map (rereadVersion lib calendar) } := by
    rw [deserializeHistory, show lib.load _ = _ from hlib]
    dsimp only
    rw [XmlNode.child?_document, if_pos hname, Option.map_some, parseHistory_historyElement hreads]
  have habout : RuleVersionHistory.IsAbout
      { ruleName := cStr h.ruleName, versions := h.versions.map (rereadVersion lib calendar) }
      ruleId := by
    refine ⟨hh.isInt, fun v hv ↦ ?_⟩
    obtain ⟨u, hu, rfl⟩ := List.mem_map.1 hv
    show cStr u.ruleName = _
    rw [hh.ruleName u hu, cStr_eq_self (nulFree_toString ruleId)]
  rw [importHistory, innerElement_historyCopy, hread]
  dsimp only
  rw [run_replayHistory habout, List.map_map]
  refine congrArg (fun l ↦ (Except.ok (), m.record clock l)) (List.map_congr_left fun v hv ↦ ?_)
  obtain ⟨hexpression, haction, hauthor, hsummary⟩ := hstrings v hv
  show (rereadVersion lib calendar v).imported ruleId = _
  rw [RuleVersion.imported, rereadVersion, cStr_eq_self hexpression, cStr_eq_self haction,
    cStr_eq_self hauthor, cStr_eq_self hsummary]
  rfl

/-- The root element of the document of `XmlSerialization::serialize` of a manager. -/
def exportElement (calendar : Calendar) (order : HashOrder ((_ : String) × RuleVersionHistory))
    (m : RuleVersionManager) : XmlNode :=
  managerElement (calendar.isoText calendar.now)
    ((order.visit m.histories.entries).map fun e ↦ historyCopy calendar e.2)

/-- The library restores the documents of an export. -/
structure RestoresExport (lib : PugiXml) (calendar : Calendar)
    (order : HashOrder ((_ : String) × RuleVersionHistory)) (m : RuleVersionManager) : Prop where
  history : ∀ i h, m.getHistory i = some h →
    lib.Restores exportIndent (.document (historyElement calendar h)) ∧
      lib.Restores PugiXml.defaultIndent (.document (historyElement calendar h))
  manager : lib.Restores exportIndent (.document (exportElement calendar order m))

/-- The C strings of the snapshots are their strings. -/
def SnapshotsHaveCStrings (l : List Snapshot) : Prop :=
  ∀ s ∈ l, NulFree s.rule.expression ∧ NulFree s.rule.action ∧ NulFree s.author ∧ NulFree s.summary

instance (l : List Snapshot) : Decidable (SnapshotsHaveCStrings l) :=
  inferInstanceAs (Decidable (∀ s ∈ l, _))

/-- Exporting the manager and importing it into a new one keeps the histories. -/
def XmlLossless (lib : PugiXml) (calendar : Calendar)
    (order : HashOrder ((_ : String) × RuleVersionHistory)) (importClock : VersionClock)
    (m : RuleVersionManager) : Prop :=
  ∃ text, serializeManager lib calendar order m = .ok text ∧
    m.KeptBy (deserializeManager lib calendar importClock {} text)

open RuleVersionManager

variable {order : HashOrder ((_ : String) × RuleVersionHistory)} {importClock : VersionClock}
  {l : List Snapshot}

omit hreads in
theorem mapM_exportHistory {m : RuleVersionManager} {ids : List Id}
    (hids : ∀ i ∈ ids, toInt32 i = i ∧ ∃ h, m.getHistory i = some h)
    (hlib : ∀ i h, m.getHistory i = some h →
      lib.Restores exportIndent (.document (historyElement calendar h))) :
    (ids.map toString).mapM (exportHistory lib calendar m) =
      .ok (ids.map fun i ↦ [historyCopy calendar (m.historyOf i)]) := by
  induction ids with
  | nil => rfl
  | cons i ids ih =>
    obtain ⟨hint, h, hh⟩ := hids i List.mem_cons_self
    have hof : m.historyOf i = h := by rw [historyOf, hh, Option.getD_some]
    have hexport : exportHistory lib calendar m (toString i) = .ok [historyCopy calendar h] := by
      rw [exportHistory, readBounded_toString hint]
      dsimp only
      rw [hh, Option.map_some, copyHistory_eq (hlib i h hh)]
      rfl
    rw [List.map_cons, List.mapM_cons, hexport, ih fun j hj ↦ hids j (List.mem_cons_of_mem i hj),
      List.map_cons, hof]
    rfl

/-- An import of what was exported takes a snapshot for each version. -/
theorem exists_xml_replay (importClock : VersionClock)
    (hids : ∀ s ∈ l, toInt32 s.rule.id = s.rule.id)
    (hstrings : SnapshotsHaveCStrings l)
    (hlib : RestoresExport lib calendar order (record clock {} l)) :
    ∃ (text : String) (ids : List Id),
      serializeManager lib calendar order (record clock {} l) = .ok text ∧ ids.Nodup ∧
      (∀ i, i ∈ ids ↔ ∃ h, (record clock {} l).getHistory i = some h) ∧
      deserializeManager lib calendar importClock {} text = record importClock {}
        (ids.flatMap fun i ↦ ((record clock {} l).versions i).map fun v ↦ v.imported i) := by
  obtain ⟨ids, hvisit, hkeys, hnodup, hmem⟩ := exists_trackedIds clock order l
  have hint : ∀ i ∈ ids, toInt32 i = i := fun i hi ↦ toInt32_of_getHistory hids ((hmem i).1 hi)
  have hdocument : exportElement calendar order (record clock {} l) =
      managerElement (calendar.isoText calendar.now)
        (ids.map fun i ↦ historyCopy calendar ((record clock {} l).historyOf i)) := by
    rw [exportElement, hvisit, List.map_map]
    rfl
  refine ⟨lib.save exportIndent (.document (exportElement calendar order (record clock {} l))), ids,
    ?_, hnodup, hmem, ?_⟩
  · have hflat :
        (ids.map fun i ↦ [historyCopy calendar ((record clock {} l).historyOf i)]).flatten =
          ids.map fun i ↦ historyCopy calendar ((record clock {} l).historyOf i) := by
      rw [← List.flatMap_def, ← List.map_eq_flatMap]
    rw [serializeManager, hkeys, mapM_exportHistory (fun i hi ↦ ⟨hint i hi, (hmem i).1 hi⟩)
      fun i h hh ↦ (hlib.history i h hh).1, hdocument, ← hflat]
    rfl
  · -- each history is imported by itself, whatever the manager holds by then
    have hbody : ∀ i ∈ ids, ∀ m : RuleVersionManager, (importHistory lib calendar importClock
        (historyCopy calendar ((record clock {} l).historyOf i))).run.run m =
          (.ok (), m.record importClock
            (((record clock {} l).versions i).map fun v ↦ v.imported i)) := by
      intro i hi m
      obtain ⟨h, hh⟩ := (hmem i).1 hi
      have hof : (record clock {} l).historyOf i = h := by rw [historyOf, hh, Option.getD_some]
      refine run_importHistory hreads (historyOf_isAbout hids hh) (fun v hv ↦ ?_)
        (hof ▸ (hlib.history i h hh).2) m
      obtain ⟨s, hs, heq⟩ := exists_snapshot_of_mem hv
      obtain ⟨hexpression, haction, hauthor, hsummary⟩ := hstrings s hs
      have hfield (f : RuleVersion → String) : f s.contents = f v.contents := congrArg f heq
      exact ⟨hfield RuleVersion.expression ▸ hexpression, hfield RuleVersion.action ▸ haction,
        hfield RuleVersion.author ▸ hauthor, hfield RuleVersion.changeSummary ▸ hsummary⟩
    have himport : importManager lib calendar importClock
        (lib.save exportIndent (.document (exportElement calendar order (record clock {} l)))) =
          ids.forM fun i ↦ importHistory lib calendar importClock
            (historyCopy calendar ((record clock {} l).historyOf i)) := by
      have hname (date : String) (nodes : List XmlNode) :
          (managerElement date nodes).name = "ruleVersionManager" := rfl
      have hchildren : (XmlNode.element "histories" [] "" (ids.map fun i ↦
          historyCopy calendar ((record clock {} l).historyOf i))).children "history" =
            ids.map fun i ↦ historyCopy calendar ((record clock {} l).historyOf i) := by
        refine List.filter_eq_self.2 fun node hnode ↦ ?_
        obtain ⟨i, -, rfl⟩ := List.mem_map.1 hnode
        exact decide_eq_true rfl
      rw [importManager, show lib.load _ = _ from hlib.manager]
      dsimp only
      rw [hdocument, XmlNode.child?_document, if_pos (hname _ _)]
      show (XmlNode.children "history" _).forM _ = _
      rw [hchildren]
      exact List.forM_map
    rw [deserializeManager, himport, Importer.run_forM hbody]

/-- An export to XML keeps the histories exactly if all priorities are zero. -/
theorem xmlLossless_iff (hids : ∀ s ∈ l, toInt32 s.rule.id = s.rule.id)
    (hstrings : SnapshotsHaveCStrings l)
    (hlib : RestoresExport lib calendar order (record clock {} l)) :
    XmlLossless lib calendar order importClock (record clock {} l) ↔
      ∀ s ∈ l, s.rule.priority = 0 := by
  obtain ⟨text, ids, htext, hnodup, hmem, himport⟩ :=
    exists_xml_replay hreads importClock hids hstrings hlib
  rw [← keptBy_replayed_iff importClock hnodup hmem, ← himport]
  constructor
  · rintro ⟨text', htext', hkept⟩
    obtain rfl := Except.ok.inj (htext.symm.trans htext')
    exact hkept
  · exact fun hkept ↦ ⟨text, htext, hkept⟩

end RoundTrip

end FastRules.Xml
