import FastRules.Json.RoundTrip
import FastRules.Json.VersionExport
import FastRules.Versioning.Rollback
import FastRules.Xml.RoundTrip
import FastRules.Xml.VersionExport

/-!
# Exporting and importing all histories

Neither of the two formats keeps the histories of a manager: the rule that an importer makes for
each version has no priority. Everything else of a version comes back, so that an export is lossless
exactly if the priorities of all rules that snapshots were taken of are zero.
-/

namespace FastRules

/-- The snapshots that some calls take. -/
def snapshotsOf (calls : List SnapshotCall) : List Snapshot :=
  calls.flatMap SnapshotCall.snapshots

/-- Whatever snapshots were taken, and whatever the order, the clocks and the calendar are: an
export to JSON or to XML keeps the histories exactly if no rule had a priority. -/
theorem export_import_lossless_iff (clock importClock : VersionClock) (calendar : Calendar)
    (order : HashOrder ((_ : String) × RuleVersionHistory)) (calls : List SnapshotCall)
    (hids : ∀ s ∈ snapshotsOf calls, toInt32 s.rule.id = s.rule.id) :
    (∀ lib : IndentingJson,
      lib.RestoresExport calendar order (RuleVersionManager.performAll clock {} calls) →
      (JsonLossless lib calendar order importClock (RuleVersionManager.performAll clock {} calls) ↔
        ∀ s ∈ snapshotsOf calls, s.rule.priority = 0)) ∧
    ∀ lib : PugiXml, lib.ReadsValues → Xml.SnapshotsHaveCStrings (snapshotsOf calls) →
      Xml.RestoresExport lib calendar order (RuleVersionManager.performAll clock {} calls) →
      (Xml.XmlLossless lib calendar order importClock
          (RuleVersionManager.performAll clock {} calls) ↔
        ∀ s ∈ snapshotsOf calls, s.rule.priority = 0) := by
  have hrecord : RuleVersionManager.performAll clock {} calls =
      RuleVersionManager.record clock {} (snapshotsOf calls) :=
    RuleVersionManager.performAll_eq_record calls
  rw [hrecord]
  exact ⟨fun lib hlib ↦ jsonLossless_iff hids hlib,
    fun lib hreads hstrings hlib ↦ Xml.xmlLossless_iff hreads hids hstrings hlib⟩

/-! ### Examples -/

mutual

/-- The text of a value that is indented by two blanks for each level. -/
def Json.renderIndented (indent : String) : Json → String
  | .array elements =>
    if elements.isEmpty then "[]"
    else "[\n" ++ String.intercalate ",\n" (renderIndentedElements (indent ++ "  ") elements) ++
      "\n" ++ indent ++ "]"
  | .object members =>
    if members.isEmpty then "\x7b\x7d"
    else "\x7b\n" ++ String.intercalate ",\n" (renderIndentedMembers (indent ++ "  ") members) ++
      "\n" ++ indent ++ "\x7d"
  | j => j.render

def renderIndentedElements (indent : String) : List Json → List String
  | [] => []
  | j :: elements => (indent ++ j.renderIndented indent) :: renderIndentedElements indent elements

def renderIndentedMembers (indent : String) : List (String × Json) → List String
  | [] => []
  | (key, j) :: members =>
    (indent ++ quoteString key ++ ": " ++ j.renderIndented indent) ::
      renderIndentedMembers indent members

end

/-- A library that knows the texts of some documents. -/
def indentingLibraryFor (docs : List Json) : IndentingJson where
  dump j := .ok j.render
  dumpIndented j := .ok (j.renderIndented "")
  parse text :=
    match docs.find? fun j ↦ text = j.render ∨ text = j.renderIndented "" with
    | some j => .ok j
    | none => .error "parse error"

theorem indentingLibraryFor_restores {docs : List Json} {j : Json}
    (h : ∀ text, text = j.render ∨ text = j.renderIndented "" →
      docs.find? (fun j ↦ text = j.render ∨ text = j.renderIndented "") = some j) :
    (indentingLibraryFor docs).RestoresBoth j := by
  have hknown {text : String} (htext : text = j.render ∨ text = j.renderIndented "") :
      (indentingLibraryFor docs).parse text = .ok j := by
    rw [indentingLibraryFor]
    dsimp only
    rw [h text htext]
  exact ⟨⟨j.render, rfl, hknown (.inl rfl)⟩, j.renderIndented "", rfl, hknown (.inr rfl)⟩

/-- The calendar of a process in which no time passes. -/
def fixedCalendar : Calendar where
  isoText _ := "2024-05-18T14:30:22Z"
  readIso _ := 0
  now := 0

/-- A rule without a priority. -/
def flatRule : Rule :=
  { plainRule with priority := 0 }

/-- The manager after one snapshot of the rule. -/
abbrev singleManager (r : Rule) : RuleVersionManager :=
  RuleVersionManager.performAll secondClock {} [.rule r "ann" "first"]

abbrev singleHistory (r : Rule) : RuleVersionHistory :=
  (singleManager r).historyOf r.id

theorem eq_singleHistory {r : Rule} {i : Id} {h : RuleVersionHistory}
    (hh : (singleManager r).getHistory i = some h) : h = singleHistory r := by
  have hrecord : singleManager r = RuleVersionManager.record secondClock {} [⟨r, "ann", "first"⟩] :=
    RuleVersionManager.performAll_eq_record _
  obtain ⟨s, hs, rfl⟩ := RuleVersionManager.exists_getHistory_iff.1 ⟨h, hrecord ▸ hh⟩
  obtain rfl := List.mem_singleton.1 hs
  rw [singleHistory, RuleVersionManager.historyOf, hh, Option.getD_some]

/-- A JSON library that knows the documents of the export. -/
abbrev singleJson (r : Rule) : IndentingJson :=
  indentingLibraryFor [(singleHistory r).toJson fixedCalendar,
    (singleManager r).toJson fixedCalendar (.insertion _)]

/-- An XML library that knows the documents of the export. -/
abbrev singleXml (r : Rule) : PugiXml :=
  Xml.libraryFor [.document (Xml.historyElement fixedCalendar (singleHistory r)),
    .document (Xml.exportElement fixedCalendar (.insertion _) (singleManager r))]

theorem singleJson_restores {r : Rule}
    (hne : ∀ text ∈ [((singleManager r).toJson fixedCalendar (.insertion _)).render,
        ((singleManager r).toJson fixedCalendar (.insertion _)).renderIndented ""],
      ¬(text = ((singleHistory r).toJson fixedCalendar).render ∨
        text = ((singleHistory r).toJson fixedCalendar).renderIndented "")) :
    (singleJson r).RestoresExport fixedCalendar (.insertion _) (singleManager r) where
  history i h hh := by
    rw [eq_singleHistory hh]
    exact indentingLibraryFor_restores fun text htext ↦ List.find?_cons_of_pos
      (decide_eq_true htext)
  manager := by
    refine indentingLibraryFor_restores fun text htext ↦ ?_
    have hmem := hne text (by simpa using htext)
    rw [List.find?_cons_of_neg (by simpa using hmem)]
    exact List.find?_cons_of_pos (decide_eq_true htext)

theorem singleXml_restores {r : Rule}
    (hne : ∀ step ∈ ["\t", "  "], ¬Xml.renderDocument Xml.exportIndent
        (.document (Xml.exportElement fixedCalendar (.insertion _) (singleManager r))) =
      Xml.renderDocument step (.document (Xml.historyElement fixedCalendar (singleHistory r)))) :
    Xml.RestoresExport (singleXml r) fixedCalendar (.insertion _) (singleManager r) where
  history i h hh := by
    rw [eq_singleHistory hh]
    exact ⟨Xml.libraryFor_restores_head (.inr rfl) _ _, Xml.libraryFor_restores_head (.inl rfl) _ _⟩
  manager := by
    have hother := not_or.2 ⟨hne "\t" (by simp), hne "  " (by simp)⟩
    refine Xml.libraryFor_restores_of_find ?_
    rw [List.find?_cons_of_neg (by simpa using hother)]
    exact List.find?_cons_of_pos (decide_eq_true (.inr rfl))

theorem flatRule_kept :
    JsonLossless (singleJson flatRule) fixedCalendar (.insertion _) secondClock
        (singleManager flatRule) ∧
      Xml.XmlLossless (singleXml flatRule) fixedCalendar (.insertion _) secondClock
        (singleManager flatRule) := by
  have hiff := export_import_lossless_iff secondClock secondClock fixedCalendar (.insertion _)
    [.rule flatRule "ann" "first"] (by decide)
  exact ⟨(hiff.1 _ (singleJson_restores (by decide +kernel))).2 (by decide),
    (hiff.2 _ (Xml.libraryFor_readsValues _) (by decide)
      (singleXml_restores (by decide +kernel))).2 (by decide)⟩

/-- The version that is imported of a rule with priority 2 has priority 0. -/
theorem plainRule_notKept :
    (∃ lib : IndentingJson, lib.RestoresExport fixedCalendar (.insertion _)
    (singleManager plainRule) ∧
      ¬JsonLossless lib fixedCalendar (.insertion _) secondClock (singleManager plainRule)) ∧
    ∃ lib : PugiXml, lib.ReadsValues ∧
      Xml.RestoresExport lib fixedCalendar (.insertion _) (singleManager plainRule) ∧
      ¬Xml.XmlLossless lib fixedCalendar (.insertion _) secondClock (singleManager plainRule) := by
  have hpriority : ¬∀ s ∈ [(⟨plainRule, "ann", "first"⟩ : Snapshot)], s.rule.priority = 0 :=
    by decide
  have hids : ∀ s ∈ [(⟨plainRule, "ann", "first"⟩ : Snapshot)], toInt32 s.rule.id = s.rule.id := by
    decide
  have hrecord : singleManager plainRule =
      RuleVersionManager.record secondClock {} [⟨plainRule, "ann", "first"⟩] :=
    RuleVersionManager.performAll_eq_record _
  have hjson := singleJson_restores (r := plainRule) (by decide +kernel)
  have hxml := singleXml_restores (r := plainRule) (by decide +kernel)
  refine ⟨⟨_, hjson, ?_⟩, _, Xml.libraryFor_readsValues _, hxml, ?_⟩
  · rw [hrecord] at hjson ⊢
    exact mt (jsonLossless_iff hids hjson).1 hpriority
  · rw [hrecord] at hxml ⊢
    exact mt (Xml.xmlLossless_iff (Xml.libraryFor_readsValues _) hids (by decide) hxml).1 hpriority

end FastRules
