import FastRules.Rule.Numbers
import FastRules.Rule.Result
import FastRules.Workflow.Validate
import Mathlib.Data.List.AList
import Mathlib.Order.Monotone.Basic

/-!
# Rule versions

`RuleVersionHistory` and `RuleVersionManager`. A manager keeps one history for each rule id; a
snapshot appends a version to the history of the rule, under an id that is made for it.

A manager sees the process around it through a `VersionClock`: the date in each version id it makes,
the time at which it is made, and the counter that all managers of the process share.
-/

namespace FastRules

/-! ### Histories -/

/-- A `RuleVersion`. -/
structure RuleVersion where
  versionId : String := ""
  ruleName : String := ""
  expression : String := ""
  action : String := ""
  priority : Int := 0
  isActive : Bool := true
  /-- A time of the system clock. -/
  createdAt : Time := 0
  author : String := ""
  changeSummary : String := ""
  parentVersionId : String := ""
  deriving DecidableEq, Repr

/-- A `RuleVersionHistory`, the oldest version first. -/
structure RuleVersionHistory where
  ruleId : String := ""
  ruleName : String := ""
  versions : List RuleVersion := []
  deriving DecidableEq, Repr

namespace RuleVersionHistory

/-- `RuleVersionHistory::addVersion`. -/
def addVersion (h : RuleVersionHistory) (version : RuleVersion) : RuleVersionHistory :=
  { h with versions := h.versions ++ [version] }

/-- `RuleVersionHistory::getLatest`. -/
def getLatest (h : RuleVersionHistory) : Option RuleVersion :=
  h.versions.getLast?

/-- `RuleVersionHistory::getVersion`: the first version of the id. -/
def getVersion (h : RuleVersionHistory) (versionId : String) : Option RuleVersion :=
  h.versions.find? fun v ↦ v.versionId = versionId

/-- `RuleVersionHistory::rollbackTo`: a new rule with what the version has recorded. -/
def rollbackTo (h : RuleVersionHistory) (versionId : String) : Except Exn Rule :=
  match h.getVersion versionId with
  | none => .error (.rule ("Version not found: " ++ versionId))
  | some version =>
    match readBounded 32 version.ruleName with
    | none => .error (.rule ("Version '" ++ versionId ++ "' has a non-numeric ruleName '" ++
        version.ruleName ++ "'; cannot reconstruct a rule id"))
    | some id => .ok {
        id
        expression := version.expression
        action := version.action
        priority := version.priority
        isActive := version.isActive }

end RuleVersionHistory

/-! ### Version ids -/

/-- What the process around a manager contributes to its `n`-th version. -/
structure VersionClock where
  /-- The text of date and time in the version id. -/
  date : ℕ → String
  /-- The counter of version ids after it was incremented for this version. Other managers may have
  incremented it in between. -/
  counter : ℕ → ℕ
  counter_strictMono : StrictMono counter
  createdAt : ℕ → Time

/-- The hexadecimal text of an `int`. -/
def hexText (n : ℕ) : String :=
  String.ofList (Nat.toDigits 16 (n % 2 ^ 32))

/-- `RuleVersionManager::generateVersionId`. -/
def VersionClock.versionId (clock : VersionClock) (n : ℕ) : String :=
  clock.date n ++ "-" ++ hexText (clock.counter n)

/-! ### Managers -/

/-- A `RuleVersionManager`. -/
structure RuleVersionManager where
  histories : AList fun _ : String ↦ RuleVersionHistory := ∅
  /-- How many versions it has made. -/
  taken : ℕ := 0

namespace RuleVersionManager

variable (clock : VersionClock)

/-- `RuleVersionManager::getHistory`. -/
def getHistory (m : RuleVersionManager) (ruleId : Id) : Option RuleVersionHistory :=
  m.histories.lookup (toString ruleId)

/-- `RuleVersionManager::getTrackedRuleIds`, in the iteration order of the map. -/
def getTrackedRuleIds (order : HashOrder ((_ : String) × RuleVersionHistory))
    (m : RuleVersionManager) : List String :=
  (order.visit m.histories.entries).map Sigma.fst

/-- The version that a snapshot of the rule makes. -/
def newVersion (n : ℕ) (rule : Rule) (author summary : String) (latest : Option RuleVersion) :
    RuleVersion where
  versionId := clock.versionId n
  ruleName := toString rule.id
  expression := rule.expression
  action := rule.action
  priority := rule.priority
  isActive := rule.isActive
  createdAt := clock.createdAt n
  author := author
  changeSummary := summary
  parentVersionId := latest.elim "" RuleVersion.versionId

/-- `RuleVersionManager::snapshotRule`, `snapshotRuleLocked`. -/
def snapshotRule (m : RuleVersionManager) (rule : Rule) (author summary : String) :
    RuleVersionManager :=
  let history := (m.histories.lookup (toString rule.id)).getD {}
  let version := newVersion clock m.taken rule author summary history.getLatest
  { histories := m.histories.insert (toString rule.id)
      ({ history with ruleName := toString rule.id }.addVersion version)
    taken := m.taken + 1 }

/-- `RuleVersionManager::snapshotWorkflow`. -/
def snapshotWorkflow (m : RuleVersionManager) (workflow : Workflow) (author summary : String) :
    RuleVersionManager :=
  workflow.rules.foldl (fun m rule ↦ m.snapshotRule clock rule author summary) m

/-- `RuleVersionManager::rollbackWorkflow`: the rules whose histories have the version. -/
def rollbackWorkflow (order : HashOrder ((_ : String) × RuleVersionHistory))
    (m : RuleVersionManager) (workflowId : Id) (versionId : String) : Workflow where
  id := workflowId
  rules := (order.visit m.histories.entries).filterMap fun e ↦ (e.2.rollbackTo versionId).toOption

end RuleVersionManager

end FastRules
