import FastRules.Rule.Numbers
import FastRules.Rule.Result
import FastRules.Workflow.Validate

/-!
# The JSON loader

`JsonLoader::parseRule`, `serializeRule`, `loadWorkflow` and `saveWorkflow`. The text format is that
of a JSON library: `JsonLibrary` is its `dump` and `parse`, and nothing is assumed of them here.
What the loader itself does is between `Json` values and rules.

The nesting depth is counted down: a rule is parsed and serialized with the number of levels that
are left. New rules get their ids from counters if the document has none. The addresses of the
objects the loader makes are left at zero, nothing in it depends on them.
-/

namespace FastRules

/-! ### Values -/

/-- A `nlohmann::json`. The members of an object are sorted by their keys. -/
inductive Json
  | null
  | boolean (b : Bool)
  | integer (n : Int)
  /-- A floating-point number: its integral part, and whether that is all of it. -/
  | float (integralPart : Int) (isIntegral : Bool)
  | string (s : String)
  | array (elements : List Json)
  | object (members : List (String × Json))

/-- `j[key]`, if `j.contains(key)`. -/
def Json.member? (key : String) : Json → Option Json
  | .object members => members.lookup key
  | _ => none

/-- `dump` and `parse` of the JSON library, with the messages of their exceptions. -/
structure JsonLibrary where
  dump : Json → Except String String
  parse : String → Except String Json

/-- The library parses what it dumps. -/
def JsonLibrary.Restores (lib : JsonLibrary) (j : Json) : Prop :=
  ∃ text, lib.dump j = .ok text ∧ lib.parse text = .ok j

/-! ### Parsing -/

/-- `kMaxRuleNestingDepth`. -/
def kMaxRuleNestingDepth : ℕ := 64

/-- The text of the exception for rules that are nested too deeply. -/
def nestingMessage : String :=
  "Rule nesting exceeds the maximum supported depth of " ++ toString kMaxRuleNestingDepth

/-- The counters that new ids are taken from. -/
structure LoaderState where
  ruleIdCounter : Int := 0
  workflowIdCounter : Int := 0

abbrev Loader := StateT LoaderState (Except Exn)

/-- `++ruleIdCounter`. -/
def nextRuleId : Loader Int :=
  modifyGet fun s ↦ (s.ruleIdCounter + 1, { s with ruleIdCounter := s.ruleIdCounter + 1 })

/-- `++workflowIdCounter`. -/
def nextWorkflowId : Loader Int :=
  modifyGet fun s ↦
    (s.workflowIdCounter + 1, { s with workflowIdCounter := s.workflowIdCounter + 1 })

/-- The id of a rule or a workflow: an integer, the text of one, or a new one. -/
def parseId (what : String) (nextId : Loader Int) (j : Json) : Loader Int :=
  match j.member? "id" with
  | some (.integer n) => return toInt32 n
  | some (.string s) =>
    match readBounded 32 s with
    | some n => return n
    | none => throw (.rule (what ++ " 'id' is a string but not a valid integer: " ++ s))
  | _ => nextId

/-- `if (j.contains(key) && j[key].is_string())`. -/
def stringMember (key : String) (j : Json) : Option String :=
  match j.member? key with
  | some (.string s) => some s
  | _ => none

/-- `if (j.contains(key) && j[key].is_boolean())`. -/
def booleanMember (key : String) (j : Json) : Option Bool :=
  match j.member? key with
  | some (.boolean b) => some b
  | _ => none

/-- `if (j.contains(key) && j[key].is_number_integer())`. -/
def integerMember (key : String) (j : Json) : Option Int :=
  match j.member? key with
  | some (.integer n) => some (toInt32 n)
  | _ => none

/-- The elements that a loop over `j[key]` goes through, if
`j.contains(key) && j[key].is_array()`. -/
def arrayMember (key : String) (j : Json) : List Json :=
  match j.member? key with
  | some (.array elements) => elements
  | _ => []

/-- `std::stoll` of all but the last `suffix` characters, in units of so many milliseconds. The
conversion of a larger unit wraps where it overflows. -/
def readDuration (s : String) (suffix : ℕ) (unit : Int) : Except Exn (Option Int) :=
  match readBounded 64 (String.ofList (s.toList.take (s.toList.length - suffix))) with
  | some n => .ok (some (toInt64 (n * unit)))
  | none => .error (.standard "stoll")

/-- A duration in milliseconds: a number, or a text such as `1000ms`, `5s`, `1m`. -/
def durationMember (key : String) (j : Json) : Except Exn (Option Int) :=
  match j.member? key with
  | some (.integer n) => .ok (some (toInt64 n))
  | some (.float n _) => .ok (some (toInt64 n))
  | some (.string s) =>
    if "ms".toList <:+ s.toList then readDuration s 2 1
    else if "s".toList <:+ s.toList then readDuration s 1 1000
    else if "m".toList <:+ s.toList then readDuration s 1 60000
    else .ok none
  | _ => .ok none

/-- `JsonLoader::parseRuleAtDepth`, with the number of levels that are left. -/
def parseRuleAtDepth : ℕ → Json → Loader Rule
  | 0, _ => throw (.rule nestingMessage)
  | levels + 1, j => do
    let id ← parseId "Rule" nextRuleId j
    let timeout ← durationMember "timeout" j
    let cacheDuration ← durationMember "cacheDuration" j
    let childRules ← (arrayMember "childRules" j).mapM (parseRuleAtDepth levels)
    return {
      id
      name := (stringMember "name" j).getD ""
      description := (stringMember "description" j).getD ""
      isActive := (booleanMember "isActive" j).getD true
      priority := (integerMember "priority" j).getD 0
      expression := (stringMember "expression" j).getD ""
      action := (stringMember "action" j).getD ""
      dependsOnRuleName := stringMember "dependsOnRuleName" j
      timeout
      cacheDuration
      childRules }

/-- `JsonLoader::parseRule`. -/
def parseRule (j : Json) : Loader Rule :=
  parseRuleAtDepth (kMaxRuleNestingDepth + 1) j

/-! ### Serializing -/

/-- An optional number, `null` without one. -/
def Json.ofDuration (d : Option Int) : Json :=
  d.elim .null .integer

/-- The object written for a rule whose children are already written. -/
def RuleFields.toJson (rule : RuleFields) (children : List Json) : Json :=
  .object [
    ("action", .string rule.action),
    ("cacheDuration", .ofDuration rule.cacheDuration),
    ("childRules", .array children),
    ("dependsOnRuleName", rule.dependsOnRuleName.elim .null .string),
    ("description", .string rule.description),
    ("expression", .string rule.expression),
    ("id", .integer rule.id),
    ("isActive", .boolean rule.isActive),
    ("priority", .integer rule.priority),
    ("timeout", .ofDuration rule.timeout)]

/-- `JsonLoader::serializeRuleAtDepth`, with the number of levels that are left. -/
def serializeRuleAtDepth : ℕ → Rule → Except Exn Json
  | 0, _ => .error (.rule nestingMessage)
  | levels + 1, rule => do
    let children ← rule.childRules.mapM (serializeRuleAtDepth levels)
    return rule.toJson children

/-- `JsonLoader::serializeRule`. -/
def serializeRule (rule : Rule) : Except Exn Json :=
  serializeRuleAtDepth (kMaxRuleNestingDepth + 1) rule

/-! ### Rules and workflows as text -/

section Text

variable (lib : JsonLibrary)

/-- An exception of the library. -/
def liftLibrary {α : Type} : Except String α → Except Exn α
  | .ok a => .ok a
  | .error message => .error (.standard message)

/-- `JsonLoader::saveRule`. -/
def saveRule (rule : Rule) : Except Exn String := do
  let j ← serializeRule rule
  liftLibrary (lib.dump j)

/-- `JsonLoader::loadRule`. -/
def loadRule (text : String) : Loader Rule := do
  let j ← liftLibrary (lib.parse text)
  parseRule j

/-- The object written for a workflow whose rules are already written. -/
def Workflow.toJson (w : Workflow) (rules : List Json) : Json :=
  .object [
    ("description", .string w.description),
    ("id", .integer w.id),
    ("isActive", .boolean w.isActive),
    ("name", .string w.name),
    ("rules", .array rules)]

/-- The document of `JsonLoader::saveWorkflow`. -/
def serializeWorkflow (w : Workflow) : Except Exn Json := do
  let rules ← w.rules.mapM serializeRule
  return w.toJson rules

/-- `JsonLoader::saveWorkflow`. -/
def saveWorkflow (w : Workflow) : Except Exn String := do
  let j ← serializeWorkflow w
  liftLibrary (lib.dump j)

/-- `JsonLoader::loadWorkflow` from the document on. -/
def parseWorkflow (j : Json) : Loader Workflow := do
  let id ← parseId "Workflow" nextWorkflowId j
  let rules ← (arrayMember "rules" j).mapM parseRule
  return {
    id
    description := (stringMember "description" j).getD ""
    name := (stringMember "name" j).getD ""
    isActive := (booleanMember "isActive" j).getD true
    rules }

/-- `JsonLoader::loadWorkflow`. -/
def loadWorkflow (text : String) : Loader Workflow := do
  let j ← liftLibrary (lib.parse text)
  parseWorkflow j

end Text

end FastRules
