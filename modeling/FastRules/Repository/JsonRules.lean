import FastRules.Foundations.KeyedList
import FastRules.Json.RoundTrip

/-!
# Records of the JSON repository

`JsonRuleRepository::ruleToJson` and `jsonToRule`. The reader takes a member only if it has the type
it expects, so that none of its conversions throws. Reading a record gives back the rule but for the
width of its integers (`jsonToRule_ruleToJson`): `timeout` is written with 64 bits and read with 32.
-/

namespace FastRules

namespace JsonRepository

/-! ### Writing -/

/-- A member that is there if it has a value. -/
def optionalMember (key : String) (value : Option Json) : List (String × Json) :=
  (value.map (Prod.mk key)).toList

/-- `if (!text.empty())`. -/
def nonempty (text : String) : Option Json :=
  if text = "" then none else some (.string text)

/-- `JsonRuleRepository::ruleToJson`. -/
def ruleToJson (rule : Rule) : Json :=
  .object <|
    [("action", .string rule.action)] ++
    optionalMember "cacheDuration" (rule.cacheDuration.map .integer) ++
    optionalMember "dependsOn" (rule.dependsOnRuleName.map .string) ++
    optionalMember "description" (nonempty rule.description) ++
    [("expression", .string rule.expression), ("id", .integer rule.id),
      ("isActive", .boolean rule.isActive)] ++
    optionalMember "name" (nonempty rule.name) ++
    [("priority", .integer rule.priority)] ++
    optionalMember "timeout" (rule.timeout.map .integer)

/-! ### Reading -/

/-- `if (j.contains(key) && j[key].is_number_integer())`, read as a `long long`. -/
def longMember (key : String) (j : Json) : Option Int :=
  match j.member? key with
  | some (.integer n) => some (toInt64 n)
  | _ => none

/-- `JsonRuleRepository::jsonToRule`. -/
def jsonToRule (j : Json) : Rule where
  id := (integerMember "id" j).getD 0
  name := (stringMember "name" j).getD ""
  description := (stringMember "description" j).getD ""
  expression := (stringMember "expression" j).getD ""
  action := (stringMember "action" j).getD ""
  isActive := (booleanMember "isActive" j).getD true
  priority := (integerMember "priority" j).getD 0
  timeout := integerMember "timeout" j
  cacheDuration := longMember "cacheDuration" j
  dependsOnRuleName := stringMember "dependsOn" j

/-! ### Reading what was written -/

section Members

variable (rule : Rule) (key : String)

theorem member?_ruleToJson : (ruleToJson rule).member? key =
    ((((((([("action", Json.string rule.action)].lookup key).or
      (if key = "cacheDuration" then rule.cacheDuration.map .integer else none)).or
      (if key = "dependsOn" then rule.dependsOnRuleName.map .string else none)).or
      (if key = "description" then nonempty rule.description else none)).or
      ([("expression", Json.string rule.expression), ("id", .integer rule.id),
        ("isActive", .boolean rule.isActive)].lookup key)).or
      (if key = "name" then nonempty rule.name else none)).or
      ([("priority", Json.integer rule.priority)].lookup key)).or
      (if key = "timeout" then rule.timeout.map .integer else none) := by
  simp only [ruleToJson, Json.member?, List.lookup_append, optionalMember,
    KeyedList.lookup_optional]

theorem member?_action : (ruleToJson rule).member? "action" = some (.string rule.action) := by
  rw [member?_ruleToJson]
  rfl

theorem member?_cacheDuration :
    (ruleToJson rule).member? "cacheDuration" = rule.cacheDuration.map .integer := by
  rw [member?_ruleToJson]
  simp [List.lookup_cons]

theorem member?_dependsOn :
    (ruleToJson rule).member? "dependsOn" = rule.dependsOnRuleName.map .string := by
  rw [member?_ruleToJson]
  simp [List.lookup_cons]

theorem member?_description :
    (ruleToJson rule).member? "description" = nonempty rule.description := by
  rw [member?_ruleToJson]
  simp [List.lookup_cons]

theorem member?_expression :
    (ruleToJson rule).member? "expression" = some (.string rule.expression) := by
  rw [member?_ruleToJson]
  simp [List.lookup_cons]

theorem member?_id : (ruleToJson rule).member? "id" = some (.integer rule.id) := by
  rw [member?_ruleToJson]
  simp [List.lookup_cons]

theorem member?_isActive :
    (ruleToJson rule).member? "isActive" = some (.boolean rule.isActive) := by
  rw [member?_ruleToJson]
  simp [List.lookup_cons]

theorem member?_name : (ruleToJson rule).member? "name" = nonempty rule.name := by
  rw [member?_ruleToJson]
  simp [List.lookup_cons]

theorem member?_priority :
    (ruleToJson rule).member? "priority" = some (.integer rule.priority) := by
  rw [member?_ruleToJson]
  simp [List.lookup_cons]

theorem member?_timeout : (ruleToJson rule).member? "timeout" = rule.timeout.map .integer := by
  rw [member?_ruleToJson]
  simp [List.lookup_cons]

end Members

section Types

variable {key text : String} {j : Json}

theorem stringMember_of_nonempty (h : j.member? key = nonempty text) :
    (stringMember key j).getD "" = text := by
  rw [stringMember, h, nonempty]
  split_ifs with htext
  · exact htext.symm
  · rfl

theorem stringMember_of_map {value : Option String} (h : j.member? key = value.map .string) :
    stringMember key j = value := by
  rw [stringMember, h]
  rcases value with - | value <;> rfl

theorem integerMember_of_map {value : Option Int} (h : j.member? key = value.map .integer) :
    integerMember key j = value.map toInt32 := by
  rw [integerMember, h]
  rcases value with - | value <;> rfl

theorem longMember_of_map {value : Option Int} (h : j.member? key = value.map .integer) :
    longMember key j = value.map toInt64 := by
  rw [longMember, h]
  rcases value with - | value <;> rfl

end Types

/-- What is read of the record of a rule: all that a document is about, in the widths of the
reader. -/
theorem jsonToRule_ruleToJson (rule : Rule) : (jsonToRule (ruleToJson rule)).toRuleFields =
    { rule.toRuleFields.document with
      id := toInt32 rule.id
      priority := toInt32 rule.priority
      timeout := rule.timeout.map toInt32
      cacheDuration := rule.cacheDuration.map toInt64 } := by
  have hid : integerMember "id" (ruleToJson rule) = some (toInt32 rule.id) :=
    @integerMember_of_map "id" _ (some rule.id) (member?_id rule)
  have hpriority : integerMember "priority" (ruleToJson rule) = some (toInt32 rule.priority) :=
    @integerMember_of_map "priority" _ (some rule.priority) (member?_priority rule)
  have hexpression : stringMember "expression" (ruleToJson rule) = some rule.expression :=
    @stringMember_of_map "expression" _ (some rule.expression) (member?_expression rule)
  have haction : stringMember "action" (ruleToJson rule) = some rule.action :=
    @stringMember_of_map "action" _ (some rule.action) (member?_action rule)
  have hactive : booleanMember "isActive" (ruleToJson rule) = some rule.isActive := by
    rw [booleanMember, member?_isActive]
  rw [jsonToRule, hid, hpriority, hexpression, haction, hactive,
    stringMember_of_nonempty (member?_name rule),
    stringMember_of_nonempty (member?_description rule),
    integerMember_of_map (member?_timeout rule), longMember_of_map (member?_cacheDuration rule),
    stringMember_of_map (member?_dependsOn rule)]
  rfl

/-! ### Equality of the rules -/

/-- The record of the rule is read as the rule. -/
def RoundTrips (rule : Rule) : Prop :=
  (jsonToRule (ruleToJson rule)).toRuleFields.document = rule.toRuleFields.document

instance (rule : Rule) : Decidable (RoundTrips rule) :=
  inferInstanceAs (Decidable (_ = _))

/-- Records are read as they were written exactly of rules without a timeout, or with one that is an
`int`. -/
theorem record_roundTrips_iff (rule : Rule) (hid : toInt32 rule.id = rule.id)
    (hpriority : toInt32 rule.priority = rule.priority)
    (hcache : rule.cacheDuration.map toInt64 = rule.cacheDuration) :
    RoundTrips rule ↔ ∀ t, rule.timeout = some t → -2 ^ 31 ≤ t ∧ t < 2 ^ 31 := by
  have htimeout : RoundTrips rule ↔ rule.timeout.map toInt32 = rule.timeout := by
    rw [RoundTrips, jsonToRule_ruleToJson, hid, hpriority, hcache]
    constructor
    · exact fun h ↦ congrArg RuleFields.timeout h
    · intro h
      rw [h]
      rfl
  rw [htimeout]
  rcases rule.timeout with - | t
  · simp
  · simp [toInt32_eq_self_iff]

theorem daily_roundTrips : RoundTrips { id := 1, expression := "true", timeout := some 86400000 } :=
  (record_roundTrips_iff _ (by decide) (by decide) (by decide)).2 (by simp)

/-- A rule that may run for 30 days. -/
def monthlyRule : Rule :=
  { id := 1, expression := "true", timeout := some 2592000000 }

/-- Its timeout comes back negative. -/
theorem monthly_not_roundTrips : ¬∀ rule : Rule, rule.Representable → RoundTrips rule := by
  intro h
  exact absurd (h monthlyRule (by decide)) (by decide)

end JsonRepository

end FastRules
