import FastRules.Xml.RoundTrip

/-!
# Records of the XML repository

`XmlRuleRepository::ruleToXml` and `xmlToRule`. Texts are attributes or child elements that are set
as C strings, so that what is read of an element in memory is the rule with its texts cut off at
their first NUL (`xmlToRule_ruleToXml`).
-/

namespace FastRules

/-- What the XML repository uses of the library besides. -/
structure RepositoryXml extends PugiXml where
  /-- `as_llong` of a text that is there. -/
  asLlong : String → Int
  /-- `xml_document::load` of a stream: the document it leaves, also where it reports an error. -/
  loadStream : String → XmlNode

/-- The library reads the values that it writes, those of 64 bits too. -/
structure RepositoryXml.ReadsValues (lib : RepositoryXml) : Prop
    extends PugiXml.ReadsValues lib.toPugiXml where
  asLlong_toString : ∀ n, toInt64 n = n → lib.asLlong (toString n) = n

namespace XmlRepository

/-! ### Writing -/

/-- An attribute that is there if it has a value. -/
def optionalAttribute (key : String) (value : Option String) : List (String × String) :=
  (value.map (Prod.mk key)).toList

/-- `if (!text.empty())`, as a C string. -/
def nonempty (text : String) : Option String :=
  if text = "" then none else some (cStr text)

/-- The element that `XmlRuleRepository::ruleToXml` appends. -/
def ruleToXml (rule : Rule) : XmlNode :=
  .element "rule"
    ([("id", toString rule.id)] ++
      optionalAttribute "name" (nonempty rule.name) ++
      optionalAttribute "description" (nonempty rule.description) ++
      [("isActive", XmlNode.boolText rule.isActive), ("priority", toString rule.priority)] ++
      optionalAttribute "timeout" (rule.timeout.map toString) ++
      optionalAttribute "cacheDuration" (rule.cacheDuration.map toString) ++
      optionalAttribute "dependsOn" (rule.dependsOnRuleName.map cStr))
    ""
    (Xml.textElements "expression" rule.expression ++ Xml.textElements "action" rule.action)

/-! ### Reading -/

variable (lib : RepositoryXml)

/-- `XmlRuleRepository::xmlToRule`. -/
def xmlToRule (node : XmlNode) : Rule where
  id := lib.intAttribute "id" 0 node
  name := (node.attribute? "name").getD ""
  description := (node.attribute? "description").getD ""
  isActive := lib.boolAttribute "isActive" true node
  priority := lib.intAttribute "priority" 0 node
  timeout := (node.attribute? "timeout").map lib.asLlong
  cacheDuration := (node.attribute? "cacheDuration").map lib.asLlong
  dependsOnRuleName := node.attribute? "dependsOn"
  expression := Xml.childText "expression" node
  action := Xml.childText "action" node

/-! ### Reading what was written -/

section Members

variable (rule : Rule) (key : String)

theorem attribute?_ruleToXml : (ruleToXml rule).attribute? key =
    ((((((([("id", toString rule.id)].lookup key).or
      (if key = "name" then nonempty rule.name else none)).or
      (if key = "description" then nonempty rule.description else none)).or
      ([("isActive", XmlNode.boolText rule.isActive),
        ("priority", toString rule.priority)].lookup key)).or
      (if key = "timeout" then rule.timeout.map toString else none)).or
      (if key = "cacheDuration" then rule.cacheDuration.map toString else none)).or
      (if key = "dependsOn" then rule.dependsOnRuleName.map cStr else none)) := by
  simp only [ruleToXml, XmlNode.attribute?, XmlNode.attributes, List.lookup_append,
    optionalAttribute, KeyedList.lookup_optional]

theorem attribute?_id : (ruleToXml rule).attribute? "id" = some (toString rule.id) := by
  rw [attribute?_ruleToXml]
  simp [List.lookup_cons]

theorem attribute?_name : (ruleToXml rule).attribute? "name" = nonempty rule.name := by
  rw [attribute?_ruleToXml]
  simp [List.lookup_cons]

theorem attribute?_description :
    (ruleToXml rule).attribute? "description" = nonempty rule.description := by
  rw [attribute?_ruleToXml]
  simp [List.lookup_cons]

theorem attribute?_isActive :
    (ruleToXml rule).attribute? "isActive" = some (XmlNode.boolText rule.isActive) := by
  rw [attribute?_ruleToXml]
  simp [List.lookup_cons]

theorem attribute?_priority :
    (ruleToXml rule).attribute? "priority" = some (toString rule.priority) := by
  rw [attribute?_ruleToXml]
  simp [List.lookup_cons]

theorem attribute?_timeout :
    (ruleToXml rule).attribute? "timeout" = rule.timeout.map toString := by
  rw [attribute?_ruleToXml]
  simp [List.lookup_cons]

theorem attribute?_cacheDuration :
    (ruleToXml rule).attribute? "cacheDuration" = rule.cacheDuration.map toString := by
  rw [attribute?_ruleToXml]
  simp [List.lookup_cons]

theorem attribute?_dependsOn :
    (ruleToXml rule).attribute? "dependsOn" = rule.dependsOnRuleName.map cStr := by
  rw [attribute?_ruleToXml]
  simp [List.lookup_cons]

theorem getD_nonempty (text : String) : (nonempty text).getD "" = cStr text := by
  rw [nonempty]
  split_ifs with htext
  · rw [htext]
    rfl
  · rfl

theorem childText_ruleToXml (n : String) : Xml.childText n (ruleToXml rule) =
    (((Xml.textElements "expression" rule.expression).find? fun child ↦ child.name = n).or
      ((Xml.textElements "action" rule.action).find? fun child ↦ child.name = n)).elim ""
        XmlNode.text := by
  rw [Xml.childText, XmlNode.child?, ruleToXml, XmlNode.elements, List.find?_append]

theorem childText_expression :
    Xml.childText "expression" (ruleToXml rule) = cStr rule.expression := by
  rw [childText_ruleToXml, ← Xml.elim_ofText "expression"]
  simp [Xml.find?_textElements]

theorem childText_action : Xml.childText "action" (ruleToXml rule) = cStr rule.action := by
  rw [childText_ruleToXml, ← Xml.elim_ofText "action"]
  simp [Xml.find?_textElements]

end Members

section Read

variable {lib : RepositoryXml} {rule : Rule} (hlib : lib.ReadsValues)
include hlib

theorem intAttribute_id (hid : toInt32 rule.id = rule.id) :
    lib.intAttribute "id" 0 (ruleToXml rule) = rule.id := by
  rw [PugiXml.intAttribute, attribute?_id]
  exact hlib.asInt_toString rule.id hid

theorem map_asLlong {d : Option Int} (hd : d.map toInt64 = d) :
    (d.map toString).map lib.asLlong = d := by
  rcases d with - | d
  · rfl
  · exact congrArg some (hlib.asLlong_toString d (Option.some.inj hd))

/-- What is read of the element of a rule: all that a document is about, with C strings. -/
theorem xmlToRule_ruleToXml (hid : toInt32 rule.id = rule.id)
    (hpriority : toInt32 rule.priority = rule.priority)
    (htimeout : rule.timeout.map toInt64 = rule.timeout)
    (hcache : rule.cacheDuration.map toInt64 = rule.cacheDuration) :
    (xmlToRule lib (ruleToXml rule)).toRuleFields =
      { rule.toRuleFields.document with
        name := cStr rule.name
        description := cStr rule.description
        expression := cStr rule.expression
        action := cStr rule.action
        dependsOnRuleName := rule.dependsOnRuleName.map cStr } := by
  have hactive : lib.boolAttribute "isActive" true (ruleToXml rule) = rule.isActive := by
    rw [PugiXml.boolAttribute, attribute?_isActive]
    exact hlib.asBool_boolText rule.isActive
  have hprio : lib.intAttribute "priority" 0 (ruleToXml rule) = rule.priority := by
    rw [PugiXml.intAttribute, attribute?_priority]
    exact hlib.asInt_toString rule.priority hpriority
  rw [xmlToRule, intAttribute_id hlib hid, attribute?_name, getD_nonempty, attribute?_description,
    getD_nonempty, hactive, hprio, attribute?_timeout, map_asLlong hlib htimeout,
    attribute?_cacheDuration, map_asLlong hlib hcache, attribute?_dependsOn, childText_expression,
    childText_action]
  rfl

end Read

end XmlRepository

/-! ### Examples -/

/-- A library that reads numbers. -/
def plainXml : RepositoryXml where
  toPugiXml := Xml.libraryFor []
  asLlong s := (readInteger s).getD 0
  loadStream _ := .element "" [] "" []

theorem plainXml_readsValues : plainXml.ReadsValues where
  toReadsValues := Xml.libraryFor_readsValues []
  asLlong_toString n _ := by
    show (readInteger (toString n)).getD 0 = n
    rw [readInteger_toString]
    rfl

end FastRules
