import FastRules.Rule.Result
import FastRules.Workflow.Validate
import FastRules.Xml.Document

/-!
# The XML loader

`parseRule`, `serializeRule` and the operations of `XmlLoader` on texts. Fields are attributes or
child elements of an element `rule`; a field that has its default is left out, and a field that is
left out is read as its default. The addresses of the objects the loader makes are left at zero,
nothing in it depends on them.
-/

namespace FastRules.Xml

variable (lib : PugiXml)

/-! ### Parsing -/

/-- `if (node.child(name)) field = child.text().as_string("")`, where the field starts empty. -/
def childText (name : String) (node : XmlNode) : String :=
  (node.child? name).elim "" XmlNode.text

/-- A duration in milliseconds, read as an `int`. -/
def durationAttribute (key : String) (node : XmlNode) : Option Int :=
  (node.attribute? key).map lib.asInt

/-- The fields of a rule that `parseRule` reads. -/
def parseFields (ruleNode : XmlNode) : RuleFields where
  id := lib.intAttribute "id" 0 ruleNode
  name := (ruleNode.attribute? "name").getD ""
  isActive := lib.boolAttribute "isActive" true ruleNode
  priority := lib.intAttribute "priority" 0 ruleNode
  expression := childText "expression" ruleNode
  action := childText "action" ruleNode
  description := childText "description" ruleNode
  timeout := durationAttribute lib "timeout" ruleNode
  cacheDuration := durationAttribute lib "cacheDuration" ruleNode
  dependsOnRuleName := (ruleNode.child? "dependsOnRuleName").map XmlNode.text

mutual

/-- `parseRule`. -/
def parseRule : XmlNode → Rule
  | .element name attributes text children =>
    { parseFields lib (.element name attributes text children) with
      childRules := parseChildRules children }

/-- The rules in the first element `childRules`, if there is one. -/
def parseChildRules : List XmlNode → List Rule
  | [] => []
  | .element name _ _ children :: nodes =>
    if name = "childRules" then parseRules children else parseChildRules nodes

/-- The rules among the elements. -/
def parseRules : List XmlNode → List Rule
  | [] => []
  | node :: nodes =>
    if node.name = "rule" then parseRule node :: parseRules nodes else parseRules nodes

end

/-- `for (auto child : node.children("rule")) rules.push_back(parseRule(child))`. -/
theorem parseRules_elements (node : XmlNode) :
    parseRules lib node.elements = (node.children "rule").map (parseRule lib) := by
  rw [XmlNode.children]
  induction node.elements with
  | nil => rfl
  | cons child nodes ih =>
    rw [parseRules, List.filter_cons, ih]
    by_cases hname : child.name = "rule" <;> simp [hname]

theorem parseChildRules_elements (node : XmlNode) :
    parseChildRules lib node.elements =
      (node.child? "childRules").elim [] fun childrenNode ↦
        (childrenNode.children "rule").map (parseRule lib) := by
  rw [XmlNode.child?]
  induction node.elements with
  | nil => rfl
  | cons child nodes ih =>
    obtain ⟨name, attributes, text, children⟩ := child
    rw [parseChildRules, List.find?_cons, ih, XmlNode.name]
    by_cases hname : name = "childRules"
    · rw [if_pos hname, decide_eq_true hname]
      exact parseRules_elements lib (.element name attributes text children)
    · rw [if_neg hname, decide_eq_false hname]

/-- `parseRule` as it reads in the source. -/
theorem parseRule_eq (ruleNode : XmlNode) :
    parseRule lib ruleNode =
      { parseFields lib ruleNode with
        childRules := (ruleNode.child? "childRules").elim [] fun childrenNode ↦
          (childrenNode.children "rule").map (parseRule lib) } := by
  rw [← parseChildRules_elements]
  obtain ⟨name, attributes, text, children⟩ := ruleNode
  rw [parseRule]
  rfl

/-- `XmlLoader::loadWorkflow` from the root element on. -/
def parseWorkflow (root : XmlNode) : Workflow where
  id := lib.intAttribute "id" 0 root
  name := (root.attribute? "name").getD ""
  description := (root.attribute? "description").getD ""
  isActive := lib.boolAttribute "isActive" true root
  rules := (root.child? "rules").elim [] fun rulesNode ↦
    (rulesNode.children "rule").map (parseRule lib)

/-! ### Serializing -/

/-- An attribute for an optional duration, converted to `int`. -/
def durationAttributes (key : String) (duration : Option Int) : List (String × String) :=
  (duration.map fun d ↦ (key, toString (toInt32 d))).toList

/-- An element for a text unless it is empty. -/
def textElements (name text : String) : List XmlNode :=
  if text = "" then [] else [.ofText name text]

/-- An element for the children unless there are none. -/
def childrenElements (name : String) (children : List XmlNode) : List XmlNode :=
  if children = [] then [] else [.element name [] "" children]

/-- The element that `serializeRule` appends for a rule whose children are already serialized. -/
def ruleElement (rule : RuleFields) (children : List XmlNode) : XmlNode :=
  .element "rule"
    ([("id", toString rule.id), ("isActive", XmlNode.boolText rule.isActive),
      ("priority", toString rule.priority)] ++
      durationAttributes "timeout" rule.timeout ++
      durationAttributes "cacheDuration" rule.cacheDuration)
    ""
    (textElements "description" rule.description ++ textElements "expression" rule.expression ++
      textElements "action" rule.action ++
      (rule.dependsOnRuleName.map (XmlNode.ofText "dependsOnRuleName")).toList ++
      childrenElements "childRules" children)

mutual

/-- `serializeRule`. -/
def serializeRule : Rule → XmlNode
  | ⟨fields, children⟩ => ruleElement fields (serializeRules children)

/-- The elements of several rules. -/
def serializeRules : List Rule → List XmlNode
  | [] => []
  | child :: children => serializeRule child :: serializeRules children

end

theorem serializeRules_eq_map (rules : List Rule) :
    serializeRules rules = rules.map serializeRule := by
  induction rules with
  | nil => rfl
  | cons r rules ih => rw [serializeRules, ih, List.map_cons]

/-- The root element of `XmlLoader::saveWorkflow`. -/
def serializeWorkflow (workflow : Workflow) : XmlNode :=
  .element "workflow"
    [("id", toString workflow.id), ("name", cStr workflow.name),
      ("description", cStr workflow.description), ("isActive", XmlNode.boolText workflow.isActive)]
    "" [.element "rules" [] "" (serializeRules workflow.rules)]

/-! ### Texts -/

/-- The root element of the name in the text. -/
def loadRoot (name xmlString : String) : Except Exn XmlNode :=
  match lib.load xmlString with
  | .error description => .error (.standard ("XML parse error: " ++ description))
  | .ok doc =>
    match doc.child? name with
    | none => .error (.standard ("XML missing <" ++ name ++ "> root element"))
    | some root => .ok root

/-- `XmlLoader::loadWorkflow`. -/
def loadWorkflow (xmlString : String) : Except Exn Workflow :=
  (loadRoot lib "workflow" xmlString).map (parseWorkflow lib)

/-- `XmlLoader::loadRule`. -/
def loadRule (xmlString : String) : Except Exn Rule :=
  (loadRoot lib "rule" xmlString).map (parseRule lib)

/-- `XmlLoader::saveWorkflow`. -/
def saveWorkflow (workflow : Workflow) : String :=
  lib.save PugiXml.defaultIndent (.document (serializeWorkflow workflow))

/-- `XmlLoader::saveRule`. -/
def saveRule (rule : Rule) : String :=
  lib.save PugiXml.defaultIndent (.document (serializeRule rule))

end FastRules.Xml
