import FastRules.Foundations.KeyedList
import FastRules.Json.RoundTrip
import FastRules.Xml.Loader

/-!
# Saving and loading as XML

`serializeRule` leaves out the name of a rule and converts its durations to `int`, so that loading
what was saved gives the tree with names cleared and durations wrapped (`parse_serialize`). A tree
comes back as it was exactly if it has no names and its durations are in the range of `int`.
-/

namespace FastRules.Xml

/-! ### The elements of a rule -/

section Elements

variable {name n text : String} {children : List XmlNode}

theorem find?_named {node : XmlNode} {name : String} (h : node.name = name) (n : String) :
    [node].find? (fun child ↦ child.name = n) = if name = n then some node else none := by
  by_cases hn : name = n <;> simp [h, hn]

theorem find?_textElements (name n text : String) :
    (textElements name text).find? (fun child ↦ child.name = n) =
      if text ≠ "" ∧ name = n then some (.ofText name text) else none := by
  rw [textElements]
  split_ifs with htext h h
  · exact absurd htext h.1
  · rfl
  · rw [find?_named (XmlNode.name_ofText name text), if_pos h.2]
  · rw [find?_named (XmlNode.name_ofText name text), if_neg fun hn ↦ h ⟨htext, hn⟩]

theorem find?_optional (name n : String) (text : Option String) :
    (text.map (XmlNode.ofText name)).toList.find? (fun child ↦ child.name = n) =
      if name = n then text.map (XmlNode.ofText name) else none := by
  rcases text with - | text
  · exact (ite_self none).symm
  · exact find?_named (XmlNode.name_ofText name text) n

theorem find?_childrenElements (name n : String) (children : List XmlNode) :
    (childrenElements name children).find? (fun child ↦ child.name = n) =
      if children ≠ [] ∧ name = n then some (.element name [] "" children) else none := by
  have hname : (XmlNode.element name [] "" children).name = name := rfl
  rw [childrenElements]
  split_ifs with hchildren h h
  · exact absurd hchildren h.1
  · rfl
  · rw [find?_named hname, if_pos h.2]
  · rw [find?_named hname, if_neg fun hn ↦ h ⟨hchildren, hn⟩]

theorem elim_ofText (name text : String) :
    (if text = "" then none else some (XmlNode.ofText name text)).elim "" XmlNode.text =
      cStr text := by
  split_ifs with htext
  · rw [htext]
    rfl
  · rfl

end Elements

section Rule

variable (rule : RuleFields) (children : List XmlNode)

theorem child?_ruleElement (n : String) : (ruleElement rule children).child? n =
    (((((textElements "description" rule.description).find? fun child ↦ child.name = n).or
      ((textElements "expression" rule.expression).find? fun child ↦ child.name = n)).or
      ((textElements "action" rule.action).find? fun child ↦ child.name = n)).or
      ((rule.dependsOnRuleName.map (XmlNode.ofText "dependsOnRuleName")).toList.find?
        fun child ↦ child.name = n)).or
      ((childrenElements "childRules" children).find? fun child ↦ child.name = n) := by
  rw [XmlNode.child?, ruleElement, XmlNode.elements, List.find?_append, List.find?_append,
    List.find?_append, List.find?_append]

theorem childText_description :
    childText "description" (ruleElement rule children) = cStr rule.description := by
  rw [childText, child?_ruleElement, ← elim_ofText "description"]
  simp [find?_textElements, find?_optional, find?_childrenElements]

theorem childText_expression :
    childText "expression" (ruleElement rule children) = cStr rule.expression := by
  rw [childText, child?_ruleElement, ← elim_ofText "expression"]
  simp [find?_textElements, find?_optional, find?_childrenElements]

theorem childText_action : childText "action" (ruleElement rule children) = cStr rule.action := by
  rw [childText, child?_ruleElement, ← elim_ofText "action"]
  simp [find?_textElements, find?_optional, find?_childrenElements]

theorem child?_dependsOnRuleName : ((ruleElement rule children).child? "dependsOnRuleName").map
    XmlNode.text = rule.dependsOnRuleName.map cStr := by
  rw [child?_ruleElement]
  simp [find?_textElements, find?_optional, find?_childrenElements, Function.comp_def]

theorem child?_childRules : (ruleElement rule children).child? "childRules" =
    if children = [] then none else some (.element "childRules" [] "" children) := by
  rw [child?_ruleElement]
  simp [find?_textElements, find?_optional, find?_childrenElements]

theorem lookup_durationAttributes (key n : String) (duration : Option Int) :
    (durationAttributes key duration).lookup n =
      if n = key then duration.map fun d ↦ toString (toInt32 d) else none := by
  have hattributes : durationAttributes key duration =
      ((duration.map fun d ↦ toString (toInt32 d)).map (Prod.mk key)).toList := by
    rw [Option.map_map]
    rfl
  rw [hattributes, KeyedList.lookup_optional]

theorem attribute?_ruleElement (n : String) : (ruleElement rule children).attribute? n =
    ((([("id", toString rule.id), ("isActive", XmlNode.boolText rule.isActive),
      ("priority", toString rule.priority)].lookup n).or
      ((durationAttributes "timeout" rule.timeout).lookup n)).or
      ((durationAttributes "cacheDuration" rule.cacheDuration).lookup n)) := by
  rw [XmlNode.attribute?, ruleElement, XmlNode.attributes, List.lookup_append, List.lookup_append]

end Rule

/-! ### One rule -/

/-- What is left of a rule that was saved as XML. -/
def savedFields (r : RuleFields) : RuleFields :=
  { r.document with
    name := ""
    description := cStr r.description
    expression := cStr r.expression
    action := cStr r.action
    dependsOnRuleName := r.dependsOnRuleName.map cStr
    timeout := r.timeout.map toInt32
    cacheDuration := r.cacheDuration.map toInt32 }

/-- The children of an element that are written for rules. -/
theorem children_map_serialize {node : XmlNode} {rules : List Rule}
    (h : node.elements = serializeRules rules) :
    node.children "rule" = rules.map serializeRule := by
  rw [XmlNode.children, h, serializeRules_eq_map, List.filter_eq_self]
  intro child hchild
  obtain ⟨⟨fields, grandchildren⟩, -, rfl⟩ := List.mem_map.1 hchild
  rfl

section Parse

variable {lib : PugiXml} (hlib : lib.ReadsValues)
include hlib

theorem durationAttribute_eq {key : String} {node : XmlNode} {duration : Option Int}
    (h : node.attribute? key = duration.map fun d ↦ toString (toInt32 d)) :
    durationAttribute lib key node = duration.map toInt32 := by
  rw [durationAttribute, h, Option.map_map]
  exact Option.map_congr fun d _ ↦ hlib.asInt_toString _ (toInt32_toInt32 d)

theorem parseFields_ruleElement {rule : RuleFields} (hid : toInt32 rule.id = rule.id)
    (hpriority : toInt32 rule.priority = rule.priority) (children : List XmlNode) :
    parseFields lib (ruleElement rule children) = savedFields rule := by
  have htimeout : (ruleElement rule children).attribute? "timeout" =
      rule.timeout.map fun d ↦ toString (toInt32 d) := by
    rw [attribute?_ruleElement, lookup_durationAttributes, lookup_durationAttributes]
    simp [List.lookup_cons]
  have hcache : (ruleElement rule children).attribute? "cacheDuration" =
      rule.cacheDuration.map fun d ↦ toString (toInt32 d) := by
    rw [attribute?_ruleElement, lookup_durationAttributes, lookup_durationAttributes]
    simp [List.lookup_cons]
  have hname : (ruleElement rule children).attribute? "name" = none := by
    rw [attribute?_ruleElement, lookup_durationAttributes, lookup_durationAttributes]
    simp [List.lookup_cons]
  have hidText : lib.intAttribute "id" 0 (ruleElement rule children) = rule.id :=
    hlib.asInt_toString rule.id hid
  have hactive : lib.boolAttribute "isActive" true (ruleElement rule children) = rule.isActive :=
    hlib.asBool_boolText rule.isActive
  have hpriorityText : lib.intAttribute "priority" 0 (ruleElement rule children) = rule.priority :=
    hlib.asInt_toString rule.priority hpriority
  rw [parseFields, durationAttribute_eq hlib htimeout, durationAttribute_eq hlib hcache,
    childText_description, childText_expression, childText_action, child?_dependsOnRuleName, hname,
    hidText, hactive, hpriorityText]
  rfl

/-- Loading what was saved gives the rule without its names and with durations of type `int`. -/
theorem parse_serialize {r : Rule} (hr : r.Representable) :
    parseRule lib (serializeRule r) = r.mapFields savedFields := by
  induction r using Rule.induction_children with
  | h r ih =>
    obtain ⟨hid, hpriority, -⟩ := hr r r.self_mem_nodes
    have hserialize :
        serializeRule r = ruleElement r.toRuleFields (serializeRules r.childRules) := by
      obtain ⟨fields, children⟩ := r
      rw [serializeRule]
    have hchildren : (((serializeRule r).child? "childRules").elim [] fun childrenNode ↦
        (childrenNode.children "rule").map (parseRule lib)) =
        r.childRules.map (Rule.mapFields savedFields) := by
      rw [hserialize, child?_childRules, serializeRules_eq_map]
      split_ifs with hnil
      · rw [List.map_eq_nil_iff.1 hnil]
        rfl
      · have helements :
            (XmlNode.element "childRules" [] "" (r.childRules.map serializeRule)).children
              "rule" = r.childRules.map serializeRule :=
          children_map_serialize (serializeRules_eq_map r.childRules).symm
        rw [Option.elim_some, helements, List.map_map]
        exact List.map_congr_left fun child hchild ↦ ih child hchild (hr.child hchild)
    rw [parseRule_eq, hchildren, Rule.mapFields_eq, hserialize,
      parseFields_ruleElement hlib hid hpriority]

theorem parse_serializeWorkflow {w : Workflow} (hid : toInt32 w.id = w.id)
    (hr : ∀ r ∈ w.rules, r.Representable) :
    parseWorkflow lib (serializeWorkflow w) =
      { w with
        name := cStr w.name
        description := cStr w.description
        rules := w.rules.map (Rule.mapFields savedFields)
        validated := false } := by
  have hidText : lib.intAttribute "id" 0 (serializeWorkflow w) = w.id :=
    hlib.asInt_toString w.id hid
  have hactive : lib.boolAttribute "isActive" true (serializeWorkflow w) = w.isActive :=
    hlib.asBool_boolText w.isActive
  have hrules : (((serializeWorkflow w).child? "rules").elim [] fun rulesNode ↦
      (rulesNode.children "rule").map (parseRule lib)) =
      w.rules.map (Rule.mapFields savedFields) := by
    show (XmlNode.children "rule" (.element "rules" [] "" (serializeRules w.rules))).map
      (parseRule lib) = _
    rw [children_map_serialize rfl, List.map_map]
    exact List.map_congr_left fun r hmem ↦ parse_serialize hlib (hr r hmem)
  rw [parseWorkflow, hidText, hactive, hrules]
  rfl

end Parse

/-! ### Texts -/

/-- The C strings of a rule are its strings. -/
def HasCStrings (r : Rule) : Prop :=
  ∀ q ∈ r.nodes, NulFree q.description ∧ NulFree q.expression ∧ NulFree q.action ∧
    ∀ n ∈ q.dependsOnRuleName, NulFree n

instance (r : Rule) : Decidable (HasCStrings r) :=
  inferInstanceAs (Decidable (∀ q ∈ r.nodes, _))

/-- No rule of the tree has a name, and all durations are of type `int`. -/
def IsKept (r : Rule) : Prop :=
  ∀ q ∈ r.nodes, q.name = "" ∧ q.timeout.map toInt32 = q.timeout ∧
    q.cacheDuration.map toInt32 = q.cacheDuration

instance (r : Rule) : Decidable (IsKept r) :=
  inferInstanceAs (Decidable (∀ q ∈ r.nodes, _))

/-- Loading the text of the rule gives it back. -/
def RoundTrips (lib : PugiXml) (r : Rule) : Prop :=
  ∃ r', loadRule lib (saveRule lib r) = .ok r' ∧ r'.document = r.document

/-- Loading the text of the workflow gives back its own fields and its rules in order. -/
def WorkflowRoundTrips (lib : PugiXml) (w : Workflow) : Prop :=
  ∃ w', loadWorkflow lib (saveWorkflow lib w) = .ok w' ∧ w'.asDocument = w.asDocument

theorem savedFields_eq_document_iff {r : Rule} (hstrings : HasCStrings r) :
    r.mapFields savedFields = r.document ↔ IsKept r := by
  rw [Rule.document, Rule.mapFields_inj]
  refine forall₂_congr fun q hq ↦ ?_
  obtain ⟨hdescription, hexpression, haction, hdepends⟩ := hstrings q hq
  have hdep : q.dependsOnRuleName.map cStr = q.dependsOnRuleName := by
    rcases hname : q.dependsOnRuleName with - | n
    · rfl
    · exact congrArg some (cStr_eq_self (hdepends n hname))
  rw [savedFields, cStr_eq_self hdescription, cStr_eq_self hexpression, cStr_eq_self haction, hdep]
  constructor
  · intro h
    exact ⟨(congrArg RuleFields.name h).symm, congrArg RuleFields.timeout h,
      congrArg RuleFields.cacheDuration h⟩
  · rintro ⟨hname, htimeout, hcache⟩
    rw [htimeout, hcache, ← hname]
    rfl

theorem document_savedFields (r : Rule) :
    (r.mapFields savedFields).document = r.mapFields savedFields :=
  Rule.mapFields_mapFields r

theorem loadRoot_save {lib : PugiXml} {name : String} {root : XmlNode}
    (h : lib.Restores PugiXml.defaultIndent (.document root)) (hname : root.name = name) :
    loadRoot lib name (lib.save PugiXml.defaultIndent (.document root)) = .ok root := by
  rw [loadRoot, show lib.load _ = _ from h]
  dsimp only
  rw [XmlNode.child?_document, if_pos hname]

section Text

variable {lib : PugiXml} (hlib : lib.ReadsValues)
include hlib

theorem load_save {r : Rule} (hr : r.Representable)
    (hrestores : lib.Restores PugiXml.defaultIndent (.document (serializeRule r))) :
    loadRule lib (saveRule lib r) = .ok (r.mapFields savedFields) := by
  have hname : (serializeRule r).name = "rule" := by
    obtain ⟨fields, children⟩ := r
    rfl
  rw [loadRule, saveRule, loadRoot_save hrestores hname]
  exact congrArg Except.ok (parse_serialize hlib hr)

/-- A tree comes back exactly if it has no names and its durations are of type `int`, and a workflow
exactly if that is so of all its rules. -/
theorem xml_roundTrip_iff :
    (∀ r : Rule, r.Representable → HasCStrings r →
      lib.Restores PugiXml.defaultIndent (.document (serializeRule r)) →
      (RoundTrips lib r ↔ IsKept r)) ∧
    ∀ w : Workflow, toInt32 w.id = w.id → NulFree w.name → NulFree w.description →
      (∀ r ∈ w.rules, r.Representable) → (∀ r ∈ w.rules, HasCStrings r) →
      lib.Restores PugiXml.defaultIndent (.document (serializeWorkflow w)) →
      (WorkflowRoundTrips lib w ↔ ∀ r ∈ w.rules, IsKept r) := by
  constructor
  · intro r hr hstrings hrestores
    rw [RoundTrips, load_save hlib hr hrestores, ← savedFields_eq_document_iff hstrings]
    simp [document_savedFields]
  · intro w hid hname hdescription hr hstrings hrestores
    have hload : loadWorkflow lib (saveWorkflow lib w) = .ok { w with
        rules := w.rules.map (Rule.mapFields savedFields)
        validated := false } := by
      have hroot : (serializeWorkflow w).name = "workflow" := rfl
      rw [loadWorkflow, saveWorkflow, loadRoot_save hrestores hroot]
      refine congrArg Except.ok ((parse_serializeWorkflow hlib hid hr).trans ?_)
      rw [cStr_eq_self hname, cStr_eq_self hdescription]
    have hrules : (∀ r ∈ w.rules, IsKept r) ↔
        w.rules.map (Rule.mapFields savedFields) = w.rules.map Rule.document := by
      rw [List.map_inj_left]
      exact forall₂_congr fun r hmem ↦ (savedFields_eq_document_iff (hstrings r hmem)).symm
    rw [WorkflowRoundTrips, hload, hrules]
    -- saving changes a tree once and then no more
    have hdocument : (w.rules.map (Rule.mapFields savedFields)).map Rule.document =
        w.rules.map (Rule.mapFields savedFields) := by
      rw [List.map_map]
      exact List.map_congr_left fun r _ ↦ document_savedFields r
    constructor
    · rintro ⟨w', heq, hsame⟩
      obtain rfl := Except.ok.inj heq
      exact hdocument ▸ congrArg Workflow.rules hsame
    · intro heq
      refine ⟨_, rfl, ?_⟩
      rw [Workflow.asDocument, Workflow.asDocument, hdocument, heq]

end Text

/-! ### Examples -/

/-- The text of a piece of character data or of the value of an attribute. -/
def escapeText (s : String) : String :=
  String.ofList (s.toList.flatMap fun c ↦
    if c = '&' then "&amp;".toList
    else if c = '<' then "&lt;".toList
    else if c = '>' then "&gt;".toList
    else if c = '"' then "&quot;".toList
    else [c])

mutual

/-- The lines of an element, with the text of one level of indentation and the indentation so
far. -/
def render (step indent : String) : XmlNode → String
  | .element name attributes text children =>
    let tag :=
      name ++ String.join (attributes.map fun a ↦ " " ++ a.1 ++ "=\"" ++ escapeText a.2 ++ "\"")
    if text ≠ "" then indent ++ "<" ++ tag ++ ">" ++ escapeText text ++ "</" ++ name ++ ">\n"
    else if children.isEmpty then indent ++ "<" ++ tag ++ " />\n"
    else indent ++ "<" ++ tag ++ ">\n" ++ renderAll step (indent ++ step) children ++
      indent ++ "</" ++ name ++ ">\n"

def renderAll (step indent : String) : List XmlNode → String
  | [] => ""
  | node :: nodes => render step indent node ++ renderAll step indent nodes

end

/-- The text of a document. -/
def renderDocument (step : String) (doc : XmlNode) : String :=
  "<?xml version=\"1.0\"?>\n" ++ renderAll step "" doc.elements

/-- A library that knows the texts of some documents. -/
def libraryFor (docs : List XmlNode) : PugiXml where
  save := renderDocument
  load text :=
    match docs.find? fun doc ↦ text = renderDocument "\t" doc ∨ text = renderDocument "  " doc with
    | some doc => .ok doc
    | none => .error "Error parsing element attribute"
  asInt s := (readBounded 32 s).getD 0
  asBool s := s.toList.head?.any fun c ↦ c ∈ ['1', 't', 'T', 'y', 'Y']

theorem libraryFor_restores_of_find {step : String} {docs : List XmlNode} {doc : XmlNode}
    (h : docs.find? (fun d ↦ renderDocument step doc = renderDocument "\t" d ∨
      renderDocument step doc = renderDocument "  " d) = some doc) :
    (libraryFor docs).Restores step doc := by
  rw [PugiXml.Restores, libraryFor]
  dsimp only
  rw [h]

theorem libraryFor_restores_head {step : String} (hstep : step = "\t" ∨ step = "  ") (doc : XmlNode)
    (docs : List XmlNode) : (libraryFor (doc :: docs)).Restores step doc := by
  refine libraryFor_restores_of_find (List.find?_cons_of_pos (decide_eq_true ?_))
  rcases hstep with rfl | rfl
  · exact .inl rfl
  · exact .inr rfl

theorem libraryFor_restores (doc : XmlNode) :
    (libraryFor [doc]).Restores PugiXml.defaultIndent doc :=
  libraryFor_restores_head (.inl rfl) doc []

theorem libraryFor_readsValues (docs : List XmlNode) : (libraryFor docs).ReadsValues where
  asInt_toString n hn := by
    show (readBounded 32 (toString n)).getD 0 = n
    rw [readBounded_toString hn]
    rfl
  asBool_boolText b := by cases b <;> rfl

/-- A tree without names. -/
def limitedRule : Rule :=
  { id := 1, description := "adult", expression := "age >= 18", timeout := some 1000
    dependsOnRuleName := some "known", childRules := [{ id := 2, action := "log('x')" }] }

def limitedWorkflow : Workflow where
  rules := [limitedRule]
  id := 7
  name := "adults"

theorem limited_roundTrips :
    RoundTrips (libraryFor [.document (serializeRule limitedRule)]) limitedRule ∧
      WorkflowRoundTrips (libraryFor [.document (serializeWorkflow limitedWorkflow)])
        limitedWorkflow :=
  ⟨((xml_roundTrip_iff (libraryFor_readsValues _)).1 limitedRule (by decide) (by decide)
      (libraryFor_restores _)).2 (by decide),
    ((xml_roundTrip_iff (libraryFor_readsValues _)).2 limitedWorkflow (by decide) (by decide)
      (by decide) (by decide) (by decide) (libraryFor_restores _)).2 (by decide)⟩

/-- A rule that keeps its result for 30 days. -/
def monthlyRule : Rule :=
  { id := 1, expression := "true", cacheDuration := some 2592000000 }

/-- It is loaded with a negative duration, and keeps nothing. -/
theorem monthlyRule_changed :
    (∃ r, loadRule (libraryFor [.document (serializeRule monthlyRule)])
        (saveRule (libraryFor [.document (serializeRule monthlyRule)]) monthlyRule) = .ok r ∧
      r.cacheDuration = some (-1702967296)) ∧
    ¬RoundTrips (libraryFor [.document (serializeRule monthlyRule)]) monthlyRule := by
  have hload := load_save (libraryFor_readsValues [.document (serializeRule monthlyRule)])
    (r := monthlyRule) (by decide) (libraryFor_restores _)
  refine ⟨⟨_, hload, rfl⟩, ?_⟩
  rintro ⟨r, hr, hsame⟩
  obtain rfl := Except.ok.inj (hload.symm.trans hr)
  rw [document_savedFields] at hsame
  exact absurd ((savedFields_eq_document_iff (by decide)).1 hsame) (by decide)

end FastRules.Xml
