import FastRules.Foundations.RecordStore
import FastRules.Repository.FileRepository
import FastRules.Repository.XmlRules

/-!
# The XML repository

`XmlRuleRepository` but for its `flush`: a document whose first element `rules`, if there is one,
holds the elements `rule`. The document may come from any file; an element without an `id` has the
id 0. What the calls make of the document is described by what they make of `ruleNodes`, the
elements that a loop over `root.children("rule")` goes through.
-/

namespace FastRules

/-- Change the child elements. -/
def XmlNode.editElements (f : List XmlNode → List XmlNode) : XmlNode → XmlNode
  | element name attributes text children => element name attributes text (f children)

/-- Change the child elements of the first element of the name. -/
def XmlNode.editFirst (name : String) (f : List XmlNode → List XmlNode) :
    List XmlNode → List XmlNode
  | [] => []
  | node :: nodes =>
    if node.name = name then node.editElements f :: nodes else node :: editFirst name f nodes

@[simp] theorem XmlNode.name_editElements (f : List XmlNode → List XmlNode) (node : XmlNode) :
    (node.editElements f).name = node.name := by
  obtain ⟨name, attributes, text, children⟩ := node
  rfl

namespace XmlRepository

open RecordStore

variable (lib : RepositoryXml)

/-- `child.attribute("id").as_int()`. -/
def nodeId (node : XmlNode) : Int :=
  lib.intAttribute "id" 0 node

/-- The element is a `rule` of the id. -/
def isRule (id : Int) (node : XmlNode) : Bool :=
  node.name = "rule" ∧ nodeId lib node = id

/-- The elements that `for (child = root.child("rule"); child; child = child.next_sibling("rule"))`
goes through, none without a root. -/
def ruleNodes (doc : XmlNode) : List XmlNode :=
  (doc.child? "rules").elim [] (XmlNode.children "rule")

/-- Change the child elements of `doc_.child("rules")`. -/
def editRoot (f : List XmlNode → List XmlNode) (doc : XmlNode) : XmlNode :=
  doc.editElements (XmlNode.editFirst "rules" f)

/-! ### Calls -/

/-- `if (!root) root = doc_.append_child("rules")`. -/
def ensureRoot (doc : XmlNode) : XmlNode :=
  if (doc.child? "rules").isSome then doc
  else doc.editElements (· ++ [.element "rules" [] "" []])

/-- Remove all elements of the id of a rule, then add the one of the rule. -/
def putRule (rule : Rule) (nodes : List XmlNode) : List XmlNode :=
  (nodes.filter fun node ↦ !isRule lib rule.id node) ++ [ruleToXml rule]

/-- What `XmlRuleRepository::save` makes of the document. -/
def saveData (rule : Rule) (doc : XmlNode) : XmlNode :=
  editRoot (fun nodes ↦ rule.childRules.foldl (fun nodes childRule ↦ putRule lib childRule nodes)
    (putRule lib rule nodes)) (ensureRoot doc)

/-- `XmlRuleRepository::save`. -/
def save (rule : Rule) (r : FileRepository XmlNode) : FileRepository XmlNode :=
  { data := saveData lib rule r.data, dirty := true }

/-- `XmlRuleRepository::findById`. -/
def findById (id : Int) (doc : XmlNode) : Option Rule :=
  ((ruleNodes doc).find? fun node ↦ nodeId lib node = id).map (xmlToRule lib)

/-- `XmlRuleRepository::findAll`. -/
def findAll (doc : XmlNode) : List Rule :=
  (ruleNodes doc).map (xmlToRule lib)

/-- What `XmlRuleRepository::remove` makes of the document: the first element is removed. -/
def removeData (id : Int) (doc : XmlNode) : XmlNode :=
  editRoot (List.eraseP (isRule lib id)) doc

/-- `XmlRuleRepository::exists`. -/
def existsId (id : Int) (doc : XmlNode) : Bool :=
  (ruleNodes doc).any fun node ↦ nodeId lib node = id

/-- `XmlRuleRepository::remove`. -/
def remove (id : Int) (r : FileRepository XmlNode) : FileRepository XmlNode :=
  if existsId lib id r.data then { data := removeData lib id r.data, dirty := true } else r

/-- `XmlRuleRepository::count`. -/
def count (doc : XmlNode) : ℕ :=
  (ruleNodes doc).length

/-- What an edit makes of the document. -/
def apply : RuleEdit → XmlNode → XmlNode
  | .save rule => saveData lib rule
  | .remove id => removeData lib id

/-- An edit of the repository. -/
def edit : RuleEdit → FileRepository XmlNode → FileRepository XmlNode
  | .save rule => save lib rule
  | .remove id => remove lib id

/-! ### The root -/

section Root

variable {f : List XmlNode → List XmlNode} {doc : XmlNode}

theorem find?_editFirst (nodes : List XmlNode) :
    (XmlNode.editFirst "rules" f nodes).find? (fun node ↦ node.name = "rules") =
      (nodes.find? fun node ↦ node.name = "rules").map (XmlNode.editElements f) := by
  induction nodes with
  | nil => rfl
  | cons node nodes ih =>
    rw [XmlNode.editFirst]
    split_ifs with hname
    · rw [List.find?_cons_of_pos (by simpa using hname),
        List.find?_cons_of_pos (by simpa using hname)]
      rfl
    · rw [List.find?_cons_of_neg (by simpa using hname),
        List.find?_cons_of_neg (by simpa using hname), ih]

theorem child?_editRoot (f : List XmlNode → List XmlNode) (doc : XmlNode) :
    (editRoot f doc).child? "rules" = (doc.child? "rules").map (XmlNode.editElements f) := by
  obtain ⟨name, attributes, text, children⟩ := doc
  exact find?_editFirst children

theorem child?_ensureRoot (doc : XmlNode) : (ensureRoot doc).child? "rules" =
    some ((doc.child? "rules").getD (.element "rules" [] "" [])) := by
  rw [ensureRoot]
  rcases hroot : doc.child? "rules" with - | root
  · obtain ⟨name, attributes, text, children⟩ := doc
    have hnone : children.find? (fun node ↦ node.name = "rules") = none := hroot
    show (children ++ [XmlNode.element "rules" [] "" []]).find?
      (fun node ↦ node.name = "rules") = _
    rw [List.find?_append, hnone]
    rfl
  · exact hroot

/-- A change of the child elements that is a change `g` of the rules among them. -/
theorem ruleNodes_editRoot {g : List XmlNode → List XmlNode} (hg : g [] = [])
    (h : ∀ nodes, (f nodes).filter (fun node ↦ node.name = "rule") =
      g (nodes.filter fun node ↦ node.name = "rule")) :
    ruleNodes (editRoot f doc) = g (ruleNodes doc) := by
  rw [ruleNodes, ruleNodes, child?_editRoot]
  rcases doc.child? "rules" with - | ⟨name, attributes, text, children⟩
  · exact hg.symm
  · exact h children

theorem ruleNodes_edit_ensureRoot {g : List XmlNode → List XmlNode}
    (h : ∀ nodes, (f nodes).filter (fun node ↦ node.name = "rule") =
      g (nodes.filter fun node ↦ node.name = "rule")) :
    ruleNodes (editRoot f (ensureRoot doc)) = g (ruleNodes doc) := by
  rw [ruleNodes, ruleNodes, child?_editRoot, child?_ensureRoot]
  rcases doc.child? "rules" with - | ⟨name, attributes, text, children⟩
  · exact h []
  · exact h children

theorem editFirst_eq_self {nodes : List XmlNode}
    (h : ∀ root, nodes.find? (fun node ↦ node.name = "rules") = some root →
      f root.elements = root.elements) : XmlNode.editFirst "rules" f nodes = nodes := by
  induction nodes with
  | nil => rfl
  | cons node nodes ih =>
    rw [XmlNode.editFirst]
    split_ifs with hname
    · have hroot := h node (List.find?_cons_of_pos (by simpa using hname))
      obtain ⟨name, attributes, text, children⟩ := node
      exact congrArg (· :: nodes) (congrArg (XmlNode.element name attributes text) hroot)
    · refine congrArg (node :: ·) (ih fun root hroot ↦ h root ?_)
      rwa [List.find?_cons_of_neg (by simpa using hname)]

theorem editRoot_eq_self
    (h : ∀ root, doc.child? "rules" = some root → f root.elements = root.elements) :
    editRoot f doc = doc := by
  obtain ⟨name, attributes, text, children⟩ := doc
  exact congrArg (XmlNode.element name attributes text) (editFirst_eq_self h)

end Root

/-! ### The rules as a store of records -/

/-- The id of an element as its key. -/
def recordId? (node : XmlNode) : Option Int :=
  some (nodeId lib node)

section Store

variable {lib : RepositoryXml} {rule : Rule} {id : Int} {doc : XmlNode}

theorem find?_nodeId (nodes : List XmlNode) :
    nodes.find? (fun node ↦ nodeId lib node = id) = lookup (recordId? lib) id nodes := by
  simp only [lookup, recordId?, Option.some.injEq]

theorem existsId_eq : existsId lib id doc = (lookup (recordId? lib) id (ruleNodes doc)).isSome := by
  rw [← find?_nodeId, List.isSome_find?]
  rfl

/-- A rule is put behind the others. -/
theorem filter_putRule (nodes : List XmlNode) :
    (putRule lib rule nodes).filter (fun node ↦ node.name = "rule") =
      moveToEnd (recordId? lib) rule.id (ruleToXml rule)
        (nodes.filter fun node ↦ node.name = "rule") := by
  rw [putRule, List.filter_append, moveToEnd, others, List.filter_filter, List.filter_filter]
  refine congrArg (· ++ [ruleToXml rule]) (List.filter_congr fun node _ ↦ ?_)
  by_cases hname : node.name = "rule"
  · simp [isRule, recordId?, hname]
  · simp [hname]

theorem filter_putAll (rules : List Rule) (nodes : List XmlNode) :
    (rules.foldl (fun nodes rule ↦ putRule lib rule nodes) nodes).filter
        (fun node ↦ node.name = "rule") =
      rules.foldl (fun nodes rule ↦ moveToEnd (recordId? lib) rule.id (ruleToXml rule) nodes)
        (nodes.filter fun node ↦ node.name = "rule") :=
  (List.foldl_hom (List.filter fun node ↦ node.name = "rule")
    fun nodes _ ↦ (filter_putRule nodes).symm).symm

/-- Saving puts the rule and then its direct children, one after the other. -/
theorem ruleNodes_saveData (rule : Rule) (doc : XmlNode) : ruleNodes (saveData lib rule doc) =
    (rule :: rule.childRules).foldl
      (fun nodes rule ↦ moveToEnd (recordId? lib) rule.id (ruleToXml rule) nodes)
      (ruleNodes doc) := by
  refine ruleNodes_edit_ensureRoot (g := (rule :: rule.childRules).foldl _) fun nodes ↦ ?_
  rw [filter_putAll, filter_putRule, List.foldl_cons]

theorem ruleNodes_removeData (id : Int) (doc : XmlNode) :
    ruleNodes (removeData lib id doc) = eraseFirst (recordId? lib) id (ruleNodes doc) := by
  refine ruleNodes_editRoot rfl fun nodes ↦ ?_
  have hrule : isRule lib id = fun node ↦ decide (recordId? lib node = some id) &&
      decide (node.name = "rule") := by
    funext node
    simp [isRule, recordId?, Bool.and_comm]
  rw [eraseFirst, List.eraseP_filter, hrule]

/-- Without an element of the id nothing is removed. -/
theorem removeData_eq_self (h : existsId lib id doc = false) : removeData lib id doc = doc := by
  refine editRoot_eq_self fun root hroot ↦ List.eraseP_of_forall_not fun node hnode hrule ↦ ?_
  obtain ⟨hname, hid⟩ := of_decide_eq_true hrule
  rw [existsId, ruleNodes, hroot, List.any_eq_false] at h
  exact h node (List.mem_filter.2 ⟨hnode, decide_eq_true hname⟩) (decide_eq_true hid)

/-- Edits change the document and mark it as changed. -/
theorem edit_marks : Marks (edit lib) (apply lib) :=
  .of_calls (fun _ _ ↦ rfl) (fun _ _ ↦ rfl) fun _ _ ↦ removeData_eq_self

/-- The element of a rule is one of its id. -/
theorem recordId?_ruleToXml (hlib : lib.ReadsValues) (hid : toInt32 rule.id = rule.id) :
    recordId? lib (ruleToXml rule) = some rule.id :=
  congrArg some (intAttribute_id hlib hid)

end Store

end XmlRepository

end FastRules
