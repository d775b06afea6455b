import FastRules.Repository.JsonRepository
import FastRules.Repository.XmlRepository

/-!
# The file repositories as finite maps

Both repositories, from an empty store on, represent the map from ids to expressions that `save` and
`remove` describe: one record per id, however often an id is saved and whichever rules and children
share it. The expressions are the same but for what follows a NUL, which the XML repository does not
store.
-/

namespace FastRules

open RecordStore

/-! ### The reference -/

/-- The expression of each rule that is stored. -/
abbrev RuleMap := Finmap fun _ : Int ↦ String

/-- Saving inserts the rule and then each direct child, removing erases the id. -/
def RuleMap.apply : RuleEdit → RuleMap → RuleMap
  | .save rule, m => (rule :: rule.childRules).foldl (fun m r ↦ m.insert r.id r.expression) m
  | .remove id, m => m.erase id

def RuleMap.ofEdits (edits : List RuleEdit) : RuleMap :=
  edits.foldl (fun m e ↦ apply e m) ∅

/-- The ids of the rules that are stored are integers of their C++ type. -/
def RuleEdit.HasInts : RuleEdit → Prop
  | save rule => ∀ r ∈ rule :: rule.childRules, toInt32 r.id = r.id
  | remove _ => True

/-- A store and the reference agree on `exists`, `count` and the expression of `findById`. -/
structure AgreesWith (m : RuleMap) (existsId : Int → Bool) (count : ℕ)
    (findById : Int → Option Rule) : Prop where
  existsId : ∀ id, existsId id = true ↔ id ∈ m
  count : count = m.keys.card
  expression : ∀ id, (findById id).map (fun rule ↦ rule.expression) = m.lookup id

/-! ### The repositories -/

namespace JsonRepository

variable {data : List Json} {m : RuleMap} {edits : List RuleEdit}

/-- The record of a rule with the expression. -/
def StandsFor (item : Json) (expression : String) : Prop :=
  (jsonToRule item).expression = expression

theorem represents_upsert {rule : Rule} (hid : toInt32 rule.id = rule.id)
    (h : Represents itemId? StandsFor data m) :
    Represents itemId? StandsFor (upsert (ruleToJson rule) data)
      (m.insert rule.id rule.expression) := by
  have hexpression : StandsFor (ruleToJson rule) rule.expression :=
    (congrArg RuleFields.expression (jsonToRule_ruleToJson rule)).trans rfl
  rw [upsert_ruleToJson hid]
  exact h.replaceOrAppend (itemId?_ruleToJson hid) hexpression

theorem represents_apply {e : RuleEdit} (he : e.HasInts) (h : Represents itemId? StandsFor data m) :
    Represents itemId? StandsFor (apply e data) (RuleMap.apply e m) := by
  cases e with
  | save rule =>
    exact List.foldl_rel h fun r hr _ _ ↦ represents_upsert (he r hr)
  | remove id =>
    show Represents itemId? StandsFor (removeData id data) (m.erase id)
    rw [removeData_eq]
    exact h.others id

/-- The data of a new repository after the edits. -/
def afterEdits (edits : List RuleEdit) : List Json :=
  (edits.foldl (fun r e ↦ edit e r) { data := [] }).data

theorem represents_afterEdits (hedits : ∀ e ∈ edits, e.HasInts) :
    Represents itemId? StandsFor (afterEdits edits) (RuleMap.ofEdits edits) := by
  rw [afterEdits, edit_marks.data_foldl]
  exact List.foldl_rel (.empty _ _) fun e he _ _ ↦ represents_apply (hedits e he)

/-- What represents the reference agrees with it. -/
theorem agreesWith (h : Represents itemId? StandsFor data m) :
    AgreesWith m (existsId · data) (count data) (findById · data) where
  existsId := by
    intro id
    rw [existsId_eq, h.isSome_lookup]
  count := h.length_eq
  expression := by
    intro id
    rw [findById, find?_hasId, Option.map_map]
    generalize lookup itemId? id data = o, m.lookup id = p, h.lookup id = hrel
    cases hrel with
    | some hsame => exact congrArg some hsame
    | none => rfl

end JsonRepository

namespace XmlRepository

variable {lib : RepositoryXml} {doc : XmlNode} {m : RuleMap} {edits : List RuleEdit}

/-- The element of a rule with the expression, as far as it is a C string. -/
def StandsFor (lib : RepositoryXml) (node : XmlNode) (expression : String) : Prop :=
  (xmlToRule lib node).expression = cStr expression

theorem represents_moveToEnd (hlib : lib.ReadsValues) {rule : Rule}
    (hid : toInt32 rule.id = rule.id) {nodes : List XmlNode}
    (h : Represents (recordId? lib) (StandsFor lib) nodes m) :
    Represents (recordId? lib) (StandsFor lib)
      (moveToEnd (recordId? lib) rule.id (ruleToXml rule) nodes)
      (m.insert rule.id rule.expression) :=
  h.moveToEnd (recordId?_ruleToXml hlib hid) (childText_expression rule)

theorem represents_apply (hlib : lib.ReadsValues) {e : RuleEdit} (he : e.HasInts)
    (h : Represents (recordId? lib) (StandsFor lib) (ruleNodes doc) m) :
    Represents (recordId? lib) (StandsFor lib) (ruleNodes (apply lib e doc))
      (RuleMap.apply e m) := by
  cases e with
  | save rule =>
    show Represents (recordId? lib) (StandsFor lib) (ruleNodes (saveData lib rule doc)) _
    rw [ruleNodes_saveData]
    exact List.foldl_rel h fun r hr _ _ ↦ represents_moveToEnd hlib (he r hr)
  | remove id =>
    show Represents (recordId? lib) (StandsFor lib) (ruleNodes (removeData lib id doc)) (m.erase id)
    rw [ruleNodes_removeData]
    exact h.eraseFirst id

/-- The document of a new repository after the edits. -/
def afterEdits (lib : RepositoryXml) (edits : List RuleEdit) : XmlNode :=
  (edits.foldl (fun r e ↦ edit lib e r) { data := .element "" [] "" [] }).data

theorem represents_afterEdits (hlib : lib.ReadsValues) (hedits : ∀ e ∈ edits, e.HasInts) :
    Represents (recordId? lib) (StandsFor lib) (ruleNodes (afterEdits lib edits))
      (RuleMap.ofEdits edits) := by
  rw [afterEdits, edit_marks.data_foldl]
  exact List.foldl_rel
    (r := fun doc m ↦ Represents (recordId? lib) (StandsFor lib) (ruleNodes doc) m)
    (.empty _ _) fun e he _ _ ↦ represents_apply hlib (hedits e he)

theorem map_findById (h : Represents (recordId? lib) (StandsFor lib) (ruleNodes doc) m) (id : Int) :
    (findById lib id doc).map (fun rule ↦ rule.expression) = (m.lookup id).map cStr := by
  rw [findById, find?_nodeId, Option.map_map]
  generalize lookup (recordId? lib) id (ruleNodes doc) = o, m.lookup id = p, h.lookup id = hrel
  cases hrel with
  | some hsame => exact congrArg some hsame
  | none => rfl

/-- What represents the reference agrees with it up to the expressions that have a NUL. -/
theorem agreesWith_iff (h : Represents (recordId? lib) (StandsFor lib) (ruleNodes doc) m) :
    AgreesWith m (existsId lib · doc) (count doc) (findById lib · doc) ↔
      ∀ id expression, m.lookup id = some expression → NulFree expression := by
  constructor
  · intro hagrees id expression hlookup
    have hsame := (hagrees.expression id).symm.trans (map_findById h id)
    rw [hlookup] at hsame
    rw [Option.some.inj hsame]
    exact nulFree_cStr expression
  · intro hfree
    refine ⟨fun id ↦ ?_, h.length_eq, fun id ↦ ?_⟩
    · rw [existsId_eq, h.isSome_lookup]
    · rw [map_findById h]
      rcases hlookup : m.lookup id with - | expression
      · rfl
      · exact congrArg some (cStr_eq_self (hfree id expression hlookup))

end XmlRepository

/-! ### Agreement -/

/-- Both stores have one record per id at most, and agree with the reference. -/
structure RepositoriesAgree (lib : RepositoryXml) (m : RuleMap) (data : List Json)
    (doc : XmlNode) : Prop where
  jsonUnique : ∀ id, (data.filter (JsonRepository.hasId id)).length ≤ 1
  xmlUnique : ∀ id, ((XmlRepository.ruleNodes doc).filter fun node ↦
    XmlRepository.nodeId lib node = id).length ≤ 1
  json : AgreesWith m (JsonRepository.existsId · data) (JsonRepository.count data)
    (JsonRepository.findById · data)
  xml : AgreesWith m (XmlRepository.existsId lib · doc) (XmlRepository.count doc)
    (XmlRepository.findById lib · doc)

/-- After any edits both repositories agree with the reference, exactly if the expressions that it
holds have no NUL. -/
theorem repositories_agree_iff {lib : RepositoryXml} (hlib : lib.ReadsValues)
    (edits : List RuleEdit) (hedits : ∀ e ∈ edits, e.HasInts) :
    RepositoriesAgree lib (.ofEdits edits) (JsonRepository.afterEdits edits)
        (XmlRepository.afterEdits lib edits) ↔
      ∀ id expression, (RuleMap.ofEdits edits).lookup id = some expression →
        NulFree expression := by
  have hjson := JsonRepository.represents_afterEdits hedits
  have hxml := XmlRepository.represents_afterEdits hlib hedits
  rw [← XmlRepository.agreesWith_iff hxml]
  refine ⟨RepositoriesAgree.xml, fun hagrees ↦ ⟨hjson.unique, fun id ↦ ?_,
    JsonRepository.agreesWith hjson, hagrees⟩⟩
  have hunique := hxml.unique id
  simp only [records, XmlRepository.recordId?, Option.some.injEq] at hunique
  exact hunique


/-- A rule with a child of its own id. -/
def overriddenRule : Rule :=
  { id := 1, expression := "age >= 18", childRules := [{ id := 1, expression := "true" }] }

theorem overridden_agrees : RepositoriesAgree plainXml (.ofEdits [.save overriddenRule])
    (JsonRepository.afterEdits [.save overriddenRule])
    (XmlRepository.afterEdits plainXml [.save overriddenRule]) := by
  have hedits : ∀ e ∈ [RuleEdit.save overriddenRule], e.HasInts := by
    intro e he
    rw [List.mem_singleton.1 he]
    show ∀ r ∈ overriddenRule :: overriddenRule.childRules, toInt32 r.id = r.id
    decide
  refine (repositories_agree_iff plainXml_readsValues [.save overriddenRule] hedits).2
    fun id expression hlookup ↦ ?_
  -- the child has overridden the rule
  change ((∅ : RuleMap).insert 1 "age >= 18" |>.insert 1 "true").lookup id = _ at hlookup
  by_cases hid : id = 1
  · rw [hid, Finmap.lookup_insert] at hlookup
    rw [← Option.some.inj hlookup]
    decide
  · rw [Finmap.lookup_insert_of_ne _ hid, Finmap.lookup_insert_of_ne _ hid,
      Finmap.lookup_empty] at hlookup
    cases hlookup

/-- A rule with a NUL in its expression. -/
def cutRule : Rule :=
  { id := 1, expression := "true\x00 and false" }

/-- The XML repository cuts the expression off. -/
theorem cutRule_disagrees : ¬∀ edits : List RuleEdit, (∀ e ∈ edits, e.HasInts) →
    RepositoriesAgree plainXml (.ofEdits edits) (JsonRepository.afterEdits edits)
      (XmlRepository.afterEdits plainXml edits) := by
  intro h
  have hedits : ∀ e ∈ [RuleEdit.save cutRule], e.HasInts := by
    intro e he
    rw [List.mem_singleton.1 he]
    show ∀ r ∈ cutRule :: cutRule.childRules, toInt32 r.id = r.id
    decide
  have hfree := (repositories_agree_iff plainXml_readsValues _ hedits).1 (h _ hedits) 1
    cutRule.expression (Finmap.lookup_insert ∅)
  exact absurd hfree (by decide)

end FastRules
