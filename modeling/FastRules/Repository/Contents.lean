import FastRules.Repository.JsonRepository
import FastRules.Repository.XmlRepository

/-!
# What is found after saving and removing

Both repositories store a rule and its direct children. A rule that is nested deeper is found after
`save` exactly as it was found before, so that a tree of three levels is stored only if its lower
part was there already (`save_storesTree_iff`). Removing an id is complete in the JSON repository,
whatever was loaded; the XML repository removes one element (`remove_complete_iff`).
-/

namespace FastRules

open RecordStore

/-! ### Saving a tree -/

/-- The rule is found with its expression and its action. -/
def Finds (findById : Int → Option Rule) (rule : Rule) : Prop :=
  ∃ found, findById rule.id = some found ∧ found.expression = rule.expression ∧
    found.action = rule.action

/-- Every rule below the rule is found. -/
def StoresTree (findById : Int → Option Rule) (rule : Rule) : Prop :=
  ∀ d ∈ nodesOf rule.childRules, Finds findById d

/-- The ids of the tree are distinct integers of their C++ type. -/
structure Rule.HasDistinctIds (rule : Rule) : Prop where
  int : ∀ r ∈ rule.nodes, toInt32 r.id = r.id
  nodup : (rule.nodes.map fun r ↦ r.id).Nodup

/-- The rules below some rules: they themselves, and what is below their children. -/
theorem nodesOf_perm (rules : List Rule) :
    (nodesOf rules).Perm (rules ++ rules.flatMap fun r ↦ nodesOf r.childRules) := by
  induction rules with
  | nil => exact .refl _
  | cons r rules ih =>
    rw [nodesOf, r.nodes_eq, List.cons_append, List.cons_append, List.flatMap_cons]
    exact .cons r ((ih.append_left _).trans (List.perm_append_comm_assoc _ _ _))

/-- The children of the rule and what is below them have ids of their own. -/
theorem Rule.HasDistinctIds.below {rule : Rule} (h : rule.HasDistinctIds) :
    ((rule :: rule.childRules).map fun r ↦ r.id).Nodup ∧
      ∀ c ∈ rule.childRules, ∀ d ∈ nodesOf c.childRules,
        d.id ∉ (rule :: rule.childRules).map fun r ↦ r.id := by
  have hperm : rule.nodes.Perm
      ((rule :: rule.childRules) ++ rule.childRules.flatMap fun r ↦ nodesOf r.childRules) := by
    rw [rule.nodes_eq]
    exact (nodesOf_perm rule.childRules).cons rule
  have hnodup := (hperm.map fun r ↦ r.id).nodup_iff.1 h.nodup
  rw [List.map_append, List.nodup_append'] at hnodup
  refine ⟨hnodup.1, fun c hc d hd hmem ↦ hnodup.2.2 hmem (List.mem_map_of_mem ?_)⟩
  exact List.mem_flatMap.2 ⟨c, hc, hd⟩

theorem Rule.HasDistinctIds.int_of_mem {rule : Rule} (h : rule.HasDistinctIds) :
    ∀ r ∈ rule :: rule.childRules, toInt32 r.id = r.id := by
  intro r hr
  refine h.int r ?_
  rw [rule.nodes_eq]
  rcases List.mem_cons.1 hr with rfl | hr
  · exact List.mem_cons_self
  · exact List.mem_cons_of_mem rule (Rule.mem_nodesOf_of_mem hr)

section Put

variable {σ : Type} {find : σ → Int → Option Rule} {put : σ → Rule → σ} {entry : Rule → Rule}
  {rule : Rule} {s : σ}

/-- Where a rule and its direct children are put, the direct children are found as they are read
back, and everything below them as before. -/
theorem storesTree_putAll_iff (h : rule.HasDistinctIds)
    (hput : ∀ r ∈ rule :: rule.childRules, IsPut find put (fun r ↦ r.id) entry r) :
    StoresTree (find ((rule :: rule.childRules).foldl put s)) rule ↔
      (∀ c ∈ rule.childRules,
        (entry c).expression = c.expression ∧ (entry c).action = c.action) ∧
      ∀ c ∈ rule.childRules, ∀ d ∈ nodesOf c.childRules, Finds (find s) d := by
  obtain ⟨hdistinct, hbelow⟩ := h.below
  -- a direct child is put and not overridden, a rule below it is not touched
  have hchild : ∀ c ∈ rule.childRules,
      (Finds (find ((rule :: rule.childRules).foldl put s)) c ↔
        (entry c).expression = c.expression ∧ (entry c).action = c.action) := by
    intro c hc
    rw [Finds, find_putAll_of_mem hput hdistinct (List.mem_cons_of_mem rule hc)]
    simp
  have hdeep : ∀ c ∈ rule.childRules, ∀ d ∈ nodesOf c.childRules,
      (Finds (find ((rule :: rule.childRules).foldl put s)) d ↔ Finds (find s) d) := by
    intro c hc d hd
    rw [Finds, Finds, find_putAll_of_notMem hput (hbelow c hc d hd)]
  have hnodes : ∀ d, d ∈ nodesOf rule.childRules ↔
      d ∈ rule.childRules ∨ ∃ c ∈ rule.childRules, d ∈ nodesOf c.childRules := by
    intro d
    rw [(nodesOf_perm rule.childRules).mem_iff, List.mem_append, List.mem_flatMap]
  constructor
  · intro hstores
    refine ⟨fun c hc ↦ (hchild c hc).1 (hstores c ((hnodes c).2 (.inl hc))),
      fun c hc d hd ↦ (hdeep c hc d hd).1 (hstores d ((hnodes d).2 (.inr ⟨c, hc, hd⟩)))⟩
  · rintro ⟨hentry, hbefore⟩ d hd
    rcases (hnodes d).1 hd with hd | ⟨c, hc, hd⟩
    · exact (hchild d hd).2 (hentry d hd)
    · exact (hdeep c hc d hd).2 (hbefore c hc d hd)

end Put

namespace JsonRepository

theorem isPut_upsert {rule : Rule} (hid : toInt32 rule.id = rule.id) :
    IsPut (fun data id ↦ findById id data) (fun data r ↦ upsert (ruleToJson r) data)
      (fun r ↦ r.id) (fun r ↦ jsonToRule (ruleToJson r)) rule := by
  have hlookup : IsPut (fun data id ↦ lookup itemId? id data)
      (fun data r ↦ upsert (ruleToJson r) data) (fun r ↦ r.id) ruleToJson rule := by
    intro data
    show (lookup itemId? · (upsert (ruleToJson rule) data)) = _
    rw [upsert_ruleToJson hid]
    exact lookup_replaceOrAppend (itemId?_ruleToJson hid) data
  exact hlookup.map jsonToRule

/-- The JSON repository stores a tree if what is below the direct children was stored before. -/
theorem storesTree_iff {rule : Rule} (h : rule.HasDistinctIds) (data : List Json) :
    StoresTree (findById · (saveData rule data)) rule ↔
      ∀ c ∈ rule.childRules, ∀ d ∈ nodesOf c.childRules, Finds (findById · data) d := by
  refine (storesTree_putAll_iff h fun r hr ↦ isPut_upsert (h.int_of_mem r hr)).trans
    (and_iff_right fun c _ ↦ ?_)
  exact ⟨(congrArg RuleFields.expression (jsonToRule_ruleToJson c)).trans rfl,
    (congrArg RuleFields.action (jsonToRule_ruleToJson c)).trans rfl⟩

end JsonRepository

namespace XmlRepository

variable {lib : RepositoryXml}

theorem isPut_moveToEnd (hlib : lib.ReadsValues) {rule : Rule} (hid : toInt32 rule.id = rule.id) :
    IsPut (fun nodes id ↦ (lookup (recordId? lib) id nodes).map (xmlToRule lib))
      (fun nodes r ↦ moveToEnd (recordId? lib) r.id (ruleToXml r) nodes)
      (fun r ↦ r.id) (fun r ↦ xmlToRule lib (ruleToXml r)) rule := by
  have hlookup : IsPut (fun nodes id ↦ lookup (recordId? lib) id nodes)
      (fun nodes r ↦ moveToEnd (recordId? lib) r.id (ruleToXml r) nodes)
      (fun r ↦ r.id) ruleToXml rule := fun nodes ↦
    lookup_moveToEnd (recordId?_ruleToXml hlib hid) nodes
  exact hlookup.map (xmlToRule lib)

/-- The XML repository stores a tree if what is below the direct children was stored before, and
the expressions and actions of the direct children have no NUL. -/
theorem storesTree_iff (hlib : lib.ReadsValues) {rule : Rule} (h : rule.HasDistinctIds)
    (doc : XmlNode) :
    StoresTree (findById lib · (saveData lib rule doc)) rule ↔
      (∀ c ∈ rule.childRules, NulFree c.expression ∧ NulFree c.action) ∧
      ∀ c ∈ rule.childRules, ∀ d ∈ nodesOf c.childRules, Finds (findById lib · doc) d := by
  have hfind : ∀ doc, (findById lib · doc) =
      fun id ↦ (lookup (recordId? lib) id (ruleNodes doc)).map (xmlToRule lib) := by
    intro doc
    funext id
    rw [findById, find?_nodeId]
  rw [hfind, hfind, ruleNodes_saveData]
  refine (storesTree_putAll_iff h fun r hr ↦ isPut_moveToEnd hlib (h.int_of_mem r hr)).trans
    (and_congr_left fun _ ↦ forall₂_congr fun c _ ↦ ?_)
  have hexpression : (xmlToRule lib (ruleToXml c)).expression = cStr c.expression :=
    childText_expression c
  have haction : (xmlToRule lib (ruleToXml c)).action = cStr c.action := childText_action c
  rw [hexpression, haction, cStr_eq_self_iff, cStr_eq_self_iff]

end XmlRepository

/-- Saving a tree stores all of it, in both repositories, exactly if what is nested deeper than the
direct children was stored before and the texts of the direct children have no NUL. -/
theorem save_storesTree_iff {lib : RepositoryXml} (hlib : lib.ReadsValues) {rule : Rule}
    (h : rule.HasDistinctIds) (json : FileRepository (List Json)) (xml : FileRepository XmlNode) :
    StoresTree (JsonRepository.findById · (JsonRepository.save rule json).data) rule ∧
        StoresTree (XmlRepository.findById lib · (XmlRepository.save lib rule xml).data) rule ↔
      (∀ c ∈ rule.childRules, NulFree c.expression ∧ NulFree c.action) ∧
      ∀ c ∈ rule.childRules, ∀ d ∈ nodesOf c.childRules,
        Finds (JsonRepository.findById · json.data) d ∧
          Finds (XmlRepository.findById lib · xml.data) d := by
  rw [JsonRepository.save, XmlRepository.save, JsonRepository.storesTree_iff h,
    XmlRepository.storesTree_iff hlib h]
  simp only [forall_and]
  rw [and_left_comm]

/-- A rule with two children. -/
def groupRule : Rule :=
  { id := 1, expression := "true"
    childRules := [{ id := 2, expression := "age >= 18" }, { id := 3, action := "log('x')" }] }

theorem group_stored :
    StoresTree (JsonRepository.findById · (JsonRepository.save groupRule ⟨[], false⟩).data)
        groupRule ∧
      StoresTree (XmlRepository.findById plainXml ·
        (XmlRepository.save plainXml groupRule ⟨.element "" [] "" [], false⟩).data) groupRule := by
  have hids : groupRule.HasDistinctIds := ⟨by decide, by decide⟩
  refine (save_storesTree_iff plainXml_readsValues hids _ _).2 ⟨by decide, fun c hc d hd ↦ ?_⟩
  have hleaves : ∀ c ∈ groupRule.childRules, nodesOf c.childRules = [] := by
    simp [groupRule, nodesOf]
  rw [hleaves c hc] at hd
  cases hd

def lowestRule : Rule :=
  { id := 3, expression := "x" }

def middleRule : Rule :=
  { id := 2, expression := "true", childRules := [lowestRule] }

/-- A rule of three levels. -/
def nestedRule : Rule :=
  { id := 1, expression := "true", childRules := [middleRule] }

/-- Its lowest level is not stored, by either repository. -/
theorem nested_not_stored : nestedRule.HasDistinctIds ∧
    ¬StoresTree (JsonRepository.findById · (JsonRepository.save nestedRule ⟨[], false⟩).data)
        nestedRule ∧
      ¬StoresTree (XmlRepository.findById plainXml ·
        (XmlRepository.save plainXml nestedRule ⟨.element "" [] "" [], false⟩).data)
        nestedRule := by
  have hids : nestedRule.HasDistinctIds := ⟨by decide, by decide⟩
  have hmiddle : middleRule ∈ nestedRule.childRules := List.mem_singleton_self _
  have hlowest : lowestRule ∈ nodesOf middleRule.childRules :=
    Rule.mem_nodesOf_of_mem (List.mem_singleton_self _)
  refine ⟨hids, ?_, ?_⟩
  · intro hstores
    have hbefore := (JsonRepository.storesTree_iff hids []).1 hstores
    obtain ⟨found, hfound, -⟩ := hbefore middleRule hmiddle lowestRule hlowest
    cases hfound
  · intro hstores
    have hbefore := ((XmlRepository.storesTree_iff plainXml_readsValues hids
      (.element "" [] "" [])).1 hstores).2
    obtain ⟨found, hfound, -⟩ := hbefore middleRule hmiddle lowestRule hlowest
    cases hfound

/-! ### Removing an id -/

namespace JsonRepository

/-- After the removal nothing is found under the id, and the other records are as before. -/
structure Removed (id : Int) (data data' : List Json) : Prop where
  existsId : existsId id data' = false
  findById : findById id data' = none
  others : (data'.filter fun item ↦ !hasId id item) = data.filter fun item ↦ !hasId id item

theorem removed_remove (id : Int) (r : FileRepository (List Json)) :
    Removed id r.data (remove id r).data := by
  have hdata : (remove id r).data = removeData id r.data := edit_marks.data (.remove id) r
  have hnone : lookup itemId? id (removeData id r.data) = none := by
    rw [removeData_eq, lookup_eq_none_iff, records_others_self]
  rw [hdata]
  exact {
    existsId := by rw [existsId_eq, hnone]; rfl
    findById := by rw [JsonRepository.findById, find?_hasId, hnone]; rfl
    others := by rw [removeData, List.filter_filter]; simp }

end JsonRepository

namespace XmlRepository

variable {lib : RepositoryXml}

/-- After the removal nothing is found under the id, and the other elements are as before. -/
structure Removed (lib : RepositoryXml) (id : Int) (doc doc' : XmlNode) : Prop where
  existsId : existsId lib id doc' = false
  findById : findById lib id doc' = none
  others : ((ruleNodes doc').filter fun node ↦ nodeId lib node ≠ id) =
    (ruleNodes doc).filter fun node ↦ nodeId lib node ≠ id

/-- The elements of an id. -/
def nodesOfId (lib : RepositoryXml) (id : Int) (doc : XmlNode) : List XmlNode :=
  (ruleNodes doc).filter fun node ↦ nodeId lib node = id

theorem nodesOfId_eq (id : Int) (doc : XmlNode) :
    nodesOfId lib id doc = records (recordId? lib) id (ruleNodes doc) := by
  simp only [nodesOfId, records, recordId?, Option.some.injEq]

theorem removed_remove_iff (id : Int) (r : FileRepository XmlNode) :
    Removed lib id r.data (remove lib id r).data ↔ (nodesOfId lib id r.data).length ≤ 1 := by
  have hdata : (remove lib id r).data = removeData lib id r.data := edit_marks.data (.remove id) r
  have hothers : (ruleNodes (removeData lib id r.data)).filter (fun node ↦ nodeId lib node ≠ id) =
      (ruleNodes r.data).filter fun node ↦ nodeId lib node ≠ id := by
    have hsame := @others_eraseFirst _ _ _ (recordId? lib) id (ruleNodes r.data)
    simp only [others, recordId?, ne_eq, Option.some.injEq] at hsame
    rw [ruleNodes_removeData]
    exact hsame
  have hnone : lookup (recordId? lib) id (ruleNodes (removeData lib id r.data)) = none ↔
      (nodesOfId lib id r.data).length ≤ 1 := by
    rw [ruleNodes_removeData, lookup_eq_none_iff, records_eraseFirst_self_eq_nil_iff, nodesOfId_eq]
  rw [hdata, ← hnone]
  constructor
  · intro h
    have hexists := h.existsId
    rwa [existsId_eq, Option.isSome_eq_false_iff, Option.isNone_iff_eq_none] at hexists
  · intro h
    exact {
      existsId := by rw [existsId_eq, h]; rfl
      findById := by rw [XmlRepository.findById, find?_nodeId, h]; rfl
      others := hothers }

end XmlRepository

/-- Whatever was loaded and edited, removing an id is complete in the JSON repository, and in both
repositories exactly if the document has at most one element of the id. -/
theorem remove_complete_iff (lib : RepositoryXml) (data : List Json) (doc : XmlNode)
    (edits : List RuleEdit) (id : Int) :
    let json := edits.foldl (fun r e ↦ JsonRepository.edit e r) ⟨data, false⟩
    let xml := edits.foldl (fun r e ↦ XmlRepository.edit lib e r) ⟨doc, false⟩
    JsonRepository.Removed id json.data (JsonRepository.remove id json).data ∧
        XmlRepository.Removed lib id xml.data (XmlRepository.remove lib id xml).data ↔
      (XmlRepository.nodesOfId lib id xml.data).length ≤ 1 := by
  intro json xml
  -- what was done before does not matter, only the state it has led to
  rw [XmlRepository.removed_remove_iff]
  exact and_iff_right (JsonRepository.removed_remove id json)

/-- A document with two elements of one id. -/
def doubledRules : XmlNode :=
  .document (.element "rules" [] "" [.element "rule" [("id", "1")] "" [],
    .element "rule" [("id", "1")] "" []])

/-- One of them stays. -/
theorem doubled_not_removed :
    ¬∀ (doc : XmlNode) (edits : List RuleEdit) (id : Int),
      let xml := edits.foldl (fun r e ↦ XmlRepository.edit plainXml e r) ⟨doc, false⟩
      XmlRepository.Removed plainXml id xml.data (XmlRepository.remove plainXml id xml).data := by
  intro h
  have hlength := (XmlRepository.removed_remove_iff 1 _).1 (h doubledRules [] 1)
  exact absurd hlength (by decide)

end FastRules
