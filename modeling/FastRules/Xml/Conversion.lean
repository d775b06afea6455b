import FastRules.Json.Acceptance
import FastRules.Xml.RoundTrip

/-!
# From one format to the other

Both formats leave out the names of rules. What XML gives is a workflow that JSON can hold, unless
it is nested more than 64 levels deep, which only JSON forbids; the way back ends at the same XML
text (`xml_json_xml`). XML cannot hold everything that JSON gives: texts end at their first null
character, and durations are of type `int`. The way over XML ends at the same JSON text exactly if
neither matters (`json_xml_json_iff`).
-/

namespace FastRules

/-! ### Nesting -/

section Nesting

variable {α β : Type} {f : α → Except Exn β} {l : List α} {e : Exn}

/-- A loop in which there is one exception only ends with it. -/
theorem mapM_error (h : ∀ a ∈ l, (∃ b, f a = .ok b) ∨ f a = .error e)
    (hex : ∃ a ∈ l, f a = .error e) : l.mapM f = .error e := by
  induction l with
  | nil =>
    obtain ⟨a, ha, -⟩ := hex
    exact absurd ha List.not_mem_nil
  | cons a l ih =>
    obtain ⟨ha, hl⟩ := List.forall_mem_cons.1 h
    rw [List.mapM_cons]
    rcases ha with ⟨b, hb⟩ | ha
    · -- the exception is still to come
      obtain ⟨c, hc, hce⟩ := hex
      have hcl : c ∈ l := by
        rcases List.mem_cons.1 hc with rfl | hc
        · rw [hb] at hce
          cases hce
        · exact hc
      rw [hb, ih hl ⟨c, hcl, hce⟩]
      rfl
    · rw [ha]
      rfl

theorem exists_child_of_lt {n : ℕ} {fields : RuleFields} {children : List Rule}
    (h : n < Rule.nestingDepth ⟨fields, children⟩) : ∃ c ∈ children, n ≤ c.nestingDepth := by
  rw [Rule.nestingDepth] at h
  induction children with
  | nil => exact absurd h (Nat.not_lt_zero n)
  | cons c children ih =>
    rw [nestingDepthOf] at h
    rcases lt_max_iff.1 h with hc | hchildren
    · exact ⟨c, List.mem_cons_self, Nat.le_of_lt_succ hc⟩
    · obtain ⟨c', hmem, hle⟩ := ih hchildren
      exact ⟨c', List.mem_cons_of_mem c hmem, hle⟩

/-- Rules that are nested too deeply cannot be serialized. -/
theorem serializeRuleAtDepth_error {levels : ℕ} {r : Rule} (h : levels ≤ r.nestingDepth) :
    serializeRuleAtDepth levels r = .error (.rule nestingMessage) := by
  induction levels generalizing r with
  | zero => rfl
  | succ levels ih =>
    obtain ⟨fields, children⟩ := r
    obtain ⟨c, hc, hle⟩ := exists_child_of_lt h
    have hall : ∀ c ∈ children, (∃ j, serializeRuleAtDepth levels c = .ok j) ∨
        serializeRuleAtDepth levels c = .error (.rule nestingMessage) := fun c _ ↦
      (Nat.lt_or_ge c.nestingDepth levels).imp serializeRuleAtDepth_ok ih
    rw [serializeRuleAtDepth, mapM_error hall ⟨c, hc, ih hle⟩]
    rfl

/-- A workflow with a rule that is nested too deeply is not saved as JSON. -/
theorem saveWorkflow_error (lib : JsonLibrary) {w : Workflow}
    (h : ∃ r ∈ w.rules, kMaxRuleNestingDepth < r.nestingDepth) :
    saveWorkflow lib w = .error (.rule nestingMessage) := by
  obtain ⟨r, hr, hlt⟩ := h
  have hall : ∀ r ∈ w.rules, (∃ j, FastRules.serializeRule r = .ok j) ∨
      FastRules.serializeRule r = .error (.rule nestingMessage) := fun r _ ↦
    (Nat.lt_or_ge r.nestingDepth (kMaxRuleNestingDepth + 1)).imp serializeRuleAtDepth_ok
      serializeRuleAtDepth_error
  rw [saveWorkflow, FastRules.serializeWorkflow,
    mapM_error hall ⟨r, hr, serializeRuleAtDepth_error hlt⟩]
  rfl

end Nesting

theorem toInt64_of_toInt32 {n : Int} (h : toInt32 n = n) : toInt64 n = n := by
  obtain ⟨hlo, hhi⟩ := toInt32_eq_self_iff.1 h
  rw [toInt64]
  exact Int.bmod_eq_of_le (by omega) (by omega)

/-- The integers of a rule are integers of their C++ types if those of its children are. -/
theorem Rule.representable_of_children {r : Rule}
    (hself : toInt32 r.id = r.id ∧ toInt32 r.priority = r.priority ∧
      r.timeout.map toInt64 = r.timeout ∧ r.cacheDuration.map toInt64 = r.cacheDuration)
    (hchildren : ∀ c ∈ r.childRules, c.Representable) : r.Representable := by
  intro q hq
  rw [nodes_eq] at hq
  rcases List.mem_cons.1 hq with rfl | hq
  · exact hself
  · obtain ⟨c, hc, hq⟩ := mem_nodesOf.1 hq
    exact hchildren c hc q hq

theorem Rule.nestingDepth_mapFields {f : RuleFields → RuleFields} (r : Rule) :
    (r.mapFields f).nestingDepth = r.nestingDepth := by
  induction r using induction_children with
  | h r ih =>
    obtain ⟨fields, children⟩ := r
    rw [mapFields, mapFieldsOf_eq, nestingDepth, nestingDepth]
    replace ih : ∀ c ∈ children, (c.mapFields f).nestingDepth = c.nestingDepth := ih
    induction children with
    | nil => rfl
    | cons c children ihc =>
      obtain ⟨hc, hchildren⟩ := List.forall_mem_cons.1 ih
      rw [List.map_cons, nestingDepthOf, nestingDepthOf, hc, ihc hchildren]

/-- Workflows that fit are saved as the same text exactly if they differ in nothing that is
saved. -/
theorem saveWorkflow_inj {lib : JsonLibrary} {w w' : Workflow} (h : w.Fits) (h' : w'.Fits)
    (hlib : ∀ j, serializeWorkflow w = .ok j → lib.Restores j)
    (hlib' : ∀ j, serializeWorkflow w' = .ok j → lib.Restores j) :
    saveWorkflow lib w = saveWorkflow lib w' ↔ w.saved = w'.saved := by
  constructor
  · intro heq
    obtain ⟨text, hsave, hload⟩ := load_of_saveWorkflow h.depth h.rules h.id hlib {}
    obtain ⟨text', hsave', hload'⟩ := load_of_saveWorkflow h'.depth h'.rules h'.id hlib' {}
    obtain rfl : text = text' := Except.ok.inj (hsave.symm.trans (heq.trans hsave'))
    exact (Prod.mk.inj (Except.ok.inj (hload.symm.trans hload'))).1
  · intro heq
    rw [saveWorkflow, saveWorkflow, ← serializeWorkflow_saved w, heq, serializeWorkflow_saved]

/-- What was loaded fits into a document. -/
theorem Workflow.fits_of_load {lib : JsonLibrary} {text : String} {w : Workflow}
    {s s' : LoaderState} (h : (loadWorkflow lib text).run s = .ok (w, s'))
    (hcounters : CountersFit s s') : w.Fits := by
  rcases hparse : lib.parse text with message | j
  · rw [loadWorkflow, hparse] at h
    cases h
  · rw [loadWorkflow_run hparse] at h
    rcases parseWorkflow_cases j s with ⟨w₁, s₁, hw, -, hfits⟩ | ⟨e, he, -⟩
    · obtain ⟨rfl, rfl⟩ := Prod.mk.inj (Except.ok.inj (hw.symm.trans h))
      exact hfits hcounters
    · rw [he] at h
      cases h

namespace Xml

/-! ### What XML gives -/

/-- `as_int` gives integers of type `int`. -/
def IntValued (lib : PugiXml) : Prop :=
  ∀ s, toInt32 (lib.asInt s) = lib.asInt s

section Parsing

variable {lib : PugiXml}

theorem toInt32_intAttribute (hint : IntValued lib) (key : String) (node : XmlNode) :
    toInt32 (lib.intAttribute key 0 node) = lib.intAttribute key 0 node := by
  rw [PugiXml.intAttribute]
  rcases node.attribute? key with - | s
  · rfl
  · exact hint s

theorem durationAttribute_fits (hint : IntValued lib) (key : String) (node : XmlNode) :
    (durationAttribute lib key node).map toInt64 = durationAttribute lib key node := by
  rw [durationAttribute, Option.map_map]
  exact Option.map_congr fun s _ ↦ toInt64_of_toInt32 (hint s)

mutual

/-- The integers of a rule that was parsed are integers of their C++ types. -/
theorem representable_parseRule (hint : IntValued lib) :
    ∀ node, (parseRule lib node).Representable
  | .element name attributes text children => by
    rw [parseRule]
    refine Rule.representable_of_children ⟨toInt32_intAttribute hint "id" _,
      toInt32_intAttribute hint "priority" _, durationAttribute_fits hint "timeout" _,
      durationAttribute_fits hint "cacheDuration" _⟩ ?_
    exact representable_parseChildRules hint children

theorem representable_parseChildRules (hint : IntValued lib) :
    ∀ nodes, ∀ r ∈ parseChildRules lib nodes, r.Representable
  | [] => by
    intro r hr
    rw [parseChildRules] at hr
    exact absurd hr List.not_mem_nil
  | .element name attributes text children :: nodes => by
    rw [parseChildRules]
    split
    · exact representable_parseRules hint children
    · exact representable_parseChildRules hint nodes

theorem representable_parseRules (hint : IntValued lib) :
    ∀ nodes, ∀ r ∈ parseRules lib nodes, r.Representable
  | [] => by
    intro r hr
    rw [parseRules] at hr
    exact absurd hr List.not_mem_nil
  | node :: nodes => by
    rw [parseRules]
    split
    · exact List.forall_mem_cons.2
        ⟨representable_parseRule hint node, representable_parseRules hint nodes⟩
    · exact representable_parseRules hint nodes

end

/-- The integers of a workflow that was loaded are integers of their C++ types. -/
theorem representable_of_loadWorkflow (hint : IntValued lib) {text : String} {w : Workflow}
    (h : loadWorkflow lib text = .ok w) :
    toInt32 w.id = w.id ∧ ∀ r ∈ w.rules, r.Representable := by
  rw [loadWorkflow] at h
  rcases hroot : loadRoot lib "workflow" text with e | root
  · rw [hroot] at h
    cases h
  · rw [hroot] at h
    obtain rfl : parseWorkflow lib root = w := Except.ok.inj h
    refine ⟨toInt32_intAttribute hint "id" root, ?_⟩
    rw [parseWorkflow]
    rcases root.child? "rules" with - | rulesNode
    · exact fun r hr ↦ absurd hr List.not_mem_nil
    · have hparsed := representable_parseRules hint rulesNode.elements
      rwa [parseRules_elements] at hparsed

end Parsing

/-! ### What XML keeps -/

/-- What is written of a rule does not depend on what JSON loses. -/
theorem serializeRule_saved (r : Rule) :
    serializeRule (r.mapFields RuleFields.saved) = serializeRule r := by
  induction r using Rule.induction_children with
  | h r ih =>
    rw [Rule.mapFields_eq, serializeRule, serializeRules_eq_map, List.map_map]
    have hchildren : r.childRules.map (serializeRule ∘ Rule.mapFields RuleFields.saved) =
        r.childRules.map serializeRule := List.map_congr_left ih
    rw [hchildren, ← serializeRules_eq_map]
    obtain ⟨fields, children⟩ := r
    rw [serializeRule]
    rfl

theorem saveWorkflow_saved (lib : PugiXml) (w : Workflow) :
    saveWorkflow lib w.saved = saveWorkflow lib w := by
  have hrules : serializeRules (w.rules.map (Rule.mapFields RuleFields.saved)) =
      serializeRules w.rules := by
    rw [serializeRules_eq_map, serializeRules_eq_map, List.map_map]
    exact List.map_congr_left fun r _ ↦ serializeRule_saved r
  rw [saveWorkflow, saveWorkflow, serializeWorkflow, serializeWorkflow, Workflow.saved, hrules]

/-- **From XML to JSON and back.** A workflow that was loaded from XML is saved as JSON unless one
of its rules is nested too deeply. What is loaded then, without touching the counters, is saved as
the XML that the workflow itself is saved as. -/
theorem xml_json_xml {lib : PugiXml} (hint : IntValued lib) {json : JsonLibrary} {text : String}
    {w : Workflow} (hload : loadWorkflow lib text = .ok w)
    (hjson : ∀ j, FastRules.serializeWorkflow w = .ok j → json.Restores j) :
    (∃ r ∈ w.rules, kMaxRuleNestingDepth < r.nestingDepth) ∧
      FastRules.saveWorkflow json w = .error (.rule nestingMessage) ∨
    (∀ r ∈ w.rules, r.nestingDepth ≤ kMaxRuleNestingDepth) ∧
      ∃ text' w', FastRules.saveWorkflow json w = .ok text' ∧
        (∀ s, (FastRules.loadWorkflow json text').run s = .ok (w', s)) ∧
        saveWorkflow lib w' = saveWorkflow lib w := by
  obtain ⟨hid, hrules⟩ := representable_of_loadWorkflow hint hload
  by_cases hdepth : ∀ r ∈ w.rules, r.nestingDepth ≤ kMaxRuleNestingDepth
  · obtain ⟨text', hsave, -⟩ := FastRules.load_of_saveWorkflow hdepth hrules hid hjson {}
    refine .inr ⟨hdepth, text', w.saved, hsave, fun s ↦ ?_, saveWorkflow_saved lib w⟩
    obtain ⟨text'', hsave', hload'⟩ := FastRules.load_of_saveWorkflow hdepth hrules hid hjson s
    obtain rfl := Except.ok.inj (hsave.symm.trans hsave')
    exact hload'
  · have hdeep : ∃ r ∈ w.rules, kMaxRuleNestingDepth < r.nestingDepth := by
      simpa only [not_forall, Nat.not_le, exists_prop] using hdepth
    exact .inl ⟨hdeep, saveWorkflow_error json hdeep⟩

/-! ### What JSON gives -/

/-- All durations of the tree are of type `int`. -/
def HasIntDurations (r : Rule) : Prop :=
  ∀ q ∈ r.nodes, q.timeout.map toInt32 = q.timeout ∧ q.cacheDuration.map toInt32 = q.cacheDuration

instance (r : Rule) : Decidable (HasIntDurations r) :=
  inferInstanceAs (Decidable (∀ q ∈ r.nodes, _))

/-- XML can hold all of the workflow that JSON holds. -/
structure FitsXml (w : Workflow) : Prop where
  name : NulFree w.name
  description : NulFree w.description
  strings : ∀ r ∈ w.rules, HasCStrings r
  durations : ∀ r ∈ w.rules, HasIntDurations r

/-- What is loaded of a workflow that was saved as XML. -/
def savedWorkflow (w : Workflow) : Workflow :=
  { w with
    name := cStr w.name
    description := cStr w.description
    rules := w.rules.map (Rule.mapFields savedFields)
    validated := false }

theorem map_cStr_eq_self_iff {o : Option String} : o.map cStr = o ↔ ∀ s ∈ o, NulFree s := by
  rcases o with - | s
  · exact iff_of_true rfl fun s hs ↦ absurd hs (Option.not_mem_none s)
  · simp [cStr_eq_self_iff]

/-- XML loses no more of a tree than JSON if it can hold its texts and durations. -/
theorem savedFields_eq_saved_iff (r : Rule) :
    r.mapFields savedFields = r.mapFields RuleFields.saved ↔ HasCStrings r ∧ HasIntDurations r := by
  rw [Rule.mapFields_inj, HasCStrings, HasIntDurations, ← forall₂_and]
  refine forall₂_congr fun q _ ↦ ?_
  have hfields : savedFields q.toRuleFields = q.toRuleFields.saved ↔
      (cStr q.description = q.description ∧ cStr q.expression = q.expression ∧
        cStr q.action = q.action ∧ q.dependsOnRuleName.map cStr = q.dependsOnRuleName) ∧
      q.timeout.map toInt32 = q.timeout ∧ q.cacheDuration.map toInt32 = q.cacheDuration := by
    constructor
    · intro h
      exact ⟨⟨congrArg RuleFields.description h, congrArg RuleFields.expression h,
        congrArg RuleFields.action h, congrArg RuleFields.dependsOnRuleName h⟩,
        congrArg RuleFields.timeout h, congrArg RuleFields.cacheDuration h⟩
    · rintro ⟨⟨hdescription, hexpression, haction, hdepends⟩, htimeout, hcache⟩
      rw [savedFields, hdescription, hexpression, haction, hdepends, htimeout, hcache]
      rfl
  rw [hfields, cStr_eq_self_iff, cStr_eq_self_iff, cStr_eq_self_iff, map_cStr_eq_self_iff]

theorem saved_savedWorkflow (w : Workflow) : (savedWorkflow w).saved = savedWorkflow w := by
  rw [Workflow.saved, savedWorkflow, List.map_map]
  exact congrArg (fun rules ↦ { w with
      name := cStr w.name
      description := cStr w.description
      rules
      validated := false }) (List.map_congr_left fun r _ ↦ Rule.mapFields_mapFields r)

theorem savedWorkflow_eq_saved_iff (w : Workflow) : savedWorkflow w = w.saved ↔ FitsXml w := by
  have hrules : w.rules.map (Rule.mapFields savedFields) =
      w.rules.map (Rule.mapFields RuleFields.saved) ↔
      ∀ r ∈ w.rules, HasCStrings r ∧ HasIntDurations r := by
    rw [List.map_inj_left]
    exact forall₂_congr fun r _ ↦ savedFields_eq_saved_iff r
  constructor
  · intro h
    have hkept := hrules.1 (congrArg Workflow.rules h)
    exact ⟨cStr_eq_self_iff.1 (congrArg Workflow.name h),
      cStr_eq_self_iff.1 (congrArg Workflow.description h),
      fun r hr ↦ (hkept r hr).1, fun r hr ↦ (hkept r hr).2⟩
  · intro h
    rw [savedWorkflow, Workflow.saved, cStr_eq_self h.name, cStr_eq_self h.description,
      hrules.2 fun r hr ↦ ⟨h.strings r hr, h.durations r hr⟩]

theorem representable_savedFields {r : Rule} (h : r.Representable) :
    (r.mapFields savedFields).Representable := by
  have hduration (d : Option Int) : (d.map toInt32).map toInt64 = d.map toInt32 := by
    rw [Option.map_map]
    exact Option.map_congr fun n _ ↦ toInt64_of_toInt32 (toInt32_toInt32 n)
  induction r using Rule.induction_children with
  | h r ih =>
    obtain ⟨hid, hpriority, -⟩ := h r r.self_mem_nodes
    rw [Rule.mapFields_eq]
    refine Rule.representable_of_children
      ⟨hid, hpriority, hduration r.timeout, hduration r.cacheDuration⟩ ?_
    intro c hc
    obtain ⟨child, hchild, rfl⟩ := List.mem_map.1 hc
    exact ih child hchild (h.child hchild)

theorem Fits.savedWorkflow {w : Workflow} (h : w.Fits) : (savedWorkflow w).Fits where
  id := h.id
  depth := List.forall_mem_map.2 fun r hr ↦ (Rule.nestingDepth_mapFields r).trans_le (h.depth r hr)
  rules := List.forall_mem_map.2 fun r hr ↦ representable_savedFields (h.rules r hr)

theorem load_of_saveWorkflow {lib : PugiXml} (hlib : lib.ReadsValues) {w : Workflow} (h : w.Fits)
    (hrestores : lib.Restores PugiXml.defaultIndent (.document (serializeWorkflow w))) :
    loadWorkflow lib (saveWorkflow lib w) = .ok (savedWorkflow w) := by
  have hroot : (serializeWorkflow w).name = "workflow" := rfl
  rw [loadWorkflow, saveWorkflow, loadRoot_save hrestores hroot]
  exact congrArg Except.ok (parse_serializeWorkflow hlib h.id h.rules)

/-- **From JSON to XML and back.** A workflow that was loaded from JSON can be saved as XML and
loaded again. What is loaded then is saved as the same JSON text as the workflow itself exactly if
XML can hold the texts and the durations of the workflow. -/
theorem json_xml_json_iff {json : JsonLibrary} {text : String} {w : Workflow} {s s' : LoaderState}
    (hload : (FastRules.loadWorkflow json text).run s = .ok (w, s')) (hcounters : CountersFit s s')
    {lib : PugiXml} (hlib : lib.ReadsValues)
    (hxml : lib.Restores PugiXml.defaultIndent (.document (serializeWorkflow w)))
    (hjson : ∀ w', w' = w ∨ loadWorkflow lib (saveWorkflow lib w) = .ok w' →
      ∀ j, FastRules.serializeWorkflow w' = .ok j → json.Restores j) :
    ∃ w', loadWorkflow lib (saveWorkflow lib w) = .ok w' ∧
      (FastRules.saveWorkflow json w' = FastRules.saveWorkflow json w ↔ FitsXml w) := by
  have hfits := Workflow.fits_of_load hload hcounters
  have hagain := load_of_saveWorkflow hlib hfits hxml
  refine ⟨savedWorkflow w, hagain, ?_⟩
  rw [saveWorkflow_inj (Fits.savedWorkflow hfits) hfits (hjson _ (.inr hagain))
    (hjson _ (.inl rfl)), saved_savedWorkflow, savedWorkflow_eq_saved_iff]

/-! ### Examples -/

/-- A library that knows the text of a workflow. -/
def libraryOf (w : Workflow) : PugiXml :=
  libraryFor [.document (serializeWorkflow w)]

theorem intValued_libraryFor (docs : List XmlNode) : IntValued (libraryFor docs) := by
  intro s
  show toInt32 ((readBounded 32 s).getD 0) = (readBounded 32 s).getD 0
  rcases hread : readBounded 32 s with - | n
  · rfl
  · exact toInt32_of_readBounded hread

theorem limitedWorkflow_fits : limitedWorkflow.Fits :=
  ⟨by decide, by decide, by decide⟩

theorem limitedWorkflow_fitsXml : FitsXml limitedWorkflow :=
  ⟨by decide, by decide, by decide, by decide⟩

theorem limitedWorkflow_loaded :
    loadWorkflow (libraryOf limitedWorkflow) (saveWorkflow (libraryOf limitedWorkflow)
      limitedWorkflow) = .ok limitedWorkflow := by
  have hsame : savedWorkflow limitedWorkflow = limitedWorkflow :=
    (savedWorkflow_eq_saved_iff _).2 limitedWorkflow_fitsXml
  refine (load_of_saveWorkflow (libraryFor_readsValues _) limitedWorkflow_fits
    (libraryFor_restores _)).trans ?_
  rw [hsame]

theorem limitedWorkflow_returns :
    ∃ j text' w', FastRules.serializeWorkflow limitedWorkflow = .ok j ∧
      FastRules.saveWorkflow (FastRules.libraryFor j) limitedWorkflow = .ok text' ∧
      (∀ s, (FastRules.loadWorkflow (FastRules.libraryFor j) text').run s = .ok (w', s)) ∧
      saveWorkflow (libraryOf limitedWorkflow) w' =
        saveWorkflow (libraryOf limitedWorkflow) limitedWorkflow := by
  obtain ⟨j, hj⟩ : ∃ j, FastRules.serializeWorkflow limitedWorkflow = .ok j := ⟨_, rfl⟩
  rcases xml_json_xml (intValued_libraryFor _) limitedWorkflow_loaded
    (libraryFor_restores_of hj) with ⟨hdeep, -⟩ | ⟨-, text', w', hsave, hload, hsame⟩
  · exact absurd hdeep (by decide)
  · exact ⟨j, text', w', hj, hsave, hload, hsame⟩

theorem limitedWorkflow_json :
    ∃ j w', FastRules.serializeWorkflow limitedWorkflow = .ok j ∧
      loadWorkflow (libraryOf limitedWorkflow) (saveWorkflow (libraryOf limitedWorkflow)
        limitedWorkflow) = .ok w' ∧
      FastRules.saveWorkflow (FastRules.libraryFor j) w' =
        FastRules.saveWorkflow (FastRules.libraryFor j) limitedWorkflow := by
  obtain ⟨j, hj⟩ : ∃ j, FastRules.serializeWorkflow limitedWorkflow = .ok j := ⟨_, rfl⟩
  have hload : (FastRules.loadWorkflow (FastRules.libraryFor j) j.render).run {} =
      .ok (limitedWorkflow, {}) := by
    obtain ⟨text, hsave, hload⟩ := FastRules.load_of_saveWorkflow limitedWorkflow_fits.depth
      limitedWorkflow_fits.rules limitedWorkflow_fits.id (libraryFor_restores_of hj) {}
    obtain rfl : j.render = text := Except.ok.inj ((saveWorkflow_ok hj rfl).symm.trans hsave)
    exact hload
  have hjson (w : Workflow) (hw : w = limitedWorkflow ∨ loadWorkflow (libraryOf limitedWorkflow)
      (saveWorkflow (libraryOf limitedWorkflow) limitedWorkflow) = .ok w) (j' : Json)
      (hj' : FastRules.serializeWorkflow w = .ok j') : (FastRules.libraryFor j).Restores j' := by
    have heq : w = limitedWorkflow := hw.elim id fun h ↦
      Except.ok.inj (h.symm.trans limitedWorkflow_loaded)
    exact libraryFor_restores_of hj j' (heq ▸ hj')
  obtain ⟨w', hagain, hiff⟩ := json_xml_json_iff hload ⟨by decide, by decide⟩
    (libraryFor_readsValues _) (libraryFor_restores _) hjson
  exact ⟨j, w', hj, hagain, hiff.2 limitedWorkflow_fitsXml⟩

end Xml

end FastRules
