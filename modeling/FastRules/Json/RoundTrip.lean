import FastRules.Json.Loader

/-!
# Saving and loading

`serializeRule` writes every field of a rule but its name, so that loading what was saved gives the
rule with all names of the tree cleared (`parse_of_serialize`). A tree without names comes back as
it was, and no other does.
-/

namespace FastRules

/-! ### Rules without names -/

mutual

/-- Change the data of a rule and of everything below it. -/
def Rule.mapFields (f : RuleFields → RuleFields) : Rule → Rule
  | ⟨fields, children⟩ => ⟨f fields, mapFieldsOf f children⟩

/-- Change the data of several rules. -/
def mapFieldsOf (f : RuleFields → RuleFields) : List Rule → List Rule
  | [] => []
  | child :: children => child.mapFields f :: mapFieldsOf f children

end

/-- What a document is about: not the address of the object, its limiter and its validation flag. -/
def RuleFields.document (r : RuleFields) : RuleFields :=
  { r with ptr := 0, rateLimiter := none, isValidated := false }

/-- What is left of a rule that was saved. -/
def RuleFields.saved (r : RuleFields) : RuleFields :=
  { r.document with name := "" }

/-- The rule as a document describes it. -/
def Rule.document (r : Rule) : Rule :=
  r.mapFields RuleFields.document

mutual

/-- The number of levels below a rule. -/
def Rule.nestingDepth : Rule → ℕ
  | ⟨_, children⟩ => nestingDepthOf children

/-- The number of levels that the children are. -/
def nestingDepthOf : List Rule → ℕ
  | [] => 0
  | child :: children => max (child.nestingDepth + 1) (nestingDepthOf children)

end

namespace Rule

variable {f g : RuleFields → RuleFields}

theorem mapFieldsOf_eq (children : List Rule) :
    mapFieldsOf f children = children.map (mapFields f) := by
  induction children with
  | nil => rfl
  | cons child children ih => rw [mapFieldsOf, ih, List.map_cons]

theorem mapFields_eq (r : Rule) :
    r.mapFields f = ⟨f r.toRuleFields, r.childRules.map (mapFields f)⟩ := by
  obtain ⟨fields, children⟩ := r
  rw [mapFields, mapFieldsOf_eq]

/-- Two changes agree on a tree if they agree on each rule of it. -/
theorem mapFields_inj (r : Rule) :
    r.mapFields f = r.mapFields g ↔ ∀ q ∈ r.nodes, f q.toRuleFields = g q.toRuleFields := by
  induction r using induction_children with
  | h r ih =>
    rw [mapFields_eq, mapFields_eq, Rule.mk.injEq, nodes_eq, List.forall_mem_cons,
      List.map_inj_left]
    refine and_congr_right fun _ ↦ ?_
    constructor
    · intro h q hq
      obtain ⟨child, hchild, hq⟩ := mem_nodesOf.1 hq
      exact (ih child hchild).1 (h child hchild) q hq
    · intro h child hchild
      exact (ih child hchild).2 fun q hq ↦ h q (mem_nodesOf.2 ⟨child, hchild, hq⟩)

theorem mapFields_mapFields (r : Rule) :
    (r.mapFields f).mapFields g = r.mapFields (g ∘ f) := by
  induction r using induction_children with
  | h r ih =>
    rw [mapFields_eq r, mapFields_eq r, mapFields_eq, List.map_map]
    exact congrArg (Rule.mk _) (List.map_congr_left ih)

theorem nestingDepth_child_lt {r child : Rule} (h : child ∈ r.childRules) :
    child.nestingDepth < r.nestingDepth := by
  obtain ⟨fields, children⟩ := r
  rw [nestingDepth]
  have hall : ∀ children : List Rule, child ∈ children →
      child.nestingDepth < nestingDepthOf children := by
    intro children hmem
    induction children with
    | nil => exact absurd hmem List.not_mem_nil
    | cons c children ih =>
      rw [nestingDepthOf]
      rcases List.mem_cons.1 hmem with rfl | hmem
      · omega
      · have := ih hmem
        omega
  exact hall children h

/-- No rule of the tree has a name. -/
def Unnamed (r : Rule) : Prop :=
  ∀ q ∈ r.nodes, q.name = ""

instance (r : Rule) : Decidable r.Unnamed :=
  inferInstanceAs (Decidable (∀ q ∈ r.nodes, _))

/-- The integers of the tree are integers of their C++ types. -/
def Representable (r : Rule) : Prop :=
  ∀ q ∈ r.nodes, toInt32 q.id = q.id ∧ toInt32 q.priority = q.priority ∧
    q.timeout.map toInt64 = q.timeout ∧ q.cacheDuration.map toInt64 = q.cacheDuration

instance (r : Rule) : Decidable r.Representable :=
  inferInstanceAs (Decidable (∀ q ∈ r.nodes, _))

theorem Representable.child {r child : Rule} (h : r.Representable) (hchild : child ∈ r.childRules) :
    child.Representable := by
  intro q hq
  refine h q ?_
  rw [nodes_eq]
  exact List.mem_cons_of_mem r (mem_nodesOf.2 ⟨child, hchild, hq⟩)

end Rule

/-! ### One rule -/

theorem mapM_ok {α β : Type} {f : α → Except Exn β} {l : List α} (h : ∀ a ∈ l, ∃ b, f a = .ok b) :
    ∃ bs, l.mapM f = .ok bs := by
  induction l with
  | nil => exact ⟨[], rfl⟩
  | cons a l ih =>
    obtain ⟨b, hb⟩ := h a List.mem_cons_self
    obtain ⟨bs, hbs⟩ := ih fun c hc ↦ h c (List.mem_cons_of_mem a hc)
    exact ⟨b :: bs, by rw [List.mapM_cons, hb, hbs]; rfl⟩

/-- Rules that are not nested too deeply can be serialized. -/
theorem serializeRuleAtDepth_ok {levels : ℕ} {r : Rule} (h : r.nestingDepth < levels) :
    ∃ j, serializeRuleAtDepth levels r = .ok j := by
  induction levels generalizing r with
  | zero => omega
  | succ levels ih =>
    obtain ⟨js, hjs⟩ := mapM_ok fun c (hc : c ∈ r.childRules) ↦
      ih (show c.nestingDepth < levels by have := Rule.nestingDepth_child_lt hc; omega)
    exact ⟨r.toJson js, by rw [serializeRuleAtDepth, hjs]; rfl⟩

/-- Sequencing in the loader. -/
theorem Loader.run_bind_ok {α β : Type} {x : Loader α} {f : α → Loader β}
    {s s' : LoaderState} {a : α} (h : x.run s = .ok (a, s')) : (x >>= f).run s = (f a).run s' := by
  rw [StateT.run_bind, h]
  rfl

/-- Parsing what was serialized, one list at a time. -/
theorem mapM_parse {serialize : Rule → Except Exn Json} {parse : Json → Loader Rule}
    {f : Rule → Rule} {rules : List Rule} {js : List Json} (hjs : rules.mapM serialize = .ok js)
    (hparse : ∀ r ∈ rules, ∀ j, serialize r = .ok j → ∀ s, (parse j).run s = .ok (f r, s))
    (s : LoaderState) : (js.mapM parse).run s = .ok (rules.map f, s) := by
  induction rules generalizing js with
  | nil =>
    obtain rfl : [] = js := Except.ok.inj hjs
    rfl
  | cons r rules ih =>
    rw [List.mapM_cons] at hjs
    rcases hr : serialize r with e | j
    · rw [hr] at hjs
      cases hjs
    · rcases hrest : rules.mapM serialize with e | rest
      · rw [hr, hrest] at hjs
        cases hjs
      · rw [hr, hrest] at hjs
        obtain rfl : j :: rest = js := Except.ok.inj hjs
        rw [List.mapM_cons, Loader.run_bind_ok (hparse r List.mem_cons_self j hr s),
          Loader.run_bind_ok (ih hrest fun q hq ↦ hparse q (List.mem_cons_of_mem r hq))]
        rfl

theorem parseId_run {what : String} {nextId : Loader Int} {j : Json} {n : Int}
    (hmember : j.member? "id" = some (.integer n)) (hn : toInt32 n = n) (s : LoaderState) :
    (parseId what nextId j).run s = .ok (n, s) := by
  rw [parseId, hmember]
  show Except.ok (toInt32 n, s) = _
  rw [hn]

theorem durationMember_run {key : String} {d : Option Int} {j : Json}
    (hmember : j.member? key = some (.ofDuration d)) (hd : d.map toInt64 = d)
    (s : LoaderState) :
    StateT.run (durationMember key j : Loader (Option Int)) s = .ok (d, s) := by
  have hpure : durationMember key j = .ok d := by
    rw [durationMember, hmember]
    cases d with
    | none => rfl
    | some n => exact congrArg Except.ok hd
  rw [hpure]
  rfl

/-- Loading what was saved gives the rule without its names. -/
theorem parse_of_serialize {levels : ℕ} {r : Rule} {j : Json} (hr : r.Representable)
    (h : serializeRuleAtDepth levels r = .ok j) (s : LoaderState) :
    (parseRuleAtDepth levels j).run s = .ok (r.mapFields RuleFields.saved, s) := by
  induction levels generalizing r j s with
  | zero => cases h
  | succ levels ih =>
    rw [serializeRuleAtDepth] at h
    rcases hjs : r.childRules.mapM (serializeRuleAtDepth levels) with e | js
    · rw [hjs] at h
      cases h
    · rw [hjs] at h
      obtain rfl : r.toJson js = j := Except.ok.inj h
      obtain ⟨hid, hpriority, htimeout, hcache⟩ := hr r r.self_mem_nodes
      -- the children were serialized with one level less, and are read with one level less
      have hchildren : ((arrayMember "childRules" (r.toJson js)).mapM
          (parseRuleAtDepth levels)).run s =
            .ok (r.childRules.map (Rule.mapFields RuleFields.saved), s) :=
        mapM_parse hjs (fun child hchild j hj s ↦ ih (hr.child hchild) hj s) s
      have hprio : integerMember "priority" (r.toJson js) = some r.priority :=
        congrArg some hpriority
      have hmember : (r.toJson js).member? "dependsOnRuleName" =
          some (r.dependsOnRuleName.elim .null .string) := rfl
      have hdep : stringMember "dependsOnRuleName" (r.toJson js) = r.dependsOnRuleName := by
        rw [stringMember, hmember]
        rcases r.dependsOnRuleName with - | n <;> rfl
      rw [parseRuleAtDepth, Loader.run_bind_ok (parseId_run rfl hid s),
        Loader.run_bind_ok (durationMember_run rfl htimeout s),
        Loader.run_bind_ok (durationMember_run rfl hcache s),
        Loader.run_bind_ok hchildren, Rule.mapFields_eq, hprio, hdep]
      rfl

/-- The rule without its names is the rule if it has none. -/
theorem Rule.saved_eq_document_iff (r : Rule) :
    r.mapFields RuleFields.saved = r.document ↔ r.Unnamed := by
  rw [Rule.document, Rule.mapFields_inj]
  refine forall₂_congr fun q _ ↦ ⟨fun h ↦ (congrArg RuleFields.name h).symm, fun h ↦ ?_⟩
  rw [RuleFields.saved, ← h]
  rfl

theorem Rule.document_saved (r : Rule) :
    (r.mapFields RuleFields.saved).document = r.mapFields RuleFields.saved :=
  Rule.mapFields_mapFields r

/-! ### Texts -/

/-- Loading the text of the rule gives it back. -/
def Rule.RoundTrips (lib : JsonLibrary) (s : LoaderState) (r : Rule) : Prop :=
  ∃ text r' s', saveRule lib r = .ok text ∧ (loadRule lib text).run s = .ok (r', s') ∧
    r'.document = r.document

/-- The workflow as a document describes it. -/
def Workflow.asDocument (w : Workflow) : Workflow :=
  { w with rules := w.rules.map Rule.document, validated := false }

/-- Loading the text of the workflow gives it back: the same fields and rules, accepted by
validation if the original is, with the same dependency levels. -/
def Workflow.RoundTrips (lib : JsonLibrary) (s : LoaderState) (w : Workflow) : Prop :=
  ∃ text w' s', saveWorkflow lib w = .ok text ∧ (loadWorkflow lib text).run s = .ok (w', s') ∧
    w'.asDocument = w.asDocument ∧
    (∀ idOrder order, (w.asDocument.validate idOrder order).1 = .ok () →
      (w'.validate idOrder order).1 = .ok ()) ∧
    ∀ order, buildDependencyLevels order w'.rules =
      buildDependencyLevels order (w.rules.map Rule.document)

section Text

variable {lib : JsonLibrary} {r : Rule} {w : Workflow} {s : LoaderState}

theorem saveRule_ok {j : Json} {text : String} (hj : serializeRule r = .ok j)
    (htext : lib.dump j = .ok text) : saveRule lib r = .ok text := by
  rw [saveRule, hj]
  show liftLibrary (lib.dump j) = _
  rw [htext]
  rfl

theorem loadRule_run {j : Json} {text : String} (hparse : lib.parse text = .ok j)
    (s : LoaderState) :
    (loadRule lib text).run s = (parseRule j).run s := by
  rw [loadRule, hparse]
  rfl

theorem saveWorkflow_ok {j : Json} {text : String} (hj : serializeWorkflow w = .ok j)
    (htext : lib.dump j = .ok text) : saveWorkflow lib w = .ok text := by
  rw [saveWorkflow, hj]
  show liftLibrary (lib.dump j) = _
  rw [htext]
  rfl

theorem loadWorkflow_run {j : Json} {text : String} (hparse : lib.parse text = .ok j)
    (s : LoaderState) : (loadWorkflow lib text).run s = (parseWorkflow j).run s := by
  rw [loadWorkflow, hparse]
  rfl

/-- A rule that fits comes back without its names. -/
theorem load_of_save (hdepth : r.nestingDepth ≤ kMaxRuleNestingDepth) (hr : r.Representable)
    (hlib : ∀ j, serializeRule r = .ok j → lib.Restores j) (s : LoaderState) :
    ∃ text, saveRule lib r = .ok text ∧
      (loadRule lib text).run s = .ok (r.mapFields RuleFields.saved, s) := by
  obtain ⟨j, hj⟩ : ∃ j, serializeRule r = .ok j :=
    serializeRuleAtDepth_ok (Nat.lt_succ_of_le hdepth)
  obtain ⟨text, htext, hparse⟩ := hlib j hj
  exact ⟨text, saveRule_ok hj htext, (loadRule_run hparse s).trans (parse_of_serialize hr hj s)⟩

/-- What is loaded of a workflow that was saved. -/
def Workflow.saved (w : Workflow) : Workflow :=
  { w with rules := w.rules.map (Rule.mapFields RuleFields.saved), validated := false }

/-- A workflow of rules that fit comes back with its own fields, and its rules without their
names. -/
theorem load_of_saveWorkflow (hdepth : ∀ r ∈ w.rules, r.nestingDepth ≤ kMaxRuleNestingDepth)
    (hr : ∀ r ∈ w.rules, r.Representable) (hid : toInt32 w.id = w.id)
    (hlib : ∀ j, serializeWorkflow w = .ok j → lib.Restores j) (s : LoaderState) :
    ∃ text, saveWorkflow lib w = .ok text ∧ (loadWorkflow lib text).run s = .ok (w.saved, s) := by
  obtain ⟨js, hjs⟩ : ∃ js, w.rules.mapM serializeRule = .ok js :=
    mapM_ok fun r hr ↦ serializeRuleAtDepth_ok (Nat.lt_succ_of_le (hdepth r hr))
  have hj : serializeWorkflow w = .ok (w.toJson js) := by
    rw [serializeWorkflow, hjs]
    rfl
  obtain ⟨text, htext, hparse⟩ := hlib _ hj
  refine ⟨text, saveWorkflow_ok hj htext, (loadWorkflow_run hparse s).trans ?_⟩
  have hrules : ((arrayMember "rules" (w.toJson js)).mapM parseRule).run s =
      .ok (w.rules.map (Rule.mapFields RuleFields.saved), s) :=
    mapM_parse hjs (fun r hr' j hj s ↦ parse_of_serialize (hr r hr') hj s) s
  rw [parseWorkflow, Loader.run_bind_ok (parseId_run rfl hid s), Loader.run_bind_ok hrules]
  rfl

theorem Workflow.saved_eq_asDocument_iff (w : Workflow) :
    w.saved = w.asDocument ↔ ∀ r ∈ w.rules, r.Unnamed := by
  have hrules : w.saved = w.asDocument ↔
      w.rules.map (Rule.mapFields RuleFields.saved) = w.rules.map Rule.document :=
    ⟨fun h ↦ congrArg Workflow.rules h, fun h ↦ by rw [saved, asDocument, h]⟩
  rw [hrules, List.map_inj_left]
  exact forall₂_congr fun r _ ↦ r.saved_eq_document_iff

theorem Workflow.asDocument_saved (w : Workflow) : w.saved.asDocument = w.saved := by
  rw [asDocument, saved, List.map_map]
  exact congrArg (fun rules ↦ { w with rules, validated := false })
    (List.map_congr_left fun r _ ↦ Rule.document_saved r)

/-- A rule comes back exactly if its tree has no names. -/
theorem Rule.roundTrips_iff (hdepth : r.nestingDepth ≤ kMaxRuleNestingDepth) (hr : r.Representable)
    (hlib : ∀ j, serializeRule r = .ok j → lib.Restores j) : r.RoundTrips lib s ↔ r.Unnamed := by
  obtain ⟨text, hsave, hload⟩ := load_of_save hdepth hr hlib s
  rw [← r.saved_eq_document_iff]
  constructor
  · rintro ⟨text', r', s', hsave', hload', heq⟩
    obtain rfl := Except.ok.inj (hsave.symm.trans hsave')
    obtain ⟨rfl, -⟩ := Prod.mk.inj (Except.ok.inj (hload.symm.trans hload'))
    rwa [Rule.document_saved] at heq
  · intro heq
    exact ⟨text, _, s, hsave, hload, r.document_saved.trans heq⟩

/-- A workflow comes back exactly if the trees of its rules have no names. -/
theorem Workflow.roundTrips_iff (hdepth : ∀ r ∈ w.rules, r.nestingDepth ≤ kMaxRuleNestingDepth)
    (hr : ∀ r ∈ w.rules, r.Representable) (hid : toInt32 w.id = w.id)
    (hlib : ∀ j, serializeWorkflow w = .ok j → lib.Restores j) :
    w.RoundTrips lib s ↔ ∀ r ∈ w.rules, r.Unnamed := by
  obtain ⟨text, hsave, hload⟩ := load_of_saveWorkflow hdepth hr hid hlib s
  rw [← w.saved_eq_asDocument_iff]
  constructor
  · rintro ⟨text', w', s', hsave', hload', heq, -⟩
    obtain rfl := Except.ok.inj (hsave.symm.trans hsave')
    obtain ⟨rfl, -⟩ := Prod.mk.inj (Except.ok.inj (hload.symm.trans hload'))
    rwa [Workflow.asDocument_saved] at heq
  · intro heq
    refine ⟨text, w.saved, s, hsave, hload, w.asDocument_saved.trans heq,
      fun idOrder order hok ↦ ?_,
      fun order ↦ ?_⟩
    · rwa [heq]
    · rw [heq]
      rfl

/-- Saving and loading give back exactly the trees without names, and the workflows of such
trees. -/
theorem json_roundTrip_iff (lib : JsonLibrary) (s : LoaderState) :
    (∀ r : Rule, r.nestingDepth ≤ kMaxRuleNestingDepth → r.Representable →
      (∀ j, serializeRule r = .ok j → lib.Restores j) → (r.RoundTrips lib s ↔ r.Unnamed)) ∧
    ∀ w : Workflow, (∀ r ∈ w.rules, r.nestingDepth ≤ kMaxRuleNestingDepth) →
      (∀ r ∈ w.rules, r.Representable) → toInt32 w.id = w.id →
      (∀ j, serializeWorkflow w = .ok j → lib.Restores j) →
      (w.RoundTrips lib s ↔ ∀ r ∈ w.rules, r.Unnamed) :=
  ⟨fun _ ↦ Rule.roundTrips_iff, fun _ ↦ Workflow.roundTrips_iff⟩

end Text

/-! ### Examples -/

/-- The escape of a character in a JSON string. -/
def escapeChar (c : Char) : List Char :=
  if c = '"' then ['\\', '"']
  else if c = '\\' then ['\\', '\\']
  else if c = '\n' then ['\\', 'n']
  else [c]

def quoteString (s : String) : String :=
  "\"" ++ String.ofList (s.toList.flatMap escapeChar) ++ "\""

mutual

/-- The compact text of a value. -/
def Json.render : Json → String
  | .null => "null"
  | .boolean b => toString b
  | .integer n => toString n
  | .float n isIntegral => toString n ++ (if isIntegral then ".0" else ".5")
  | .string s => quoteString s
  | .array elements => "[" ++ String.intercalate "," (renderElements elements) ++ "]"
  | .object members => "\x7b" ++ String.intercalate "," (renderMembers members) ++ "\x7d"

def renderElements : List Json → List String
  | [] => []
  | j :: elements => j.render :: renderElements elements

def renderMembers : List (String × Json) → List String
  | [] => []
  | (key, j) :: members => (quoteString key ++ ":" ++ j.render) :: renderMembers members

end

/-- A library that knows one text. -/
def libraryFor (j : Json) : JsonLibrary where
  dump j' := .ok j'.render
  parse text := if text = j.render then .ok j else .error "parse error"

theorem libraryFor_restores (j : Json) : (libraryFor j).Restores j :=
  ⟨j.render, rfl, if_pos rfl⟩

theorem libraryFor_restores_of {α : Type} {serialize : α → Except Exn Json} {a : α} {j : Json}
    (hj : serialize a = .ok j) (j' : Json) (hj' : serialize a = .ok j') :
    (libraryFor j).Restores j' := by
  obtain rfl := Except.ok.inj (hj.symm.trans hj')
  exact libraryFor_restores j

/-- Rules without names. -/
def adultRule : Rule :=
  { id := 1, description := "adult", expression := "age >= 18", timeout := some 1000
    childRules := [{ id := 2, expression := "age ~= nil" }] }

def adultWorkflow : Workflow where
  rules := [adultRule]
  id := 7
  name := "adults"

theorem adult_roundTrips :
    (∃ j, serializeRule adultRule = .ok j ∧ adultRule.RoundTrips (libraryFor j) {}) ∧
      ∃ j, serializeWorkflow adultWorkflow = .ok j ∧ adultWorkflow.RoundTrips (libraryFor j)
        {} := by
  have hunnamed : adultRule.Unnamed := by decide
  refine ⟨⟨_, rfl, ?_⟩, _, rfl, ?_⟩
  · exact ((json_roundTrip_iff _ {}).1 adultRule (by decide) (by decide)
      (libraryFor_restores_of rfl)).2 hunnamed
  · exact ((json_roundTrip_iff _ {}).2 adultWorkflow (by decide) (by decide) rfl
      (libraryFor_restores_of rfl)).2 (List.forall_mem_singleton.2 hunnamed)

/-- `B` depends on `A`. -/
def dependentWorkflow : Workflow where
  rules := [{ id := 1, name := "A" }, { id := 2, name := "B", dependsOnRuleName := some "A" }]

/-- The workflow is valid. After it was saved and loaded there is no rule `A` any more. -/
theorem dependentWorkflow_lost :
    (dependentWorkflow.validate (HashOrder.insertion Id) (HashOrder.insertion Rule)).1 = .ok () ∧
      ∃ lib j, serializeWorkflow dependentWorkflow = .ok j ∧ JsonLibrary.Restores lib j ∧
        ¬dependentWorkflow.RoundTrips lib {} ∧
        ∃ text w s, saveWorkflow lib dependentWorkflow = .ok text ∧
          (loadWorkflow lib text).run {} = .ok (w, s) ∧
          (w.validate (HashOrder.insertion Id) (HashOrder.insertion Rule)).1 =
            .error "Rule depends on non-existent rule: A" := by
  have hdepth : ∀ r ∈ dependentWorkflow.rules, r.nestingDepth ≤ kMaxRuleNestingDepth := by decide
  have hr : ∀ r ∈ dependentWorkflow.rules, r.Representable := by decide
  refine ⟨rfl, libraryFor _, _, rfl, libraryFor_restores _, fun h ↦ ?_, ?_⟩
  · have hunnamed := (Workflow.roundTrips_iff hdepth hr rfl (libraryFor_restores_of rfl)).1 h
    exact absurd (hunnamed _ List.mem_cons_self _ (Rule.self_mem_nodes _)) (by decide)
  · obtain ⟨text, hsave, hload⟩ :=
      load_of_saveWorkflow hdepth hr rfl (libraryFor_restores_of rfl) {}
    exact ⟨text, _, _, hsave, hload, rfl⟩

end FastRules
