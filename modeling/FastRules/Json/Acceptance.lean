import FastRules.Json.Scalars

/-!
# What the JSON loader accepts

A document is a workflow if the ids and durations that it gives as texts can be read and its rules
are nested at most 64 levels deep; a rejected one has an id, a duration or a rule to blame, which
the exception is about (`Json.Causes`). Whatever is accepted can be saved, and what is saved is a
normal form: loading it and saving again gives the same text, so that only the first save loses
anything (`loadWorkflow_normal`).
-/

namespace FastRules

/-! ### Documents -/

/-- What stands before the unit of a duration. -/
def beforeUnit (s : String) (suffix : ℕ) : String :=
  String.ofList (s.toList.take (s.toList.length - suffix))

/-- The length of the unit that a duration ends with. -/
def unitLength (s : String) : Option ℕ :=
  if "ms".toList <:+ s.toList then some 2
  else if "s".toList <:+ s.toList ∨ "m".toList <:+ s.toList then some 1
  else none

/-- The number of a duration can be read, if it has a unit. -/
def DurationText (s : String) : Prop :=
  ∀ n ∈ unitLength s, (readBounded 64 (beforeUnit s n)).isSome

/-- An id that is given as a text can be read. -/
def Json.ReadableId (j : Json) : Prop :=
  ∀ s, j.member? "id" = some (.string s) → (readBounded 32 s).isSome

/-- A duration that is given as a text can be read. -/
def Json.ReadableDuration (key : String) (j : Json) : Prop :=
  ∀ s, j.member? key = some (.string s) → DurationText s

/-- What is checked of a rule, but for its children. -/
structure Json.Readable (j : Json) : Prop where
  id : j.ReadableId
  timeout : j.ReadableDuration "timeout"
  cacheDuration : j.ReadableDuration "cacheDuration"

/-- Child of child of …, so many times. -/
inductive Json.Nested : ℕ → Json → Json → Prop
  | self (j) : Nested 0 j j
  | child {n j c j'} (hc : c ∈ arrayMember "childRules" j) (h : Nested n c j') : Nested (n + 1) j j'

/-- A rule of fewer than so many levels that can be read at all of them. -/
def Json.IsRule (levels : ℕ) (j : Json) : Prop :=
  ∀ n j', Nested n j j' → n < levels ∧ j'.Readable

/-- The message for an id that is not a number. -/
def idMessage (what s : String) : String :=
  what ++ " 'id' is a string but not a valid integer: " ++ s

/-- The exception is about an id or a duration of the rule. -/
inductive Json.Causes (j : Json) : Exn → Prop
  | id (s) (hs : j.member? "id" = some (.string s)) (hread : readBounded 32 s = none) :
      Causes j (.rule (idMessage "Rule" s))
  | duration (key s) (hkey : key = "timeout" ∨ key = "cacheDuration")
      (hs : j.member? key = some (.string s)) (hread : ¬DurationText s) :
      Causes j (.standard "stoll")

/-- The exception is about a rule in the tree. -/
inductive Json.CausesBelow (levels : ℕ) (j : Json) : Exn → Prop
  | nesting {j'} (h : Nested levels j j') : CausesBelow levels j (.rule nestingMessage)
  | rule {n j' e} (h : Nested n j j') (hn : n < levels) (he : j'.Causes e) : CausesBelow levels j e

/-! ### One rule -/

/-- What the counters and the rules are like after rules were parsed. -/
structure Parsed (levels : ℕ) (s s' : LoaderState) (rules : List Rule) : Prop where
  counter : s.ruleIdCounter ≤ s'.ruleIdCounter
  workflows : s'.workflowIdCounter = s.workflowIdCounter
  depth : ∀ r ∈ rules, r.nestingDepth < levels
  representable : -2 ^ 31 ≤ s.ruleIdCounter → s'.ruleIdCounter < 2 ^ 31 →
    ∀ r ∈ rules, r.Representable

section Parsing

variable {levels : ℕ} {j : Json} {s s₁ s' : LoaderState} {rules : List Rule} {e : Exn}

theorem Parsed.refl : Parsed levels s s [] where
  counter := le_rfl
  workflows := rfl
  depth _ hr := absurd hr List.not_mem_nil
  representable _ _ _ hr := absurd hr List.not_mem_nil

theorem Parsed.cons {r : Rule} (h : Parsed levels s s₁ [r]) (hrest : Parsed levels s₁ s' rules) :
    Parsed levels s s' (r :: rules) where
  counter := h.counter.trans hrest.counter
  workflows := hrest.workflows.trans h.workflows
  depth := List.forall_mem_cons.2 ⟨h.depth r List.mem_cons_self, hrest.depth⟩
  representable hle hlt := by
    have hmid := h.counter
    have hend := hrest.counter
    exact List.forall_mem_cons.2 ⟨h.representable hle (by omega) r List.mem_cons_self,
      hrest.representable (by omega) hlt⟩

theorem toInt32_of_readBounded {t : String} {n : Int} (h : readBounded 32 t = some n) :
    toInt32 n = n :=
  toInt32_eq_self_iff.2 (readBounded_eq_some_iff.1 h).2

/-- An id is read, or handed out by the counter, unless it is a text that is no number. -/
theorem parseId_cases (what : String) {nextId : Loader Int} (j : Json) {next : Int}
    (hnext : nextId.run s = .ok (next, s₁)) :
    (∃ n s', (parseId what nextId j).run s = .ok (n, s') ∧ j.ReadableId ∧
      (s' = s ∧ toInt32 n = n ∨ s' = s₁ ∧ n = next)) ∨
    ∃ t, j.member? "id" = some (.string t) ∧ readBounded 32 t = none ∧
      (parseId what nextId j).run s = .error (.rule (idMessage what t)) := by
  rw [parseId, Json.ReadableId]
  rcases hj : j.member? "id" with - | (- | b | n | ⟨n, b⟩ | t | l | l)
  case some.integer => exact .inl ⟨_, s, rfl, by rintro _ ⟨⟩, .inl ⟨rfl, toInt32_toInt32 n⟩⟩
  case some.string =>
    rcases hread : readBounded 32 t with - | n
    · exact .inr ⟨t, rfl, hread, by simp only [hread]; rfl⟩
    · refine .inl ⟨n, s, by simp only [hread]; rfl, fun t' ht' ↦ ?_,
        .inl ⟨rfl, toInt32_of_readBounded hread⟩⟩
      obtain rfl := Json.string.inj (Option.some.inj ht')
      rw [hread]
      rfl
  all_goals exact .inl ⟨next, s₁, hnext, by rintro _ ⟨⟩, .inr ⟨rfl, rfl⟩⟩

theorem durationText_iff {t : String} {suffix : ℕ} (h : unitLength t = some suffix) :
    DurationText t ↔ (readBounded 64 (beforeUnit t suffix)).isSome := by
  simp [DurationText, h]

theorem readDuration_cases {t : String} {suffix : ℕ} (h : unitLength t = some suffix) (unit : Int) :
    (∃ d, readDuration t suffix unit = .ok d ∧ DurationText t ∧ d.map toInt64 = d) ∨
    readDuration t suffix unit = .error (.standard "stoll") ∧ ¬DurationText t := by
  rw [durationText_iff h, readDuration, ← beforeUnit]
  rcases readBounded 64 (beforeUnit t suffix) with - | n
  · exact .inr ⟨rfl, Bool.false_ne_true⟩
  · exact .inl ⟨_, rfl, rfl, congrArg some (Int.bmod_bmod)⟩

/-- A duration is read unless it is a text whose number is none. -/
theorem durationMember_cases (key : String) (j : Json) :
    (∃ d, durationMember key j = .ok d ∧ j.ReadableDuration key ∧ d.map toInt64 = d) ∨
    durationMember key j = .error (.standard "stoll") ∧
      ∃ t, j.member? key = some (.string t) ∧ ¬DurationText t := by
  rw [durationMember, Json.ReadableDuration]
  rcases hj : j.member? key with - | (- | b | n | ⟨n, b⟩ | t | l | l)
  case some.integer => exact .inl ⟨_, rfl, by rintro _ ⟨⟩, congrArg some Int.bmod_bmod⟩
  case some.float => exact .inl ⟨_, rfl, by rintro _ ⟨⟩, congrArg some Int.bmod_bmod⟩
  case some.string =>
    have hreadable : (∀ s, some (Json.string t) = some (.string s) → DurationText s) ↔
        DurationText t :=
      ⟨fun h ↦ h t rfl, fun h s hs ↦ Json.string.inj (Option.some.inj hs) ▸ h⟩
    rw [hreadable]
    have hblame {p : Prop} (h : p ∧ ¬DurationText t) :
        p ∧ ∃ t', some (Json.string t) = some (Json.string t') ∧ ¬DurationText t' :=
      ⟨h.1, t, rfl, h.2⟩
    dsimp only
    split_ifs with hms hs hm
    · exact (readDuration_cases (if_pos hms) 1).imp_right hblame
    · exact (readDuration_cases ((if_neg hms).trans (if_pos (.inl hs))) 1000).imp_right hblame
    · exact (readDuration_cases ((if_neg hms).trans (if_pos (.inr hm))) 60000).imp_right hblame
    · have hunit : unitLength t = none := (if_neg hms).trans (if_neg (not_or.2 ⟨hs, hm⟩))
      exact .inl ⟨none, rfl, fun n hn ↦ absurd (hunit ▸ hn) (Option.not_mem_none n), rfl⟩
  all_goals exact .inl ⟨none, rfl, by rintro _ ⟨⟩, rfl⟩

theorem Loader.run_lift_error {α : Type} {x : Except Exn α} (h : x = .error e) :
    StateT.run (x : Loader α) s = .error e := by
  rw [h]
  rfl

/-- Rules one after the other: all are parsed, or one is to blame. -/
theorem mapM_parse_cases {parse : Json → Loader Rule} {js : List Json}
    (h : ∀ j ∈ js, ∀ s, (∃ r s', (parse j).run s = .ok (r, s') ∧ j.IsRule levels ∧
      Parsed levels s s' [r]) ∨ ∃ e, (parse j).run s = .error e ∧ j.CausesBelow levels e)
    (s : LoaderState) :
    (∃ rules s', (js.mapM parse).run s = .ok (rules, s') ∧ (∀ j ∈ js, j.IsRule levels) ∧
      Parsed levels s s' rules) ∨
    ∃ e, (js.mapM parse).run s = .error e ∧ ∃ j ∈ js, j.CausesBelow levels e := by
  induction js generalizing s with
  | nil => exact .inl ⟨[], s, rfl, fun j hj ↦ absurd hj List.not_mem_nil, .refl⟩
  | cons j js ih =>
    obtain ⟨hj, hjs⟩ := List.forall_mem_cons.1 h
    rw [List.mapM_cons]
    rcases hj s with ⟨r, s₁, hr, hrule, hparsed⟩ | ⟨e, he, hcause⟩
    · rw [Loader.run_bind_ok hr]
      rcases ih hjs s₁ with ⟨rules, s', hrules, hall, hrest⟩ | ⟨e, he, j', hj', hcause⟩
      · rw [Loader.run_bind_ok hrules]
        exact .inl ⟨r :: rules, s', rfl, List.forall_mem_cons.2 ⟨hrule, hall⟩, hparsed.cons hrest⟩
      · exact .inr ⟨e, Loader.run_bind_error he, j', List.mem_cons_of_mem j hj', hcause⟩
    · exact .inr ⟨e, Loader.run_bind_error he, j, List.mem_cons_self, hcause⟩

theorem Rule.nestingDepth_lt {fields : RuleFields} {children : List Rule}
    (h : ∀ c ∈ children, c.nestingDepth < levels) :
    Rule.nestingDepth ⟨fields, children⟩ < levels + 1 := by
  rw [nestingDepth]
  induction children with
  | nil => exact Nat.succ_pos levels
  | cons c children ih =>
    obtain ⟨hc, hchildren⟩ := List.forall_mem_cons.1 h
    have := ih hchildren
    rw [nestingDepthOf]
    omega

/-- A rule is right if it is itself and its children are. -/
theorem Json.isRule_succ (hj : j.Readable)
    (hc : ∀ c ∈ arrayMember "childRules" j, c.IsRule levels) : j.IsRule (levels + 1) := by
  intro n j' h
  cases h with
  | self => exact ⟨Nat.succ_pos levels, hj⟩
  | child hmem h =>
    obtain ⟨hlt, hread⟩ := hc _ hmem _ _ h
    exact ⟨Nat.succ_lt_succ hlt, hread⟩

theorem Json.CausesBelow.of_child {c : Json} (hc : c ∈ arrayMember "childRules" j)
    (h : c.CausesBelow levels e) : j.CausesBelow (levels + 1) e := by
  rcases h with h | ⟨h, hn, he⟩
  · exact .nesting (.child hc h)
  · exact .rule (.child hc h) (Nat.succ_lt_succ hn) he

/-- **A rule is parsed, or something in it is to blame.** -/
theorem parseRuleAtDepth_cases (levels : ℕ) (j : Json) (s : LoaderState) :
    (∃ r s', (parseRuleAtDepth levels j).run s = .ok (r, s') ∧ j.IsRule levels ∧
      Parsed levels s s' [r]) ∨
    ∃ e, (parseRuleAtDepth levels j).run s = .error e ∧ j.CausesBelow levels e := by
  induction levels generalizing j s with
  | zero => exact .inr ⟨_, rfl, .nesting (.self j)⟩
  | succ levels ih =>
    have hself {e : Exn} (he : j.Causes e) : j.CausesBelow (levels + 1) e :=
      .rule (.self j) (Nat.succ_pos levels) he
    have hnextId : nextRuleId.run s =
        .ok (s.ruleIdCounter + 1, { s with ruleIdCounter := s.ruleIdCounter + 1 }) := rfl
    rw [parseRuleAtDepth]
    rcases parseId_cases "Rule" j hnextId with
      ⟨id, s₁, hid, hreadId, hnext⟩ | ⟨t, ht, hread, he⟩
    swap
    · exact .inr ⟨_, Loader.run_bind_error he, hself (.id t ht hread)⟩
    rw [Loader.run_bind_ok hid]
    rcases durationMember_cases "timeout" j with ⟨timeout, htimeout, hreadTimeout, hfits⟩ |
      ⟨he, t, ht, hread⟩
    swap
    · exact .inr ⟨_, Loader.run_bind_error (Loader.run_lift_error he),
        hself (.duration _ t (.inl rfl) ht hread)⟩
    rw [Loader.run_bind_ok (Loader.run_lift_eq_ok_iff.2 ⟨htimeout, rfl⟩)]
    rcases durationMember_cases "cacheDuration" j with ⟨cache, hcache, hreadCache, hfits'⟩ |
      ⟨he, t, ht, hread⟩
    swap
    · exact .inr ⟨_, Loader.run_bind_error (Loader.run_lift_error he),
        hself (.duration _ t (.inr rfl) ht hread)⟩
    rw [Loader.run_bind_ok (Loader.run_lift_eq_ok_iff.2 ⟨hcache, rfl⟩)]
    rcases mapM_parse_cases (fun c _ s ↦ ih c s) s₁ with
      ⟨children, s', hchildren, hrules, hparsed⟩ | ⟨e, he, c, hc, hcause⟩
    swap
    · exact .inr ⟨e, Loader.run_bind_error he, .of_child hc hcause⟩
    rw [Loader.run_bind_ok hchildren]
    refine .inl ⟨_, s', rfl, Json.isRule_succ ⟨hreadId, hreadTimeout, hreadCache⟩ hrules, ?_⟩
    have hcounter : s.ruleIdCounter ≤ s₁.ruleIdCounter ∧
        s₁.workflowIdCounter = s.workflowIdCounter := by
      rcases hnext with ⟨rfl, -⟩ | ⟨rfl, -⟩
      · exact ⟨le_rfl, rfl⟩
      · exact ⟨Int.le_add_one le_rfl, rfl⟩
    have hend := hparsed.counter
    refine ⟨hcounter.1.trans hend, hparsed.workflows.trans hcounter.2,
      List.forall_mem_singleton.2 (Rule.nestingDepth_lt hparsed.depth), fun hle hlt ↦
      List.forall_mem_singleton.2 ?_⟩
    have hidFits : toInt32 id = id := by
      rcases hnext with ⟨-, h⟩ | ⟨rfl, rfl⟩
      · exact h
      · refine toInt32_eq_self_iff.2 ⟨?_, ?_⟩ <;> dsimp only at * <;> omega
    have hpriority : toInt32 ((integerMember "priority" j).getD 0) =
        (integerMember "priority" j).getD 0 := by
      rw [integerMember]
      split
      · exact toInt32_toInt32 _
      · rfl
    have hbelow := hparsed.representable (by omega) hlt
    intro q hq
    rw [Rule.nodes_eq] at hq
    rcases List.mem_cons.1 hq with rfl | hq
    · exact ⟨hidFits, hpriority, hfits, hfits'⟩
    · obtain ⟨c, hc, hq⟩ := Rule.mem_nodesOf.1 hq
      exact hbelow c hc q hq

/-- What is to blame cannot be read. -/
theorem Json.Causes.not_readable (h : j.Causes e) : ¬j.Readable := by
  rintro ⟨hid, htimeout, hcache⟩
  rcases h with ⟨t, ht, hread⟩ | ⟨key, t, rfl | rfl, ht, hread⟩
  · have hsome := hid t ht
    rw [hread] at hsome
    cases hsome
  · exact hread (htimeout t ht)
  · exact hread (hcache t ht)

theorem Json.CausesBelow.not_isRule (h : j.CausesBelow levels e) : ¬j.IsRule levels := by
  intro hrule
  rcases h with h | ⟨h, -, he⟩
  · exact lt_irrefl levels (hrule _ _ h).1
  · exact he.not_readable (hrule _ _ h).2

end Parsing

/-! ### Workflows -/

/-- What is saved of a rule does not depend on what saving loses. -/
theorem serialize_saved (levels : ℕ) (r : Rule) :
    serializeRuleAtDepth levels (r.mapFields RuleFields.saved) = serializeRuleAtDepth levels r := by
  induction levels generalizing r with
  | zero => rfl
  | succ levels ih =>
    rw [Rule.mapFields_eq, serializeRuleAtDepth, serializeRuleAtDepth, List.mapM_map]
    have hchildren : serializeRuleAtDepth levels ∘ Rule.mapFields RuleFields.saved =
        serializeRuleAtDepth levels := funext ih
    rw [hchildren]
    rfl

theorem serializeWorkflow_saved (w : Workflow) :
    serializeWorkflow w.saved = serializeWorkflow w := by
  rw [serializeWorkflow, serializeWorkflow, Workflow.saved, List.mapM_map]
  have hrules : serializeRule ∘ Rule.mapFields RuleFields.saved = serializeRule :=
    funext fun r ↦ serialize_saved _ r
  rw [hrules]
  rfl

/-- A document that is accepted as a workflow. -/
structure Json.IsWorkflow (j : Json) : Prop where
  id : j.ReadableId
  rules : ∀ c ∈ arrayMember "rules" j, c.IsRule (kMaxRuleNestingDepth + 1)

/-- The exception is about something in the workflow. -/
inductive Json.CausesInWorkflow (j : Json) : Exn → Prop
  | id (s) (hs : j.member? "id" = some (.string s)) (hread : readBounded 32 s = none) :
      CausesInWorkflow j (.rule (idMessage "Workflow" s))
  | rule {c e} (hc : c ∈ arrayMember "rules" j)
      (h : c.CausesBelow (kMaxRuleNestingDepth + 1) e) : CausesInWorkflow j e

theorem Json.CausesInWorkflow.not_isWorkflow {j : Json} {e : Exn} (h : j.CausesInWorkflow e) :
    ¬j.IsWorkflow := by
  rintro ⟨hid, hrules⟩
  rcases h with ⟨t, ht, hread⟩ | ⟨hc, h⟩
  · have hsome := hid t ht
    rw [hread] at hsome
    cases hsome
  · exact h.not_isRule (hrules _ hc)

/-- The ids that were handed out are `int`s. -/
structure CountersFit (s s' : LoaderState) : Prop where
  rules : -2 ^ 31 ≤ s.ruleIdCounter ∧ s'.ruleIdCounter < 2 ^ 31
  workflows : -2 ^ 31 ≤ s.workflowIdCounter ∧ s'.workflowIdCounter < 2 ^ 31

/-- A workflow that fits into a document. -/
structure Workflow.Fits (w : Workflow) : Prop where
  id : toInt32 w.id = w.id
  depth : ∀ r ∈ w.rules, r.nestingDepth ≤ kMaxRuleNestingDepth
  rules : ∀ r ∈ w.rules, r.Representable

/-- **A workflow is parsed, or something in it is to blame.** -/
theorem parseWorkflow_cases (j : Json) (s : LoaderState) :
    (∃ w s', (parseWorkflow j).run s = .ok (w, s') ∧ j.IsWorkflow ∧ (CountersFit s s' → w.Fits)) ∨
    ∃ e, (parseWorkflow j).run s = .error e ∧ j.CausesInWorkflow e := by
  have hnextId : nextWorkflowId.run s =
      .ok (s.workflowIdCounter + 1, { s with workflowIdCounter := s.workflowIdCounter + 1 }) := rfl
  rw [parseWorkflow]
  rcases parseId_cases "Workflow" j hnextId with
    ⟨id, s₁, hid, hreadId, hnext⟩ | ⟨t, ht, hread, he⟩
  swap
  · exact .inr ⟨_, Loader.run_bind_error he, .id t ht hread⟩
  rw [Loader.run_bind_ok hid]
  have heach : ∀ c ∈ arrayMember "rules" j, ∀ s, (∃ r s', (parseRule c).run s = .ok (r, s') ∧
      c.IsRule (kMaxRuleNestingDepth + 1) ∧ Parsed (kMaxRuleNestingDepth + 1) s s' [r]) ∨
      ∃ e, (parseRule c).run s = .error e ∧ c.CausesBelow (kMaxRuleNestingDepth + 1) e :=
    fun c _ s ↦ parseRuleAtDepth_cases (kMaxRuleNestingDepth + 1) c s
  rcases mapM_parse_cases heach s₁ with
    ⟨rules, s', hrules, hall, hparsed⟩ | ⟨e, he, c, hc, hcause⟩
  swap
  · exact .inr ⟨e, Loader.run_bind_error he, .rule hc hcause⟩
  rw [Loader.run_bind_ok hrules]
  refine .inl ⟨_, s', rfl, ⟨hreadId, hall⟩, fun hfit ↦ ?_⟩
  obtain ⟨⟨hrule, hrule'⟩, hworkflow, hworkflow'⟩ := hfit
  rw [hparsed.workflows] at hworkflow'
  have hfirst : s₁.ruleIdCounter = s.ruleIdCounter := by
    rcases hnext with ⟨rfl, -⟩ | ⟨rfl, -⟩ <;> rfl
  refine ⟨?_, fun r hr ↦ Nat.le_of_lt_succ (hparsed.depth r hr),
    hparsed.representable (hfirst ▸ hrule) hrule'⟩
  rcases hnext with ⟨-, h⟩ | ⟨rfl, rfl⟩
  · exact h
  · refine toInt32_eq_self_iff.2 ⟨?_, hworkflow'⟩
    exact hworkflow.trans (Int.le_add_one le_rfl)

/-- **What is accepted is a workflow document, and saving it once is enough.** A text is loaded
exactly if it is a document whose ids and durations can be read and whose rules are nested at most
64 levels deep, and an exception is about the text or something in the document. A workflow that was
loaded can be saved, and from then on nothing changes any more: what was saved is loaded without the
counters, and saved again as the same text. -/
theorem loadWorkflow_normal (lib : JsonLibrary) (text : String) (s : LoaderState) :
    ((∃ w s', (loadWorkflow lib text).run s = .ok (w, s')) ↔
      ∃ j, lib.parse text = .ok j ∧ j.IsWorkflow) ∧
    (∀ e, (loadWorkflow lib text).run s = .error e →
      (∃ message, lib.parse text = .error message ∧ e = .standard message) ∨
        ∃ j, lib.parse text = .ok j ∧ j.CausesInWorkflow e) ∧
    ∀ w s', (loadWorkflow lib text).run s = .ok (w, s') → CountersFit s s' →
      (∀ j, serializeWorkflow w = .ok j → lib.Restores j) →
      ∃ text', saveWorkflow lib w = .ok text' ∧
        (∀ t, (loadWorkflow lib text').run t = .ok (w.saved, t)) ∧
        saveWorkflow lib w.saved = .ok text' := by
  rcases hparse : lib.parse text with message | j
  · have hload : (loadWorkflow lib text).run s = .error (.standard message) := by
      rw [loadWorkflow, hparse]
      rfl
    rw [hload]
    exact ⟨iff_of_false (by rintro ⟨_, _, ⟨⟩⟩) (by rintro ⟨_, ⟨⟩, _⟩),
      fun e he ↦ .inl ⟨message, rfl, (Except.error.inj he).symm⟩, by rintro _ _ ⟨⟩⟩
  · rw [loadWorkflow_run hparse]
    rcases parseWorkflow_cases j s with ⟨w, s', hw, hworkflow, hfits⟩ | ⟨e, he, hcause⟩
    · rw [hw]
      refine ⟨iff_of_true ⟨w, s', rfl⟩ ⟨j, rfl, hworkflow⟩, by rintro _ ⟨⟩, ?_⟩
      rintro w' s'' ⟨⟩ hcounters hlib
      obtain ⟨hid, hdepth, hrules⟩ := hfits hcounters
      obtain ⟨text', hsave, -⟩ := load_of_saveWorkflow hdepth hrules hid hlib s
      refine ⟨text', hsave, fun t ↦ ?_, ?_⟩
      · obtain ⟨text'', hsave', hload⟩ := load_of_saveWorkflow hdepth hrules hid hlib t
        obtain rfl := Except.ok.inj (hsave.symm.trans hsave')
        exact hload
      · rw [saveWorkflow, serializeWorkflow_saved]
        exact hsave
    · rw [he]
      refine ⟨iff_of_false (by rintro ⟨_, _, ⟨⟩⟩) ?_, fun e' he' ↦ .inr ⟨j, rfl, ?_⟩,
        by rintro _ _ ⟨⟩⟩
      · rintro ⟨j', hj', hworkflow⟩
        obtain rfl := Except.ok.inj hj'
        exact hcause.not_isWorkflow hworkflow
      · exact Except.error.inj he' ▸ hcause

/-- A workflow of one rule, both without an id. -/
def bareDocument : Json :=
  .object [("rules", .array [.object [("timeout", .integer 120000)]])]

def bareWorkflow : Workflow where
  rules := [{ id := 1, timeout := some 120000 }]
  id := 1

/-- A library that knows the document and the one that is saved of it. -/
def bareLibrary (saved : Json) : JsonLibrary where
  dump j := .ok j.render
  parse text :=
    if text = bareDocument.render then .ok bareDocument else (libraryFor saved).parse text

/-- The ids come from the counters, and the next load of what was saved leaves these alone. -/
theorem bareDocument_normal :
    ∃ saved text', serializeWorkflow bareWorkflow = .ok saved ∧
      (loadWorkflow (bareLibrary saved) bareDocument.render).run {} =
        .ok (bareWorkflow, ⟨1, 1⟩) ∧
      saveWorkflow (bareLibrary saved) bareWorkflow = .ok text' ∧
      (loadWorkflow (bareLibrary saved) text').run ⟨1, 1⟩ = .ok (bareWorkflow, ⟨1, 1⟩) := by
  obtain ⟨saved, hsaved⟩ : ∃ saved, serializeWorkflow bareWorkflow = .ok saved ∧
      saved.render ≠ bareDocument.render := ⟨_, rfl, by decide +kernel⟩
  have hparse : (bareLibrary saved).parse bareDocument.render = .ok bareDocument := by
    simp [bareLibrary]
  have hload : (loadWorkflow (bareLibrary saved) bareDocument.render).run {} =
      .ok (bareWorkflow, ⟨1, 1⟩) :=
    (loadWorkflow_run hparse {}).trans rfl
  have hlib (j : Json) (hj : serializeWorkflow bareWorkflow = .ok j) :
      (bareLibrary saved).Restores j := by
    obtain rfl := Except.ok.inj (hsaved.1.symm.trans hj)
    exact ⟨saved.render, rfl, by simp [bareLibrary, libraryFor, hsaved.2]⟩
  obtain ⟨text', hsave, hagain, -⟩ :=
    (loadWorkflow_normal (bareLibrary saved) bareDocument.render {}).2.2
      bareWorkflow ⟨1, 1⟩ hload ⟨by decide, by decide⟩ hlib
  exact ⟨saved, text', hsaved.1, hload, hsave, hagain ⟨1, 1⟩⟩

end FastRules
