import FastRules.Json.RoundTrip

/-!
# The database repository

`DbRuleRepository` over the table `rules`, as the rows that SQL keeps: what is bound to a column is
what is read from it. Nullable columns are read with defaults, and `save` never writes a null: a
missing duration is bound as `-1` and a missing name of a dependency as the empty string. What comes
back of a rule is `reread`, whichever of the two statements wrote the row (`rowToRule_of_save`).
-/

namespace FastRules

namespace DbRepository

/-- A row of the table `rules`, with the columns that are read. -/
structure RuleRow where
  id : Option Int
  name : Option String
  expression : Option String
  action : Option String
  description : Option String
  isActive : Option Int
  priority : Option Int
  timeoutMs : Option Int
  cacheDurationMs : Option Int
  dependsOnRuleName : Option String

/-! ### Binding -/

/-- A duration as it is bound: converted to `int`, `-1` without one. -/
def durationColumn (duration : Option Int) : Int :=
  duration.elim (-1) toInt32

/-- A `DbBool` as it is bound. -/
def boolColumn (b : Bool) : Int :=
  if b then 1 else 0

/-- The columns but the id that `insertRule` and `updateRule` bind. -/
def bindColumns (rule : Rule) (row : RuleRow) : RuleRow :=
  { row with
    name := some rule.name
    expression := some rule.expression
    action := some rule.action
    description := some rule.description
    isActive := some (boolColumn rule.isActive)
    priority := some rule.priority
    timeoutMs := some (durationColumn rule.timeout)
    cacheDurationMs := some (durationColumn rule.cacheDuration)
    dependsOnRuleName := some (rule.dependsOnRuleName.getD "") }

/-- A row of nulls. -/
def emptyRow : RuleRow :=
  ⟨none, none, none, none, none, none, none, none, none, none⟩

/-- `DbRuleRepository::insertRule`. -/
def insertRule (rule : Rule) (rows : List RuleRow) : List RuleRow :=
  rows ++ [bindColumns rule { emptyRow with id := some rule.id }]

/-- `DbRuleRepository::updateRule`. -/
def updateRule (rule : Rule) (rows : List RuleRow) : List RuleRow :=
  rows.map fun row ↦ if row.id = some rule.id then bindColumns rule row else row

/-- The rows `WHERE id = :id`. -/
def rowsOf (id : Int) (rows : List RuleRow) : List RuleRow :=
  rows.filter fun row ↦ row.id = some id

/-- `DbRuleRepository::save`. -/
def save (rule : Rule) (rows : List RuleRow) : List RuleRow :=
  if 0 < (rowsOf rule.id rows).length then updateRule rule rows else insertRule rule rows

/-! ### Reading -/

/-- `int ms = row.get<int>(column, -1); if (ms >= 0) ...`. -/
def readDuration (column : Option Int) : Option Int :=
  if 0 ≤ column.getD (-1) then some (column.getD (-1)) else none

/-- `std::string text = row.get<std::string>(column, ""); if (!text.empty()) ...`. -/
def readNonempty (column : Option String) : Option String :=
  if column.getD "" = "" then none else some (column.getD "")

/-- `DbRuleRepository::rowToRule`. -/
def rowToRule (row : RuleRow) : Rule where
  id := row.id.getD 0
  name := row.name.getD ""
  expression := row.expression.getD ""
  action := row.action.getD ""
  description := row.description.getD ""
  isActive := row.isActive.getD 1 ≠ 0
  priority := row.priority.getD 0
  timeout := readDuration row.timeoutMs
  cacheDuration := readDuration row.cacheDurationMs
  dependsOnRuleName := readNonempty row.dependsOnRuleName

/-- `DbRuleRepository::findById`. -/
def findById (id : Int) (rows : List RuleRow) : Option Rule :=
  (rowsOf id rows).head?.map rowToRule

/-! ### What comes back -/

variable {rule : Rule} {row : RuleRow} {rows : List RuleRow}

/-- What is read of the row of a rule. -/
def reread (rule : Rule) : RuleFields :=
  { rule.toRuleFields.document with
    timeout := readDuration (some (durationColumn rule.timeout))
    cacheDuration := readDuration (some (durationColumn rule.cacheDuration))
    dependsOnRuleName := readNonempty (some (rule.dependsOnRuleName.getD "")) }

theorem rowToRule_bindColumns (hid : row.id = some rule.id) :
    (rowToRule (bindColumns rule row)).toRuleFields = reread rule := by
  have hactive : decide (boolColumn rule.isActive ≠ 0) = rule.isActive := by
    cases rule.isActive <;> rfl
  simp only [rowToRule, bindColumns, hid, Option.getD_some, hactive]
  rfl

/-- Both statements leave the rule in a row of its id, and in every such row. -/
theorem rowToRule_of_save (rule : Rule) (rows : List RuleRow) :
    rowsOf rule.id (save rule rows) ≠ [] ∧
      ∀ row ∈ rowsOf rule.id (save rule rows), (rowToRule row).toRuleFields = reread rule := by
  rw [save]
  split_ifs with hcount
  -- an update binds every column that is read, so nothing of the old row shows
  · obtain ⟨row, hrow⟩ := List.exists_mem_of_length_pos hcount
    obtain ⟨hmem, hid⟩ := List.mem_filter.1 hrow
    have hid : row.id = some rule.id := of_decide_eq_true hid
    constructor
    · refine List.ne_nil_of_mem (a := bindColumns rule row) (List.mem_filter.2 ⟨?_, ?_⟩)
      · exact List.mem_map.2 ⟨row, hmem, if_pos hid⟩
      · exact decide_eq_true hid
    · intro row' hrow'
      obtain ⟨hmem', hid'⟩ := List.mem_filter.1 hrow'
      obtain ⟨old, -, rfl⟩ := List.mem_map.1 hmem'
      by_cases hold : old.id = some rule.id
      · rw [if_pos hold]
        exact rowToRule_bindColumns hold
      · rw [if_neg hold] at hid'
        exact absurd (of_decide_eq_true hid') hold
  · have hnone : rowsOf rule.id rows = [] := List.eq_nil_of_length_eq_zero (by omega)
    have hrows : rowsOf rule.id (insertRule rule rows) =
        [bindColumns rule { emptyRow with id := some rule.id }] := by
      rw [rowsOf, insertRule, List.filter_append]
      show rowsOf rule.id rows ++ _ = _
      rw [hnone]
      simp [bindColumns]
    rw [hrows]
    refine ⟨List.cons_ne_nil _ _, fun row hrow ↦ ?_⟩
    rw [List.mem_singleton.1 hrow]
    exact rowToRule_bindColumns rfl

/-! ### Equality of the rules -/

theorem readDuration_eq_iff (duration : Option Int) :
    readDuration (some (durationColumn duration)) = duration ↔
      ∀ d, duration = some d → 0 ≤ d ∧ d < 2 ^ 31 := by
  rcases duration with - | d
  · simp [readDuration, durationColumn]
  · have hsame : readDuration (some (toInt32 d)) = some d ↔ 0 ≤ toInt32 d ∧ toInt32 d = d := by
      rw [readDuration, Option.getD_some]
      split_ifs with hsign
      · simp [hsign]
      · simp [hsign]
    show readDuration (some (toInt32 d)) = some d ↔ _
    rw [hsame]
    constructor
    · rintro ⟨hsign, hint⟩ e he
      obtain rfl := Option.some.inj he
      exact ⟨hint ▸ hsign, (toInt32_eq_self_iff.1 hint).2⟩
    · intro h
      obtain ⟨hsign, hlt⟩ := h d rfl
      have hint : toInt32 d = d := toInt32_eq_self_iff.2 ⟨by omega, hlt⟩
      exact ⟨hint.symm ▸ hsign, hint⟩

theorem readNonempty_eq_iff (text : Option String) :
    readNonempty (some (text.getD "")) = text ↔ text ≠ some "" := by
  rcases text with - | text
  · simp [readNonempty]
  · by_cases htext : text = "" <;> simp [readNonempty, htext]

/-- There is a row of the rule, and every row of it is read as the rule. -/
def RoundTrips (rule : Rule) (rows : List RuleRow) : Prop :=
  rowsOf rule.id (save rule rows) ≠ [] ∧
    ∀ row ∈ rowsOf rule.id (save rule rows),
      (rowToRule row).toRuleFields.document = rule.toRuleFields.document

/-- A rule comes back as it was saved, by either statement, exactly if its durations are
nonnegative and of type `int` and it does not depend on a rule with an empty name. -/
theorem row_roundTrips_iff (rule : Rule) (rows : List RuleRow) :
    RoundTrips rule rows ↔
      (∀ d, rule.timeout = some d → 0 ≤ d ∧ d < 2 ^ 31) ∧
      (∀ d, rule.cacheDuration = some d → 0 ≤ d ∧ d < 2 ^ 31) ∧
      rule.dependsOnRuleName ≠ some "" := by
  obtain ⟨hrows, hread⟩ := rowToRule_of_save rule rows
  have hsame : RoundTrips rule rows ↔ (reread rule).document = rule.toRuleFields.document := by
    obtain ⟨row, hrow⟩ := List.exists_mem_of_ne_nil _ hrows
    refine ⟨fun h ↦ hread row hrow ▸ h.2 row hrow, fun h ↦ ⟨hrows, fun row hrow ↦ ?_⟩⟩
    rw [hread row hrow, h]
  rw [hsame, ← readDuration_eq_iff, ← readDuration_eq_iff, ← readNonempty_eq_iff]
  constructor
  · exact fun h ↦ ⟨congrArg RuleFields.timeout h, congrArg RuleFields.cacheDuration h,
      congrArg RuleFields.dependsOnRuleName h⟩
  · rintro ⟨htimeout, hcache, hdepends⟩
    rw [reread, htimeout, hcache, hdepends]
    rfl

/-- A rule that keeps its result for 30 days. -/
def monthlyRule : Rule :=
  { id := 1, expression := "true", cacheDuration := some 2592000000 }

/-- It comes back without a duration. -/
theorem monthly_row_changed : ¬∀ (rule : Rule) (rows : List RuleRow),
    rule.Representable → RoundTrips rule rows := by
  intro h
  have hrange := ((row_roundTrips_iff monthlyRule []).1 (h monthlyRule [] (by decide))).2.1
  exact absurd (hrange 2592000000 rfl).2 (by decide)

end DbRepository

end FastRules
