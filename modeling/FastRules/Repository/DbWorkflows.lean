import FastRules.Repository.Database
import FastRules.Workflow.Validate
import FastRules.Foundations.RecordStore

/-!
# Workflows in the database

`DbWorkflowRepository` and `DbRuleRepository` over their three tables, as SQL keeps them: a primary
key is unique, an exception rolls back the transaction that it leaves, and foreign keys are enforced
or not, as the backend has it. What a query without `ORDER BY` returns first is left to the database
(a `HashOrder` of the rows).

A `Store` is what the two repositories are for: the rules by id, and the workflows by id with the
ids of their rules. Every run of saves and removals on an empty database is a run of the store with
the same failures, and what is found in the one is found in the other (`run_refines_store`). A
workflow is found without those of its rules that are not stored. Where foreign keys are not
enforced, such a rule is in its place again once a rule of its id is saved.
-/

namespace FastRules

namespace DbRepository

open RecordStore

/-- A row of the table `workflows`. -/
structure WorkflowRow where
  id : Int
  name : String
  description : String
  isActive : Int

/-- A row of the table `workflow_rules`. -/
structure WorkflowRuleRow where
  workflowId : Int
  ruleId : Int
  ruleOrder : Int

/-- The tables. Nothing is ever inserted into `rule_parameters`. -/
structure Database where
  rules : List RuleRow := []
  workflows : List WorkflowRow := []
  workflowRules : List WorkflowRuleRow := []

inductive SqlError
  | primaryKey
  | foreignKey

/-! ### Statements -/

/-- `DELETE FROM rules`, `ON DELETE CASCADE` where foreign keys are enforced. -/
def deleteRules (enforced : Bool) (p : Option Int → Bool) (db : Database) : Database :=
  { db with
    rules := db.rules.filter fun row ↦ !p row.id
    workflowRules := db.workflowRules.filter fun link ↦
      !(enforced && db.rules.any fun row ↦ p row.id && row.id == some link.ruleId) }

/-- `DELETE FROM workflows`, `ON DELETE CASCADE` where foreign keys are enforced. -/
def deleteWorkflows (enforced : Bool) (p : Int → Bool) (db : Database) : Database :=
  { db with
    workflows := db.workflows.filter fun row ↦ !p row.id
    workflowRules := db.workflowRules.filter fun link ↦
      !(enforced && db.workflows.any fun row ↦ p row.id && row.id == link.workflowId) }

/-- `DELETE FROM workflow_rules`. -/
def deleteWorkflowRules (p : Int → Bool) (db : Database) : Database :=
  { db with workflowRules := db.workflowRules.filter fun link ↦ !p link.workflowId }

/-- `INSERT INTO workflow_rules`. -/
def insertWorkflowRule (enforced : Bool) (link : WorkflowRuleRow) (db : Database) :
    Except SqlError Database :=
  if ∃ l ∈ db.workflowRules, l.workflowId = link.workflowId ∧ l.ruleId = link.ruleId then
    .error .primaryKey
  else if enforced ∧ ¬((∃ row ∈ db.workflows, row.id = link.workflowId) ∧
      ∃ row ∈ db.rules, row.id = some link.ruleId) then
    .error .foreignKey
  else
    .ok { db with workflowRules := db.workflowRules ++ [link] }

/-- What is written of a workflow. -/
def bindWorkflow (workflow : Workflow) : WorkflowRow where
  id := workflow.id
  name := workflow.name
  description := workflow.description
  isActive := boolColumn workflow.isActive

/-- The statements of `DbWorkflowRepository::save` before its loop. -/
def writeWorkflow (workflow : Workflow) (db : Database) : Database :=
  if 0 < (db.workflows.filter fun row ↦ row.id = workflow.id).length then
    deleteWorkflowRules (· = workflow.id) { db with
      workflows := db.workflows.map fun row ↦
        if row.id = workflow.id then bindWorkflow workflow else row }
  else
    { db with workflows := db.workflows ++ [bindWorkflow workflow] }

/-- The loop of `DbWorkflowRepository::save`, with `i` counted as an `int`. -/
def insertWorkflowRules (enforced : Bool) (workflowId : Int) :
    ℕ → List Rule → Database → Except SqlError Database
  | _, [], db => .ok db
  | i, rule :: rules, db =>
    match insertWorkflowRule enforced ⟨workflowId, rule.id, toInt32 i⟩ db with
    | .ok db => insertWorkflowRules enforced workflowId (i + 1) rules db
    | .error e => .error e

/-- A `soci::transaction` that is committed at its end, with the exception that leaves it. -/
def transaction (body : Database → Except SqlError Database) (db : Database) :
    Option SqlError × Database :=
  match body db with
  | .ok db' => (none, db')
  | .error e => (some e, db)

/-! ### The repositories -/

/-- `DbWorkflowRepository::save`. -/
def saveWorkflow (enforced : Bool) (workflow : Workflow) : Database → Option SqlError × Database :=
  transaction fun db ↦
    insertWorkflowRules enforced workflow.id 0 workflow.rules (writeWorkflow workflow db)

/-- The rows of `rules r JOIN workflow_rules wr ON wr.rule_id = r.id`, with `wr.rule_order`. -/
def joinedRules (workflowId : Int) (db : Database) : List (RuleRow × Int) :=
  (db.workflowRules.filter fun link ↦ link.workflowId = workflowId).flatMap fun link ↦
    (rowsOf link.ruleId db.rules).map fun row ↦ (row, link.ruleOrder)

/-- `DbWorkflowRepository::findByIdLocked`. -/
def findWorkflow (order : HashOrder (RuleRow × Int)) (db : Database) (id : Int) :
    Option Workflow :=
  (db.workflows.find? fun row ↦ row.id = id).map fun (row : WorkflowRow) ↦
    { id := row.id
      name := row.name
      description := row.description
      isActive := decide (row.isActive ≠ 0)
      rules := ((order.visit (joinedRules id db)).mergeSort fun a b ↦ a.2 ≤ b.2).map fun joined ↦
        rowToRule joined.1 }

/-- `DbWorkflowRepository::findAll`. -/
def findAllWorkflows (scan : HashOrder Int) (order : HashOrder (RuleRow × Int)) (db : Database) :
    List Workflow :=
  (scan.visit (db.workflows.map WorkflowRow.id)).filterMap (findWorkflow order db)

/-- `DbRuleRepository::findAll`. -/
def findAllRules (scan : HashOrder RuleRow) (db : Database) : List Rule :=
  (scan.visit db.rules).map rowToRule

/-- What the repositories are asked to do. -/
inductive Request
  | saveRule (rule : Rule)
  | removeRule (id : Int)
  | clearRules
  | saveWorkflow (workflow : Workflow)
  | removeWorkflow (id : Int)
  | clearWorkflows

/-- A call, and the exception that leaves it. -/
def Database.call (enforced : Bool) : Request → Database → Option SqlError × Database
  | .saveRule rule, db => (none, { db with rules := save rule db.rules })
  | .removeRule id, db => (none, deleteRules enforced (· = some id) db)
  | .clearRules, db => (none, deleteRules enforced (fun _ ↦ true) db)
  | .saveWorkflow workflow, db => saveWorkflow enforced workflow db
  | .removeWorkflow id, db =>
    (none, deleteWorkflows enforced (· = id) (deleteWorkflowRules (· = id) db))
  | .clearWorkflows, db =>
    (none, deleteWorkflows enforced (fun _ ↦ true) (deleteWorkflowRules (fun _ ↦ true) db))

/-! ### What they are for -/

/-- A workflow as it was saved. -/
structure SavedWorkflow where
  name : String
  description : String
  isActive : Bool
  ruleIds : List Int

/-- The rules and the workflows that are stored. -/
structure Store where
  rules : Int → Option Rule := fun _ ↦ none
  workflows : Int → Option SavedWorkflow := fun _ ↦ none

/-- Whether a workflow can be saved: none of its rules twice, and with enforced foreign keys each of
them stored. -/
def Store.Accepts (enforced : Bool) (workflow : Workflow) (store : Store) : Prop :=
  (workflow.rules.map fun r ↦ r.id).Nodup ∧
    (enforced → ∀ r ∈ workflow.rules, (store.rules r.id).isSome)

instance (enforced : Bool) (workflow : Workflow) (store : Store) :
    Decidable (store.Accepts enforced workflow) :=
  inferInstanceAs (Decidable (_ ∧ _))

/-- Remove rules, with enforced foreign keys from the workflows as well. -/
def Store.removeRules (enforced : Bool) (p : Int → Bool) (store : Store) : Store where
  rules id := if p id then none else store.rules id
  workflows id := (store.workflows id).map fun w ↦
    { w with ruleIds := w.ruleIds.filter fun ruleId ↦ !(enforced && p ruleId) }

def Store.removeWorkflows (p : Int → Bool) (store : Store) : Store :=
  { store with workflows := fun id ↦ if p id then none else store.workflows id }

/-- A request to the store, and whether it is refused. -/
def Store.call (enforced : Bool) : Request → Store → Bool × Store
  | .saveRule rule, store =>
    (false, { store with rules := Function.update store.rules rule.id (some ⟨reread rule, []⟩) })
  | .removeRule id, store => (false, store.removeRules enforced (· = id))
  | .clearRules, store => (false, store.removeRules enforced fun _ ↦ true)
  | .saveWorkflow workflow, store =>
    if store.Accepts enforced workflow then
      (false, { store with
        workflows := Function.update store.workflows workflow.id
          (some ⟨workflow.name, workflow.description, workflow.isActive,
            workflow.rules.map fun r ↦ r.id⟩) })
    else
      (true, store)
  | .removeWorkflow id, store => (false, store.removeWorkflows (· = id))
  | .clearWorkflows, store => (false, store.removeWorkflows fun _ ↦ true)

/-- A stored workflow with those of its rules that are stored. -/
def Store.findWorkflow (store : Store) (id : Int) : Option Workflow :=
  (store.workflows id).map fun w ↦
    { id := id
      name := w.name
      description := w.description
      isActive := w.isActive
      rules := w.ruleIds.filterMap store.rules }

/-- Requests one after the other, with what each of them comes to. -/
def runAll {σ ρ : Type} (call : Request → σ → ρ × σ) : List Request → σ → List ρ × σ
  | [], s => ([], s)
  | request :: requests, s =>
    let (outcome, s) := call request s
    let (outcomes, s) := runAll call requests s
    (outcome :: outcomes, s)

/-! ### Rules -/

variable {enforced : Bool} {db db' : Database} {store : Store} {rows : List RuleRow} {id : Int}

theorem rowsOf_updateRule (rule : Rule) (id : Int) (rows : List RuleRow) :
    rowsOf id (updateRule rule rows) = (rowsOf id rows).map fun row ↦
      if row.id = some rule.id then bindColumns rule row else row := by
  rw [rowsOf, updateRule, List.filter_map]
  refine congrArg (List.map _) (List.filter_congr fun row _ ↦ ?_)
  show decide ((if row.id = some rule.id then bindColumns rule row else row).id = some id) = _
  split_ifs <;> rfl

theorem rowsOf_insertRule_of_ne {rule : Rule} (h : id ≠ rule.id) (rows : List RuleRow) :
    rowsOf id (insertRule rule rows) = rowsOf id rows := by
  have hne : ¬(bindColumns rule { emptyRow with id := some rule.id }).id = some id :=
    fun he ↦ h (Option.some.inj he).symm
  rw [rowsOf, insertRule, List.filter_append, List.filter_cons_of_neg (by simpa using hne)]
  exact List.append_nil _

/-- Other rules are found as before. -/
theorem rowsOf_save_of_ne {rule : Rule} (h : id ≠ rule.id) (rows : List RuleRow) :
    rowsOf id (save rule rows) = rowsOf id rows := by
  rw [save]
  split_ifs
  · rw [rowsOf_updateRule]
    refine (List.map_congr_left fun row hrow ↦ ?_).trans (List.map_id _)
    have hid : row.id = some id := of_decide_eq_true (List.mem_filter.1 hrow).2
    exact if_neg fun he ↦ h (Option.some.inj (hid.symm.trans he))
  · exact rowsOf_insertRule_of_ne h rows

theorem length_rowsOf_save_le (rule : Rule) (h : ∀ id, (rowsOf id rows).length ≤ 1) (id : Int) :
    (rowsOf id (save rule rows)).length ≤ 1 := by
  by_cases hid : id = rule.id
  · rw [save]
    split_ifs with hcount
    · rw [rowsOf_updateRule, List.length_map]
      exact h id
    · have hnone : rowsOf rule.id rows = [] := List.eq_nil_of_length_eq_zero (by omega)
      rw [hid, insertRule, rowsOf, List.filter_append]
      show (rowsOf rule.id rows ++ _).length ≤ 1
      rw [hnone]
      exact List.length_filter_le _ _
  · rw [rowsOf_save_of_ne hid]
    exact h id

theorem findById_save (rule : Rule) (rows : List RuleRow) :
    (findById · (save rule rows)) =
      Function.update (findById · rows) rule.id (some ⟨reread rule, []⟩) := by
  funext id
  by_cases hid : id = rule.id
  · obtain ⟨hne, hread⟩ := rowToRule_of_save rule rows
    obtain ⟨row, rest, hrows⟩ := List.exists_cons_of_ne_nil hne
    have hrow := hread row (hrows ▸ List.mem_cons_self)
    rw [hid, Function.update_self, findById, hrows, List.head?_cons, Option.map_some, ← hrow]
    rfl
  · rw [Function.update_of_ne hid, findById, rowsOf_save_of_ne hid, findById]

/-- Every row that a rule was saved to has an id. -/
theorem keyed_save (rule : Rule) (h : ∀ row ∈ rows, row.id.isSome) :
    ∀ row ∈ save rule rows, row.id.isSome := by
  intro row hrow
  rw [save] at hrow
  split_ifs at hrow
  · obtain ⟨old, hold, rfl⟩ := List.mem_map.1 hrow
    split_ifs
    · exact h old hold
    · exact h old hold
  · rcases List.mem_append.1 hrow with hrow | hrow
    · exact h row hrow
    · rw [List.mem_singleton.1 hrow]
      rfl

theorem rowsOf_filter (p : Option Int → Bool) (id : Int) (rows : List RuleRow) :
    rowsOf id (rows.filter fun row ↦ !p row.id) =
      if p (some id) then [] else rowsOf id rows := by
  rw [rowsOf, List.filter_filter]
  split_ifs with hp
  · refine List.filter_eq_nil_iff.2 fun row _ ↦ ?_
    by_cases hid : row.id = some id <;> simp [hid, hp]
  · refine List.filter_congr fun row _ ↦ ?_
    by_cases hid : row.id = some id <;> simp [hid, hp]

theorem isSome_findById_iff : (findById id rows).isSome ↔ ∃ row ∈ rows, row.id = some id := by
  rw [findById, Option.isSome_map, rowsOf, List.head?_filter, List.find?_isSome]
  simp only [decide_eq_true_eq]

/-! ### Links -/

/-- The links of a workflow. -/
def linksOf (id : Int) (links : List WorkflowRuleRow) : List WorkflowRuleRow :=
  links.filter fun link ↦ link.workflowId = id

/-- The links that the loop inserts. -/
def linksFrom (workflowId : Int) : ℕ → List Rule → List WorkflowRuleRow
  | _, [] => []
  | i, rule :: rules => ⟨workflowId, rule.id, toInt32 i⟩ :: linksFrom workflowId (i + 1) rules

variable {workflowId : Int} {i : ℕ} {rules : List Rule}

theorem ruleId_linksFrom (workflowId : Int) (i : ℕ) (rules : List Rule) :
    (linksFrom workflowId i rules).map WorkflowRuleRow.ruleId = rules.map fun r ↦ r.id := by
  induction rules generalizing i with
  | nil => rfl
  | cons rule rules ih => exact congrArg (rule.id :: ·) (ih (i + 1))

theorem workflowId_of_mem_linksFrom {link : WorkflowRuleRow}
    (h : link ∈ linksFrom workflowId i rules) : link.workflowId = workflowId := by
  induction rules generalizing i with
  | nil => exact absurd h List.not_mem_nil
  | cons rule rules ih =>
    rcases List.mem_cons.1 h with rfl | h
    · rfl
    · exact ih h

theorem toInt32_of_lt (h : i < 2 ^ 31) : toInt32 i = i :=
  toInt32_eq_self_iff.2 ⟨by omega, by omega⟩

/-- As long as the indices are of type `int`, the links are in order. -/
theorem ordered_linksFrom (h : i + rules.length ≤ 2 ^ 31) :
    (linksFrom workflowId i rules).Pairwise fun a b ↦ a.ruleOrder < b.ruleOrder := by
  have hle {j : ℕ} {rules : List Rule} (h : j + rules.length ≤ 2 ^ 31) :
      ∀ link ∈ linksFrom workflowId j rules, (j : Int) ≤ link.ruleOrder := by
    induction rules generalizing j with
    | nil => exact fun _ hlink ↦ absurd hlink List.not_mem_nil
    | cons rule rules ih =>
      rw [List.length_cons] at h
      intro link hlink
      rcases List.mem_cons.1 hlink with rfl | hlink
      · have hlt : j < 2 ^ 31 := by omega
        rw [toInt32_of_lt hlt]
      · have hnext : ((j + 1 : ℕ) : Int) ≤ link.ruleOrder := ih (by omega) link hlink
        omega
  induction rules generalizing i with
  | nil => exact List.Pairwise.nil
  | cons rule rules ih =>
    rw [List.length_cons] at h
    refine List.pairwise_cons.2 ⟨fun link hlink ↦ ?_, ih (by omega)⟩
    have hlt : i < 2 ^ 31 := by omega
    have hnext : ((i + 1 : ℕ) : Int) ≤ link.ruleOrder := hle (by omega) link hlink
    rw [toInt32_of_lt hlt]
    show (i : Int) < link.ruleOrder
    omega

/-- What the loop needs of the rules that it has not come to. -/
structure Insertable (enforced : Bool) (workflowId : Int) (rules : List Rule) (db : Database) :
    Prop where
  nodup : (rules.map fun r ↦ r.id).Nodup
  fresh : ∀ r ∈ rules, ∀ l ∈ db.workflowRules, l.workflowId = workflowId → l.ruleId ≠ r.id
  referenced : enforced → ∀ r ∈ rules, (findById r.id db.rules).isSome

/-- The loop inserts all links, or it fails. -/
theorem insertWorkflowRules_eq (hrow : ∃ row ∈ db.workflows, row.id = workflowId) :
    (Insertable enforced workflowId rules db ∧
      insertWorkflowRules enforced workflowId i rules db =
        .ok { db with workflowRules := db.workflowRules ++ linksFrom workflowId i rules }) ∨
    (¬Insertable enforced workflowId rules db ∧
      ∃ e, insertWorkflowRules enforced workflowId i rules db = .error e) := by
  induction rules generalizing i db with
  | nil =>
    left
    refine ⟨⟨List.nodup_nil, fun r hr ↦ absurd hr List.not_mem_nil,
      fun _ r hr ↦ absurd hr List.not_mem_nil⟩, ?_⟩
    rw [linksFrom, List.append_nil]
    rfl
  | cons rule rules ih =>
    rw [insertWorkflowRules, insertWorkflowRule]
    split_ifs with hkey href
    · obtain ⟨l, hl, hworkflow, hrule⟩ := hkey
      exact .inr ⟨fun h ↦ h.fresh rule List.mem_cons_self l hl hworkflow hrule, _, rfl⟩
    · refine .inr ⟨fun h ↦ href.2 ⟨hrow, ?_⟩, _, rfl⟩
      exact isSome_findById_iff.1 (h.referenced href.1 rule List.mem_cons_self)
    · -- the rest of the rules finds one more link
      have hrest : Insertable enforced workflowId (rule :: rules) db ↔
          Insertable enforced workflowId rules { db with
            workflowRules := db.workflowRules ++ [⟨workflowId, rule.id, toInt32 i⟩] } := by
        constructor
        · intro h
          obtain ⟨hnot, hnodup⟩ := List.nodup_cons.1 h.nodup
          refine ⟨hnodup, fun r hr l hl hworkflow ↦ ?_, fun he r hr ↦
            h.referenced he r (List.mem_cons_of_mem rule hr)⟩
          rcases List.mem_append.1 hl with hl | hl
          · exact h.fresh r (List.mem_cons_of_mem rule hr) l hl hworkflow
          · rw [List.mem_singleton.1 hl]
            exact fun hid ↦ hnot (List.mem_map.2 ⟨r, hr, hid.symm⟩)
        · intro h
          refine ⟨List.nodup_cons.2 ⟨fun hmem ↦ ?_, h.nodup⟩, fun r hr l hl hworkflow ↦ ?_,
            fun he r hr ↦ ?_⟩
          · obtain ⟨r, hr, hid⟩ := List.mem_map.1 hmem
            exact h.fresh r hr _ (List.mem_append_right _ List.mem_cons_self) rfl hid.symm
          · rcases List.mem_cons.1 hr with rfl | hr
            · exact fun hid ↦ hkey ⟨l, hl, hworkflow, hid⟩
            · exact h.fresh r hr l (List.mem_append_left _ hl) hworkflow
          · rcases List.mem_cons.1 hr with rfl | hr
            · rw [not_and_not_right] at href
              exact isSome_findById_iff.2 (href he).2
            · exact h.referenced he r hr
      have happend : db.workflowRules ++ linksFrom workflowId i (rule :: rules) =
          (db.workflowRules ++ [⟨workflowId, rule.id, toInt32 i⟩]) ++
            linksFrom workflowId (i + 1) rules := List.append_cons _ _ _
      rw [hrest, happend]
      exact ih hrow

/-! ### Queries -/

/-- Sorting the rows of a list with increasing keys restores it. -/
theorem mergeSort_eq_of_perm {α : Type} {key : α → Int} {l l' : List α}
    (h : l.Pairwise fun a b ↦ key a < key b) (hperm : l'.Perm l) :
    l'.mergeSort (fun a b ↦ key a ≤ key b) = l := by
  have hsorted : (l'.mergeSort fun a b ↦ key a ≤ key b).Pairwise
      fun a b ↦ decide (key a ≤ key b) = true := by
    refine List.pairwise_mergeSort (fun a b c ↦ ?_) (fun a b ↦ ?_) l'
    · simpa using Int.le_trans
    · simpa using Int.le_total (key a) (key b)
  have hle : l.Pairwise fun a b ↦ decide (key a ≤ key b) = true :=
    h.imp fun hlt ↦ decide_eq_true hlt.le
  have hnodup : (l.map key).Nodup :=
    List.pairwise_map.2 (h.imp fun hlt ↦ hlt.ne)
  have hsame : (l'.mergeSort fun a b ↦ key a ≤ key b).Perm l :=
    (List.mergeSort_perm l' _).trans hperm
  generalize (l'.mergeSort fun a b ↦ key a ≤ key b) = sorted at hsorted hsame
  refine List.Perm.eq_of_pairwise (fun a b ha hb hab hba ↦ ?_) hsorted hle hsame
  have hkey : key a = key b := Int.le_antisymm (of_decide_eq_true hab) (of_decide_eq_true hba)
  exact List.inj_on_of_nodup_map hnodup (hsame.subset ha) hb hkey

theorem map_rowToRule_rowsOf (h : (rowsOf id rows).length ≤ 1) :
    (rowsOf id rows).map rowToRule = (findById id rows).toList := by
  rw [findById]
  rcases hrows : rowsOf id rows with - | ⟨row, - | ⟨row', rest⟩⟩
  · rfl
  · rfl
  · rw [hrows, List.length_cons, List.length_cons] at h
    omega

section Join

variable (hunique : ∀ id, (rowsOf id db.rules).length ≤ 1)
  (hordered : (linksOf id db.workflowRules).Pairwise fun a b ↦ a.ruleOrder < b.ruleOrder)
include hunique hordered

theorem ordered_joinedRules : (joinedRules id db).Pairwise fun a b ↦ a.2 < b.2 := by
  rw [joinedRules, List.pairwise_flatMap]
  refine ⟨fun link _ ↦ ?_, hordered.imp fun hlt ↦ ?_⟩
  · have hone := hunique link.ruleId
    rcases hrows : rowsOf link.ruleId db.rules with - | ⟨row, - | ⟨row', rest⟩⟩
    · exact List.Pairwise.nil
    · exact List.pairwise_singleton _ _
    · rw [hrows, List.length_cons, List.length_cons] at hone
      omega
  · intro a ha b hb
    obtain ⟨-, -, rfl⟩ := List.mem_map.1 ha
    obtain ⟨-, -, rfl⟩ := List.mem_map.1 hb
    exact hlt

/-- The query finds the rules that are stored, in the order of the workflow. -/
theorem sorted_joinedRules (order : HashOrder (RuleRow × Int)) :
    ((order.visit (joinedRules id db)).mergeSort fun a b ↦ a.2 ≤ b.2).map
        (fun joined ↦ rowToRule joined.1) =
      ((linksOf id db.workflowRules).map WorkflowRuleRow.ruleId).filterMap
        (findById · db.rules) := by
  rw [mergeSort_eq_of_perm (ordered_joinedRules hunique hordered) (order.perm _), joinedRules,
    List.map_flatMap, List.filterMap_map, List.filterMap_eq_flatMap_toList]
  refine List.flatMap_congr fun link _ ↦ ?_
  rw [List.map_map]
  exact map_rowToRule_rowsOf (hunique link.ruleId)

end Join

/-! ### Runs -/

/-- The tables hold what is stored. -/
structure Represents (enforced : Bool) (db : Database) (store : Store) : Prop where
  keyed : ∀ row ∈ db.rules, row.id.isSome
  unique : ∀ id, (rowsOf id db.rules).length ≤ 1
  rules : ∀ id, findById id db.rules = store.rules id
  nodup : (db.workflows.map WorkflowRow.id).Nodup
  workflows : ∀ id, (db.workflows.find? fun row ↦ row.id = id) =
    (store.workflows id).map fun w ↦ ⟨id, w.name, w.description, boolColumn w.isActive⟩
  ordered : ∀ id,
    (linksOf id db.workflowRules).Pairwise fun a b ↦ a.ruleOrder < b.ruleOrder
  links : ∀ id, (linksOf id db.workflowRules).map WorkflowRuleRow.ruleId =
    ((store.workflows id).map SavedWorkflow.ruleIds).getD []
  referenced : enforced → ∀ l ∈ db.workflowRules, (findById l.ruleId db.rules).isSome

/-- The indices of the rules of a workflow are of type `int`. -/
def Request.IndexesFit : Request → Prop
  | .saveWorkflow workflow => workflow.rules.length ≤ 2 ^ 31
  | _ => True

namespace Represents

variable (h : Represents enforced db store)
include h

theorem saveRule (rule : Rule) :
    Represents enforced { db with rules := save rule db.rules }
      { store with
        rules := Function.update store.rules rule.id (some ⟨reread rule, []⟩) } where
  keyed := keyed_save rule h.keyed
  unique := length_rowsOf_save_le rule h.unique
  rules := by
    intro id
    rw [congrFun (findById_save rule db.rules) id]
    congr 1
    exact funext h.rules
  nodup := h.nodup
  workflows := h.workflows
  ordered := h.ordered
  links := h.links
  referenced := by
    intro he l hl
    rw [congrFun (findById_save rule db.rules) l.ruleId]
    by_cases hid : l.ruleId = rule.id
    · rw [hid, Function.update_self]
      rfl
    · rw [Function.update_of_ne hid]
      exact h.referenced he l hl

/-! ### Removals -/

/-- The cascade removes the links to the rules that are removed. -/
theorem workflowRules_deleteRules (p : Option Int → Bool) :
    (deleteRules enforced p db).workflowRules =
      db.workflowRules.filter fun l ↦ !(enforced && p (some l.ruleId)) := by
  refine List.filter_congr fun l hl ↦ congrArg not ?_
  rcases henforced : enforced with - | -
  · rfl
  · obtain ⟨row, hrow, hid⟩ := isSome_findById_iff.1 (h.referenced henforced l hl)
    rw [Bool.true_and, Bool.true_and, Bool.eq_iff_iff, List.any_eq_true]
    constructor
    · rintro ⟨row', -, hp⟩
      rw [Bool.and_eq_true, beq_iff_eq] at hp
      exact hp.2 ▸ hp.1
    · intro hp
      exact ⟨row, hrow, by simp [hid, hp]⟩

theorem deleteRules (p : Option Int → Bool) :
    Represents enforced (deleteRules enforced p db)
      (store.removeRules enforced fun id ↦ p (some id)) where
  keyed := fun row hrow ↦ h.keyed row (List.mem_of_mem_filter hrow)
  unique := by
    intro id
    show (rowsOf id (db.rules.filter fun row ↦ !p row.id)).length ≤ 1
    rw [rowsOf_filter]
    split_ifs
    · exact Nat.zero_le 1
    · exact h.unique id
  rules := by
    intro id
    show findById id (db.rules.filter fun row ↦ !p row.id) =
      if p (some id) then none else store.rules id
    rw [findById, rowsOf_filter]
    split_ifs
    · rfl
    · exact h.rules id
  nodup := h.nodup
  workflows := by
    intro id
    rw [Store.removeRules, Option.map_map]
    exact h.workflows id
  ordered := by
    intro id
    rw [h.workflowRules_deleteRules, linksOf, List.filter_comm]
    exact (h.ordered id).filter _
  links := by
    intro id
    have hfilter := congrArg (List.filter fun ruleId ↦ !(enforced && p (some ruleId))) (h.links id)
    rw [List.filter_map] at hfilter
    rw [h.workflowRules_deleteRules, linksOf, List.filter_comm, Store.removeRules, Option.map_map]
    refine hfilter.trans ?_
    rcases store.workflows id with - | w
    · rfl
    · rfl
  referenced := by
    intro he l hl
    rw [h.workflowRules_deleteRules] at hl
    obtain ⟨hmem, hp⟩ := List.mem_filter.1 hl
    rw [he, Bool.true_and, Bool.not_eq_true'] at hp
    show (findById l.ruleId (db.rules.filter fun row ↦ !p row.id)).isSome
    rw [findById, rowsOf_filter, hp]
    exact h.referenced he l hmem

theorem deleteWorkflows (p : Int → Bool) :
    Represents enforced (deleteWorkflows enforced p (deleteWorkflowRules p db))
      (store.removeWorkflows p) := by
  -- the links of these workflows are gone before the cascade comes to them
  have hlinks : (DbRepository.deleteWorkflows enforced p (deleteWorkflowRules p db)).workflowRules =
      db.workflowRules.filter fun l ↦ !p l.workflowId := by
    refine List.filter_eq_self.2 fun l hl ↦ ?_
    have hp : p l.workflowId = false := by simpa using (List.mem_filter.1 hl).2
    rw [Bool.not_eq_true', Bool.and_eq_false_iff, List.any_eq_false]
    refine .inr fun row _ hrow ↦ ?_
    rw [Bool.and_eq_true, beq_iff_eq] at hrow
    rw [hrow.2, hp] at hrow
    exact absurd hrow.1 Bool.false_ne_true
  have hof (id : Int) : linksOf id (db.workflowRules.filter fun l ↦ !p l.workflowId) =
      if p id then [] else linksOf id db.workflowRules := by
    rw [linksOf, List.filter_filter]
    split_ifs with hp
    · refine List.filter_eq_nil_iff.2 fun l _ ↦ ?_
      by_cases hid : l.workflowId = id <;> simp [hid, hp]
    · refine List.filter_congr fun l _ ↦ ?_
      by_cases hid : l.workflowId = id <;> simp [hid, hp]
  refine ⟨h.keyed, h.unique, h.rules, ?_, fun id ↦ ?_, fun id ↦ ?_, fun id ↦ ?_, fun he l hl ↦ ?_⟩
  · exact h.nodup.sublist (List.filter_sublist.map WorkflowRow.id)
  · show (db.workflows.filter fun row ↦ !p row.id).find? (fun row ↦ row.id = id) =
      (if p id then none else store.workflows id).map _
    rw [List.find?_filter]
    split_ifs with hp
    · refine List.find?_eq_none.2 fun row _ ↦ ?_
      by_cases hid : row.id = id <;> simp [hid, hp]
    · rw [← h.workflows id]
      congr 1
      funext row
      by_cases hid : row.id = id <;> simp [hid, hp]
  · rw [hlinks, hof]
    split_ifs
    · exact List.Pairwise.nil
    · exact h.ordered id
  · show _ = ((if p id then none else store.workflows id).map SavedWorkflow.ruleIds).getD []
    rw [hlinks, hof]
    split_ifs
    · rfl
    · exact h.links id
  · rw [hlinks] at hl
    exact h.referenced he l (List.mem_of_mem_filter hl)

/-! ### Saving a workflow -/

omit h in
theorem mem_of_mem_writeWorkflow {workflow : Workflow} {l : WorkflowRuleRow}
    (hl : l ∈ (writeWorkflow workflow db).workflowRules) : l ∈ db.workflowRules := by
  rw [writeWorkflow] at hl
  split_ifs at hl
  · exact List.mem_of_mem_filter hl
  · exact hl

omit h in
theorem rules_writeWorkflow (workflow : Workflow) (db : Database) :
    (writeWorkflow workflow db).rules = db.rules := by
  rw [writeWorkflow]
  split_ifs <;> rfl

omit h in
theorem filter_eq_nil_of_count {workflow : Workflow}
    (hcount : ¬0 < (db.workflows.filter fun row ↦ row.id = workflow.id).length) :
    ∀ row ∈ db.workflows, row.id ≠ workflow.id := by
  intro row hrow hid
  have hmem : row ∈ db.workflows.filter fun row ↦ row.id = workflow.id :=
    List.mem_filter.2 ⟨hrow, decide_eq_true hid⟩
  exact hcount (List.length_pos_of_mem hmem)

/-- The workflow has no links when the loop begins, and the other workflows have theirs. -/
theorem linksOf_writeWorkflow (workflow : Workflow) (id : Int) :
    linksOf id (writeWorkflow workflow db).workflowRules =
      if id = workflow.id then [] else linksOf id db.workflowRules := by
  rw [writeWorkflow]
  split_ifs with hcount hid hid
  · rw [hid, linksOf, deleteWorkflowRules, List.filter_filter, List.filter_eq_nil_iff]
    simp
  · rw [linksOf, deleteWorkflowRules, List.filter_filter]
    refine List.filter_congr fun l _ ↦ ?_
    by_cases hl : l.workflowId = id
    · simp [hl, hid]
    · simp [hl]
  · -- without a row there are no links
    have hrow : (db.workflows.find? fun row ↦ row.id = workflow.id) = none :=
      List.find?_eq_none.2 fun row hrow ↦ by simpa using filter_eq_nil_of_count hcount row hrow
    have hnone : store.workflows workflow.id = none := by
      rw [h.workflows] at hrow
      exact Option.map_eq_none_iff.1 hrow
    have hlinks := h.links workflow.id
    rw [hnone] at hlinks
    rw [hid]
    exact List.map_eq_nil_iff.1 hlinks
  · rfl

omit h in
/-- An update leaves the id. -/
theorem id_update (workflow : Workflow) (row : WorkflowRow) :
    (if row.id = workflow.id then bindWorkflow workflow else row).id = row.id := by
  split_ifs with hrow
  · exact hrow.symm
  · rfl

omit h in
theorem find?_update (workflow : Workflow) (rows : List WorkflowRow) (id : Int) :
    (rows.map fun row ↦ if row.id = workflow.id then bindWorkflow workflow else row).find?
        (fun row ↦ row.id = id) =
      (rows.find? fun row ↦ row.id = id).map fun row ↦
        if id = workflow.id then bindWorkflow workflow else row := by
  have hsame : ((fun row : WorkflowRow ↦ decide (row.id = id)) ∘ fun row ↦
      if row.id = workflow.id then bindWorkflow workflow else row) =
      fun row ↦ decide (row.id = id) := by
    funext row
    show decide ((if row.id = workflow.id then bindWorkflow workflow else row).id = id) = _
    rw [id_update]
  rw [List.find?_map, hsame]
  refine Option.map_congr fun row hrow ↦ ?_
  have hid : row.id = id := by simpa using List.find?_some hrow
  rw [hid]

omit h in
theorem find?_writeWorkflow (workflow : Workflow) (db : Database) (id : Int) :
    ((writeWorkflow workflow db).workflows.find? fun row ↦ row.id = id) =
      if id = workflow.id then some (bindWorkflow workflow)
      else db.workflows.find? fun row ↦ row.id = id := by
  rw [writeWorkflow]
  split_ifs with hcount hid hid
  · obtain ⟨row, hrow⟩ := List.exists_mem_of_length_pos hcount
    obtain ⟨hmem, hrow⟩ := List.mem_filter.1 hrow
    have hsome : (db.workflows.find? fun row ↦ row.id = id).isSome :=
      List.find?_isSome.2 ⟨row, hmem, hid ▸ hrow⟩
    obtain ⟨found, hfound⟩ := Option.isSome_iff_exists.1 hsome
    refine (find?_update workflow db.workflows id).trans ?_
    rw [hfound, Option.map_some, if_pos hid]
  · refine (find?_update workflow db.workflows id).trans ?_
    simp only [if_neg hid]
    exact Option.map_id'
  · have hnone : (db.workflows.find? fun row ↦ row.id = id) = none :=
      List.find?_eq_none.2 fun row hrow ↦ by
        simpa [hid] using filter_eq_nil_of_count hcount row hrow
    rw [List.find?_append, hnone]
    simp [bindWorkflow, hid]
  · rw [List.find?_append, List.find?_singleton]
    simp [bindWorkflow, Ne.symm hid]

theorem nodup_writeWorkflow (workflow : Workflow) :
    ((writeWorkflow workflow db).workflows.map WorkflowRow.id).Nodup := by
  rw [writeWorkflow]
  split_ifs with hcount
  · have hsame : (db.workflows.map fun row ↦
        if row.id = workflow.id then bindWorkflow workflow else row).map WorkflowRow.id =
        db.workflows.map WorkflowRow.id := by
      rw [List.map_map]
      exact List.map_congr_left fun row _ ↦ id_update workflow row
    exact hsame ▸ h.nodup
  · show ((db.workflows ++ [bindWorkflow workflow]).map WorkflowRow.id).Nodup
    rw [List.map_append, List.nodup_append']
    refine ⟨h.nodup, List.nodup_singleton _, fun id hid hmem ↦ ?_⟩
    obtain ⟨row, hrow, rfl⟩ := List.mem_map.1 hid
    exact filter_eq_nil_of_count hcount row hrow (List.mem_singleton.1 hmem)

theorem insertable_iff (workflow : Workflow) :
    Insertable enforced workflow.id workflow.rules (writeWorkflow workflow db) ↔
      store.Accepts enforced workflow := by
  have hstored : (enforced → ∀ r ∈ workflow.rules,
      (findById r.id (writeWorkflow workflow db).rules).isSome) ↔
      (enforced → ∀ r ∈ workflow.rules, (store.rules r.id).isSome) := by
    simp only [rules_writeWorkflow, h.rules]
  constructor
  · exact fun hins ↦ ⟨hins.nodup, hstored.1 hins.referenced⟩
  · rintro ⟨hnodup, hrules⟩
    refine ⟨hnodup, fun r _ l hl hworkflow ↦ ?_, hstored.2 hrules⟩
    have hnone := h.linksOf_writeWorkflow workflow workflow.id
    rw [if_pos rfl, linksOf, List.filter_eq_nil_iff] at hnone
    exact absurd (decide_eq_true hworkflow) (hnone l hl)

/-- A workflow is saved, or the transaction is rolled back. -/
theorem saveWorkflow {workflow : Workflow} (hfit : workflow.rules.length ≤ 2 ^ 31) :
    ((saveWorkflow enforced workflow db).1.isSome =
        (store.call enforced (.saveWorkflow workflow)).1) ∧
      Represents enforced (saveWorkflow enforced workflow db).2
        (store.call enforced (.saveWorkflow workflow)).2 := by
  have hfind := find?_writeWorkflow workflow db
  have hrow : ∃ row ∈ (writeWorkflow workflow db).workflows, row.id = workflow.id := by
    have hself := hfind workflow.id
    rw [if_pos rfl] at hself
    exact ⟨_, List.mem_of_find?_eq_some hself, rfl⟩
  rw [DbRepository.saveWorkflow, transaction, Store.call]
  rcases insertWorkflowRules_eq (i := 0) hrow with ⟨hins, heq⟩ | ⟨hnot, e, heq⟩
  · have haccepts : store.Accepts enforced workflow := (h.insertable_iff workflow).1 hins
    rw [heq, if_pos haccepts]
    have hnew (id : Int) : linksOf id (linksFrom workflow.id 0 workflow.rules) =
        if id = workflow.id then linksFrom workflow.id 0 workflow.rules else [] := by
      rw [linksOf]
      split_ifs with hid
      · exact List.filter_eq_self.2 fun l hl ↦
          decide_eq_true (hid ▸ workflowId_of_mem_linksFrom hl)
      · refine List.filter_eq_nil_iff.2 fun l hl ↦ ?_
        rw [workflowId_of_mem_linksFrom hl, decide_eq_true_eq]
        exact Ne.symm hid
    have hlinks (id : Int) : linksOf id ((writeWorkflow workflow db).workflowRules ++
        linksFrom workflow.id 0 workflow.rules) =
        if id = workflow.id then linksFrom workflow.id 0 workflow.rules
        else linksOf id db.workflowRules := by
      rw [linksOf, List.filter_append]
      refine (congrArg₂ (· ++ ·) (h.linksOf_writeWorkflow workflow id) (hnew id)).trans ?_
      split_ifs
      · rfl
      · exact List.append_nil _
    refine ⟨rfl, ?_, fun id ↦ ?_, fun id ↦ ?_, h.nodup_writeWorkflow workflow, fun id ↦ ?_,
      fun id ↦ ?_, fun id ↦ ?_, fun he l hl ↦ ?_⟩
    · rw [rules_writeWorkflow]
      exact h.keyed
    · rw [rules_writeWorkflow]
      exact h.unique id
    · rw [rules_writeWorkflow]
      exact h.rules id
    · show _ = (Function.update store.workflows workflow.id _ id).map _
      rw [hfind id]
      by_cases hid : id = workflow.id
      · rw [if_pos hid, hid, Function.update_self]
        rfl
      · rw [if_neg hid, Function.update_of_ne hid]
        exact h.workflows id
    · rw [hlinks id]
      split_ifs
      · exact ordered_linksFrom (by omega)
      · exact h.ordered id
    · show _ = ((Function.update store.workflows workflow.id _ id).map _).getD []
      rw [hlinks id]
      by_cases hid : id = workflow.id
      · rw [if_pos hid, hid, Function.update_self, ruleId_linksFrom]
        rfl
      · rw [if_neg hid, Function.update_of_ne hid]
        exact h.links id
    · rw [rules_writeWorkflow]
      rcases List.mem_append.1 hl with hl | hl
      · exact h.referenced he l (mem_of_mem_writeWorkflow hl)
      · have hid : l.ruleId ∈ workflow.rules.map fun r ↦ r.id := by
          rw [← ruleId_linksFrom workflow.id 0]
          exact List.mem_map_of_mem hl
        obtain ⟨r, hr, hid⟩ := List.mem_map.1 hid
        rw [← hid, h.rules]
        exact haccepts.2 he r hr
  · rw [heq, if_neg fun haccepts ↦ hnot ((h.insertable_iff workflow).2 haccepts)]
    exact ⟨rfl, h⟩

/-! ### Calls -/

/-- A call is a request to the store. -/
theorem call {request : Request} (hfit : request.IndexesFit) :
    (db.call enforced request).1.isSome = (store.call enforced request).1 ∧
      Represents enforced (db.call enforced request).2 (store.call enforced request).2 := by
  cases request with
  | saveRule rule => exact ⟨rfl, h.saveRule rule⟩
  | removeRule id =>
    refine ⟨rfl, ?_⟩
    have hsame : (fun id' ↦ decide (some id' = some id)) = fun id' : Int ↦ decide (id' = id) := by
      funext id'
      simp only [Option.some.injEq]
    have hremoved := h.deleteRules fun o ↦ decide (o = some id)
    rwa [hsame] at hremoved
  | clearRules => exact ⟨rfl, h.deleteRules fun _ ↦ true⟩
  | saveWorkflow workflow => exact h.saveWorkflow hfit
  | removeWorkflow id => exact ⟨rfl, h.deleteWorkflows fun id' ↦ decide (id' = id)⟩
  | clearWorkflows => exact ⟨rfl, h.deleteWorkflows fun _ ↦ true⟩

/-- What is found is what is stored. -/
theorem findWorkflow (order : HashOrder (RuleRow × Int)) (id : Int) :
    findWorkflow order db id = store.findWorkflow id := by
  rw [DbRepository.findWorkflow, Store.findWorkflow, h.workflows id, Option.map_map]
  have hrules := sorted_joinedRules h.unique (h.ordered id) order
  rw [h.links id, funext h.rules] at hrules
  rcases hstored : store.workflows id with - | w
  · rfl
  · rw [hstored] at hrules
    have hactive : decide (boolColumn w.isActive ≠ 0) = w.isActive := by
      cases w.isActive <;> rfl
    simp only [Option.map_some, Function.comp_apply, hrules, hactive]
    rfl

theorem findById_of_mem {row : RuleRow} (hrow : row ∈ db.rules) (hid : row.id = some id) :
    findById id db.rules = some (rowToRule row) := by
  have hone := h.unique id
  have hmem : row ∈ rowsOf id db.rules := List.mem_filter.2 ⟨hrow, decide_eq_true hid⟩
  rw [findById]
  rcases hrows : rowsOf id db.rules with - | ⟨row', - | ⟨row'', rest⟩⟩
  · rw [hrows] at hmem
    exact absurd hmem List.not_mem_nil
  · rw [hrows] at hmem
    rw [List.mem_singleton.1 hmem]
    rfl
  · rw [hrows, List.length_cons, List.length_cons] at hone
    omega

theorem isSome_store_findWorkflow (id : Int) :
    (store.findWorkflow id).isSome ↔ ∃ row ∈ db.workflows, row.id = id := by
  rw [Store.findWorkflow, Option.isSome_map]
  have hrow := congrArg Option.isSome (h.workflows id)
  rw [Option.isSome_map] at hrow
  rw [← hrow, List.find?_isSome]
  simp only [decide_eq_true_eq]

end Represents

theorem represents_empty (enforced : Bool) : Represents enforced {} {} where
  keyed := fun _ hrow ↦ absurd hrow List.not_mem_nil
  unique := fun _ ↦ Nat.zero_le 1
  rules := fun _ ↦ rfl
  nodup := List.nodup_nil
  workflows := fun _ ↦ rfl
  ordered := fun _ ↦ List.Pairwise.nil
  links := fun _ ↦ rfl
  referenced := fun _ _ hl ↦ absurd hl List.not_mem_nil

/-- A run on the tables is a run of the store. -/
theorem Represents.runAll (h : Represents enforced db store) {requests : List Request}
    (hfit : ∀ request ∈ requests, request.IndexesFit) :
    (runAll (Database.call enforced) requests db).1.map Option.isSome =
        (DbRepository.runAll (Store.call enforced) requests store).1 ∧
      Represents enforced (DbRepository.runAll (Database.call enforced) requests db).2
        (DbRepository.runAll (Store.call enforced) requests store).2 := by
  induction requests generalizing db store with
  | nil => exact ⟨rfl, h⟩
  | cons request requests ih =>
    obtain ⟨hrequest, hrest⟩ := List.forall_mem_cons.1 hfit
    obtain ⟨hfails, hnext⟩ := h.call hrequest
    obtain ⟨houtcomes, hend⟩ := ih hnext hrest
    refine ⟨?_, hend⟩
    exact congrArg₂ List.cons hfails houtcomes

theorem scan_perm_ids (scan : HashOrder RuleRow) :
    ((scan.visit rows).filterMap RuleRow.id).Perm (rows.filterMap RuleRow.id) :=
  (scan.perm rows).filterMap RuleRow.id

/-- **The repositories are a store.** In every run on an empty database the calls that fail are the
requests that the store refuses, and at its end every rule and every workflow is found as it is
stored, whatever the database returns first; `findAll` finds each of them once. -/
theorem run_refines_store (enforced : Bool) {requests : List Request}
    (hfit : ∀ request ∈ requests, request.IndexesFit) :
    (runAll (Database.call enforced) requests {}).1.map Option.isSome =
        (runAll (Store.call enforced) requests {}).1 ∧
      let db := (runAll (Database.call enforced) requests {}).2
      let store := (runAll (Store.call enforced) requests {}).2
      (∀ id, findById id db.rules = store.rules id) ∧
      (∀ order id, findWorkflow order db id = store.findWorkflow id) ∧
      (∀ scan, ∃ ids : List Int, ids.Nodup ∧ (∀ id, id ∈ ids ↔ (store.rules id).isSome) ∧
        findAllRules scan db = ids.filterMap store.rules) ∧
      ∀ scan order, ∃ ids : List Int,
        ids.Nodup ∧ (∀ id, id ∈ ids ↔ (store.findWorkflow id).isSome) ∧
          findAllWorkflows scan order db = ids.filterMap store.findWorkflow := by
  obtain ⟨houtcomes, h⟩ := (represents_empty enforced).runAll hfit
  refine ⟨houtcomes, h.rules, h.findWorkflow, fun scan ↦ ?_, fun scan order ↦ ?_⟩
  · refine ⟨_, (scan_perm_ids scan).nodup_iff.2 (nodup_filterMap_key h.unique), fun id ↦ ?_, ?_⟩
    · rw [(scan_perm_ids scan).mem_iff, ← h.rules, isSome_findById_iff, List.mem_filterMap]
    · rw [findAllRules, ← List.filterMap_eq_map, List.filterMap_filterMap]
      refine List.filterMap_congr fun row hrow ↦ ?_
      have hmem := (scan.perm _).subset hrow
      obtain ⟨id, hid⟩ := Option.isSome_iff_exists.1 (h.keyed row hmem)
      rw [hid, Option.bind_some, ← h.rules, h.findById_of_mem hmem hid]
      rfl
  · refine ⟨_, (scan.perm _).nodup_iff.2 h.nodup, fun id ↦ ?_, ?_⟩
    · rw [(scan.perm _).mem_iff, List.mem_map, h.isSome_store_findWorkflow]
    · rw [findAllWorkflows]
      exact congrArg (List.filterMap · _) (funext (h.findWorkflow order))

/-- A rule is removed from under its workflow and saved again. -/
def resavedRun : List Request :=
  [.saveRule { id := 7, expression := "true" },
    .saveWorkflow { id := 1, rules := [{ id := 8 }, { id := 7 }] },
    .removeRule 7,
    .saveRule { id := 7, expression := "false" }]

/-- Without foreign keys the workflow has it again. -/
theorem resavedRun_findWorkflow :
    (findWorkflow (.insertion _) (runAll (Database.call false) resavedRun {}).2 1).map
      (fun w ↦ w.rules.map fun r ↦ (r.id, r.expression)) = some [(7, "false")] := by
  have hfit : ∀ request ∈ resavedRun, request.IndexesFit := by
    simp [resavedRun, Request.IndexesFit]
  exact (congrArg _ ((run_refines_store false hfit).2.2.1 (.insertion _) 1)).trans rfl

end DbRepository

end FastRules
