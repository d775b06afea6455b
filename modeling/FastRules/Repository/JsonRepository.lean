import FastRules.Foundations.RecordStore
import FastRules.Repository.FileRepository
import FastRules.Repository.JsonRules

/-!
# The JSON repository

`JsonRuleRepository` but for its `flush`: an array of records, of which those with an `id` are
looked up by it. The array may come from any file, so its elements may be of any shape, and the ids
need not be integers; a number is equal to an `int` however it is written.
-/

namespace FastRules

/-- The integer that a number is equal to: unsigned numbers are converted first. -/
def Json.intValue? : Json → Option Int
  | .integer n => some (toInt64 n)
  | .float n true => some n
  | _ => none

namespace JsonRepository

open RecordStore

/-- `item["id"]`, if `item.contains("id")`, as far as it is equal to an integer. -/
def itemId? (item : Json) : Option Int :=
  (item.member? "id").bind Json.intValue?

/-- `item.contains("id") && item["id"] == id`. -/
def hasId (id : Int) (item : Json) : Bool :=
  itemId? item = some id

/-! ### Calls -/

/-- `JsonRuleRepository::upsert`, for items whose `id` is a number. -/
def upsert (item : Json) (data : List Json) : List Json :=
  match itemId? item with
  | some id => replaceOrAppend itemId? id item data
  | none => data ++ [item]

/-- What `JsonRuleRepository::save` makes of the data. -/
def saveData (rule : Rule) (data : List Json) : List Json :=
  rule.childRules.foldl (fun data childRule ↦ upsert (ruleToJson childRule) data)
    (upsert (ruleToJson rule) data)

/-- `JsonRuleRepository::save`. -/
def save (rule : Rule) (r : FileRepository (List Json)) : FileRepository (List Json) :=
  { data := saveData rule r.data, dirty := true }

/-- `JsonRuleRepository::findById`. -/
def findById (id : Int) (data : List Json) : Option Rule :=
  (data.find? (hasId id)).map jsonToRule

/-- `JsonRuleRepository::findAll`. -/
def findAll (data : List Json) : List Rule :=
  data.map jsonToRule

/-- What `JsonRuleRepository::remove` makes of the data. -/
def removeData (id : Int) (data : List Json) : List Json :=
  data.filter fun item ↦ !hasId id item

/-- `JsonRuleRepository::remove`. -/
def remove (id : Int) (r : FileRepository (List Json)) : FileRepository (List Json) :=
  if r.data.any (hasId id) then { data := removeData id r.data, dirty := true } else r

/-- `JsonRuleRepository::exists`. -/
def existsId (id : Int) (data : List Json) : Bool :=
  data.any (hasId id)

/-- `JsonRuleRepository::count`. -/
def count (data : List Json) : ℕ :=
  data.length

/-- What an edit makes of the data. -/
def apply : RuleEdit → List Json → List Json
  | .save rule => saveData rule
  | .remove id => removeData id

/-- An edit of the repository. -/
def edit : RuleEdit → FileRepository (List Json) → FileRepository (List Json)
  | .save rule => save rule
  | .remove id => remove id

/-! ### The data as a store of records -/

variable {rule : Rule} {id : Int} {data : List Json}

theorem removeData_eq : removeData id data = others itemId? id data :=
  List.filter_congr fun item _ ↦ by simp [hasId]

theorem find?_hasId : data.find? (hasId id) = lookup itemId? id data := rfl

theorem existsId_eq : existsId id data = (lookup itemId? id data).isSome := by
  rw [← find?_hasId, List.isSome_find?]
  rfl

/-- Without a record of the id nothing is removed. -/
theorem removeData_eq_self (h : existsId id data = false) : removeData id data = data := by
  rw [existsId, List.any_eq_false] at h
  exact List.filter_eq_self.2 fun item hitem ↦ by simpa using h item hitem

/-- Edits change the data and mark them as changed. -/
theorem edit_marks : Marks edit apply :=
  .of_calls (fun _ _ ↦ rfl) (fun _ _ ↦ rfl) fun _ _ ↦ removeData_eq_self

/-- The record of a rule is one of its id. -/
theorem itemId?_ruleToJson (hid : toInt32 rule.id = rule.id) :
    itemId? (ruleToJson rule) = some rule.id := by
  have hwide : toInt64 rule.id = rule.id := by
    obtain ⟨hlo, hhi⟩ := toInt32_eq_self_iff.1 hid
    exact Int.bmod_eq_of_le (by omega) (by omega)
  rw [itemId?, member?_id, Option.bind_some, Json.intValue?, hwide]

theorem upsert_ruleToJson (hid : toInt32 rule.id = rule.id) :
    upsert (ruleToJson rule) data = replaceOrAppend itemId? rule.id (ruleToJson rule) data := by
  rw [upsert, itemId?_ruleToJson hid]

end JsonRepository

end FastRules
