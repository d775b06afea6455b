import FastRules.Versioning.History
import Mathlib.Data.List.Indexes

/-!
# What snapshots record

After any sequence of snapshots the history of a rule id consists of one version for each snapshot
of a rule with that id, in order (`versions_record`). Everything else about a manager follows from
this: which version an id denotes, and what is rolled back to.
-/

namespace FastRules

/-! ### Calls -/

/-- One snapshot of a rule. -/
structure Snapshot where
  rule : Rule
  author : String := ""
  summary : String := ""

/-- A call of one of the two snapshot operations of a manager. -/
inductive SnapshotCall
  | rule (rule : Rule) (author summary : String)
  | workflow (workflow : Workflow) (author summary : String)

/-- The snapshots that a call takes. -/
def SnapshotCall.snapshots : SnapshotCall → List Snapshot
  | .rule r author summary => [⟨r, author, summary⟩]
  | .workflow w author summary => w.rules.map fun r ↦ ⟨r, author, summary⟩

namespace RuleVersionManager

variable (clock : VersionClock)

/-- Take snapshots, one after the other. -/
def record (m : RuleVersionManager) (l : List Snapshot) : RuleVersionManager :=
  l.foldl (fun m s ↦ m.snapshotRule clock s.rule s.author s.summary) m

/-- Perform a call. -/
def perform (m : RuleVersionManager) : SnapshotCall → RuleVersionManager
  | .rule r author summary => m.snapshotRule clock r author summary
  | .workflow w author summary => m.snapshotWorkflow clock w author summary

/-- Perform calls, one after the other. -/
def performAll (m : RuleVersionManager) (calls : List SnapshotCall) : RuleVersionManager :=
  calls.foldl (fun m call ↦ m.perform clock call) m

/-- The versions in the history of a rule id. -/
def versions (m : RuleVersionManager) (ruleId : Id) : List RuleVersion :=
  ((m.getHistory ruleId).getD {}).versions

/-- The version that a version id denotes in the history of a rule id. -/
def findVersion (m : RuleVersionManager) (ruleId : Id) (versionId : String) : Option RuleVersion :=
  (m.getHistory ruleId).bind fun h ↦ h.getVersion versionId

variable {clock} {m : RuleVersionManager}

theorem perform_eq_record (call : SnapshotCall) :
    m.perform clock call = m.record clock call.snapshots := by
  cases call with
  | rule r author summary => rfl
  | workflow w author summary =>
    rw [perform, snapshotWorkflow, SnapshotCall.snapshots, record, List.foldl_map]

theorem performAll_eq_record (calls : List SnapshotCall) :
    m.performAll clock calls = m.record clock (calls.flatMap SnapshotCall.snapshots) := by
  induction calls generalizing m with
  | nil => rfl
  | cons call calls ih =>
    rw [List.flatMap_cons, record, List.foldl_append]
    show (m.perform clock call).performAll clock calls = _
    rw [ih, perform_eq_record]
    rfl

theorem record_append (l l' : List Snapshot) :
    m.record clock (l ++ l') = (m.record clock l).record clock l' :=
  List.foldl_append

/-! ### One snapshot -/

section Snapshot

variable {rule : Rule} {author summary : String} {ruleId : Id}

theorem versions_snapshotRule_self :
    (m.snapshotRule clock rule author summary).versions rule.id = m.versions rule.id ++
      [newVersion clock m.taken rule author summary (m.versions rule.id).getLast?] := by
  rw [versions, getHistory, snapshotRule, AList.lookup_insert]
  rfl

theorem versions_snapshotRule_ne (h : ruleId ≠ rule.id) :
    (m.snapshotRule clock rule author summary).versions ruleId = m.versions ruleId := by
  rw [versions, getHistory, snapshotRule, AList.lookup_insert_ne (mt toString_int_inj.1 h)]
  rfl

end Snapshot

end RuleVersionManager

/-! ### Runs -/

/-- The version but for its link to the one before it. -/
def RuleVersion.unlinked (v : RuleVersion) : RuleVersion :=
  { v with parentVersionId := "" }

/-- The version of the `n`-th snapshot, but for its link to the one before it. -/
def Snapshot.version (clock : VersionClock) (s : Snapshot) (n : ℕ) : RuleVersion :=
  RuleVersionManager.newVersion clock n s.rule s.author s.summary none

/-- The versions of those snapshots that are about the rule id, counted from `n`. -/
def versionsFrom (clock : VersionClock) (ruleId : Id) : ℕ → List Snapshot → List RuleVersion
  | _, [] => []
  | n, s :: l =>
    if s.rule.id = ruleId then s.version clock n :: versionsFrom clock ruleId (n + 1) l
    else versionsFrom clock ruleId (n + 1) l

section VersionsFrom

variable {clock : VersionClock} {ruleId : Id} {n : ℕ} {l : List Snapshot}

theorem versionsFrom_append (l l' : List Snapshot) :
    versionsFrom clock ruleId n (l ++ l') =
      versionsFrom clock ruleId n l ++ versionsFrom clock ruleId (n + l.length) l' := by
  induction l generalizing n with
  | nil => rfl
  | cons s l ih =>
    rw [List.cons_append, versionsFrom, versionsFrom, ih, List.length_cons,
      show n + 1 + l.length = n + (l.length + 1) by omega]
    split_ifs <;> rfl

theorem mem_versionsFrom {v : RuleVersion} : v ∈ versionsFrom clock ruleId n l ↔
    ∃ (i : ℕ) (s : Snapshot), l[i]? = some s ∧ s.rule.id = ruleId ∧ v = s.version clock
      (n + i) := by
  induction l generalizing n with
  | nil => simp [versionsFrom]
  | cons s l ih =>
    have hzero : (∃ t : Snapshot, (s :: l)[0]? = some t ∧ t.rule.id = ruleId ∧
        v = t.version clock (n + 0)) ↔ s.rule.id = ruleId ∧ v = s.version clock n := by
      simp
    have hsucc : (∃ (i : ℕ) (t : Snapshot), (s :: l)[i + 1]? = some t ∧ t.rule.id = ruleId ∧
        v = t.version clock (n + (i + 1))) ↔ v ∈ versionsFrom clock ruleId (n + 1) l := by
      simp only [ih, List.getElem?_cons_succ, Nat.add_assoc, Nat.add_comm 1]
    rw [← Nat.or_exists_add_one, hzero, hsucc, versionsFrom]
    split_ifs with hid
    · rw [List.mem_cons, and_iff_right hid]
    · rw [or_iff_right fun h ↦ hid h.1]

end VersionsFrom

namespace RuleVersionManager

variable {clock : VersionClock} {m : RuleVersionManager} {ruleId : Id} {l : List Snapshot}

theorem taken_record (l : List Snapshot) : (m.record clock l).taken = m.taken + l.length := by
  induction l generalizing m with
  | nil => rfl
  | cons s l ih =>
    show ((m.snapshotRule clock s.rule s.author s.summary).record clock l).taken = _
    rw [ih, List.length_cons]
    show m.taken + 1 + l.length = _
    omega

/-- Snapshots append their versions. -/
theorem versions_record (l : List Snapshot) :
    ((m.record clock l).versions ruleId).map RuleVersion.unlinked =
      (m.versions ruleId).map RuleVersion.unlinked ++ versionsFrom clock ruleId m.taken l := by
  induction l generalizing m with
  | nil => exact (List.append_nil _).symm
  | cons s l ih =>
    show (((m.snapshotRule clock s.rule s.author s.summary).record clock l).versions ruleId).map _ =
      _
    rw [ih, versionsFrom]
    show _ ++ versionsFrom clock ruleId (m.taken + 1) l = _
    by_cases hid : s.rule.id = ruleId
    · subst hid
      rw [if_pos rfl, versions_snapshotRule_self, List.map_append, List.append_assoc]
      rfl
    · rw [if_neg hid, versions_snapshotRule_ne (Ne.symm hid)]

theorem versions_record_empty (clock : VersionClock) (l : List Snapshot) :
    ((record clock {} l).versions ruleId).map RuleVersion.unlinked = versionsFrom clock
      ruleId 0 l :=
  versions_record l

/-- A version in the history of a rule id is named by that id. -/
theorem ruleName_of_mem_versions {v : RuleVersion} (h : v ∈ (record clock {} l).versions ruleId) :
    v.ruleName = toString ruleId := by
  have hmem : v.unlinked ∈ versionsFrom clock ruleId 0 l :=
    versions_record_empty clock l ▸ List.mem_map_of_mem h
  obtain ⟨i, s, -, rfl, hv⟩ := mem_versionsFrom.1 hmem
  exact congrArg RuleVersion.ruleName hv

/-- The keys of the map are texts of rule ids. -/
theorem exists_id_of_mem_record (hm : ∀ key ∈ m.histories, ∃ i : Id, key = toString i) :
    ∀ key ∈ (m.record clock l).histories, ∃ i : Id, key = toString i := by
  induction l generalizing m with
  | nil => exact hm
  | cons s l ih =>
    refine ih (m := m.snapshotRule clock s.rule s.author s.summary) fun key hkey ↦ ?_
    rcases (AList.mem_insert _).1 hkey with rfl | hkey
    · exact ⟨s.rule.id, rfl⟩
    · exact hm key hkey

end RuleVersionManager

end FastRules
