import FastRules.Rule.CacheKey
import FastRules.Versioning.Snapshots

/-!
# Rolling back

A version records four fields of a rule beside its id, and `rollbackTo` leaves the others at their
defaults. So a rolled back rule agrees with the original exactly if that is where the original has
them (`rollback_restores_iff`).

Every version of a manager has an id of its own, at least until the counter of the process wraps
around, while `rollbackWorkflow` looks up one id in the histories of all rules. It finds one rule,
and a workflow is restored exactly if it has no more (`rollbackWorkflow_restores_iff`).
-/

namespace FastRules

/-! ### Version ids -/

namespace VersionClock

variable {clock : VersionClock} {i j : ℕ}

/-- The counter can be read off a version id, but for multiples of `2 ^ 32`. -/
theorem counter_mod_eq_of_versionId_eq (h : clock.versionId i = clock.versionId j) :
    clock.counter i % 2 ^ 32 = clock.counter j % 2 ^ 32 := by
  have hreversed (n : ℕ) : (clock.versionId n).toList.reverse =
      (Nat.toDigits 16 (clock.counter n % 2 ^ 32)).reverse ++ '-' ::
      (clock.date n).toList.reverse := by
    simp [versionId, hexText]
  have hminus (n : ℕ) : '-' ∉ (Nat.toDigits 16 n).reverse :=
    fun h ↦ minus_notMem_toDigits_sixteen n (List.mem_reverse.1 h)
  have hlists := congrArg (fun s : String ↦ s.toList.reverse) h
  rw [hreversed, hreversed, append_cons_inj_of_notMem_left (hminus _) (hminus _)] at hlists
  exact toDigits_sixteen_inj (List.reverse_inj.1 hlists.1)

/-- Until the counter wraps around no version id is made twice. -/
theorem versionId_inj (hi : clock.counter i < 2 ^ 32) (hj : clock.counter j < 2 ^ 32)
    (h : clock.versionId i = clock.versionId j) : i = j := by
  have hcounter := counter_mod_eq_of_versionId_eq h
  rw [Nat.mod_eq_of_lt hi, Nat.mod_eq_of_lt hj] at hcounter
  exact clock.counter_strictMono.injective hcounter

end VersionClock

/-! ### Finding versions -/

section Find

variable {clock : VersionClock} {ruleId : Id} {n k : ℕ} {l : List Snapshot} {s : Snapshot}

/-- As long as the version ids are different, the version of a snapshot is found in the history of
its rule and in no other. -/
theorem find_versionsFrom (hfresh : ∀ i < l.length, clock.counter i < 2 ^ 32)
    (hs : l[k]? = some s) :
    (versionsFrom clock ruleId 0 l).find? (fun v ↦ v.versionId = clock.versionId k) =
      if s.rule.id = ruleId then some (s.version clock k) else none := by
  have hlt {i : ℕ} {t : Snapshot} (ht : l[i]? = some t) : clock.counter i < 2 ^ 32 :=
    hfresh i (List.getElem?_eq_some_iff.1 ht).1
  have honly : ∀ v ∈ versionsFrom clock ruleId 0 l, v.versionId = clock.versionId k →
      s.rule.id = ruleId ∧ v = s.version clock k := by
    intro v hv hid
    obtain ⟨i, t, ht, hrule, rfl⟩ := mem_versionsFrom.1 hv
    rw [Nat.zero_add] at hid ⊢
    obtain rfl : i = k := VersionClock.versionId_inj (hlt ht) (hlt hs) hid
    obtain rfl := Option.some.inj (hs.symm.trans ht)
    exact ⟨hrule, rfl⟩
  split_ifs with hrule
  · have hmem : s.version clock k ∈ versionsFrom clock ruleId 0 l :=
      mem_versionsFrom.2 ⟨k, s, hs, hrule, by rw [Nat.zero_add]⟩
    rcases hv :
      (versionsFrom clock ruleId 0 l).find? fun v ↦ v.versionId = clock.versionId k with - | v
    · exact absurd (decide_eq_true rfl) (List.find?_eq_none.1 hv _ hmem)
    · have hid : v.versionId = clock.versionId k := by simpa using List.find?_some hv
      rw [hv, (honly v (List.mem_of_find?_eq_some hv) hid).2]
  · refine List.find?_eq_none.2 fun v hv hid ↦ hrule ?_
    exact (honly v hv (of_decide_eq_true hid)).1

end Find

namespace RuleVersionManager

variable {clock : VersionClock} {m : RuleVersionManager} {ruleId : Id} {versionId : String}
  {l : List Snapshot} {v : RuleVersion}

theorem findVersion_eq_find : m.findVersion ruleId versionId =
    (m.versions ruleId).find? fun v ↦ v.versionId = versionId := by
  rw [findVersion, versions]
  cases m.getHistory ruleId <;> rfl

theorem findVersion_record : ((record clock {} l).findVersion ruleId versionId).map
    RuleVersion.unlinked =
      (versionsFrom clock ruleId 0 l).find? fun v ↦ v.versionId = versionId := by
  rw [findVersion_eq_find, ← versions_record_empty, List.find?_map]
  rfl

/-- The next version id is new. -/
theorem findVersion_next (hcounter : clock.counter l.length < 2 ^ 32) :
    (record clock {} l).findVersion ruleId (clock.versionId l.length) = none := by
  refine Option.map_eq_none_iff.1
    (findVersion_record.trans (List.find?_eq_none.2 fun v hv hid ↦ ?_))
  obtain ⟨i, s, hs, -, rfl⟩ := mem_versionsFrom.1 hv
  have hi : i < l.length := (List.getElem?_eq_some_iff.1 hs).1
  rw [Nat.zero_add] at hid
  have hlt : clock.counter i < clock.counter l.length := clock.counter_strictMono hi
  have hsame : i = l.length :=
    VersionClock.versionId_inj (by omega) hcounter (of_decide_eq_true hid)
  omega

end RuleVersionManager

/-! ### What a rollback restores -/

/-- The version has the recorded fields of the rule. -/
structure RuleVersion.Records (v : RuleVersion) (r : Rule) : Prop where
  expression : v.expression = r.expression
  action : v.action = r.action
  priority : v.priority = r.priority
  isActive : v.isActive = r.isActive

/-- The rule is one that a version of the other would be rolled back to. -/
structure Rule.HeldAs (restored r : Rule) : Prop where
  id : restored.id = r.id
  expression : restored.expression = r.expression
  action : restored.action = r.action
  priority : restored.priority = r.priority
  isActive : restored.isActive = r.isActive

/-- The rules agree in every field that decides their execution. -/
structure Rule.AgreesWith (restored r : Rule) : Prop extends restored.HeldAs r where
  name : restored.name = r.name
  dependsOnRuleName : restored.dependsOnRuleName = r.dependsOnRuleName
  timeout : restored.timeout = r.timeout
  cacheDuration : restored.cacheDuration = r.cacheDuration
  childRules : restored.childRules = r.childRules

/-- The fields that no version records have their defaults. -/
structure Rule.IsPlain (r : Rule) : Prop where
  name : r.name = ""
  dependsOnRuleName : r.dependsOnRuleName = none
  timeout : r.timeout = none
  cacheDuration : r.cacheDuration = none
  childRules : r.childRules = []

/-- The rule with the id that is restored from the version. -/
def RuleVersion.restored (v : RuleVersion) (id : Id) : Rule :=
  { id, expression := v.expression, action := v.action, priority := v.priority
    isActive := v.isActive }

theorem RuleVersion.records_unlinked {v : RuleVersion} {r : Rule} :
    v.unlinked.Records r ↔ v.Records r :=
  ⟨fun h ↦ ⟨h.expression, h.action, h.priority, h.isActive⟩,
    fun h ↦ ⟨h.expression, h.action, h.priority, h.isActive⟩⟩

theorem RuleVersion.exists_records_iff {o : Option RuleVersion} {r : Rule} :
    (∃ v, o = some v ∧ v.Records r) ↔
      ∃ v, o.map RuleVersion.unlinked = some v ∧ v.Records r := by
  rcases o with - | v
  · simp
  · simp only [Option.some.injEq, exists_eq_left', Option.map_some, records_unlinked]

theorem RuleVersion.heldAs_restored {v : RuleVersion} {r : Rule} :
    (v.restored r.id).HeldAs r ↔ v.Records r :=
  ⟨fun h ↦ ⟨h.expression, h.action, h.priority, h.isActive⟩,
    fun h ↦ ⟨rfl, h.expression, h.action, h.priority, h.isActive⟩⟩

theorem RuleVersion.agreesWith_restored {v : RuleVersion} {r : Rule} :
    (v.restored r.id).AgreesWith r ↔ r.IsPlain ∧ v.Records r := by
  constructor
  · intro h
    exact ⟨⟨h.name.symm, h.dependsOnRuleName.symm, h.timeout.symm, h.cacheDuration.symm,
      h.childRules.symm⟩, heldAs_restored.1 h.toHeldAs⟩
  · rintro ⟨hplain, hrecords⟩
    exact ⟨heldAs_restored.2 hrecords, hplain.name.symm, hplain.dependsOnRuleName.symm,
      hplain.timeout.symm, hplain.cacheDuration.symm, hplain.childRules.symm⟩

namespace RuleVersionManager

variable {clock : VersionClock} {ruleId : Id} {versionId : String} {l : List Snapshot}

/-- The histories of a manager are the histories of rule ids. -/
theorem exists_getHistory_of_mem {order : HashOrder ((_ : String) × RuleVersionHistory)}
    {e : (_ : String) × RuleVersionHistory}
    (he : e ∈ order.visit (record clock {} l).histories.entries) :
    ∃ i : Id, (record clock {} l).getHistory i = some e.2 := by
  have hmem := ((order.perm _).mem_iff).1 he
  have hkey : e.1 ∈ (record clock {} l).histories := List.mem_keys_of_mem hmem
  obtain ⟨i, hi⟩ :=
    exists_id_of_mem_record (fun key hkey ↦ absurd hkey (AList.notMem_empty key)) e.1 hkey
  refine ⟨i, ?_⟩
  rw [getHistory, ← hi]
  exact AList.mem_lookup_iff.2 hmem

/-- Rolling back a history reads the rule id back and restores what the version has recorded. -/
theorem rollbackTo_eq_ok_iff {h : RuleVersionHistory}
    (hh : (record clock {} l).getHistory ruleId = some h) {restored : Rule} :
    h.rollbackTo versionId = .ok restored ↔ ∃ v, h.getVersion versionId = some v ∧
      readBounded 32 (toString ruleId) = some ruleId ∧ v.restored ruleId = restored := by
  have hname {v : RuleVersion} (hv : h.getVersion versionId = some v) :
      v.ruleName = toString ruleId := by
    have hmem : v ∈ (record clock {} l).versions ruleId := by
      rw [versions, hh]
      exact List.mem_of_find?_eq_some hv
    exact ruleName_of_mem_versions hmem
  rw [RuleVersionHistory.rollbackTo]
  rcases hv : h.getVersion versionId with - | v
  · simp
  · dsimp only
    rw [hname hv]
    rcases hread : readBounded 32 (toString ruleId) with - | i
    · simp
    · obtain rfl : i = ruleId := by
        rw [readBounded, readInteger_toString] at hread
        exact (Option.some.inj (Option.eq_some_of_filter_eq_some hread)).symm
      simp [RuleVersion.restored]

/-- Rolling back the history of the rule to the version gives a rule that agrees with it. -/
def RollsBack (m : RuleVersionManager) (r : Rule) (versionId : String) : Prop :=
  ∃ h restored, m.getHistory r.id = some h ∧ h.rollbackTo versionId = .ok restored ∧
    restored.AgreesWith r

/-- Rolling back to the version gives a workflow that holds the rule. -/
def Restores (order : HashOrder ((_ : String) × RuleVersionHistory)) (m : RuleVersionManager)
    (workflowId : Id) (r : Rule) (versionId : String) : Prop :=
  ∃ restored ∈ (m.rollbackWorkflow order workflowId versionId).rules, restored.HeldAs r

variable {r : Rule}

theorem rollsBack_iff_find (hid : toInt32 r.id = r.id) :
    (record clock {} l).RollsBack r versionId ↔
      r.IsPlain ∧ ∃ v, (record clock {} l).findVersion r.id versionId = some v ∧ v.Records r := by
  constructor
  · rintro ⟨h, restored, hh, hok, hagrees⟩
    obtain ⟨v, hv, -, rfl⟩ := (rollbackTo_eq_ok_iff hh).1 hok
    obtain ⟨hplain, hrecords⟩ := RuleVersion.agreesWith_restored.1 hagrees
    exact ⟨hplain, v, by rw [findVersion, hh]; exact hv, hrecords⟩
  · rintro ⟨hplain, v, hfind, hrecords⟩
    obtain ⟨h, hh, hv⟩ := Option.bind_eq_some_iff.1 hfind
    exact ⟨h, v.restored r.id, hh, (rollbackTo_eq_ok_iff hh).2
      ⟨v, hv, readBounded_toString hid, rfl⟩,
      RuleVersion.agreesWith_restored.2 ⟨hplain, hrecords⟩⟩

theorem restores_iff_find {order : HashOrder ((_ : String) × RuleVersionHistory)} {workflowId : Id}
    (hid : toInt32 r.id = r.id) :
    (record clock {} l).Restores order workflowId r versionId ↔
      ∃ v, (record clock {} l).findVersion r.id versionId = some v ∧ v.Records r := by
  constructor
  · rintro ⟨restored, hmem, hheld⟩
    obtain ⟨e, he, hok⟩ := List.mem_filterMap.1 hmem
    obtain ⟨i, hi⟩ := exists_getHistory_of_mem he
    have hok : e.2.rollbackTo versionId = .ok restored := by
      rcases hroll : e.2.rollbackTo versionId with _ | q
      · rw [hroll] at hok
        cases hok
      · rw [hroll] at hok
        exact congrArg Except.ok (Option.some.inj hok)
    obtain ⟨v, hv, -, rfl⟩ := (rollbackTo_eq_ok_iff hi).1 hok
    obtain rfl : i = r.id := hheld.id
    exact ⟨v, by rw [findVersion, hi]; exact hv, RuleVersion.heldAs_restored.1 hheld⟩
  · rintro ⟨v, hfind, hrecords⟩
    obtain ⟨h, hh, hv⟩ := Option.bind_eq_some_iff.1 hfind
    refine ⟨v.restored r.id, List.mem_filterMap.2 ⟨⟨toString r.id, h⟩, ?_, ?_⟩,
      RuleVersion.heldAs_restored.2 hrecords⟩
    · exact ((order.perm _).mem_iff).2 (AList.mem_lookup_iff.1 hh)
    · rw [(rollbackTo_eq_ok_iff hh).2 ⟨v, hv, readBounded_toString hid, rfl⟩]
      rfl

end RuleVersionManager

/-! ### Rolling back one rule -/

open RuleVersionManager

section Rollback

variable (clock : VersionClock) (earlier later : List SnapshotCall)

/-- After the earlier calls a snapshot is taken of the rule, then come the later calls. -/
def afterSnapshotRule (r : Rule) (author summary : String) : RuleVersionManager :=
  (((performAll clock {} earlier).snapshotRule clock r author summary).performAll clock later)

/-- After the earlier calls a snapshot is taken of the workflow, then come the later calls. -/
def afterSnapshotWorkflow (w : Workflow) (author summary : String) : RuleVersionManager :=
  (((performAll clock {} earlier).snapshotWorkflow clock w author summary).performAll clock later)

variable {clock earlier later}

theorem performAll_empty (clock : VersionClock) (calls : List SnapshotCall) :
    ∃ l, performAll clock {} calls = record clock {} l ∧
      (performAll clock {} calls).taken = l.length := by
  refine ⟨_, performAll_eq_record calls, ?_⟩
  rw [performAll_eq_record, taken_record]
  exact Nat.zero_add _

theorem afterSnapshotRule_eq {r : Rule} {author summary : String} {l : List Snapshot}
    (hl : performAll clock {} earlier = record clock {} l) :
    afterSnapshotRule clock earlier later r author summary =
      record clock {} (l ++ ⟨r, author, summary⟩ :: later.flatMap SnapshotCall.snapshots) := by
  rw [afterSnapshotRule, hl, performAll_eq_record, record_append]
  rfl

/-- The version id of the snapshot denotes the version of the snapshot, unless it has been given to
an earlier version of the rule. -/
theorem find_afterSnapshotRule (later : List SnapshotCall) (r : Rule) (author summary : String) :
    ((afterSnapshotRule clock earlier later r author summary).findVersion r.id
        (clock.versionId (performAll clock {} earlier).taken)).map RuleVersion.unlinked =
      (((performAll clock {} earlier).findVersion r.id
        (clock.versionId (performAll clock {} earlier).taken)).map RuleVersion.unlinked).or
        (some (newVersion clock (performAll clock {} earlier).taken r author summary none)) := by
  obtain ⟨l, hl, htaken⟩ := performAll_empty clock earlier
  have hself (rest : List RuleVersion) :
      ((newVersion clock l.length r author summary none :: rest).find? fun v ↦
        v.versionId = clock.versionId l.length) =
        some (newVersion clock l.length r author summary none) :=
    List.find?_cons_of_pos (decide_eq_true rfl)
  rw [afterSnapshotRule_eq hl, htaken, hl, findVersion_record, findVersion_record,
    versionsFrom_append, Nat.zero_add, versionsFrom, if_pos rfl, List.find?_append]
  exact congrArg _ (hself _)

/-- A rolled back rule agrees with the rule the snapshot was taken of exactly if the fields that a
version does not record have their defaults — and the version id was not made before for a version
that differs. -/
theorem rollback_restores_iff (clock : VersionClock) (earlier later : List SnapshotCall) {r : Rule}
    (author summary : String) (hid : toInt32 r.id = r.id) :
    ((afterSnapshotRule clock earlier later r author summary).RollsBack r
        (clock.versionId (performAll clock {} earlier).taken) ↔
      r.IsPlain ∧ ∀ v, (performAll clock {} earlier).findVersion r.id
        (clock.versionId (performAll clock {} earlier).taken) = some v → v.Records r) ∧
    (clock.counter (performAll clock {} earlier).taken < 2 ^ 32 →
      ((afterSnapshotRule clock earlier later r author summary).RollsBack r
        (clock.versionId (performAll clock {} earlier).taken) ↔ r.IsPlain)) := by
  obtain ⟨l, hl, htaken⟩ := performAll_empty clock earlier
  have hiff : (afterSnapshotRule clock earlier later r author summary).RollsBack r
        (clock.versionId (performAll clock {} earlier).taken) ↔
      r.IsPlain ∧ ∀ v, (performAll clock {} earlier).findVersion r.id
        (clock.versionId (performAll clock {} earlier).taken) = some v → v.Records r := by
    rw [afterSnapshotRule_eq hl, rollsBack_iff_find hid, ← afterSnapshotRule_eq hl,
      RuleVersion.exists_records_iff, find_afterSnapshotRule later r author summary]
    refine and_congr_right fun _ ↦ ?_
    rcases (performAll clock {} earlier).findVersion r.id _ with - | v
    · simpa using RuleVersion.Records.mk rfl rfl rfl rfl
    · simp [RuleVersion.records_unlinked]
  refine ⟨hiff, fun hcounter ↦ hiff.trans (and_iff_left fun v hv ↦ ?_)⟩
  rw [htaken, hl] at hv
  rw [htaken] at hcounter
  rw [findVersion_next hcounter] at hv
  cases hv

end Rollback

/-- All versions are made in one second. -/
def secondClock : VersionClock where
  date _ := "20240518-143022"
  counter n := n + 1
  counter_strictMono _ _ h := Nat.succ_lt_succ h
  createdAt _ := 0

/-- A rule of which a version records everything. -/
def plainRule : Rule :=
  { id := 1, expression := "age >= 18", action := "adult()", priority := 2 }

theorem plainRule_rollsBack : (afterSnapshotRule secondClock [] [] plainRule "" "").RollsBack
    plainRule "20240518-143022-1" :=
  ((rollback_restores_iff secondClock [] [] (r := plainRule) "" "" (by decide)).2 (by decide)).2
    ⟨rfl, rfl, rfl, rfl, rfl⟩

/-- A rule with a time limit. -/
def limitedRule : Rule :=
  { plainRule with timeout := some 1000 }

/-- The rollback gives a rule, but it may now run forever. -/
theorem limitedRule_not_rolledBack :
    (∃ h restored, (afterSnapshotRule secondClock [] [] limitedRule "" "").getHistory 1 = some h ∧
      h.rollbackTo "20240518-143022-1" = .ok restored ∧ restored.timeout = none) ∧
    ¬(afterSnapshotRule secondClock [] [] limitedRule "" "").RollsBack limitedRule
      "20240518-143022-1" := by
  refine ⟨⟨_, _, rfl, rfl, rfl⟩, fun h ↦ ?_⟩
  rw [afterSnapshotRule_eq (l := []) rfl] at h
  have hplain : limitedRule.IsPlain := ((rollsBack_iff_find (by decide)).1 h).1
  exact absurd hplain.timeout (by decide)

/-! ### Rolling back a workflow -/

section Rollback

variable {clock : VersionClock} {earlier later : List SnapshotCall}

/-- Rolling back to the version id of any of its rules gives a workflow that holds them all. -/
def RestoresWorkflow (clock : VersionClock) (order : HashOrder ((_ : String) × RuleVersionHistory))
    (earlier later : List SnapshotCall) (w : Workflow) (author summary : String)
    (workflowId : Id) : Prop :=
  ∀ i < w.rules.length, ∀ r ∈ w.rules,
    (afterSnapshotWorkflow clock earlier later w author summary).Restores order workflowId r
      (clock.versionId ((performAll clock {} earlier).taken + i))

theorem afterSnapshotWorkflow_eq (later : List SnapshotCall) (w : Workflow)
    (author summary : String) {l : List Snapshot}
    (hl : performAll clock {} earlier = record clock {} l) :
    afterSnapshotWorkflow clock earlier later w author summary =
      record clock {} (l ++ (w.rules.map fun r ↦ ⟨r, author, summary⟩) ++
        later.flatMap SnapshotCall.snapshots) := by
  have hperform : (record clock {} l).perform clock (.workflow w author summary) =
      (record clock {} l).record clock (w.rules.map fun r ↦ ⟨r, author, summary⟩) :=
    perform_eq_record _
  rw [afterSnapshotWorkflow, hl, performAll_eq_record, record_append, record_append]
  exact congrArg (fun m ↦ record clock m _) hperform

section Fresh

variable {l : List Snapshot} {k : ℕ} {s : Snapshot} {r : Rule}

/-- As long as the version ids are different, the version of a snapshot restores the rule it was
taken of, and no rule with another id. -/
theorem exists_records_of_fresh (hfresh : ∀ i < l.length, clock.counter i < 2 ^ 32)
    (hs : l[k]? = some s) :
    (∃ v, (record clock {} l).findVersion r.id (clock.versionId k) = some v ∧ v.Records r) ↔
      s.rule.id = r.id ∧ (s.version clock k).Records r := by
  rw [RuleVersion.exists_records_iff, findVersion_record, find_versionsFrom hfresh hs]
  split_ifs with hid <;> simp [hid]

end Fresh

/-- A workflow is restored as a whole exactly if each of the version ids denotes, in the history of
each of its rules, a version with the contents of that rule. As long as the version ids are
different, that is if it has at most one rule. -/
theorem rollbackWorkflow_restores_iff (clock : VersionClock)
    (order : HashOrder ((_ : String) × RuleVersionHistory)) (earlier later : List SnapshotCall)
    {w : Workflow} (author summary : String) (workflowId : Id)
    (hids : ∀ r ∈ w.rules, toInt32 r.id = r.id) (hnodup : (w.rules.map fun r ↦ r.id).Nodup) :
    (RestoresWorkflow clock order earlier later w author summary workflowId ↔
      ∀ i < w.rules.length, ∀ r ∈ w.rules,
        ∃ v, (afterSnapshotWorkflow clock earlier later w author summary).findVersion r.id
          (clock.versionId ((performAll clock {} earlier).taken + i)) = some v ∧ v.Records r) ∧
    ((∀ n < (afterSnapshotWorkflow clock earlier later w author summary).taken,
        clock.counter n < 2 ^ 32) →
      (RestoresWorkflow clock order earlier later w author summary workflowId ↔
        w.rules.length ≤ 1)) := by
  obtain ⟨l, hl, htaken⟩ := performAll_empty clock earlier
  have hafter := afterSnapshotWorkflow_eq later w author summary hl
  have hiff : RestoresWorkflow clock order earlier later w author summary workflowId ↔
      ∀ i < w.rules.length, ∀ r ∈ w.rules,
        ∃ v, (afterSnapshotWorkflow clock earlier later w author summary).findVersion r.id
          (clock.versionId ((performAll clock {} earlier).taken + i)) = some v ∧ v.Records r := by
    rw [RestoresWorkflow, hafter]
    exact forall₂_congr fun i _ ↦ forall₂_congr fun r hr ↦ restores_iff_find (hids r hr)
  refine ⟨hiff, fun hcounter ↦ hiff.trans ?_⟩
  rw [hafter, taken_record] at hcounter
  -- The `i`-th version id belongs to the version of the `i`-th rule.
  have hget {i : ℕ} {r : Rule} (hr : w.rules[i]? = some r) :
      (l ++ (w.rules.map fun r ↦ ⟨r, author, summary⟩) ++
        later.flatMap SnapshotCall.snapshots)[l.length + i]? = some ⟨r, author, summary⟩ := by
    have hi : i < w.rules.length := (List.getElem?_eq_some_iff.1 hr).1
    rw [List.append_assoc, List.getElem?_append_right (Nat.le_add_right _ _),
      Nat.add_sub_cancel_left, List.getElem?_append_left (by rwa [List.length_map]),
      List.getElem?_map, hr]
    rfl
  have hfound {i : ℕ} {q r : Rule} (hq : w.rules[i]? = some q) :=
    exists_records_of_fresh (r := r) (fun n hn ↦ hcounter n (by show n < 0 + _; omega)) (hget hq)
  rw [hafter, htaken]
  constructor
  · intro h
    by_contra hlen
    have h₀ : w.rules[0]? = some w.rules[0] := List.getElem?_eq_getElem (by omega)
    have h₁ : w.rules[1] ∈ w.rules := List.getElem_mem (by omega)
    obtain ⟨hid, -⟩ := (hfound h₀).1 (h 0 (by omega) _ h₁)
    have hne :=
      List.pairwise_iff_getElem.1 hnodup 0 1 (by simp; omega) (by simp; omega) Nat.zero_lt_one
    exact hne (by simpa using hid)
  · intro hlen i hi r hr
    obtain ⟨j, hj, rfl⟩ := List.getElem_of_mem hr
    obtain rfl : j = i := by omega
    exact (hfound (List.getElem?_eq_getElem hj)).2 ⟨rfl, rfl, rfl, rfl, rfl⟩

end Rollback

/-- A workflow of one rule. -/
def singleWorkflow : Workflow where
  rules := [plainRule]

theorem singleWorkflow_restored :
    RestoresWorkflow secondClock (HashOrder.insertion _) [] [] singleWorkflow "" "" 1 := by
  refine ((rollbackWorkflow_restores_iff secondClock (HashOrder.insertion _) [] []
    (w := singleWorkflow) "" "" 1 (by decide) (by decide)).2 fun n hn ↦ ?_).2 (by decide)
  have htaken : (afterSnapshotWorkflow secondClock [] [] singleWorkflow "" "").taken = 1 := rfl
  show n + 1 < 2 ^ 32
  omega

/-- A workflow of two rules. -/
def pairWorkflow : Workflow where
  rules := [plainRule, { id := 2, expression := "age < 18" }]

/-- Rolling back to either version id gives a workflow of one rule. -/
theorem pairWorkflow_not_restored :
    (∀ versionId ∈ ["20240518-143022-1", "20240518-143022-2"],
      ((afterSnapshotWorkflow secondClock [] [] pairWorkflow "" "").rollbackWorkflow
        (HashOrder.insertion _) 1 versionId).rules.length = 1) ∧
    ¬RestoresWorkflow secondClock (HashOrder.insertion _) [] [] pairWorkflow "" "" 1 := by
  refine ⟨by decide, fun h ↦ ?_⟩
  have hsecond := h 0 (by decide) _ (List.mem_cons_of_mem _ List.mem_cons_self)
  rw [afterSnapshotWorkflow_eq [] _ _ _ (l := []) rfl] at hsecond
  have hfresh : ∀ n < 2, secondClock.counter n < 2 ^ 32 := by decide
  have hfind := (restores_iff_find (by decide)).1 hsecond
  refine absurd ((exists_records_of_fresh ?_ rfl).1 hfind).1 (by decide)
  exact hfresh

end FastRules
