import FastRules.Versioning.Snapshots

/-!
# Importing versions

The importers do not put versions back. For each version of a document they make a rule, of which
the manager then takes a snapshot (`replayVersion`). What the manager holds afterwards is therefore
what these snapshots record (`run_replayHistories`), and that is all of a version but its priority,
which no importer hands on (`replayed_eq_iff`).
-/

namespace FastRules

/-! ### The loop of the importers -/

/-- The calendar of the C++ library and the clock during an import or export. -/
structure Calendar where
  /-- The text of a time in the format `%Y-%m-%dT%H:%M:%SZ`. -/
  isoText : Time → String
  /-- The time read from a text of that format. -/
  readIso : String → Time
  now : Time

/-- A computation on a manager that may be ended by an exception. What was done before it stays. -/
abbrev Importer := ExceptT Exn (StateM RuleVersionManager)

/-- `manager.snapshotRule(rule, author, summary)`. -/
def takeSnapshot (clock : VersionClock) (s : Snapshot) : Importer Unit :=
  modify fun m ↦ m.snapshotRule clock s.rule s.author s.summary

/-- The snapshot that the importers take for a version with the rule id. -/
def RuleVersion.imported (v : RuleVersion) (id : Id) : Snapshot where
  rule := { id, expression := v.expression, action := v.action, isActive := v.isActive }
  author := v.author
  summary := v.changeSummary

/-- The body of the loop over the versions of a history. -/
def replayVersion (clock : VersionClock) (v : RuleVersion) : Importer Unit :=
  match readBounded 32 v.ruleName with
  | some id => takeSnapshot clock (v.imported id)
  | none => throw (.standard "stoi")

/-- The loop over the versions of a history. -/
def replayHistory (clock : VersionClock) (h : RuleVersionHistory) : Importer Unit :=
  h.versions.forM (replayVersion clock)

/-! ### What is kept -/

/-- What an export is to keep of a version. -/
def RuleVersion.contents (v : RuleVersion) : RuleVersion :=
  { v with versionId := "", ruleName := "", createdAt := 0, parentVersionId := "" }

/-- The second manager has, for every rule that the first one tracks, a history of versions with the
same contents in the same order. -/
def RuleVersionManager.KeptBy (m m' : RuleVersionManager) : Prop :=
  ∀ ruleId h, m.getHistory ruleId = some h → ∃ h', m'.getHistory ruleId = some h' ∧
    h'.versions.map RuleVersion.contents = h.versions.map RuleVersion.contents

/-! ### Replaying -/

/-- A history of versions of the rule with an id of type `int`. -/
structure RuleVersionHistory.IsAbout (h : RuleVersionHistory) (ruleId : Id) : Prop where
  isInt : toInt32 ruleId = ruleId
  ruleName : ∀ v ∈ h.versions, v.ruleName = toString ruleId

section Replay

variable {clock : VersionClock} {ruleId : Id}

/-- Sequencing in an import. -/
theorem Importer.run_bind_ok {α β : Type} {x : Importer α} {f : α → Importer β}
    {m m' : RuleVersionManager} {a : α} (h : x.run.run m = (.ok a, m')) :
    (x >>= f).run.run m = (f a).run.run m' := by
  rw [ExceptT.run_bind, StateT.run_bind, h]
  rfl

/-- A loop each round of which takes snapshots takes all of them. -/
theorem Importer.run_forM {α : Type} {body : α → Importer Unit} {snaps : α → List Snapshot}
    {items : List α}
    (hbody : ∀ a ∈ items, ∀ m, (body a).run.run m = (.ok (), m.record clock (snaps a)))
    (m : RuleVersionManager) :
    (items.forM body).run.run m = (.ok (), m.record clock (items.flatMap snaps)) := by
  induction items generalizing m with
  | nil => rfl
  | cons a items ih =>
    show (body a >>= fun _ ↦ items.forM body).run.run m = _
    rw [Importer.run_bind_ok (hbody a List.mem_cons_self m),
      ih fun b hb ↦ hbody b (List.mem_cons_of_mem a hb), List.flatMap_cons,
      RuleVersionManager.record_append]

theorem run_replayHistory {h : RuleVersionHistory} (hh : h.IsAbout ruleId)
    (m : RuleVersionManager) :
    (replayHistory clock h).run.run m =
      (.ok (), m.record clock (h.versions.map fun v ↦ v.imported ruleId)) := by
  rw [List.map_eq_flatMap]
  refine Importer.run_forM (fun v hv m ↦ ?_) m
  rw [replayVersion, hh.ruleName v hv, readBounded_toString hh.isInt]
  rfl

end Replay

/-! ### What the histories hold -/

/-- What is to be kept of the version of a snapshot. -/
def Snapshot.contents (s : Snapshot) : RuleVersion where
  expression := s.rule.expression
  action := s.rule.action
  priority := s.rule.priority
  isActive := s.rule.isActive
  author := s.author
  changeSummary := s.summary

namespace RuleVersionManager

variable {clock : VersionClock} {m : RuleVersionManager} {ruleId : Id} {l : List Snapshot}

theorem contents_versionsFrom (clock : VersionClock) (n : ℕ) :
    (versionsFrom clock ruleId n l).map RuleVersion.contents =
    (l.filter fun s ↦ s.rule.id = ruleId).map Snapshot.contents := by
  induction l generalizing n with
  | nil => rfl
  | cons s l ih =>
    rw [versionsFrom, List.filter_cons]
    by_cases hid : s.rule.id = ruleId
    · rw [if_pos hid, if_pos (decide_eq_true hid), List.map_cons, List.map_cons, ih]
      rfl
    · rw [if_neg hid, if_neg (by simpa using hid), ih]

theorem contents_versions (clock : VersionClock) (ruleId : Id) (l : List Snapshot) :
    ((record clock {} l).versions ruleId).map RuleVersion.contents =
    (l.filter fun s ↦ s.rule.id = ruleId).map Snapshot.contents := by
  rw [← contents_versionsFrom clock 0, ← versions_record_empty, List.map_map]
  rfl

/-- Every version has the contents of a snapshot. -/
theorem exists_snapshot_of_mem {v : RuleVersion} (hv : v ∈ (record clock {} l).versions ruleId) :
    ∃ s ∈ l, s.contents = v.contents := by
  have hmem := List.mem_map_of_mem (f := RuleVersion.contents) hv
  rw [contents_versions] at hmem
  obtain ⟨s, hs, heq⟩ := List.mem_map.1 hmem
  exact ⟨s, (List.mem_filter.1 hs).1, heq⟩

/-- A rule id is tracked from its first snapshot on. -/
theorem getHistory_record_eq_none_iff : (m.record clock l).getHistory ruleId = none ↔
    m.getHistory ruleId = none ∧ ∀ s ∈ l, s.rule.id ≠ ruleId := by
  induction l generalizing m with
  | nil => simp [record]
  | cons s l ih =>
    show
      ((m.snapshotRule clock s.rule s.author s.summary).record clock l).getHistory ruleId = none ↔ _
    rw [ih, List.forall_mem_cons, ← and_assoc]
    refine and_congr_left fun _ ↦ ?_
    rw [getHistory, snapshotRule, AList.lookup_insert_eq_none, ne_eq, toString_int_inj, and_comm,
      ne_comm]
    rfl

theorem exists_getHistory_iff : (∃ h, (record clock {} l).getHistory ruleId = some h) ↔
    ∃ s ∈ l, s.rule.id = ruleId := by
  rw [← Option.ne_none_iff_exists', ne_eq, getHistory_record_eq_none_iff,
    and_iff_right (show getHistory {} ruleId = none from rfl)]
  simp only [not_forall, exists_prop, not_not]

theorem versions_of_getHistory {h : RuleVersionHistory} (hh : m.getHistory ruleId = some h) :
    m.versions ruleId = h.versions := by
  rw [versions, hh]
  rfl

/-- The history of a rule id, empty without one. -/
def historyOf (m : RuleVersionManager) (ruleId : Id) : RuleVersionHistory :=
  (m.getHistory ruleId).getD {}

/-- The entries of the map belong to different integers, namely to the ids that have a history. -/
theorem exists_trackedIds (clock : VersionClock)
    (order : HashOrder ((_ : String) × RuleVersionHistory))
    (l : List Snapshot) : ∃ ids : List Id,
      order.visit (record clock {} l).histories.entries =
        (ids.map fun i ↦ ⟨toString i, (record clock {} l).historyOf i⟩) ∧
      (record clock {} l).getTrackedRuleIds order = ids.map toString ∧
      ids.Nodup ∧ ∀ i, i ∈ ids ↔ ∃ h, (record clock {} l).getHistory i = some h := by
  have hperm :
      ((record clock {} l).getTrackedRuleIds order).Perm (record clock {} l).histories.keys :=
    (order.perm _).map Sigma.fst
  -- every key is the text of an id, and the ids are read back from the keys
  have hkey : ∀ key ∈ (record clock {} l).getTrackedRuleIds order, ∃ i : Id, key = toString i :=
    fun key hkey ↦ exists_id_of_mem_record (fun key h ↦ absurd h (AList.notMem_empty key)) key
      (hperm.mem_iff.1 hkey)
  obtain ⟨ids, hids⟩ : ∃ ids : List Id, ids.map toString =
      (record clock {} l).getTrackedRuleIds order := by
    refine ⟨((record clock {} l).getTrackedRuleIds order).map fun key ↦
      (readInteger key).getD 0, ?_⟩
    rw [List.map_map]
    refine (List.map_congr_left fun key hmem ↦ ?_).trans (List.map_id _)
    obtain ⟨i, rfl⟩ := hkey key hmem
    exact congrArg (fun n : Option Int ↦ toString (n.getD 0)) (readInteger_toString i)
  refine ⟨ids, ?_, hids.symm, List.Nodup.of_map toString ?_, fun i ↦ ?_⟩
  · have hvisit : order.visit (record clock {} l).histories.entries =
        ((record clock {} l).getTrackedRuleIds order).map fun key ↦
          ⟨key, ((record clock {} l).histories.lookup key).getD {}⟩ := by
      rw [getTrackedRuleIds, List.map_map]
      refine ((List.map_congr_left fun e he ↦ ?_).trans (List.map_id _)).symm
      have hlookup : (record clock {} l).histories.lookup e.1 = some e.2 :=
        AList.mem_lookup_iff.2 (((order.perm _).mem_iff).1 he)
      show (⟨e.1, ((record clock {} l).histories.lookup e.1).getD {}⟩ :
        (_ : String) × RuleVersionHistory) = e
      rw [hlookup]
      rfl
    rw [hvisit, ← hids, List.map_map]
    rfl
  · rw [hids]
    exact hperm.nodup_iff.2 (AList.keys_nodup _)
  · have hmem : i ∈ ids ↔ toString i ∈ ids.map toString := by
      rw [List.mem_map]
      exact ⟨fun h ↦ ⟨i, h, rfl⟩, fun ⟨j, hj, h⟩ ↦ toString_int_inj.1 h ▸ hj⟩
    rw [hmem, hids, hperm.mem_iff, ← AList.mem_keys, ← AList.lookup_isSome,
      Option.isSome_iff_exists]
    rfl

/-- Only ids that fit into an `int` come back from a text. -/
theorem toInt32_of_getHistory (hids : ∀ s ∈ l, toInt32 s.rule.id = s.rule.id)
    (h : ∃ h, (record clock {} l).getHistory ruleId = some h) : toInt32 ruleId = ruleId := by
  obtain ⟨s, hs, rfl⟩ := exists_getHistory_iff.1 h
  exact hids s hs

/-- The histories of rules with ids of type `int` can be imported. -/
theorem historyOf_isAbout (hids : ∀ s ∈ l, toInt32 s.rule.id = s.rule.id) {h : RuleVersionHistory}
    (hh : (record clock {} l).getHistory ruleId = some h) :
    ((record clock {} l).historyOf ruleId).IsAbout ruleId :=
  ⟨toInt32_of_getHistory hids ⟨h, hh⟩, fun _ hv ↦ ruleName_of_mem_versions hv⟩

/-- Among the imported versions of several rules are those of each rule. -/
theorem filter_imported {ids : List Id} (hnodup : ids.Nodup) (hmem : ruleId ∈ ids) :
    ((ids.flatMap fun i ↦ (m.versions i).map fun v ↦ v.imported i).filter fun s ↦
        s.rule.id = ruleId) = (m.versions ruleId).map fun v ↦ v.imported ruleId := by
  have hself : (((m.versions ruleId).map fun v ↦ v.imported ruleId).filter fun s ↦
      s.rule.id = ruleId) = (m.versions ruleId).map fun v ↦ v.imported ruleId := by
    refine List.filter_eq_self.2 fun s hs ↦ ?_
    obtain ⟨v, -, rfl⟩ := List.mem_map.1 hs
    exact decide_eq_true rfl
  have hother {i : Id} (hi : i ≠ ruleId) : (((m.versions i).map fun v ↦ v.imported i).filter fun s ↦
      s.rule.id = ruleId) = [] := by
    refine List.filter_eq_nil_iff.2 fun s hs hid ↦ hi ?_
    obtain ⟨v, -, rfl⟩ := List.mem_map.1 hs
    exact of_decide_eq_true hid
  have hnone {ids : List Id} (h : ruleId ∉ ids) : ((ids.flatMap fun i ↦ (m.versions i).map fun v ↦
      v.imported i).filter fun s ↦ s.rule.id = ruleId) = [] := by
    rw [List.filter_flatMap]
    exact List.flatMap_eq_nil_iff.2 fun i hi ↦ hother fun heq ↦ h (heq ▸ hi)
  obtain ⟨before, after, rfl⟩ := List.append_of_mem hmem
  have hsplit := List.nodup_middle.1 hnodup
  have hnot := (List.nodup_cons.1 hsplit).1
  rw [List.mem_append, not_or] at hnot
  rw [List.flatMap_append, List.flatMap_cons, List.filter_append, List.filter_append, hself,
    hnone hnot.1, hnone hnot.2, List.nil_append, List.append_nil]

/-- The priorities of the versions are those of the rules. -/
theorem forall_priority_iff (clock : VersionClock) (ruleId : Id) (l : List Snapshot) :
    (∀ v ∈ (record clock {} l).versions ruleId, v.priority = 0) ↔
    ∀ s ∈ l, s.rule.id = ruleId → s.rule.priority = 0 := by
  have hmap : ((record clock {} l).versions ruleId).map RuleVersion.priority =
      (l.filter fun s ↦ s.rule.id = ruleId).map fun s ↦ s.rule.priority := by
    have h := congrArg (List.map RuleVersion.priority) (contents_versions clock ruleId l)
    rwa [List.map_map, List.map_map] at h
  have hzero := List.forall_mem_map (l := (record clock {} l).versions ruleId)
    (f := RuleVersion.priority) (P := fun n ↦ n = 0)
  rw [← hzero, hmap, List.forall_mem_map]
  simp only [List.mem_filter, decide_eq_true_eq, and_imp]

/-- What an importer makes of the versions of a tracked rule. -/
theorem contents_replayed {importClock : VersionClock} {ids : List Id} (hnodup : ids.Nodup)
    (hmem : ruleId ∈ ids) :
    ((record importClock {} (ids.flatMap fun i ↦ (m.versions i).map fun v ↦ v.imported i)).versions
        ruleId).map RuleVersion.contents =
      (m.versions ruleId).map fun v ↦ { v.contents with priority := 0 } := by
  rw [contents_versions, filter_imported hnodup hmem, List.map_map]
  rfl

/-- The importers keep everything but the priorities. -/
theorem keptBy_replayed_iff (importClock : VersionClock) {ids : List Id} (hnodup : ids.Nodup)
    (hids : ∀ i, i ∈ ids ↔ ∃ h, (record clock {} l).getHistory i = some h) :
    (record clock {} l).KeptBy (record importClock {} (ids.flatMap fun i ↦
        ((record clock {} l).versions i).map fun v ↦ v.imported i)) ↔
      ∀ s ∈ l, s.rule.priority = 0 := by
  -- A version is kept if the priority it gets is the one it has.
  have hkept {i : Id} (hi : i ∈ ids) : (((record importClock {} (ids.flatMap fun i ↦
      ((record clock {} l).versions i).map fun v ↦ v.imported i)).versions i).map
        RuleVersion.contents = ((record clock {} l).versions i).map RuleVersion.contents) ↔
      ∀ s ∈ l, s.rule.id = i → s.rule.priority = 0 := by
    rw [contents_replayed hnodup hi, List.map_inj_left, ← forall_priority_iff clock]
    refine forall₂_congr fun v _ ↦ ⟨fun h ↦ (congrArg RuleVersion.priority h).symm, fun h ↦ ?_⟩
    rw [← h]
    rfl
  have htracked {i : Id} : i ∈ ids ↔ ∃ s ∈ l, s.rule.id = i :=
    (hids i).trans exists_getHistory_iff
  constructor
  · intro h s hs
    have hi : s.rule.id ∈ ids := htracked.2 ⟨s, hs, rfl⟩
    obtain ⟨history, hhistory⟩ := (hids _).1 hi
    obtain ⟨history', hhistory', hsame⟩ := h _ _ hhistory
    rw [← versions_of_getHistory hhistory, ← versions_of_getHistory hhistory'] at hsame
    exact (hkept hi).1 hsame s hs rfl
  · intro h i history hhistory
    have hi : i ∈ ids := (hids i).2 ⟨history, hhistory⟩
    have hsame := (hkept hi).2 fun s hs _ ↦ h s hs
    rcases hhistory' : (record importClock {} (ids.flatMap fun i ↦
      ((record clock {} l).versions i).map fun v ↦ v.imported i)).getHistory i with - | history'
    · -- There is a version of the rule, so it is tracked afterwards.
      obtain ⟨s, hs, rfl⟩ := htracked.1 hi
      rw [versions, hhistory'] at hsame
      have hempty := hsame.symm.trans List.map_nil
      rw [contents_versions, List.map_eq_nil_iff, List.filter_eq_nil_iff] at hempty
      exact absurd (decide_eq_true rfl) (hempty s hs)
    · refine ⟨history', hhistory', ?_⟩
      rwa [versions_of_getHistory hhistory, versions_of_getHistory hhistory'] at hsame

end RuleVersionManager

end FastRules
