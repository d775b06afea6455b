import FastRules.Versioning.Rollback
import Mathlib.Data.List.Chain

/-!
# Version ids and parents

Each version of a history names the one before it as its parent (`versionChain_record`), and a
version id denotes one version in one history of the manager. The second rests on the counter in the
version ids alone, whatever the clock shows, and so it holds as long as the counter of the process
does not come back to a number it has had (`versions_unique_chained`).
-/

namespace FastRules

/-- Each version has the one before it as its parent, and the first one has no parent. -/
structure VersionChain (versions : List RuleVersion) : Prop where
  first : ∀ v ∈ versions.head?, v.parentVersionId = ""
  next : versions.IsChain fun u v ↦ v.parentVersionId = u.versionId

theorem VersionChain.append {versions : List RuleVersion} {v : RuleVersion}
    (h : VersionChain versions)
    (hv : v.parentVersionId = versions.getLast?.elim "" RuleVersion.versionId) :
    VersionChain (versions ++ [v]) where
  first u hu := by
    rcases versions with - | ⟨w, versions⟩
    · obtain rfl := Option.mem_some.1 hu
      exact hv
    · exact h.first u hu
  next := by
    refine List.isChain_append.2 ⟨h.next, List.isChain_singleton v, fun u hu w hw ↦ ?_⟩
    obtain rfl := Option.mem_some.1 hw
    rw [hv, Option.mem_def.1 hu]
    rfl

namespace RuleVersionManager

variable {clock : VersionClock} {m : RuleVersionManager} {ruleId : Id} {l : List Snapshot}
  {n a : ℕ} {v : RuleVersion}

/-! ### Parents -/

theorem versionChain_snapshotRule (h : ∀ i, VersionChain (m.versions i)) (s : Snapshot) (i : Id) :
    VersionChain ((m.snapshotRule clock s.rule s.author s.summary).versions i) := by
  by_cases hid : i = s.rule.id
  · subst hid
    rw [versions_snapshotRule_self]
    exact (h _).append rfl
  · rw [versions_snapshotRule_ne hid]
    exact h i

/-- Snapshots keep the chains. -/
theorem versionChain_record (h : ∀ i, VersionChain (m.versions i)) (l : List Snapshot) :
    ∀ i, VersionChain ((m.record clock l).versions i) := by
  induction l generalizing m with
  | nil => exact h
  | cons s l ih => exact ih (versionChain_snapshotRule h s)

/-! ### Version ids -/

/-- No two versions of the manager have the same id. -/
def HasUniqueIds (m : RuleVersionManager) : Prop :=
  ∀ (i j : Id) (a b : ℕ) (u v : RuleVersion), (m.versions i)[a]? = some u →
    (m.versions j)[b]? = some v → u.versionId = v.versionId → i = j ∧ a = b

/-- Which snapshot a version is of, and how many of its rule id were taken before. -/
theorem exists_of_getElem?_versionsFrom (h : (versionsFrom clock ruleId n l)[a]? = some v) :
    ∃ (k : ℕ) (s : Snapshot), l[k]? = some s ∧ s.rule.id = ruleId ∧
      v = s.version clock (n + k) ∧ a = (l.take k).countP fun t ↦ t.rule.id = ruleId := by
  induction l generalizing n a with
  | nil => simp [versionsFrom] at h
  | cons s l ih =>
    rw [versionsFrom] at h
    split_ifs at h with hid
    · rcases a with - | a
      · exact ⟨0, s, rfl, hid, (Option.some.inj h).symm, rfl⟩
      · obtain ⟨k, t, ht, htid, rfl, rfl⟩ := ih h
        exact ⟨k + 1, t, ht, htid, by rw [Nat.add_assoc, Nat.add_comm 1], by simp [hid]⟩
    · obtain ⟨k, t, ht, htid, rfl, rfl⟩ := ih h
      exact ⟨k + 1, t, ht, htid, by rw [Nat.add_assoc, Nat.add_comm 1], by simp [hid]⟩

/-- The id of a version is made for the snapshot it is of. -/
theorem exists_of_getElem?_versions (h : ((record clock {} l).versions ruleId)[a]? = some v) :
    ∃ (k : ℕ) (s : Snapshot), l[k]? = some s ∧ s.rule.id = ruleId ∧
      v.versionId = clock.versionId k ∧ a = (l.take k).countP fun t ↦ t.rule.id = ruleId := by
  have hfrom : (versionsFrom clock ruleId 0 l)[a]? = some v.unlinked := by
    rw [← versions_record_empty, List.getElem?_map, h]
    rfl
  obtain ⟨k, s, hs, hid, hv, ha⟩ := exists_of_getElem?_versionsFrom hfrom
  rw [Nat.zero_add] at hv
  exact ⟨k, s, hs, hid, congrArg RuleVersion.versionId hv, ha⟩

/-- While the counter does not come back, no version id is made twice. -/
theorem hasUniqueIds_record
    (hcounter : ∀ k < l.length, clock.counter k < clock.counter 0 + 2 ^ 32) :
    (record clock {} l).HasUniqueIds := by
  intro i j a b u v hu hv hid
  obtain ⟨k, s, hs, rfl, hku, rfl⟩ := exists_of_getElem?_versions hu
  obtain ⟨k', s', hs', rfl, hkv, rfl⟩ := exists_of_getElem?_versions hv
  have hmod := VersionClock.counter_mod_eq_of_versionId_eq (hku.symm.trans (hid.trans hkv))
  have hlt := hcounter k (List.getElem?_eq_some_iff.1 hs).1
  have hlt' := hcounter k' (List.getElem?_eq_some_iff.1 hs').1
  have hle : clock.counter 0 ≤ clock.counter k := clock.counter_strictMono.monotone (Nat.zero_le k)
  have hle' : clock.counter 0 ≤ clock.counter k' :=
    clock.counter_strictMono.monotone (Nat.zero_le k')
  obtain rfl : k = k' := clock.counter_strictMono.injective (by omega)
  obtain rfl := Option.some.inj (hs.symm.trans hs')
  exact ⟨rfl, rfl⟩

/-- Both operations, about two rules, one of which is listed twice. -/
def mixedCalls : List SnapshotCall :=
  [.rule plainRule "ann" "",
    .workflow { rules := [plainRule, limitedRule, { plainRule with id := 2 }] } "bob" ""]

/-- A workflow that lists one rule once more than there are numbers of 32 bits. -/
def hugeWorkflow : Workflow where
  rules := List.replicate (2 ^ 32 + 1) plainRule

theorem getElem?_versionsFrom_replicate (clock : VersionClock) (n : ℕ) (s : Snapshot) {k : ℕ}
    (ha : a < k) :
    (versionsFrom clock s.rule.id n (List.replicate k s))[a]? = some (s.version clock (n + a)) := by
  induction k generalizing n a with
  | zero => omega
  | succ k ih =>
    rw [List.replicate_succ, versionsFrom, if_pos rfl]
    rcases a with - | a
    · rfl
    · rw [List.getElem?_cons_succ, ih _ (by omega), Nat.add_assoc, Nat.add_comm 1]

end RuleVersionManager

end FastRules
