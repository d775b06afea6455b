import FastRules.Foundations.FirstMax
import FastRules.Versioning.History
import Mathlib

/-!
# The version at a time

`RuleVersionHistory::getVersionAt` replaces its candidate only by a version that was created later.
So it finds the first of the versions that were created last (`getVersionAt_eq_find?`). In a history
that was added to in the order of time this is the version that was added last exactly if no other
one shares its time before it (`getVersionAt_eq_lastAddedAt_iff`).
-/

namespace FastRules.RuleVersionHistory

/-- One round of the loop in `RuleVersionHistory::getVersionAt`. -/
def takeBetter (timestamp : Time) (best : Option RuleVersion) (v : RuleVersion) :
    Option RuleVersion :=
  if v.createdAt ≤ timestamp then
    match best with
    | none => some v
    | some b => if b.createdAt < v.createdAt then some v else some b
  else best

/-- `RuleVersionHistory::getVersionAt`. -/
def getVersionAt (h : RuleVersionHistory) (timestamp : Time) : Option RuleVersion :=
  h.versions.foldl (takeBetter timestamp) none

/-- The version that was added last of those created at the time or before it. -/
def lastAddedAt (h : RuleVersionHistory) (timestamp : Time) : Option RuleVersion :=
  (h.versions.filter fun v ↦ v.createdAt ≤ timestamp).getLast?

/-- The versions were added in the order of their times. -/
def InOrder (h : RuleVersionHistory) : Prop :=
  h.versions.Pairwise fun u v ↦ u.createdAt ≤ v.createdAt

instance (h : RuleVersionHistory) : Decidable h.InOrder :=
  inferInstanceAs (Decidable (h.versions.Pairwise fun u v ↦ u.createdAt ≤ v.createdAt))

variable {h : RuleVersionHistory} {t c : Time} {v : RuleVersion}

theorem getVersionAt_eq_argmax (h : RuleVersionHistory) (t : Time) :
    h.getVersionAt t =
      (h.versions.filter fun v ↦ v.createdAt ≤ t).argmax RuleVersion.createdAt := by
  have hround : takeBetter t = FirstMax.improve RuleVersion.createdAt fun v ↦ v.createdAt ≤ t := by
    funext best v
    rw [takeBetter.eq_def, FirstMax.improve.eq_def]
    simp only [decide_eq_true_eq]
    rcases best with - | b <;> rfl
  rw [getVersionAt, hround, FirstMax.foldl_improve]

theorem getVersionAt_eq_none_iff : h.getVersionAt t = none ↔ ∀ v ∈ h.versions, t < v.createdAt := by
  rw [getVersionAt_eq_argmax, List.argmax_eq_none, List.filter_eq_nil_iff]
  simp

/-- The latest time up to the given one decides, and the first version of that time is found. -/
theorem getVersionAt_eq_find? (hex : ∃ v ∈ h.versions, v.createdAt = c) (hct : c ≤ t)
    (hlast : ∀ v ∈ h.versions, v.createdAt ≤ t → v.createdAt ≤ c) :
    h.getVersionAt t = h.versions.find? fun v ↦ v.createdAt = c := by
  rw [getVersionAt_eq_argmax]
  refine FirstMax.argmax_filter_eq_find? hex (fun v _ hv ↦ ?_) fun v hv hvt ↦ ?_
  · exact decide_eq_true (hv ▸ hct)
  · exact hlast v hv (of_decide_eq_true hvt)

/-- In an ordered history the version that was added last is also one that was created last. -/
theorem InOrder.le_lastAddedAt (horder : h.InOrder) (hv : h.lastAddedAt t = some v) :
    (v ∈ h.versions ∧ v.createdAt ≤ t) ∧
      ∀ u ∈ h.versions, u.createdAt ≤ t → u.createdAt ≤ v.createdAt := by
  obtain ⟨before, hfilter⟩ := List.getLast?_eq_some_iff.1 hv
  have hmem : v ∈ h.versions.filter fun v ↦ v.createdAt ≤ t := by
    rw [hfilter]
    exact List.mem_append_right _ List.mem_cons_self
  refine ⟨by simpa using hmem, fun u hu hut ↦ ?_⟩
  have hpairs := List.Pairwise.filter (fun v : RuleVersion ↦ v.createdAt ≤ t) horder
  have hu' : u ∈ h.versions.filter fun v ↦ v.createdAt ≤ t :=
    List.mem_filter.2 ⟨hu, decide_eq_true hut⟩
  rw [hfilter] at hpairs hu'
  rcases List.mem_append.1 hu' with hu' | hu'
  · exact (List.pairwise_append.1 hpairs).2.2 u hu' v List.mem_cons_self
  · obtain rfl := List.mem_singleton.1 hu'
    exact le_rfl

/-- From the last time on the version that was added last is the latest one. -/
theorem lastAddedAt_eq_getLatest (h : RuleVersionHistory)
    (hall : ∀ v ∈ h.versions, v.createdAt ≤ t) : h.lastAddedAt t = h.getLatest := by
  rw [lastAddedAt, getLatest, List.filter_eq_self.2 fun v hv ↦ decide_eq_true (hall v hv)]

/-- **The version in force.** A lookup finds the version that was added last up to the time exactly
if that version is the first one with its time. -/
theorem getVersionAt_eq_lastAddedAt_iff (h : RuleVersionHistory) (horder : h.InOrder) (t : Time) :
    (h.getVersionAt t = h.lastAddedAt t ∧
      ((∀ v ∈ h.versions, v.createdAt ≤ t) → h.getVersionAt t = h.getLatest)) ↔
      ∀ v, h.lastAddedAt t = some v →
        h.versions.find? (fun u ↦ u.createdAt = v.createdAt) = some v := by
  have hlatest : (h.getVersionAt t = h.lastAddedAt t ∧
      ((∀ v ∈ h.versions, v.createdAt ≤ t) → h.getVersionAt t = h.getLatest)) ↔
        h.getVersionAt t = h.lastAddedAt t :=
    and_iff_left_of_imp fun heq hall ↦ heq.trans (lastAddedAt_eq_getLatest h hall)
  rw [hlatest]
  rcases hv : h.lastAddedAt t with - | v
  · have hnone : ∀ v ∈ h.versions, t < v.createdAt := by
      simpa [lastAddedAt] using hv
    exact iff_of_true (getVersionAt_eq_none_iff.2 hnone) (by simp)
  · obtain ⟨⟨hmem, hvt⟩, hle⟩ := horder.le_lastAddedAt hv
    rw [getVersionAt_eq_find? ⟨v, hmem, rfl⟩ hvt hle]
    simp

/-! ### Examples -/

/-- Two versions with the given times. -/
def twoVersions (first second : Time) : RuleVersionHistory where
  versions := [
    { versionId := "v1", expression := "age > 18", createdAt := first },
    { versionId := "v2", expression := "age > 21", createdAt := second, parentVersionId := "v1" }]

theorem twoVersions_apart_found :
    (twoVersions 5 7).getVersionAt 7 = (twoVersions 5 7).lastAddedAt 7 ∧
      ((∀ v ∈ (twoVersions 5 7).versions, v.createdAt ≤ 7) →
        (twoVersions 5 7).getVersionAt 7 = (twoVersions 5 7).getLatest) :=
  (getVersionAt_eq_lastAddedAt_iff (twoVersions 5 7) (by decide) 7).2 fun v hv ↦ by
    obtain rfl := Option.some.inj hv
    rfl

/-- Of two versions of one time the older one is found. -/
theorem twoVersions_tied_notFound :
    (twoVersions 5 5).InOrder ∧
      ((twoVersions 5 5).getVersionAt 5).map RuleVersion.versionId = some "v1" ∧
      ((twoVersions 5 5).getLatest).map RuleVersion.versionId = some "v2" ∧
      ¬((twoVersions 5 5).getVersionAt 5 = (twoVersions 5 5).lastAddedAt 5 ∧
        ((∀ v ∈ (twoVersions 5 5).versions, v.createdAt ≤ 5) →
          (twoVersions 5 5).getVersionAt 5 = (twoVersions 5 5).getLatest)) := by
  decide

end FastRules.RuleVersionHistory
