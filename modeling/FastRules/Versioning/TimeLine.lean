import FastRules.Foundations.CivilTime
import FastRules.Versioning.Export
import FastRules.Versioning.Lookup

/-!
# Time lines through exports

An export writes the time of a version to the second, in UTC, and an import reads it as local
standard time. So an import moves each version by the offset of the local time zone. Where there is
no offset, the versions come back to the second; whether a lookup at a whole second then finds what
it has found before is a matter of the fractions that are lost (`LookupsSurvive`).
-/

namespace FastRules

/-! ### Times as text -/

/-- `"%Y-%m-%dT%H:%M:%SZ"`. -/
def isoFormat : List CivilTime.Directive :=
  [.field .year, .literal '-', .field .month, .literal '-', .field .day, .literal 'T',
    .field .hour, .literal ':', .field .minute, .literal ':', .field .second, .literal 'Z']

/-- `std::chrono::system_clock::to_time_t`, which truncates. -/
def toTimeT (t : Time) : Int :=
  t.tdiv 1000000000

/-- `std::chrono::system_clock::from_time_t`. -/
def fromTimeT (seconds : Int) : Time :=
  seconds * 1000000000

/-- What `gmtime_r` and `std::put_time` make of a time. -/
def putIso (t : Time) : String :=
  String.ofList (CivilTime.putTime isoFormat (CivilTime.ofSeconds (toTimeT t)))

/-- `std::tm tm = {}`. -/
def emptyTm : CivilTime where
  year := 1900
  month := 1
  day := 0
  hour := 0
  minute := 0
  second := 0

/-- What `std::get_time` stores in an empty `std::tm`, and whether it has read all of the format. -/
def getIso (text : String) : CivilTime × Bool :=
  CivilTime.getTime isoFormat (text.toList.dropWhile isSpace) emptyTm

/-- The local time zone. -/
structure TimeZone where
  /-- How many seconds standard time is ahead of UTC, when it is so many seconds after the beginning
  of 1970 on a local clock. -/
  offset : Int → Int

namespace TimeZone

variable (zone : TimeZone) (now : Time)

/-- `std::mktime`. The time is one without daylight saving. -/
def mktime (t : CivilTime) : Int :=
  t.toSeconds - zone.offset t.toSeconds

/-- The conversions of `JsonSerialization`. -/
def jsonCalendar : Calendar where
  isoText := putIso
  readIso text := fromTimeT (zone.mktime (getIso text).1)
  now := now

/-- The conversions of `XmlSerialization`: `timePointToString` and `parseIsoTime`. -/
def xmlCalendar : Calendar where
  isoText := putIso
  readIso text :=
    if (getIso text).2 then fromTimeT (zone.mktime (getIso text).1) else now
  now := now

end TimeZone

theorem toTimeT_fromTimeT (seconds : Int) : toTimeT (fromTimeT seconds) = seconds :=
  Int.mul_tdiv_cancel _ (by decide)

theorem fromTimeT_inj {a b : Int} : fromTimeT a = fromTimeT b ↔ a = b :=
  ⟨fun h ↦ by rw [← toTimeT_fromTimeT a, h, toTimeT_fromTimeT], fun h ↦ h ▸ rfl⟩

/-- A time from 1970 to 9999. -/
def IsDated (t : Time) : Prop :=
  0 ≤ t ∧ t < fromTimeT CivilTime.endSeconds

instance (t : Time) : Decidable (IsDated t) :=
  inferInstanceAs (Decidable (_ ∧ _))

theorem IsDated.toTimeT_bounds {t : Time} (h : IsDated t) :
    fromTimeT (toTimeT t) ≤ t ∧ t < fromTimeT (toTimeT t + 1) := by
  have hbounds (n : Int) : n / 1000000000 * 1000000000 ≤ n ∧
      n < (n / 1000000000 + 1) * 1000000000 := by
    omega
  rw [toTimeT, Int.tdiv_eq_ediv_of_nonneg h.1]
  exact hbounds t

theorem IsDated.shown {t : Time} (h : IsDated t) : (CivilTime.ofSeconds (toTimeT t)).Shown := by
  obtain ⟨hlow, hhigh⟩ := h
  refine CivilTime.shown_ofSeconds (Int.tdiv_nonneg hlow (by decide)) ?_
  rw [toTimeT, Int.tdiv_eq_ediv_of_nonneg hlow]
  exact Int.ediv_lt_of_lt_mul (by decide) hhigh

theorem exists_putIso_eq_cons {t : Time} (h : IsDated t) :
    ∃ c rest, (putIso t).toList = c :: rest ∧ c.isDigit = true := by
  obtain ⟨c, rest, hcons, hdigit⟩ := CivilTime.Field.exists_put_eq_cons .year h.shown
  refine ⟨c, rest ++ CivilTime.putTime isoFormat.tail (CivilTime.ofSeconds (toTimeT t)), ?_, hdigit⟩
  rw [putIso, String.toList_ofList, ← List.cons_append, ← hcons]
  rfl

/-- The text of a time is a C string. -/
theorem nulFree_putIso {t : Time} (h : IsDated t) : NulFree (putIso t) := by
  rw [NulFree, putIso, String.toList_ofList]
  intro hnul
  rcases CivilTime.isDigit_of_mem_putTime h.shown hnul with hdigit | hliteral
  · exact absurd hdigit (by decide)
  · exact absurd hliteral (by decide)

/-- What was written is read back. -/
theorem getIso_putIso {t : Time} (h : IsDated t) :
    getIso (putIso t) = (CivilTime.ofSeconds (toTimeT t), true) := by
  have htext : (putIso t).toList.dropWhile isSpace =
      CivilTime.putTime isoFormat (CivilTime.ofSeconds (toTimeT t)) := by
    obtain ⟨c, rest, hcons, hdigit⟩ := exists_putIso_eq_cons h
    rw [hcons, List.dropWhile_cons_of_neg (by rw [isSpace_of_isDigit hdigit]; decide), ← hcons,
      putIso, String.toList_ofList]
  have hyear : ((CivilTime.ofSeconds (toTimeT t)).year.toNat : Int) =
      (CivilTime.ofSeconds (toTimeT t)).year :=
    Int.toNat_of_nonneg (by have := h.shown.year; omega)
  rw [getIso, htext, CivilTime.getTime_putTime h.shown]
  show ({ CivilTime.ofSeconds (toTimeT t) with
    year := ((CivilTime.ofSeconds (toTimeT t)).year.toNat : Int) }, true) = _
  rw [hyear]

/-! ### Versions -/

/-- The version with its time cut off to the second. -/
def RuleVersion.toSecond (v : RuleVersion) : RuleVersion :=
  { v with createdAt := fromTimeT (toTimeT v.createdAt) }

/-- The version as it is imported, with its time moved by the offset of the time zone. -/
def RuleVersion.moved (zone : TimeZone) (v : RuleVersion) : RuleVersion :=
  { v with createdAt := fromTimeT (toTimeT v.createdAt - zone.offset (toTimeT v.createdAt)) }

theorem RuleVersion.toSecond_toSecond (v : RuleVersion) : v.toSecond.toSecond = v.toSecond := by
  rw [toSecond, toSecond, toTimeT_fromTimeT]

theorem RuleVersion.toSecond_moved {zone : TimeZone} {v : RuleVersion} :
    (v.moved zone).toSecond = v.toSecond ↔ zone.offset (toTimeT v.createdAt) = 0 := by
  rw [toSecond, moved, toTimeT_fromTimeT, toSecond]
  constructor
  · intro h
    have := fromTimeT_inj.1 (congrArg RuleVersion.createdAt h)
    omega
  · intro h
    rw [h, sub_zero]

namespace RuleVersionHistory

/-- The second in which the version was created. -/
def CreatedIn (seconds : Int) (v : RuleVersion) : Prop :=
  toTimeT v.createdAt = seconds

instance (seconds : Int) (v : RuleVersion) : Decidable (CreatedIn seconds v) :=
  inferInstanceAs (Decidable (_ = _))

/-- The second history has, in the same order, the versions of the first one with their times to the
second, and lookups at whole seconds find the same. -/
structure TimeLineKeptBy (h h' : RuleVersionHistory) : Prop where
  versions : h'.versions.map RuleVersion.toSecond = h.versions.map RuleVersion.toSecond
  lookup : ∀ seconds, (h'.getVersionAt (fromTimeT seconds)).map RuleVersion.toSecond =
    (h.getVersionAt (fromTimeT seconds)).map RuleVersion.toSecond

/-- In every second in which a version was created, the version that was added first is, to the
second, also the first of those created exactly when the second begins, and unless a version was
created in the second after it, the first of those created last. -/
def LookupsSurvive (h : RuleVersionHistory) : Prop :=
  ∀ seconds v, h.versions.find? (fun u ↦ CreatedIn seconds u) = some v →
    (h.versions.find? fun u ↦ u.createdAt = fromTimeT seconds).map RuleVersion.toSecond =
        some v.toSecond ∧
      ((∀ u ∈ h.versions, ¬CreatedIn (seconds + 1) u) →
        ((h.versions.filter fun u ↦ CreatedIn seconds u).argmax RuleVersion.createdAt).map
          RuleVersion.toSecond = some v.toSecond)

variable {h h' : RuleVersionHistory} {s s' : Int} {v : RuleVersion}

/-- Where all times are whole seconds, nothing is lost. -/
theorem lookupsSurvive_of_whole
    (hwhole : ∀ v ∈ h.versions, fromTimeT (toTimeT v.createdAt) = v.createdAt) :
    h.LookupsSurvive := by
  intro s v hv
  have hiff : ∀ u ∈ h.versions, (u.createdAt = fromTimeT s ↔ CreatedIn s u) := by
    intro u hu
    rw [← hwhole u hu, fromTimeT_inj, CreatedIn]
  have hfind : h.versions.find? (fun u ↦ u.createdAt = fromTimeT s) = some v := by
    rw [← hv]
    exact List.find?_congr fun u hu ↦ decide_eq_decide.2 (hiff u hu)
  refine ⟨congrArg (Option.map RuleVersion.toSecond) hfind, fun _ ↦ ?_⟩
  have hmem := List.mem_of_find?_eq_some hfind
  have hcreated : v.createdAt = fromTimeT s := by simpa using List.find?_some hfind
  rw [FirstMax.argmax_filter_eq_find? ⟨v, hmem, hcreated⟩
    (fun u hu hus ↦ decide_eq_true ((hiff u hu).1 hus))
    fun u hu hus ↦ ((hiff u hu).2 (of_decide_eq_true hus)).le, hfind]
  rfl

section Lookup

variable (hdated : ∀ v ∈ h.versions, IsDated v.createdAt)
  (hcopy : h'.versions = h.versions.map RuleVersion.toSecond)

theorem toTimeT_le (hv : IsDated v.createdAt) (hle : v.createdAt ≤ fromTimeT s) :
    toTimeT v.createdAt ≤ s := by
  have hlow := hv.toTimeT_bounds.1.trans hle
  exact le_of_mul_le_mul_right hlow (by decide)

theorem createdAt_lt (hv : IsDated v.createdAt) (hlt : toTimeT v.createdAt < s) :
    v.createdAt < fromTimeT s :=
  hv.toTimeT_bounds.2.trans_le (mul_le_mul_of_nonneg_right (Int.add_one_le_of_lt hlt) (by decide))

include hcopy in
/-- A lookup in the copy finds the first version of the last second. -/
theorem getVersionAt_copy (hex : ∃ v ∈ h.versions, CreatedIn s' v) (hle : s' ≤ s)
    (hlast : ∀ v ∈ h.versions, toTimeT v.createdAt ≤ s → toTimeT v.createdAt ≤ s') :
    h'.getVersionAt (fromTimeT s) =
      (h.versions.find? fun u ↦ CreatedIn s' u).map RuleVersion.toSecond := by
  have hmono {a b : Int} (hab : fromTimeT a ≤ fromTimeT b) : a ≤ b :=
    le_of_mul_le_mul_right hab (by decide)
  obtain ⟨v, hv, hvs⟩ := hex
  rw [getVersionAt_eq_find? (c := fromTimeT s'), hcopy, List.find?_map]
  · refine congrArg _ (List.find?_congr fun u _ ↦ decide_eq_decide.2 ?_)
    exact fromTimeT_inj
  · rw [hcopy]
    exact ⟨v.toSecond, List.mem_map_of_mem hv, fromTimeT_inj.2 hvs⟩
  · exact mul_le_mul_of_nonneg_right hle (by decide)
  · intro u hu hus
    rw [hcopy] at hu
    obtain ⟨w, hw, rfl⟩ := List.mem_map.1 hu
    exact mul_le_mul_of_nonneg_right (hlast w hw (hmono hus)) (by decide)

include hdated in
/-- Before, it finds the first of those created last, if there is none in the second it is about. -/
theorem getVersionAt_last (hex : ∃ v ∈ h.versions, CreatedIn s' v) (hlt : s' < s)
    (hlast : ∀ v ∈ h.versions, toTimeT v.createdAt ≤ s → toTimeT v.createdAt ≤ s') :
    h.getVersionAt (fromTimeT s) =
      (h.versions.filter fun u ↦ CreatedIn s' u).argmax RuleVersion.createdAt := by
  obtain ⟨v, hv, hvs⟩ := hex
  rcases hm : (h.versions.filter fun u ↦ CreatedIn s' u).argmax RuleVersion.createdAt with - | m
  · exact absurd (decide_eq_true hvs) (List.filter_eq_nil_iff.1 (List.argmax_eq_none.1 hm) v hv)
  · obtain ⟨hmem, hms⟩ := List.mem_filter.1 (List.argmax_mem hm)
    have hmsecond : toTimeT m.createdAt = s' := of_decide_eq_true hms
    have hgreatest : ∀ u ∈ h.versions, CreatedIn s' u → u.createdAt ≤ m.createdAt :=
      fun u hu hus ↦ List.le_of_mem_argmax (List.mem_filter.2 ⟨hu, decide_eq_true hus⟩) hm
    rw [← hm, getVersionAt_eq_find? ⟨m, hmem, rfl⟩
        (createdAt_lt (hdated m hmem) (hmsecond.trans_lt hlt)).le,
      FirstMax.argmax_filter_eq_find? ⟨m, hmem, rfl⟩]
    · intro u hu hum
      exact decide_eq_true ((congrArg toTimeT hum).trans hmsecond)
    · exact fun u hu hus ↦ hgreatest u hu (of_decide_eq_true hus)
    · intro u hu hus
      rcases (hlast u hu (toTimeT_le (hdated u hu) hus)).lt_or_eq with hless | heq
      · exact (createdAt_lt (hdated u hu) hless).le.trans
          (hmsecond ▸ (hdated m hmem).toTimeT_bounds.1)
      · exact hgreatest u hu heq

include hdated in
/-- What a lookup finds was created in a second up to the one it is about. -/
theorem createdIn_of_getVersionAt (hv : h.getVersionAt (fromTimeT s) = some v) :
    v ∈ h.versions ∧ v.createdAt ≤ fromTimeT s ∧ toTimeT v.createdAt ≤ s := by
  rw [getVersionAt_eq_argmax] at hv
  obtain ⟨hmem, hle⟩ := List.mem_filter.1 (List.argmax_mem hv)
  exact ⟨hmem, of_decide_eq_true hle, toTimeT_le (hdated v hmem) (of_decide_eq_true hle)⟩

include hdated hcopy in
/-- Before the first version neither finds any. -/
theorem getVersionAt_copy_none (hlate : ∀ v ∈ h.versions, s < toTimeT v.createdAt) :
    h'.getVersionAt (fromTimeT s) = none ∧ h.getVersionAt (fromTimeT s) = none := by
  constructor
  · refine getVersionAt_eq_none_iff.2 fun u hu ↦ ?_
    rw [hcopy] at hu
    obtain ⟨w, hw, rfl⟩ := List.mem_map.1 hu
    exact mul_lt_mul_of_pos_right (hlate w hw) (by decide)
  · exact getVersionAt_eq_none_iff.2 fun u hu ↦
      not_le.1 fun hle ↦ absurd (toTimeT_le (hdated u hu) hle) (not_le.2 (hlate u hu))

include hdated hcopy in
/-- If lookups in the copy find what they have found before, they survive. -/
theorem lookupsSurvive_of_copy
    (hall : ∀ seconds, (h'.getVersionAt (fromTimeT seconds)).map RuleVersion.toSecond =
      (h.getVersionAt (fromTimeT seconds)).map RuleVersion.toSecond) : h.LookupsSurvive := by
  intro s v hv
  have hvs : CreatedIn s v := by simpa using List.find?_some hv
  have hex : ∃ u ∈ h.versions, CreatedIn s u := ⟨v, List.mem_of_find?_eq_some hv, hvs⟩
  -- at the second itself, what was found before was created exactly then
  have hat := hall s
  rw [getVersionAt_copy hcopy hex le_rfl fun _ _ hle ↦ hle, hv] at hat
  obtain ⟨a, ha, hav⟩ := Option.map_eq_some_iff.1 hat.symm
  rw [RuleVersion.toSecond_toSecond] at hav
  obtain ⟨hmem, hle, -⟩ := createdIn_of_getVersionAt hdated ha
  have hsecond : toTimeT a.createdAt = s :=
    (fromTimeT_inj.1 (congrArg RuleVersion.createdAt hav)).trans hvs
  have hexact : a.createdAt = fromTimeT s :=
    le_antisymm hle (hsecond ▸ (hdated a hmem).toTimeT_bounds.1)
  refine ⟨?_, fun hnone ↦ ?_⟩
  · rw [← getVersionAt_eq_find? ⟨a, hmem, hexact⟩ le_rfl fun _ _ hle ↦ hle, ha]
    exact congrArg some hav
  · -- one second later, the second before it is the last one
    have hlast : ∀ u ∈ h.versions, toTimeT u.createdAt ≤ s + 1 → toTimeT u.createdAt ≤ s := by
      intro u hu hus
      have hne : toTimeT u.createdAt ≠ s + 1 := hnone u hu
      omega
    have hafter := hall (s + 1)
    rw [getVersionAt_copy hcopy hex (by omega) hlast, hv,
      getVersionAt_last hdated hex (by omega) hlast] at hafter
    rw [← hafter]
    exact congrArg some v.toSecond_toSecond

include hdated hcopy in
/-- Where lookups survive, those in the copy find what they have found before. -/
theorem lookup_copy_of_survive (hsurvive : h.LookupsSurvive) (s : Int) :
    (h'.getVersionAt (fromTimeT s)).map RuleVersion.toSecond =
      (h.getVersionAt (fromTimeT s)).map RuleVersion.toSecond := by
  rcases hm : (h.versions.filter fun u ↦ toTimeT u.createdAt ≤ s).argmax
    (fun u ↦ toTimeT u.createdAt) with - | m
  · have hlate : ∀ u ∈ h.versions, s < toTimeT u.createdAt := by
      simpa using List.argmax_eq_none.1 hm
    obtain ⟨hnone', hnone⟩ := getVersionAt_copy_none hdated hcopy hlate
    rw [hnone, hnone']
  · -- `m` was created in the last second up to this one
    obtain ⟨hmem, hms⟩ := List.mem_filter.1 (List.argmax_mem hm)
    have hle : toTimeT m.createdAt ≤ s := of_decide_eq_true hms
    have hlast : ∀ u ∈ h.versions, toTimeT u.createdAt ≤ s →
        toTimeT u.createdAt ≤ toTimeT m.createdAt := fun u hu hus ↦
      List.le_of_mem_argmax (f := fun u : RuleVersion ↦ toTimeT u.createdAt)
        (List.mem_filter.2 ⟨hu, decide_eq_true hus⟩) hm
    have hex : ∃ u ∈ h.versions, CreatedIn (toTimeT m.createdAt) u := ⟨m, hmem, rfl⟩
    have hsome : (h.versions.find? fun u ↦ CreatedIn (toTimeT m.createdAt) u).isSome = true :=
      List.find?_isSome.2 ⟨m, hmem, decide_eq_true rfl⟩
    obtain ⟨v, hv⟩ := Option.isSome_iff_exists.1 hsome
    obtain ⟨hexact, hlatest⟩ := hsurvive _ v hv
    rw [getVersionAt_copy hcopy hex hle hlast, hv]
    rcases hle.lt_or_eq with hlt | heq
    · have hnone : ∀ u ∈ h.versions, ¬CreatedIn (toTimeT m.createdAt + 1) u := by
        intro u hu hus
        have hu' := hlast u hu
        rw [CreatedIn] at hus
        omega
      rw [getVersionAt_last hdated hex hlt hlast, hlatest hnone]
      exact congrArg some v.toSecond_toSecond
    · rw [heq] at hexact
      obtain ⟨e, he, -⟩ := Option.map_eq_some_iff.1 hexact
      rw [getVersionAt_eq_find? ⟨e, List.mem_of_find?_eq_some he, by
        simpa using List.find?_some he⟩ le_rfl fun _ _ hle ↦ hle, hexact]
      exact congrArg some v.toSecond_toSecond

include hdated hcopy in
/-- Lookups in the copy find what they have found before exactly if the lookups survive. -/
theorem lookup_copy_iff :
    (∀ seconds, (h'.getVersionAt (fromTimeT seconds)).map RuleVersion.toSecond =
      (h.getVersionAt (fromTimeT seconds)).map RuleVersion.toSecond) ↔ h.LookupsSurvive :=
  ⟨lookupsSurvive_of_copy hdated hcopy, lookup_copy_of_survive hdated hcopy⟩

end Lookup

/-- **The time line.** It is kept by a copy whose times were moved by the offset of a time zone
exactly if there is no offset and the lookups survive. -/
theorem timeLineKeptBy_moved_iff {zone : TimeZone} (hdated : ∀ v ∈ h.versions, IsDated v.createdAt)
    (hmoved : h'.versions = h.versions.map (RuleVersion.moved zone)) :
    h.TimeLineKeptBy h' ↔
      (∀ v ∈ h.versions, zone.offset (toTimeT v.createdAt) = 0) ∧ h.LookupsSurvive := by
  have hversions : h'.versions.map RuleVersion.toSecond = h.versions.map RuleVersion.toSecond ↔
      ∀ v ∈ h.versions, zone.offset (toTimeT v.createdAt) = 0 := by
    rw [hmoved, List.map_map, List.map_inj_left]
    exact forall₂_congr fun v _ ↦ RuleVersion.toSecond_moved
  have hcopy (hzone : ∀ v ∈ h.versions, zone.offset (toTimeT v.createdAt) = 0) :
      h'.versions = h.versions.map RuleVersion.toSecond := by
    rw [hmoved]
    refine List.map_congr_left fun v hv ↦ ?_
    rw [RuleVersion.moved, hzone v hv, sub_zero]
    rfl
  constructor
  · rintro ⟨hkept, hlookup⟩
    have hzone := hversions.1 hkept
    exact ⟨hzone, (lookup_copy_iff hdated (hcopy hzone)).1 hlookup⟩
  · rintro ⟨hzone, hsurvive⟩
    exact ⟨hversions.2 hzone, (lookup_copy_iff hdated (hcopy hzone)).2 hsurvive⟩

end RuleVersionHistory

/-! ### Exports -/

/-- The version has a priority of type `int` and a time from 1970 to 9999. -/
structure RuleVersion.Exportable (v : RuleVersion) : Prop where
  priority : toInt32 v.priority = v.priority
  createdAt : IsDated v.createdAt

/-- The strings of the version are C strings. -/
structure RuleVersion.HasCStrings (v : RuleVersion) : Prop where
  versionId : NulFree v.versionId
  ruleName : NulFree v.ruleName
  expression : NulFree v.expression
  action : NulFree v.action
  author : NulFree v.author
  changeSummary : NulFree v.changeSummary
  parentVersionId : NulFree v.parentVersionId

section Export

variable {zone : TimeZone} {now : Time} {v : RuleVersion} {h : RuleVersionHistory}

theorem RuleVersion.reread_eq_moved (hv : v.Exportable) :
    v.reread (zone.jsonCalendar now) = v.moved zone := by
  have hread : (zone.jsonCalendar now).readIso (putIso v.createdAt) =
      fromTimeT (toTimeT v.createdAt - zone.offset (toTimeT v.createdAt)) := by
    show fromTimeT (zone.mktime (getIso (putIso v.createdAt)).1) = _
    rw [getIso_putIso hv.createdAt, TimeZone.mktime, CivilTime.toSeconds_ofSeconds]
  rw [reread, moved, hv.priority, ← hread]
  rfl

theorem Xml.readTime_putIso {t : Time} (ht : IsDated t) :
    readTime (zone.xmlCalendar now) (putIso t) =
      fromTimeT (toTimeT t - zone.offset (toTimeT t)) := by
  have hread (text : String) : (zone.xmlCalendar now).readIso text =
      if (getIso text).2 then fromTimeT (zone.mktime (getIso text).1) else now := rfl
  have hne : putIso t ≠ "" := by
    obtain ⟨c, rest, hcons, -⟩ := exists_putIso_eq_cons ht
    intro hempty
    rw [hempty] at hcons
    cases hcons
  rw [readTime, if_neg hne, hread, getIso_putIso ht, if_pos rfl, TimeZone.mktime,
    CivilTime.toSeconds_ofSeconds]

theorem Xml.rereadVersion_eq_moved {lib : PugiXml} (hreads : lib.ReadsValues) (hv : v.Exportable)
    (hstrings : v.HasCStrings) :
    rereadVersion lib (zone.xmlCalendar now) v = v.moved zone := by
  have htext : (zone.xmlCalendar now).isoText v.createdAt = putIso v.createdAt := rfl
  have hpriority : lib.intText 0 (.element "priority" [] (toString v.priority) []) = v.priority :=
    (if_neg (toString_int_ne_empty v.priority)).trans (hreads.asInt_toString _ hv.priority)
  rw [rereadVersion, RuleVersion.moved, hpriority, htext,
    cStr_eq_self (nulFree_putIso hv.createdAt), Xml.readTime_putIso hv.createdAt,
    cStr_eq_self hstrings.versionId, cStr_eq_self hstrings.ruleName,
    cStr_eq_self hstrings.expression, cStr_eq_self hstrings.action, cStr_eq_self hstrings.author,
    cStr_eq_self hstrings.changeSummary, cStr_eq_self hstrings.parentVersionId]

variable (zone now h)

/-- Exporting the history to JSON and importing it keeps its time line. -/
def JsonKeepsTimeLine (lib : IndentingJson) : Prop :=
  ∃ text h', serializeHistory lib (zone.jsonCalendar now) h = .ok text ∧
    deserializeHistory lib (zone.jsonCalendar now) text = some h' ∧ h.TimeLineKeptBy h'

/-- Exporting the history to XML and importing it keeps its time line. -/
def XmlKeepsTimeLine (lib : PugiXml) : Prop :=
  ∃ h', Xml.deserializeHistory lib (zone.xmlCalendar now)
    (Xml.serializeHistory lib (zone.xmlCalendar now) h) = some h' ∧ h.TimeLineKeptBy h'

/-- No version is moved by the time zone, and no lookup depends on the fractions of seconds. -/
def TimeLineSurvives : Prop :=
  (∀ v ∈ h.versions, zone.offset (toTimeT v.createdAt) = 0) ∧ h.LookupsSurvive

variable {zone now h}

theorem jsonKeepsTimeLine_iff {lib : IndentingJson} (hversions : ∀ v ∈ h.versions, v.Exportable)
    (hlib : lib.RestoresBoth (h.toJson (zone.jsonCalendar now))) :
    JsonKeepsTimeLine zone now h lib ↔ TimeLineSurvives zone h := by
  obtain ⟨text, hdump, hparse⟩ := hlib.indented
  have hwrite : serializeHistory lib (zone.jsonCalendar now) h = .ok text := by
    rw [serializeHistory, hdump]
    rfl
  have hread : deserializeHistory lib (zone.jsonCalendar now) text = some
      { ruleName := h.ruleName, versions := h.versions.map (RuleVersion.moved zone) } := by
    rw [deserializeHistory, hparse]
    show (parseHistory _ (h.toJson _)).toOption = _
    rw [parseHistory_toJson,
      List.map_congr_left fun v hv ↦ RuleVersion.reread_eq_moved (hversions v hv)]
    rfl
  have hiff : h.TimeLineKeptBy
      { ruleName := h.ruleName, versions := h.versions.map (RuleVersion.moved zone) } ↔
        TimeLineSurvives zone h :=
    RuleVersionHistory.timeLineKeptBy_moved_iff (fun v hv ↦ (hversions v hv).createdAt) rfl
  rw [← hiff]
  constructor
  · rintro ⟨text', h', htext', hh', hkept⟩
    obtain rfl := Except.ok.inj (hwrite.symm.trans htext')
    obtain rfl := Option.some.inj (hread.symm.trans hh')
    exact hkept
  · exact fun hkept ↦ ⟨text, _, hwrite, hread, hkept⟩

theorem xmlKeepsTimeLine_iff {lib : PugiXml} (hreads : lib.ReadsValues)
    (hversions : ∀ v ∈ h.versions, v.Exportable) (hstrings : ∀ v ∈ h.versions, v.HasCStrings)
    (hlib : lib.Restores Xml.exportIndent
      (.document (Xml.historyElement (zone.xmlCalendar now) h))) :
    XmlKeepsTimeLine zone now h lib ↔ TimeLineSurvives zone h := by
  have hname : (Xml.historyElement (zone.xmlCalendar now) h).name = "ruleVersionHistory" := rfl
  have hread : Xml.deserializeHistory lib (zone.xmlCalendar now)
      (Xml.serializeHistory lib (zone.xmlCalendar now) h) = some
        { ruleName := cStr h.ruleName, versions := h.versions.map (RuleVersion.moved zone) } := by
    rw [Xml.deserializeHistory, Xml.serializeHistory, show lib.load _ = _ from hlib]
    dsimp only
    rw [XmlNode.child?_document, if_pos hname, Option.map_some,
      Xml.parseHistory_historyElement hreads, List.map_congr_left fun v hv ↦
        Xml.rereadVersion_eq_moved hreads (hversions v hv) (hstrings v hv)]
  have hiff : h.TimeLineKeptBy
      { ruleName := cStr h.ruleName, versions := h.versions.map (RuleVersion.moved zone) } ↔
        TimeLineSurvives zone h :=
    RuleVersionHistory.timeLineKeptBy_moved_iff (fun v hv ↦ (hversions v hv).createdAt) rfl
  rw [← hiff]
  constructor
  · rintro ⟨h', hh', hkept⟩
    obtain rfl := Option.some.inj (hread.symm.trans hh')
    exact hkept
  · exact fun hkept ↦ ⟨_, hread, hkept⟩

end Export

/-- Whatever the time zone is: an export to JSON or to XML keeps the time line exactly if no version
is moved by the time zone, and no lookup depends on the fractions of seconds. -/
theorem timeLine_kept_iff (zone : TimeZone) (now : Time) (h : RuleVersionHistory)
    (hversions : ∀ v ∈ h.versions, v.Exportable) :
    (∀ lib : IndentingJson, lib.RestoresBoth (h.toJson (zone.jsonCalendar now)) →
      (JsonKeepsTimeLine zone now h lib ↔ TimeLineSurvives zone h)) ∧
    ∀ lib : PugiXml, lib.ReadsValues →
      lib.Restores Xml.exportIndent (.document (Xml.historyElement (zone.xmlCalendar now) h)) →
      (∀ v ∈ h.versions, v.HasCStrings) →
      (XmlKeepsTimeLine zone now h lib ↔ TimeLineSurvives zone h) :=
  ⟨fun _ hlib ↦ jsonKeepsTimeLine_iff hversions hlib,
    fun _ hreads hlib hstrings ↦ xmlKeepsTimeLine_iff hreads hversions hstrings hlib⟩

/-! ### Examples -/

/-- Two versions that were created within two minutes. -/
def datedHistory : RuleVersionHistory where
  ruleName := "7"
  versions := [
    { versionId := "20240518143022-1", ruleName := "7", expression := "total > 100",
      createdAt := fromTimeT 1716042622 },
    { versionId := "20240518143152-2", ruleName := "7", expression := "total > 250",
      createdAt := fromTimeT 1716042712, parentVersionId := "20240518143022-1" }]

def utc : TimeZone where
  offset _ := 0

/-- A time zone one hour ahead of UTC. -/
def hourAhead : TimeZone where
  offset _ := 3600

theorem datedHistory_exportable : ∀ v ∈ datedHistory.versions, v.Exportable := by
  intro v hv
  rcases List.mem_pair.1 hv with rfl | rfl
  · exact ⟨by decide, by decide⟩
  · exact ⟨by decide, by decide⟩

theorem datedHistory_hasCStrings : ∀ v ∈ datedHistory.versions, v.HasCStrings := by
  intro v hv
  rcases List.mem_pair.1 hv with rfl | rfl
  · constructor <;> decide
  · constructor <;> decide

/-- A JSON library that knows the document of the history. -/
abbrev datedJson (zone : TimeZone) : IndentingJson :=
  indentingLibraryFor [datedHistory.toJson (zone.jsonCalendar 0)]

/-- An XML library that knows the document of the history. -/
abbrev datedXml (zone : TimeZone) : PugiXml :=
  Xml.libraryFor [.document (Xml.historyElement (zone.xmlCalendar 0) datedHistory)]

theorem datedJson_restores (zone : TimeZone) :
    (datedJson zone).RestoresBoth (datedHistory.toJson (zone.jsonCalendar 0)) :=
  indentingLibraryFor_restores fun _ htext ↦ List.find?_cons_of_pos (decide_eq_true htext)

theorem datedXml_restores (zone : TimeZone) :
    (datedXml zone).Restores Xml.exportIndent
      (.document (Xml.historyElement (zone.xmlCalendar 0) datedHistory)) :=
  Xml.libraryFor_restores_head (.inr rfl) _ _

/-- In UTC whole seconds are kept. -/
theorem datedHistory_keptInUtc :
    JsonKeepsTimeLine utc 0 datedHistory (datedJson utc) ∧
      XmlKeepsTimeLine utc 0 datedHistory (datedXml utc) := by
  have hsurvives : TimeLineSurvives utc datedHistory :=
    ⟨fun _ _ ↦ rfl, RuleVersionHistory.lookupsSurvive_of_whole (by decide)⟩
  have hiff := timeLine_kept_iff utc 0 datedHistory datedHistory_exportable
  exact ⟨(hiff.1 _ (datedJson_restores utc)).2 hsurvives,
    (hiff.2 _ (Xml.libraryFor_readsValues _) (datedXml_restores utc)
      datedHistory_hasCStrings).2 hsurvives⟩

/-- One hour ahead of UTC all versions are imported with times one hour too early. -/
theorem datedHistory_notKept_hourAhead :
    (∃ lib : IndentingJson, lib.RestoresBoth (datedHistory.toJson (hourAhead.jsonCalendar 0)) ∧
      ¬JsonKeepsTimeLine hourAhead 0 datedHistory lib) ∧
    ∃ lib : PugiXml, lib.ReadsValues ∧
      lib.Restores Xml.exportIndent
        (.document (Xml.historyElement (hourAhead.xmlCalendar 0) datedHistory)) ∧
      ¬XmlKeepsTimeLine hourAhead 0 datedHistory lib := by
  have hmoved : ¬TimeLineSurvives hourAhead datedHistory :=
    fun h ↦ absurd (h.1 _ List.mem_cons_self) (by decide)
  have hjson := datedJson_restores hourAhead
  have hxml := datedXml_restores hourAhead
  have hreads := Xml.libraryFor_readsValues
    [.document (Xml.historyElement (hourAhead.xmlCalendar 0) datedHistory)]
  exact ⟨⟨_, hjson, mt (jsonKeepsTimeLine_iff datedHistory_exportable hjson).1 hmoved⟩,
    _, hreads, hxml, mt (xmlKeepsTimeLine_iff hreads datedHistory_exportable
      datedHistory_hasCStrings hxml).1 hmoved⟩

end FastRules
