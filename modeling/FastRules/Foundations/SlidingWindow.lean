import Mathlib.Algebra.Order.Group.Defs
import Mathlib.Algebra.Order.Sub.Basic
import Mathlib.Data.List.Induction

/-!
# Sliding windows

A limiter by sliding window keeps the instants of what it has admitted in a queue, oldest first, and
lets the front expire before it looks. On a log in the order of time, expiry keeps exactly the
instants since the cutoff (`expire_since`), so the queue is the part of the log that is in the
window, however often and from wherever it has been trimmed (`Shows`).

If every instant of a log found fewer than `limit` others in the window before it (`Admitted`), no
closed interval of the width of the window holds more than `limit` of them
(`Admitted.length_within_le`).
-/

namespace SlidingWindow

variable {T : Type*} [LinearOrder T]

/-- Let the front of a queue expire. -/
def expire (cutoff : T) (window : List T) : List T :=
  window.dropWhile fun t ↦ t < cutoff

/-- What a log holds since the cutoff. -/
def since (cutoff : T) (log : List T) : List T :=
  log.filter fun t ↦ cutoff ≤ t

/-- What a log holds in a closed interval. -/
def within (first last : T) (log : List T) : List T :=
  log.filter fun t ↦ first ≤ t ∧ t ≤ last

variable {cutoff cutoff' t : T} {log window : List T}

/-! ### Expiry -/

theorem expire_eq_since (h : log.Pairwise (· ≤ ·)) : expire cutoff log = since cutoff log := by
  induction log with
  | nil => rfl
  | cons t log ih =>
    rw [List.pairwise_cons] at h
    by_cases ht : t < cutoff
    · rw [expire, since, List.dropWhile_cons_of_pos (by simpa using ht),
        List.filter_cons_of_neg (by simpa using ht)]
      exact ih h.2
    · -- everything behind an instant that has not expired is later still
      have hle : cutoff ≤ t := not_lt.1 ht
      rw [expire, since, List.dropWhile_cons_of_neg (by simpa using ht), eq_comm,
        List.filter_eq_self]
      refine fun u hu ↦ decide_eq_true ?_
      rcases List.mem_cons.1 hu with rfl | hu
      · exact hle
      · exact hle.trans (h.1 u hu)

theorem since_since (h : cutoff ≤ cutoff') :
    since cutoff' (since cutoff log) = since cutoff' log := by
  rw [since, since, since, List.filter_filter]
  refine List.filter_congr fun t _ ↦ ?_
  rw [← Bool.decide_and, decide_eq_decide]
  exact ⟨And.left, fun ht ↦ ⟨ht, h.trans ht⟩⟩

theorem since_append (cutoff : T) (log log' : List T) :
    since cutoff (log ++ log') = since cutoff log ++ since cutoff log' :=
  List.filter_append log log'

theorem since_eq_self (h : ∀ t ∈ log, cutoff ≤ t) : since cutoff log = log :=
  List.filter_eq_self.2 fun t ht ↦ decide_eq_true (h t ht)

theorem length_since_le (cutoff : T) (log : List T) : (since cutoff log).length ≤ log.length :=
  List.length_filter_le _ _

/-- A later cutoff leaves less. -/
theorem length_since_anti (h : cutoff ≤ cutoff') (log : List T) :
    (since cutoff' log).length ≤ (since cutoff log).length := by
  rw [← since_since h]
  exact length_since_le _ _

/-- What expires earlier is not missed later. -/
theorem since_expire (h : cutoff ≤ cutoff') (window : List T) :
    since cutoff' (expire cutoff window) = since cutoff' window := by
  induction window with
  | nil => rfl
  | cons t window ih =>
    by_cases ht : t < cutoff
    · rw [expire, List.dropWhile_cons_of_pos (by simpa using ht)]
      refine ih.trans (List.filter_cons_of_neg ?_).symm
      simpa using ht.trans_le h
    · rw [expire, List.dropWhile_cons_of_neg (by simpa using ht)]

/-! ### What a queue shows of a log -/

/-- The queue holds what the log holds since some instant that is no later than the cutoff. -/
def Shows (cutoff : T) (log window : List T) : Prop :=
  ∃ c ≤ cutoff, window = since c log

theorem Shows.mono (h : Shows cutoff log window) (hle : cutoff ≤ cutoff') :
    Shows cutoff' log window := by
  obtain ⟨c, hc, hwindow⟩ := h
  exact ⟨c, hc.trans hle, hwindow⟩

/-- When its front has expired, the queue holds what the log holds since the cutoff. -/
theorem Shows.expire_eq (h : Shows cutoff log window) (hsorted : log.Pairwise (· ≤ ·)) :
    expire cutoff window = since cutoff log := by
  obtain ⟨c, hc, rfl⟩ := h
  have hsince : (since c log).Pairwise (· ≤ ·) := hsorted.filter _
  rw [expire_eq_since hsince, since_since hc]

theorem Shows.expire (h : Shows cutoff log window) (hsorted : log.Pairwise (· ≤ ·)) :
    Shows cutoff log (expire cutoff window) :=
  ⟨cutoff, le_rfl, h.expire_eq hsorted⟩

/-- An instant is put at the end of the log and of the queue. -/
theorem Shows.concat (h : Shows cutoff log window) (ht : cutoff ≤ t) :
    Shows cutoff (log ++ [t]) (window ++ [t]) := by
  obtain ⟨c, hc, rfl⟩ := h
  refine ⟨c, hc, ?_⟩
  have hsingle : since c [t] = [t] := since_eq_self fun u hu ↦ by
    obtain rfl := List.mem_singleton.1 hu
    exact hc.trans ht
  rw [since_append, hsingle]

theorem shows_nil (cutoff : T) : Shows cutoff [] [] :=
  ⟨cutoff, le_rfl, rfl⟩

/-! ### Limits -/

section Limit

variable [AddCommGroup T] [IsOrderedAddMonoid T] {width : T} {limit : ℕ}

/-- When an instant was entered in the log, fewer than `limit` were in the window before it. -/
def Admitted (width : T) (limit : ℕ) (log : List T) : Prop :=
  ∀ before t, before ++ [t] <+: log → (since (t - width) before).length < limit

omit [IsOrderedAddMonoid T] in
theorem admitted_nil (width : T) (limit : ℕ) : Admitted width limit ([] : List T) := by
  intro before t h
  exact absurd (List.prefix_nil.1 h)
    (List.append_ne_nil_of_right_ne_nil before (List.cons_ne_nil t []))

omit [IsOrderedAddMonoid T] in
theorem Admitted.concat (h : Admitted width limit log)
    (ht : (since (t - width) log).length < limit) : Admitted width limit (log ++ [t]) := by
  intro before u hbefore
  rcases List.prefix_concat_iff.1 hbefore with heq | hbefore
  · obtain ⟨rfl, hu⟩ := List.append_inj' heq rfl
    obtain rfl := List.singleton_inj.1 hu
    exact ht
  · exact h before u hbefore

/-- **No closed interval of the width of the window holds more than the limit.** -/
theorem Admitted.length_within_le (h : Admitted width limit log) (first : T) :
    (within first (first + width) log).length ≤ limit := by
  induction log using List.reverseRecOn with
  | nil => exact Nat.zero_le limit
  | append_singleton log t ih =>
    have hlog : Admitted width limit log := fun before u hbefore ↦
      h before u (hbefore.trans (List.prefix_append log [t]))
    rw [within, List.filter_append, List.length_append]
    by_cases ht : first ≤ t ∧ t ≤ first + width
    · -- the others in the interval are in the window before the last one
      have hlt := h log t List.prefix_rfl
      have hle : (within first (first + width) log).length ≤ (since (t - width) log).length := by
        rw [within, since, ← List.countP_eq_length_filter, ← List.countP_eq_length_filter]
        refine List.countP_mono_left fun u _ hu ↦ decide_eq_true ?_
        exact (sub_le_iff_le_add.2 ht.2).trans (of_decide_eq_true hu).1
      rw [List.filter_cons_of_pos (by simpa using ht), List.filter_nil, List.length_singleton]
      exact Nat.succ_le_of_lt (hle.trans_lt hlt)
    · rw [List.filter_cons_of_neg (by simpa using ht), List.filter_nil, List.length_nil]
      exact ih hlog

end Limit

end SlidingWindow
