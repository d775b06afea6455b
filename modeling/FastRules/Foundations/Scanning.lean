import Mathlib.Data.List.TakeWhile
import Mathlib.Order.Basic

/-!
# Scanning for a pattern

A scan looks for a pattern in a text, and goes on after each occurrence that it finds. It finds all
occurrences if the pattern cannot overlap itself (`mem_scan`). A search from a position on finds the
next one at which the pattern stands (`exists_of_find`).
-/

namespace Scanning

variable {α : Type*} {p s t l r : List α}

/-- No proper end of the pattern is a beginning of it. -/
def Unbordered (p : List α) : Prop :=
  ∀ n < p.length, 0 < n → p.drop n ≠ p.take (p.length - n)

instance [DecidableEq α] (p : List α) : Decidable (Unbordered p) :=
  inferInstanceAs (Decidable (∀ n < p.length, 0 < n → p.drop n ≠ p.take (p.length - n)))

/-- Occurrences of such a pattern do not overlap. -/
theorem Unbordered.length_le (hp : Unbordered p) (h : l ++ p ++ t = r ++ p ++ s)
    (hlt : l.length < r.length) : (l ++ p).length ≤ r.length := by
  by_contra hover
  rw [List.length_append] at hover
  obtain ⟨m, rfl⟩ : l <+: r := List.prefix_of_prefix_length_le
    ⟨p ++ t, (List.append_assoc ..).symm⟩ ⟨p ++ s, by rw [h, List.append_assoc]⟩ hlt.le
  rw [List.length_append] at hover hlt
  rw [List.append_assoc, List.append_assoc, List.append_assoc] at h
  refine hp m.length (by omega) (by omega) ?_
  -- the second occurrence begins `m.length` characters after the first
  have hdrop : p.drop m.length ++ t = p ++ s := by
    have hm := congrArg (List.drop m.length) (List.append_cancel_left h)
    rwa [List.drop_append_of_le_length (by omega), List.drop_left] at hm
  have htake := congrArg (List.take (p.length - m.length)) hdrop
  rwa [List.take_append_of_le_length (by rw [List.length_drop]),
    List.take_append_of_le_length (by omega),
    List.take_of_length_le (by rw [List.length_drop])] at htake

/-! ### Positions -/

/-- The pattern stands in the text from that position on. -/
def StandsAt (p s : List α) (i : ℕ) : Prop :=
  i ≤ s.length ∧ p <+: s.drop i

/-- An occurrence as a position. -/
theorem standsAt_iff {i : ℕ} :
    StandsAt p s i ↔ ∃ l r, s = l ++ p ++ r ∧ l.length = i := by
  constructor
  · rintro ⟨hle, r, hr⟩
    refine ⟨s.take i, r, ?_, List.length_take_of_le hle⟩
    rw [List.append_assoc, hr, List.take_append_drop]
  · rintro ⟨l, r, rfl, rfl⟩
    rw [List.append_assoc]
    exact ⟨by simp, by rw [List.drop_left]; exact List.prefix_append p r⟩

theorem mem_positions {pos i : ℕ} (h : StandsAt p s i) :
    i ∈ List.range' pos (s.length + 1 - pos) ↔ pos ≤ i := by
  have hle := h.1
  rw [List.mem_range'_1]
  omega

variable [DecidableEq α]

/-! ### Scans -/

/-- What comes after the first occurrence of the pattern. -/
def after (p : List α) : List α → Option (List α)
  | [] => if p = [] then some [] else none
  | c :: s => if p <+: c :: s then some ((c :: s).drop p.length) else after p s

theorem after_of_starts (h : p <+: s) : after p s = some (s.drop p.length) := by
  cases s with
  | nil =>
    obtain rfl := List.prefix_nil.1 h
    rfl
  | cons c s => exact if_pos h

theorem after_cons_of_not_starts {c : α} (h : ¬p <+: c :: s) : after p (c :: s) = after p s :=
  if_neg h

/-- What is found is the first occurrence. -/
theorem exists_of_after (h : after p s = some r) :
    ∃ l, s = l ++ p ++ r ∧ ∀ l' t, s = l' ++ p ++ t → l.length ≤ l'.length := by
  induction s with
  | nil =>
    rw [after] at h
    split_ifs at h with hp
    obtain rfl := Option.some.inj h
    exact ⟨[], by simp [hp], fun _ _ _ ↦ Nat.zero_le _⟩
  | cons c s ih =>
    by_cases hp : p <+: c :: s
    · rw [after_of_starts hp] at h
      obtain ⟨t, ht⟩ := hp
      refine ⟨[], ?_, fun _ _ _ ↦ Nat.zero_le _⟩
      rw [← Option.some.inj h, ← ht, List.drop_left, List.nil_append]
    · rw [after_cons_of_not_starts hp] at h
      obtain ⟨l, rfl, hfirst⟩ := ih h
      refine ⟨c :: l, rfl, fun l' t ht ↦ ?_⟩
      rcases l' with - | ⟨d, l'⟩
      · exact absurd ⟨t, ht.symm⟩ hp
      · exact Nat.succ_le_succ (hfirst l' t (List.cons.inj ht).2)

/-- An occurrence is found. -/
theorem after_isSome (l t : List α) : (after p (l ++ p ++ t)).isSome := by
  induction l with
  | nil =>
    rw [List.nil_append, after_of_starts (List.prefix_append p t)]
    rfl
  | cons c l ih =>
    by_cases hp : p <+: c :: l ++ p ++ t
    · rw [after_of_starts hp]
      rfl
    · exact (after_cons_of_not_starts hp).symm ▸ ih

theorem length_lt_of_after (hp : p ≠ []) (h : after p s = some r) : r.length < s.length := by
  obtain ⟨l, rfl, -⟩ := exists_of_after h
  have hpos := List.length_pos_iff.2 hp
  simp only [List.length_append]
  omega

/-- What comes after each of the occurrences that are found. -/
def scan (p : List α) (hp : p ≠ []) (s : List α) : List (List α) :=
  match _h : after p s with
  | none => []
  | some r => r :: scan p hp r
  termination_by s.length
  decreasing_by exact length_lt_of_after hp ‹_›

theorem scan_of_none (hp : p ≠ []) (h : after p s = none) : scan p hp s = [] := by
  rw [scan]
  split
  · rfl
  · next hr => cases h.symm.trans hr

theorem scan_of_some (hp : p ≠ []) (h : after p s = some r) : scan p hp s = r :: scan p hp r := by
  rw [scan]
  split
  · next hr => cases h.symm.trans hr
  · next hr =>
    cases h.symm.trans hr
    rfl

/-- A scan for a pattern that cannot overlap itself finds all occurrences. -/
theorem mem_scan (hborder : Unbordered p) (hp : p ≠ []) :
    t ∈ scan p hp s ↔ ∃ l, s = l ++ p ++ t := by
  induction hn : s.length using Nat.strong_induction_on generalizing s with
  | h n ih =>
    rcases hafter : after p s with - | r
    · rw [scan_of_none hp hafter]
      refine ⟨fun h ↦ absurd h List.not_mem_nil, ?_⟩
      rintro ⟨l, rfl⟩
      have hsome := after_isSome (p := p) l t
      rw [hafter] at hsome
      cases hsome
    · rw [scan_of_some hp hafter, List.mem_cons,
        ih r.length (hn ▸ length_lt_of_after hp hafter) rfl]
      obtain ⟨l, rfl, hfirst⟩ := exists_of_after hafter
      constructor
      · rintro (rfl | ⟨m, rfl⟩)
        · exact ⟨l, rfl⟩
        · exact ⟨l ++ p ++ m, by simp only [List.append_assoc]⟩
      · rintro ⟨l', h⟩
        rcases (hfirst l' t h).eq_or_lt with heq | hlt
        · -- the first occurrence itself
          rw [List.append_assoc, List.append_assoc] at h
          exact .inl (List.append_cancel_left (List.append_inj h heq).2).symm
        · have hle := hborder.length_le h hlt
          obtain ⟨m, rfl⟩ : l ++ p <+: l' := List.prefix_of_prefix_length_le
            ⟨r, rfl⟩ ⟨p ++ t, by rw [h, List.append_assoc]⟩ hle
          rw [List.append_assoc (l ++ p), List.append_assoc (l ++ p)] at h
          exact .inr ⟨m, List.append_cancel_left h⟩

/-! ### Searching -/

instance (p s : List α) (i : ℕ) : Decidable (StandsAt p s i) :=
  inferInstanceAs (Decidable (_ ∧ _))

/-- The first position, from `pos` on, at which the pattern stands. -/
def find (p s : List α) (pos : ℕ) : Option ℕ :=
  (List.range' pos (s.length + 1 - pos)).find? fun i ↦ decide (StandsAt p s i)

theorem find_eq_none_iff {pos : ℕ} :
    find p s pos = none ↔ ∀ i, pos ≤ i → ¬StandsAt p s i := by
  simp only [find, List.find?_eq_none, decide_eq_true_iff]
  exact ⟨fun h i hi hs ↦ h i ((mem_positions hs).2 hi) hs,
    fun h i hi hs ↦ h i ((mem_positions hs).1 hi) hs⟩

/-- What is found is a position of the pattern, and none is passed over. -/
theorem exists_of_find {pos i : ℕ} (h : find p s pos = some i) :
    pos ≤ i ∧ StandsAt p s i ∧ ∀ j, pos ≤ j → j < i → ¬StandsAt p s j := by
  obtain ⟨hstands, before, after, hrange, hbefore⟩ := List.find?_eq_some_iff_append.1 h
  have hi : StandsAt p s i := of_decide_eq_true hstands
  have hmem : i ∈ List.range' pos (s.length + 1 - pos) := List.mem_of_find?_eq_some h
  refine ⟨(mem_positions hi).1 hmem, hi, fun j hj hlt hs ↦ ?_⟩
  have hsorted : (List.range' pos (s.length + 1 - pos)).Pairwise (· < ·) :=
    List.pairwise_lt_range'
  rw [hrange] at hsorted
  have hmem : j ∈ before ++ i :: after := hrange ▸ (mem_positions hs).2 hj
  rcases List.mem_append.1 hmem with hmem | hmem
  · simpa [hs] using hbefore j hmem
  · have hle : i ≤ j := by
      rcases List.mem_cons.1 hmem with rfl | hmem
      · exact le_rfl
      · exact (List.rel_of_pairwise_cons (List.pairwise_append.1 hsorted).2.1 hmem).le
    omega

end Scanning
