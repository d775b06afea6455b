import Mathlib.Data.Finmap
import Mathlib.Data.List.Nodup
import Mathlib.Logic.Function.Basic

/-!
# Stores of keyed records

A list of records, some of which have a key, used as a map: `lookup` finds the first record of a
key. Two ways to put a record (in the place of the first one of its key, or behind all the others)
and two ways to remove a key (every record of it, or the first one) are described by what they do to
`records`, the records of each key. Where every record has a key of its own they agree with the
operations of a finite map (`Represents`).
-/

namespace RecordStore

variable {κ α β : Type} [DecidableEq κ] (key : α → Option κ) (k : κ) (a : α) (l : List α)

/-- The records of a key, in order. -/
def records : List α :=
  l.filter fun b ↦ key b = some k

/-- The records that are not of a key, in order. -/
def others : List α :=
  l.filter fun b ↦ key b ≠ some k

/-- The first record of a key. -/
def lookup : Option α :=
  l.find? fun b ↦ key b = some k

/-- Put a record in the place of the first one of the key, or at the end without one. -/
def replaceOrAppend : List α → List α
  | [] => [a]
  | b :: l => if key b = some k then a :: l else b :: replaceOrAppend l

/-- Remove every record of the key and put one at the end. -/
def moveToEnd : List α :=
  others key k l ++ [a]

/-- Remove the first record of a key. -/
def eraseFirst : List α :=
  l.eraseP fun b ↦ key b = some k

variable {key k a l} {k' : κ} {b : α}

/-! ### The records of each key -/

theorem records_append (l₁ l₂ : List α) :
    records key k (l₁ ++ l₂) = records key k l₁ ++ records key k l₂ :=
  List.filter_append l₁ l₂

theorem records_cons_of_eq (h : key a = some k) : records key k (a :: l) = a :: records key k l :=
  List.filter_cons_of_pos (decide_eq_true h)

theorem records_cons_of_ne (h : key a ≠ some k) : records key k (a :: l) = records key k l :=
  List.filter_cons_of_neg (by simpa using h)

theorem lookup_eq_head? : lookup key k l = (records key k l).head? :=
  List.head?_filter.symm

theorem lookup_eq_none_iff : lookup key k l = none ↔ records key k l = [] := by
  rw [lookup_eq_head?, List.head?_eq_none_iff]

theorem records_others_self : records key k (others key k l) = [] := by
  rw [records, others, List.filter_filter, List.filter_eq_nil_iff]
  simp

theorem records_others_of_ne (h : k' ≠ k) : records key k' (others key k l) = records key k' l := by
  rw [records, others, List.filter_filter]
  refine List.filter_congr fun b _ ↦ ?_
  by_cases hb : key b = some k'
  · simp [hb, h]
  · simp [hb]

/-- With one record for each key at most, the keys that are in use are distinct. -/
theorem nodup_filterMap_key (h : ∀ k, (records key k l).length ≤ 1) : (l.filterMap key).Nodup := by
  rw [List.nodup_iff_count_le_one]
  intro k
  have hcount : (l.filterMap key).count k = (records key k l).length := by
    rw [List.count_filterMap, List.countP_eq_length_filter, records]
    simp only [beq_eq_decide]
  exact hcount ▸ h k

/-! ### Putting a record -/

variable (ha : key a = some k)

include ha in
theorem records_replaceOrAppend_self (l : List α) :
    records key k (replaceOrAppend key k a l) = a :: (records key k l).tail := by
  induction l with
  | nil => exact records_cons_of_eq ha
  | cons b l ih =>
    rw [replaceOrAppend]
    split_ifs with hb
    · rw [records_cons_of_eq ha, records_cons_of_eq hb, List.tail_cons]
    · rw [records_cons_of_ne hb, records_cons_of_ne hb, ih]

include ha in
theorem records_replaceOrAppend_of_ne (h : k' ≠ k) (l : List α) :
    records key k' (replaceOrAppend key k a l) = records key k' l := by
  have hne {b : α} (hb : key b = some k) : key b ≠ some k' := by
    rw [hb]
    exact fun he ↦ h (Option.some.inj he).symm
  induction l with
  | nil => exact records_cons_of_ne (hne ha)
  | cons b l ih =>
    rw [replaceOrAppend]
    split_ifs with hb
    · rw [records_cons_of_ne (hne ha), records_cons_of_ne (hne hb)]
    · by_cases hb' : key b = some k'
      · rw [records_cons_of_eq hb', records_cons_of_eq hb', ih]
      · rw [records_cons_of_ne hb', records_cons_of_ne hb', ih]

theorem mem_replaceOrAppend (h : b ∈ replaceOrAppend key k a l) : b = a ∨ b ∈ l := by
  induction l with
  | nil => exact .inl (List.mem_singleton.1 h)
  | cons c l ih =>
    rw [replaceOrAppend] at h
    split_ifs at h with hc
    · exact (List.mem_cons.1 h).imp_right (List.mem_cons_of_mem c)
    · rcases List.mem_cons.1 h with rfl | h
      · exact .inr List.mem_cons_self
      · exact (ih h).imp_right (List.mem_cons_of_mem c)

include ha in
theorem records_moveToEnd_self : records key k (moveToEnd key k a l) = [a] := by
  rw [moveToEnd, records_append, records_others_self, records_cons_of_eq ha]
  rfl

include ha in
theorem records_moveToEnd_of_ne (h : k' ≠ k) :
    records key k' (moveToEnd key k a l) = records key k' l := by
  have hne : key a ≠ some k' := by
    rw [ha]
    exact fun he ↦ h (Option.some.inj he).symm
  rw [moveToEnd, records_append, records_others_of_ne h, records_cons_of_ne hne]
  exact List.append_nil _

theorem mem_moveToEnd (h : b ∈ moveToEnd key k a l) : b = a ∨ b ∈ l :=
  (List.mem_append.1 h).symm.imp List.mem_singleton.1 List.mem_of_mem_filter

include ha in
/-- The record is found under its key, and everything else as before. -/
theorem lookup_replaceOrAppend (l : List α) : (lookup key · (replaceOrAppend key k a l)) =
    Function.update (lookup key · l) k (some a) := by
  funext k'
  by_cases hk : k' = k
  · rw [hk, Function.update_self, lookup_eq_head?, records_replaceOrAppend_self ha, List.head?_cons]
  · rw [Function.update_of_ne hk, lookup_eq_head?, records_replaceOrAppend_of_ne ha hk,
      lookup_eq_head?]

include ha in
theorem lookup_moveToEnd (l : List α) : (lookup key · (moveToEnd key k a l)) =
    Function.update (lookup key · l) k (some a) := by
  funext k'
  by_cases hk : k' = k
  · rw [hk, Function.update_self, lookup_eq_head?, records_moveToEnd_self ha, List.head?_cons]
  · rw [Function.update_of_ne hk, lookup_eq_head?, records_moveToEnd_of_ne ha hk, lookup_eq_head?]

/-! ### Removing a key -/

theorem tail_eq_nil_iff {l : List α} : l.tail = [] ↔ l.length ≤ 1 := by
  rw [← List.length_eq_zero_iff, List.length_tail, Nat.sub_eq_zero_iff_le]

theorem records_eraseFirst_self (l : List α) :
    records key k (eraseFirst key k l) = (records key k l).tail := by
  induction l with
  | nil => rfl
  | cons b l ih =>
    by_cases hb : key b = some k
    · rw [eraseFirst, List.eraseP_cons_of_pos (by simpa using hb), records_cons_of_eq hb,
        List.tail_cons]
    · rw [eraseFirst, List.eraseP_cons_of_neg (by simpa using hb), records_cons_of_ne hb,
        records_cons_of_ne hb]
      exact ih

/-- The records of all other keys stay as they are, in order. -/
theorem others_eraseFirst (l : List α) : others key k (eraseFirst key k l) = others key k l := by
  induction l with
  | nil => rfl
  | cons b l ih =>
    by_cases hb : key b = some k
    · rw [eraseFirst, List.eraseP_cons_of_pos (by simpa using hb), others, others,
        List.filter_cons_of_neg (by simpa using hb)]
    · have hkeep (l : List α) : others key k (b :: l) = b :: others key k l :=
        List.filter_cons_of_pos (by simpa using hb)
      rw [eraseFirst, List.eraseP_cons_of_neg (by simpa using hb), hkeep, hkeep]
      exact congrArg (b :: ·) ih

/-- The first record is the only one of its key. -/
theorem records_eraseFirst_self_eq_nil_iff :
    records key k (eraseFirst key k l) = [] ↔ (records key k l).length ≤ 1 := by
  rw [records_eraseFirst_self, tail_eq_nil_iff]

theorem records_eraseFirst_of_ne (h : k' ≠ k) :
    records key k' (eraseFirst key k l) = records key k' l := by
  rw [← records_others_of_ne h, others_eraseFirst, records_others_of_ne h]

/-! ### Putting several records -/

section Puts

variable {σ ρ : Type} {find : σ → κ → Option β} {put : σ → ρ → σ} {keyOf : ρ → κ} {entry : ρ → β}
  {s : σ} {r : ρ} {rs : List ρ}

/-- A put is found under its key, and changes nothing under other keys. -/
def IsPut (find : σ → κ → Option β) (put : σ → ρ → σ) (keyOf : ρ → κ) (entry : ρ → β) (r : ρ) :
    Prop :=
  ∀ s, find (put s r) = Function.update (find s) (keyOf r) (some (entry r))

/-- Values that are read of what is found. -/
theorem IsPut.map {γ : Type} (h : IsPut find put keyOf entry r) (f : β → γ) :
    IsPut (fun s k ↦ (find s k).map f) put keyOf (fun r ↦ f (entry r)) r := by
  intro s
  funext k
  show (find (put s r) k).map f =
    Function.update (fun k ↦ (find s k).map f) (keyOf r) (some (f (entry r))) k
  rw [h s]
  by_cases hk : k = keyOf r
  · rw [hk, Function.update_self, Function.update_self]
    rfl
  · rw [Function.update_of_ne hk, Function.update_of_ne hk]

theorem find_putAll_of_notMem (h : ∀ r ∈ rs, IsPut find put keyOf entry r)
    (hk : k ∉ rs.map keyOf) : find (rs.foldl put s) k = find s k := by
  induction rs generalizing s with
  | nil => rfl
  | cons r rs ih =>
    rw [List.map_cons, List.mem_cons, not_or] at hk
    rw [List.foldl_cons, ih (fun q hq ↦ h q (List.mem_cons_of_mem r hq)) hk.2,
      h r List.mem_cons_self, Function.update_of_ne hk.1]

/-- Each of several records with keys of their own is found after they were put. -/
theorem find_putAll_of_mem (h : ∀ r ∈ rs, IsPut find put keyOf entry r)
    (hkeys : (rs.map keyOf).Nodup) (hr : r ∈ rs) :
    find (rs.foldl put s) (keyOf r) = some (entry r) := by
  induction rs generalizing s with
  | nil => exact absurd hr List.not_mem_nil
  | cons q rs ih =>
    have hrest : ∀ q ∈ rs, IsPut find put keyOf entry q := fun p hp ↦
      h p (List.mem_cons_of_mem q hp)
    rw [List.map_cons, List.nodup_cons] at hkeys
    rw [List.foldl_cons]
    rcases List.mem_cons.1 hr with rfl | hr
    · rw [find_putAll_of_notMem hrest hkeys.1, h r List.mem_cons_self, Function.update_self]
    · exact ih hrest hkeys.2 hr

end Puts

/-! ### Stores and finite maps -/

/-- Every record has a key of its own, and the record of a key stands for what the map has under
it. -/
structure Represents (key : α → Option κ) (R : α → β → Prop) (l : List α)
    (m : Finmap fun _ : κ ↦ β) : Prop where
  keyed : ∀ b ∈ l, (key b).isSome
  unique : ∀ k, (records key k l).length ≤ 1
  lookup : ∀ k, Option.Rel R (lookup key k l) (m.lookup k)

namespace Represents

variable {R : α → β → Prop} {m : Finmap fun _ : κ ↦ β} {l' : List α} {v : β}

theorem empty (key : α → Option κ) (R : α → β → Prop) : Represents key R [] ∅ where
  keyed := fun _ hb ↦ absurd hb List.not_mem_nil
  unique := fun _ ↦ Nat.zero_le 1
  lookup := by
    intro k
    rw [Finmap.lookup_empty]
    exact .none

variable (h : Represents key R l m)

include h in
/-- A list that has one new record for a key, and otherwise what was there. -/
theorem insert (ha : key a = some k) (hv : R a v) (hmem : ∀ b ∈ l', b = a ∨ b ∈ l)
    (hself : records key k l' = [a])
    (hother : ∀ k', k' ≠ k → records key k' l' = records key k' l) :
    Represents key R l' (m.insert k v) where
  keyed := by
    intro b hb
    rcases hmem b hb with rfl | hb
    · rw [ha]
      rfl
    · exact h.keyed b hb
  unique := by
    intro k'
    by_cases hk : k' = k
    · rw [hk, hself]
      exact Nat.le_refl 1
    · rw [hother k' hk]
      exact h.unique k'
  lookup := by
    intro k'
    by_cases hk : k' = k
    · rw [hk, lookup_eq_head?, hself, Finmap.lookup_insert]
      exact .some hv
    · rw [lookup_eq_head?, hother k' hk, ← lookup_eq_head?, Finmap.lookup_insert_of_ne m hk]
      exact h.lookup k'

include h in
theorem replaceOrAppend (ha : key a = some k) (hv : R a v) :
    Represents key R (replaceOrAppend key k a l) (m.insert k v) := by
  refine h.insert ha hv (fun _ ↦ mem_replaceOrAppend) ?_ fun _ hk ↦
    records_replaceOrAppend_of_ne ha hk l
  rw [records_replaceOrAppend_self ha, tail_eq_nil_iff.2 (h.unique k)]

include h in
theorem moveToEnd (ha : key a = some k) (hv : R a v) :
    Represents key R (moveToEnd key k a l) (m.insert k v) :=
  h.insert ha hv (fun _ ↦ mem_moveToEnd) (records_moveToEnd_self ha) fun _ hk ↦
    records_moveToEnd_of_ne ha hk

include h in
/-- A list that has no record for a key, and otherwise what was there. -/
theorem erase (hmem : ∀ b ∈ l', b ∈ l) (hself : records key k l' = [])
    (hother : ∀ k', k' ≠ k → records key k' l' = records key k' l) :
    Represents key R l' (m.erase k) where
  keyed := fun b hb ↦ h.keyed b (hmem b hb)
  unique := by
    intro k'
    by_cases hk : k' = k
    · rw [hk, hself]
      exact Nat.zero_le 1
    · rw [hother k' hk]
      exact h.unique k'
  lookup := by
    intro k'
    by_cases hk : k' = k
    · rw [hk, lookup_eq_head?, hself, Finmap.lookup_erase]
      exact .none
    · rw [lookup_eq_head?, hother k' hk, ← lookup_eq_head?, Finmap.lookup_erase_ne hk]
      exact h.lookup k'

include h in
theorem others (k : κ) : Represents key R (others key k l) (m.erase k) :=
  h.erase (fun _ ↦ List.mem_of_mem_filter) records_others_self fun _ ↦ records_others_of_ne

include h in
/-- Where keys are unique it is enough to remove the first record. -/
theorem eraseFirst (k : κ) : Represents key R (eraseFirst key k l) (m.erase k) :=
  h.erase (fun _ ↦ List.mem_of_mem_eraseP) (records_eraseFirst_self_eq_nil_iff.2 (h.unique k))
    fun _ ↦ records_eraseFirst_of_ne

include h in
theorem isSome_lookup (k : κ) : (RecordStore.lookup key k l).isSome ↔ k ∈ m := by
  rw [← Finmap.lookup_isSome]
  generalize RecordStore.lookup key k l = o, m.lookup k = p, h.lookup k = hrel
  cases hrel with
  | some _ => exact Iff.rfl
  | none => exact Iff.rfl

include h in
theorem mem_iff : k ∈ m ↔ ∃ b ∈ l, key b = some k := by
  rw [← h.isSome_lookup, RecordStore.lookup, List.find?_isSome]
  simp only [decide_eq_true_eq]

include h in
/-- There are as many records as keys in the map. -/
theorem length_eq : l.length = m.keys.card := by
  have hnodup : (l.filterMap key).Nodup := nodup_filterMap_key h.unique
  have hkeys : (l.filterMap key).toFinset = m.keys := by
    ext k
    rw [List.mem_toFinset, List.mem_filterMap, Finmap.mem_keys, h.mem_iff]
  have hlength : (l.filterMap key).length = l.length := by
    rw [List.length_filterMap_eq_countP, List.countP_eq_length]
    exact h.keyed
  rw [← hkeys, List.toFinset_card_of_nodup hnodup, hlength]

end Represents

end RecordStore
