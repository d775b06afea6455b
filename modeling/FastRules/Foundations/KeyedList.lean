import Mathlib.Data.List.Nodup

/-!
# Lists of entries under distinct keys

A map as the list of its entries. Where the keys are distinct, removing the entries under the key of
an entry removes that entry and no other.
-/

namespace KeyedList

variable {κ α : Type} {entries entries' : List (κ × α)} {key : κ} {e x : κ × α}

/-- No two entries have the same key. -/
def DistinctKeys (entries : List (κ × α)) : Prop :=
  (entries.map Prod.fst).Nodup

theorem distinctKeys_nil : DistinctKeys ([] : List (κ × α)) :=
  List.nodup_nil

theorem DistinctKeys.sublist (h : DistinctKeys entries) (hsub : List.Sublist entries' entries) :
    DistinctKeys entries' :=
  List.Nodup.sublist (hsub.map Prod.fst) h

/-- A key leads to one entry. -/
theorem DistinctKeys.eq_of_key (h : DistinctKeys entries) (he : e ∈ entries) (hx : x ∈ entries)
    (hkey : x.1 = e.1) : x = e :=
  List.inj_on_of_nodup_map h hx he hkey

variable [DecidableEq κ]

/-- An entry that is there if it has a value. -/
theorem lookup_optional [BEq κ] [LawfulBEq κ] (n : κ) (value : Option α) :
    (value.map (Prod.mk n)).toList.lookup key = if key = n then value else none := by
  rcases value with - | a
  · exact (ite_self none).symm
  · by_cases hkey : key = n
    · simp [hkey]
    · simp [hkey, List.lookup_cons, beq_false_of_ne hkey]

/-- Remove what is under a key. -/
def eraseKey (key : κ) (entries : List (κ × α)) : List (κ × α) :=
  entries.filter fun e ↦ e.1 ≠ key

theorem mem_eraseKey : x ∈ eraseKey key entries ↔ x ∈ entries ∧ x.1 ≠ key := by
  rw [eraseKey, List.mem_filter, decide_eq_true_iff]

theorem eraseKey_sublist (key : κ) (entries : List (κ × α)) :
    List.Sublist (eraseKey key entries) entries :=
  List.filter_sublist

/-- Removing what is under a key that is in use makes the list shorter. -/
theorem length_eraseKey_lt (he : e ∈ entries) : (eraseKey e.1 entries).length < entries.length :=
  List.length_filter_lt_length_iff_exists.2 ⟨e, he, by simp⟩

/-- Put an entry in the place of what was under its key. -/
theorem DistinctKeys.insert (h : DistinctKeys entries) (key : κ) (a : α) :
    DistinctKeys ((key, a) :: eraseKey key entries) := by
  refine List.nodup_cons.2 ⟨fun hkey ↦ ?_, h.sublist (eraseKey_sublist key entries)⟩
  obtain ⟨x, hx, hfst⟩ := List.mem_map.1 hkey
  exact (mem_eraseKey.1 hx).2 hfst

/-- With distinct keys, one entry is removed with its key. -/
theorem DistinctKeys.mem_eraseKey (h : DistinctKeys entries) (he : e ∈ entries) (hx : x ∈ entries) :
    x ∈ eraseKey e.1 entries ↔ x ≠ e := by
  rw [KeyedList.mem_eraseKey, and_iff_right hx]
  exact not_congr ⟨h.eq_of_key he hx, fun hxe ↦ congrArg Prod.fst hxe⟩

end KeyedList
