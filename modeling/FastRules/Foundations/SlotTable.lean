import FastRules.Foundations.KeyedList

/-!
# Slot tables

A table in which a key keeps the slot that it got first: what is put under the key later takes the
place of what was there. The table is the list of its slots, with the key of each.
-/

namespace SlotTable

open KeyedList

variable {κ α : Type} [DecidableEq κ] {slots entries : List (κ × α)} {e x : κ × α} {key : κ}

/-- Put an entry in the slot of its key, or in a new one. -/
def put (slots : List (κ × α)) (e : κ × α) : List (κ × α) :=
  if e.1 ∈ slots.map Prod.fst then slots.map fun x ↦ if x.1 = e.1 then e else x
  else slots ++ [e]

theorem put_of_not_mem (h : e.1 ∉ slots.map Prod.fst) : put slots e = slots ++ [e] :=
  if_neg h

theorem put_of_mem (h : e.1 ∈ slots.map Prod.fst) :
    put slots e = slots.map fun x ↦ if x.1 = e.1 then e else x :=
  if_pos h

/-- A key that has a slot keeps it. -/
theorem keys_put_of_mem (h : e.1 ∈ slots.map Prod.fst) :
    (put slots e).map Prod.fst = slots.map Prod.fst := by
  rw [put_of_mem h, List.map_map]
  refine List.map_congr_left fun x _ ↦ ?_
  rw [Function.comp_apply]
  split_ifs with hkey
  · exact hkey.symm
  · rfl

theorem keys_put_of_not_mem (h : e.1 ∉ slots.map Prod.fst) :
    (put slots e).map Prod.fst = slots.map Prod.fst ++ [e.1] := by
  rw [put_of_not_mem h, List.map_append]
  rfl

/-- A new key gets a slot after the others. -/
theorem getElem?_keys_put_of_not_mem (h : e.1 ∉ slots.map Prod.fst) {i : ℕ} :
    ((put slots e).map Prod.fst)[i]? = some key ↔
      (slots.map Prod.fst)[i]? = some key ∨ i = slots.length ∧ key = e.1 := by
  rw [keys_put_of_not_mem h, List.getElem?_append, List.length_map]
  split_ifs with hi
  · rw [or_iff_left]
    rintro ⟨rfl, -⟩
    exact Nat.lt_irrefl _ hi
  · rw [List.getElem?_singleton, List.getElem?_eq_none (by rw [List.length_map]; omega)]
    by_cases heq : i = slots.length
    · simp [heq, eq_comm]
    · simp [heq, Nat.sub_eq_zero_iff_le, show ¬i ≤ slots.length by omega]

theorem mem_keys_put :
    key ∈ (put slots e).map Prod.fst ↔ key = e.1 ∨ key ∈ slots.map Prod.fst := by
  by_cases h : e.1 ∈ slots.map Prod.fst
  · rw [keys_put_of_mem h, iff_or_self]
    exact fun hkey ↦ hkey ▸ h
  · rw [keys_put_of_not_mem h, List.mem_append, List.mem_singleton, or_comm]

theorem distinctKeys_put (h : DistinctKeys slots) : DistinctKeys (put slots e) := by
  by_cases hmem : e.1 ∈ slots.map Prod.fst
  · rw [DistinctKeys, keys_put_of_mem hmem]
    exact h
  · rw [DistinctKeys, keys_put_of_not_mem hmem]
    rw [← List.concat_eq_append]
    exact List.Nodup.concat hmem h

theorem mem_put : x ∈ put slots e ↔ x = e ∨ x ∈ slots ∧ x.1 ≠ e.1 := by
  by_cases h : e.1 ∈ slots.map Prod.fst
  · rw [put_of_mem h, List.mem_map]
    constructor
    · rintro ⟨y, hy, rfl⟩
      split_ifs with hkey
      · exact .inl rfl
      · exact .inr ⟨hy, hkey⟩
    · rintro (rfl | ⟨hx, hkey⟩)
      · obtain ⟨y, hy, hkey⟩ := List.mem_map.1 h
        exact ⟨y, hy, if_pos hkey⟩
      · exact ⟨x, hx, if_neg hkey⟩
  · rw [put_of_not_mem h, List.mem_append, List.mem_singleton, or_comm, and_iff_left_of_imp]
    exact fun hx hkey ↦ h (hkey ▸ List.mem_map_of_mem hx)

theorem length_le_length_put (slots : List (κ × α)) (e : κ × α) :
    slots.length ≤ (put slots e).length := by
  rw [put]
  split_ifs
  · exact Nat.le_of_eq (List.length_map _).symm
  · rw [List.length_append]
    exact Nat.le_add_right _ _

/-- With distinct keys, only the slot of the key changes. -/
theorem values_put_of_mem (hdistinct : DistinctKeys slots) {i : ℕ}
    (h : (slots.map Prod.fst)[i]? = some e.1) :
    (put slots e).map Prod.snd = (slots.map Prod.snd).set i e.2 := by
  have hi := (List.getElem?_eq_some_iff.1 h).1
  rw [put_of_mem (List.mem_of_getElem? h), List.map_map]
  refine List.ext_getElem? fun j ↦ ?_
  rw [List.getElem?_set, List.getElem?_map, List.getElem?_map, List.length_map]
  rw [List.length_map] at hi
  rcases eq_or_ne i j with rfl | hij
  · rw [if_pos rfl, if_pos hi]
    rw [List.getElem?_map] at h
    obtain ⟨x, hx, hkey⟩ := Option.map_eq_some_iff.1 h
    rw [hx, Option.map_some, Function.comp_apply, if_pos hkey]
  · rw [if_neg hij]
    refine Option.map_congr fun x hx ↦ ?_
    rw [Function.comp_apply, if_neg]
    intro hkey
    have hj : (slots.map Prod.fst)[j]? = some e.1 := by
      rw [List.getElem?_map, hx, Option.map_some, hkey]
    exact hij ((List.getElem?_inj (by rwa [List.length_map]) hdistinct).1 (h.trans hj.symm))

theorem values_put_of_not_mem (h : e.1 ∉ slots.map Prod.fst) :
    (put slots e).map Prod.snd = slots.map Prod.snd ++ [e.2] := by
  rw [put_of_not_mem h, List.map_append]
  rfl

/-! ### Many entries -/

theorem distinctKeys_foldl_put (h : DistinctKeys slots) :
    DistinctKeys (entries.foldl put slots) := by
  induction entries generalizing slots with
  | nil => exact h
  | cons e entries ih => exact ih (distinctKeys_put h)

theorem length_le_length_foldl_put (slots entries : List (κ × α)) :
    slots.length ≤ (entries.foldl put slots).length := by
  induction entries generalizing slots with
  | nil => exact Nat.le_refl _
  | cons e entries ih => exact Nat.le_trans (length_le_length_put slots e) (ih _)

theorem mem_keys_foldl_put :
    key ∈ (entries.foldl put slots).map Prod.fst ↔
      key ∈ entries.map Prod.fst ∨ key ∈ slots.map Prod.fst := by
  induction entries generalizing slots with
  | nil => simp
  | cons e entries ih =>
    rw [List.foldl_cons, ih, mem_keys_put, List.map_cons, List.mem_cons, or_left_comm, or_assoc]

/-- Of entries under distinct keys each is put, and what is under no key of theirs stays. -/
theorem mem_foldl_put (h : DistinctKeys entries) :
    x ∈ entries.foldl put slots ↔ x ∈ entries ∨ x ∈ slots ∧ x.1 ∉ entries.map Prod.fst := by
  induction entries generalizing slots with
  | nil => simp
  | cons e entries ih =>
    obtain ⟨hnot, hrest⟩ := List.nodup_cons.1 h
    rw [List.foldl_cons, ih hrest, mem_put, List.map_cons, List.mem_cons, List.mem_cons, not_or]
    constructor
    · rintro (hx | ⟨rfl | ⟨hx, hkey⟩, hother⟩)
      · exact .inl (.inr hx)
      · exact .inl (.inl rfl)
      · exact .inr ⟨hx, hkey, hother⟩
    · rintro ((rfl | hx) | ⟨hx, hkey, hother⟩)
      · exact .inr ⟨.inl rfl, hnot⟩
      · exact .inl hx
      · exact .inr ⟨.inr ⟨hx, hkey⟩, hother⟩

end SlotTable
