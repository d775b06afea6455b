import Mathlib.Data.List.AList
import Mathlib.Logic.Function.Basic

/-!
# Addresses

Tables, and a heap with the handles of a client. An address is used again after the object at it is
gone, so a handle says which object is meant only as long as that object lives. The client's own
list of what it was given goes by the order of creation, in which nothing is used twice; the two
`Represents` each other, and calls through handles do to the heap what they do to the list.
-/

namespace Addresses

/-! ### Tables -/

section Tables

variable {κ β : Type} [DecidableEq κ] {table : AList fun _ : κ ↦ β} {k k' : κ} {v v' : β}

theorem lookup_insert_eq_some_iff :
    (table.insert k v).lookup k' = some v' ↔
      k' = k ∧ v = v' ∨ k' ≠ k ∧ table.lookup k' = some v' := by
  rcases eq_or_ne k' k with rfl | hne
  · rw [AList.lookup_insert, Option.some_inj]
    simp
  · rw [AList.lookup_insert_ne hne]
    simp [hne]

theorem lookup_erase_eq_some_iff :
    (table.erase k).lookup k' = some v ↔ k' ≠ k ∧ table.lookup k' = some v := by
  rcases eq_or_ne k' k with rfl | hne
  · simp [AList.lookup_erase]
  · simp [AList.lookup_erase_ne hne, hne]

theorem mem_of_lookup (h : table.lookup k = some v) : k ∈ table :=
  AList.lookup_isSome.1 (h ▸ rfl)

theorem exists_lookup (h : k ∈ table) : ∃ v, table.lookup k = some v :=
  Option.isSome_iff_exists.1 (AList.lookup_isSome.2 h)

theorem mem_values : v ∈ table.entries.map Sigma.snd ↔ ∃ k, table.lookup k = some v := by
  rw [List.mem_map]
  constructor
  · rintro ⟨⟨k, v⟩, hmem, rfl⟩
    exact ⟨k, AList.mem_lookup_iff.2 hmem⟩
  · rintro ⟨k, hk⟩
    exact ⟨⟨k, v⟩, AList.mem_lookup_iff.1 hk, rfl⟩

/-- Where different keys have different values, no value is there twice. -/
theorem nodup_values
    (h : ∀ k k' v, table.lookup k = some v → table.lookup k' = some v → k = k') :
    (table.entries.map Sigma.snd).Nodup := by
  refine List.Nodup.map_on ?_ table.nodupKeys.nodup
  rintro ⟨k, v⟩ hk ⟨k', v'⟩ hk' (rfl : v = v')
  rw [h k k' v (AList.mem_lookup_iff.2 hk) (AList.mem_lookup_iff.2 hk')]

end Tables

/-! ### Handles -/

variable {α : Type} {handles : List ℕ} {heap : ℕ → Option α} {store : List (Option α)} {n a : ℕ}
  {x : α}

/-- The heap has the objects of the list, at the addresses of the handles. -/
structure Represents (handles : List ℕ) (heap : ℕ → Option α) (store : List (Option α)) :
    Prop where
  length : handles.length = store.length
  object : ∀ (n a : ℕ) (x : α), handles[n]? = some a → store[n]? = some (some x) → heap a = some x
  named : ∀ (a : ℕ) (x : α), heap a = some x →
    ∃ n : ℕ, handles[n]? = some a ∧ store[n]? = some (some x)
  distinct : ∀ (n n' a : ℕ) (x x' : α), handles[n]? = some a → handles[n']? = some a →
    store[n]? = some (some x) → store[n']? = some (some x') → n = n'

theorem represents_nil (h : ∀ a, heap a = none) : Represents [] heap [] where
  length := rfl
  object _ _ _ hn := by cases hn
  named a x ha := by rw [h a] at ha; cases ha
  distinct _ _ _ _ _ hn := by cases hn

/-- What lives has a handle. -/
theorem Represents.handle (h : Represents handles heap store) (hx : store[n]? = some (some x)) :
    ∃ a, handles[n]? = some a ∧ heap a = some x := by
  obtain ⟨hlt, -⟩ := List.getElem?_eq_some_iff.1 hx
  have ha := List.getElem?_eq_getElem (h.length ▸ hlt)
  exact ⟨_, ha, h.object n _ x ha hx⟩

/-- An object is changed, or goes. -/
theorem Represents.set (h : Represents handles heap store) (ha : handles[n]? = some a)
    (hx : store[n]? = some (some x)) (value : Option α) :
    Represents handles (Function.update heap a value) (store.set n value) := by
  obtain ⟨hlt, -⟩ := List.getElem?_eq_some_iff.1 hx
  have hself : (store.set n value)[n]? = some value := List.getElem?_set_self hlt
  have hother : ∀ m ≠ n, (store.set n value)[m]? = store[m]? := fun m hm ↦
    List.getElem?_set_ne hm.symm
  have hlives : ∀ (m : ℕ) (y : α), (store.set n value)[m]? = some (some y) →
      ∃ y, store[m]? = some (some y) := fun m y hy ↦ by
    by_cases hm : m = n
    · exact ⟨x, hm ▸ hx⟩
    · exact ⟨y, hother m hm ▸ hy⟩
  refine ⟨by rw [List.length_set, h.length], fun m b y hb hy ↦ ?_, fun b y hb ↦ ?_,
    fun m m' b y y' hb hb' hy hy' ↦ ?_⟩
  · by_cases hm : m = n
    · subst hm
      rw [ha] at hb
      rw [hself] at hy
      rw [← Option.some.inj hb, Function.update_self, Option.some.inj hy]
    · rw [hother m hm] at hy
      rw [Function.update_of_ne, h.object m b y hb hy]
      rintro rfl
      exact hm (h.distinct m n b y x hb ha hy hx)
  · by_cases hba : b = a
    · subst hba
      rw [Function.update_self] at hb
      exact ⟨n, ha, hb ▸ hself⟩
    · rw [Function.update_of_ne hba] at hb
      obtain ⟨m, hm, hy⟩ := h.named b y hb
      have hne : m ≠ n := by
        rintro rfl
        exact hba (Option.some.inj (hm.symm.trans ha))
      exact ⟨m, hm, (hother m hne).trans hy⟩
  · obtain ⟨z, hz⟩ := hlives m y hy
    obtain ⟨z', hz'⟩ := hlives m' y' hy'
    exact h.distinct m m' b z z' hb hb' hz hz'

/-- A new object, at an address where nothing is. -/
theorem Represents.push (h : Represents handles heap store) (ha : heap a = none) (x : α) :
    Represents (handles ++ [a]) (Function.update heap a (some x)) (store ++ [some x]) := by
  have hcases : ∀ (m b : ℕ) (y : α), (handles ++ [a])[m]? = some b →
      (store ++ [some x])[m]? = some (some y) →
      handles[m]? = some b ∧ store[m]? = some (some y) ∧ b ≠ a ∨
        m = store.length ∧ b = a ∧ y = x := fun m b y hb hy ↦ by
    rcases lt_trichotomy m store.length with hm | rfl | hm
    · rw [List.getElem?_append_left (h.length ▸ hm)] at hb
      rw [List.getElem?_append_left hm] at hy
      refine .inl ⟨hb, hy, ?_⟩
      rintro rfl
      rw [h.object m b y hb hy] at ha
      cases ha
    · rw [← h.length, List.getElem?_concat_length] at hb
      rw [List.getElem?_concat_length] at hy
      cases hb
      cases hy
      exact .inr ⟨rfl, rfl, rfl⟩
    · rw [List.getElem?_eq_none (by rw [List.length_append]; exact hm)] at hy
      cases hy
  refine ⟨by rw [List.length_append, List.length_append, h.length]; rfl, fun m b y hb hy ↦ ?_,
    fun b y hb ↦ ?_, fun m m' b y y' hb hb' hy hy' ↦ ?_⟩
  · rcases hcases m b y hb hy with ⟨hb, hy, hne⟩ | ⟨-, rfl, rfl⟩
    · rw [Function.update_of_ne hne, h.object m b y hb hy]
    · rw [Function.update_self]
  · by_cases hba : b = a
    · subst hba
      rw [Function.update_self] at hb
      refine ⟨store.length, ?_, hb ▸ List.getElem?_concat_length⟩
      rw [← h.length, List.getElem?_concat_length]
    · rw [Function.update_of_ne hba] at hb
      obtain ⟨m, hm, hy⟩ := h.named b y hb
      exact ⟨m, (List.getElem?_append_left (List.getElem?_eq_some_iff.1 hm).1).trans hm,
        (List.getElem?_append_left (List.getElem?_eq_some_iff.1 hy).1).trans hy⟩
  · rcases hcases m b y hb hy with ⟨hb, hy, hne⟩ | ⟨rfl, rfl, rfl⟩ <;>
      rcases hcases m' b y' hb' hy' with ⟨hb', hy', hne'⟩ | ⟨rfl, hba, rfl⟩
    · exact h.distinct m m' b y y' hb hb' hy hy'
    · exact absurd hba hne
    · exact absurd rfl hne'
    · rfl

end Addresses
