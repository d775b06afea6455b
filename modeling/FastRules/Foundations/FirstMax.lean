import Mathlib.Data.List.Find
import Mathlib.Data.List.MinMax

/-!
# The first of the greatest

A loop that replaces its candidate only by a greater one ends with the first of the greatest
elements, which is `List.argmax` (`foldl_improve`). What matters about it is the greatest value that
occurs: the loop finds the first element with this value (`argmax_filter_eq_find?`).
-/

namespace FirstMax

variable {α β : Type*} [LinearOrder β] {f : α → β} {p : α → Bool} {l l₁ l₂ : List α} {m : α}
  {b : β}

/-- One round of the loop, over the elements with the property. -/
def improve (f : α → β) (p : α → Bool) (best : Option α) (a : α) : Option α :=
  if p a then
    match best with
    | none => some a
    | some c => if f c < f a then some a else some c
  else best

theorem foldl_improve (f : α → β) (p : α → Bool) (l : List α) :
    l.foldl (improve f p) none = (l.filter p).argmax f := by
  induction l using List.reverseRecOn with
  | nil => rfl
  | append_singleton l a ih =>
    rw [List.foldl_append, ih, List.filter_append, List.foldl_cons, List.foldl_nil,
      improve.eq_def]
    by_cases ha : p a = true
    · rw [if_pos ha, List.filter_singleton, ha, Bool.cond_true, List.argmax_concat]
      rcases (l.filter p).argmax f with - | c <;> rfl
    · rw [if_neg ha, List.filter_singleton, Bool.eq_false_of_not_eq_true ha, Bool.cond_false,
        List.append_nil]

/-- Smaller elements before, and no greater ones behind. -/
theorem argmax_append_cons (h₁ : ∀ a ∈ l₁, f a < f m) (h₂ : ∀ a ∈ l₂, f a ≤ f m) :
    (l₁ ++ m :: l₂).argmax f = some m := by
  induction l₁ with
  | nil =>
    rw [List.nil_append, List.argmax_cons]
    rcases hc : l₂.argmax f with - | c
    · rfl
    · show (if f m < f c then some c else some m) = some m
      rw [if_neg (h₂ c (List.argmax_mem hc)).not_gt]
  | cons a l₁ ih =>
    rw [List.cons_append, List.argmax_cons, ih fun a ha ↦ h₁ a (List.mem_cons_of_mem _ ha)]
    show (if f a < f m then some m else some a) = some m
    rw [if_pos (h₁ a List.mem_cons_self)]

/-- The loop finds the first element with the greatest value that occurs. -/
theorem argmax_eq_find? (hex : ∃ a ∈ l, f a = b) (hle : ∀ a ∈ l, f a ≤ b) :
    l.argmax f = l.find? fun a ↦ f a = b := by
  obtain ⟨a, ha, hab⟩ := hex
  rcases hm : l.find? fun a ↦ f a = b with - | m
  · exact absurd (decide_eq_true hab) (List.find?_eq_none.1 hm a ha)
  · obtain ⟨hmb, l₁, l₂, rfl, hbefore⟩ := List.find?_eq_some_iff_append.1 hm
    obtain rfl : f m = b := of_decide_eq_true hmb
    refine argmax_append_cons (fun c hc ↦ ?_) fun c hc ↦ ?_
    · refine lt_of_le_of_ne (hle c (List.mem_append_left _ hc)) fun heq ↦ ?_
      simpa [heq] using hbefore c hc
    · exact hle c (List.mem_append_right _ (List.mem_cons_of_mem m hc))

/-- So does the loop over the elements with a property, if those of the greatest value have it. -/
theorem argmax_filter_eq_find? (hex : ∃ a ∈ l, f a = b) (hp : ∀ a ∈ l, f a = b → p a = true)
    (hle : ∀ a ∈ l, p a = true → f a ≤ b) :
    (l.filter p).argmax f = l.find? fun a ↦ f a = b := by
  obtain ⟨a, ha, hab⟩ := hex
  rw [argmax_eq_find? ⟨a, List.mem_filter.2 ⟨ha, hp a ha hab⟩, hab⟩
    fun c hc ↦ hle c (List.mem_filter.1 hc).1 (List.mem_filter.1 hc).2, List.find?_filter]
  refine List.find?_congr fun c hc ↦ ?_
  by_cases hcb : f c = b
  · simp [hcb, hp c hc hcb]
  · simp [hcb]

end FirstMax
