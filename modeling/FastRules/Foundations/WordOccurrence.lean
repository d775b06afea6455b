import Mathlib.Data.List.Basic

/-!
# Occurrences between words

A pattern occurs in a text between words if no word character stands next to it on either side. In a
text made of two parts between which no word goes over, an occurrence lies in one of the parts or
has a character that is no word character where the parts meet (`occurs_append`). So a pattern of
word characters lies in one of the parts (`occurs_append_of_word`), and one of two words with a
separator in one of them, or the cut is next to the separator (`occurs_append_of_dotted`).
-/

namespace WordOccurrence

variable {α : Type*} {word : α → Bool}

/-- No word is open where the text ends. -/
def EndsOpen (word : α → Bool) (s : List α) : Prop :=
  ∀ c ∈ s.getLast?, word c = false

/-- No word is open where the text begins. -/
def StartsOpen (word : α → Bool) (s : List α) : Prop :=
  ∀ c ∈ s.head?, word c = false

/-- The text ends in the pattern, which no word character comes before. -/
def EndsIn (word : α → Bool) (p s : List α) : Prop :=
  ∃ l, s = l ++ p ∧ EndsOpen word l

/-- The text begins with the pattern, which no word character comes after. -/
def StartsWith (word : α → Bool) (p s : List α) : Prop :=
  ∃ r, s = p ++ r ∧ StartsOpen word r

/-- The pattern stands in the text, with no word character next to it. -/
def Occurs (word : α → Bool) (p s : List α) : Prop :=
  ∃ l r, s = l ++ p ++ r ∧ EndsOpen word l ∧ StartsOpen word r

/-- No word goes over from one text to the other. -/
def Apart (word : α → Bool) (s t : List α) : Prop :=
  EndsOpen word s ∨ StartsOpen word t

variable {a b f m p s t : List α} {x : α}

/-! ### Ends -/

theorem endsOpen_nil : EndsOpen word ([] : List α) := fun _ h ↦ by cases h

theorem startsOpen_nil : StartsOpen word ([] : List α) := fun _ h ↦ by cases h

theorem startsOpen_cons : StartsOpen word (x :: s) ↔ word x = false :=
  ⟨fun h ↦ h x rfl, fun h c hc ↦ by rwa [← Option.some.inj hc]⟩

theorem endsOpen_concat : EndsOpen word (s ++ [x]) ↔ word x = false := by
  rw [EndsOpen, List.getLast?_concat]
  exact ⟨fun h ↦ h x rfl, fun h c hc ↦ by rwa [← Option.some.inj hc]⟩

/-- The end of a text that does not end in nothing is that of its last part. -/
theorem endsOpen_append (ht : t ≠ []) : EndsOpen word (s ++ t) ↔ EndsOpen word t := by
  rw [EndsOpen, EndsOpen, List.getLast?_append_of_ne_nil s ht]

theorem startsOpen_append (hs : s ≠ []) : StartsOpen word (s ++ t) ↔ StartsOpen word s := by
  rw [StartsOpen, StartsOpen, List.head?_append_of_ne_nil s hs]

theorem EndsOpen.right (h : EndsOpen word (s ++ t)) : EndsOpen word t := by
  rcases eq_or_ne t [] with rfl | ht
  · exact endsOpen_nil
  · exact (endsOpen_append ht).1 h

theorem StartsOpen.left (h : StartsOpen word (s ++ t)) : StartsOpen word s := by
  rcases eq_or_ne s [] with rfl | hs
  · exact startsOpen_nil
  · exact (startsOpen_append hs).1 h

theorem EndsOpen.append (hs : EndsOpen word s) (ht : EndsOpen word t) :
    EndsOpen word (s ++ t) := by
  rcases eq_or_ne t [] with rfl | hne
  · rwa [List.append_nil]
  · exact (endsOpen_append hne).2 ht

theorem StartsOpen.append (hs : StartsOpen word s) (ht : StartsOpen word t) :
    StartsOpen word (s ++ t) := by
  rcases eq_or_ne s [] with rfl | hne
  · exact ht
  · exact (startsOpen_append hne).2 hs

/-- A text of word characters that a word cannot go on into is empty. -/
theorem eq_nil_of_endsOpen (hs : ∀ c ∈ s, word c = true) (h : EndsOpen word s) : s = [] := by
  by_contra hne
  have hlast := h (s.getLast hne) (List.getLast?_eq_getLast_of_ne_nil hne)
  rw [hs _ (List.getLast_mem hne)] at hlast
  cases hlast

theorem eq_nil_of_startsOpen (hs : ∀ c ∈ s, word c = true) (h : StartsOpen word s) : s = [] := by
  cases s with
  | nil => rfl
  | cons x s =>
    rw [startsOpen_cons, hs x List.mem_cons_self] at h
    cases h

/-- The word a text begins with is determined. -/
theorem eq_of_word_append (hs : ∀ c ∈ s, word c = true) (ht : ∀ c ∈ t, word c = true)
    (ha : StartsOpen word a) (hb : StartsOpen word b) (h : s ++ a = t ++ b) : s = t := by
  obtain ⟨c, rfl, hc⟩ | ⟨c, rfl, hc⟩ := List.append_eq_append_iff.1 h
  · have hnil : c = [] := eq_nil_of_startsOpen
      (fun x hx ↦ ht x (List.mem_append_right s hx)) (hc ▸ ha).left
    rw [hnil, List.append_nil]
  · have hnil : c = [] := eq_nil_of_startsOpen
      (fun x hx ↦ hs x (List.mem_append_right t hx)) (hc ▸ hb).left
    rw [hnil, List.append_nil]

/-- What is no word is not changed by a map that keeps words. -/
theorem endsOpen_map {g : α → α} (hg : ∀ c, word (g c) = word c) :
    EndsOpen word (s.map g) ↔ EndsOpen word s := by
  rw [EndsOpen, EndsOpen, List.getLast?_map]
  cases s.getLast? <;> simp [hg]

theorem startsOpen_map {g : α → α} (hg : ∀ c, word (g c) = word c) :
    StartsOpen word (s.map g) ↔ StartsOpen word s := by
  rw [StartsOpen, StartsOpen, List.head?_map]
  cases s.head? <;> simp [hg]

/-! ### Texts of two parts -/

/-- The pattern begins and ends with word characters. -/
structure WordEnds (word : α → Bool) (p : List α) : Prop where
  starts : ∃ x rest, p = x :: rest ∧ word x = true
  ends : ∃ init x, p = init ++ [x] ∧ word x = true

theorem WordEnds.ne_nil (h : WordEnds word p) : p ≠ [] := by
  obtain ⟨x, rest, rfl, -⟩ := h.starts
  exact List.cons_ne_nil x rest

theorem WordEnds.not_endsOpen (h : WordEnds word p) : ¬EndsOpen word (s ++ p) := by
  obtain ⟨init, x, rfl, hx⟩ := h.ends
  rw [← List.append_assoc, endsOpen_concat, hx]
  exact Bool.noConfusion

theorem WordEnds.not_startsOpen (h : WordEnds word p) : ¬StartsOpen word (p ++ s) := by
  obtain ⟨x, rest, rfl, hx⟩ := h.starts
  rw [List.cons_append, startsOpen_cons, hx]
  exact Bool.noConfusion

theorem Occurs.append_right (hp : WordEnds word p) (hst : Apart word s t) (h : Occurs word p s) :
    Occurs word p (s ++ t) := by
  obtain ⟨l, r, rfl, hl, hr⟩ := h
  refine ⟨l, r ++ t, by simp only [List.append_assoc], hl, ?_⟩
  rcases eq_or_ne r [] with rfl | hne
  · -- the pattern ends the first part with a word, so that no word begins the second
    rw [List.append_nil] at hst
    exact hst.resolve_left hp.not_endsOpen
  · exact (startsOpen_append hne).2 hr

theorem Occurs.append_left (hp : WordEnds word p) (hst : Apart word s t) (h : Occurs word p t) :
    Occurs word p (s ++ t) := by
  obtain ⟨l, r, rfl, hl, hr⟩ := h
  refine ⟨s ++ l, r, by simp only [List.append_assoc], ?_, hr⟩
  rcases eq_or_ne l [] with rfl | hne
  · rw [List.nil_append] at hst
    rw [List.append_nil]
    exact hst.resolve_right hp.not_startsOpen
  · exact (endsOpen_append hne).2 hl

/-- An occurrence lies in one of two parts or goes over from one to the other. -/
theorem occurs_append (hp : WordEnds word p) (hst : Apart word s t) :
    Occurs word p (s ++ t) ↔ Occurs word p s ∨ Occurs word p t ∨
      ∃ p₁ p₂, p = p₁ ++ p₂ ∧ p₁ ≠ [] ∧ p₂ ≠ [] ∧ EndsIn word p₁ s ∧ StartsWith word p₂ t := by
  constructor
  · rintro ⟨l, r, h, hl, hr⟩
    rw [List.append_assoc] at h
    obtain ⟨c, rfl, hc⟩ | ⟨c, rfl, hc⟩ := List.append_eq_append_iff.1 h
    · -- the first part ends before the pattern
      refine .inr (.inl ⟨c, r, ?_, hl.right, hr⟩)
      rw [hc, List.append_assoc]
    · obtain ⟨e, rfl, he⟩ | ⟨e, rfl, he⟩ := List.append_eq_append_iff.1 hc
      · exact .inl ⟨l, e, List.append_assoc .. |>.symm, hl, (he ▸ hr).left⟩
      · rcases eq_or_ne c [] with rfl | hc₁
        · exact .inr (.inl ⟨[], r, he, endsOpen_nil, hr⟩)
        · rcases eq_or_ne e [] with rfl | he₁
          · refine .inl ⟨l, [], by rw [List.append_nil, List.append_nil], hl, startsOpen_nil⟩
          · exact .inr (.inr ⟨c, e, rfl, hc₁, he₁, ⟨l, rfl, hl⟩, ⟨r, he, hr⟩⟩)
  · rintro (h | h | ⟨p₁, p₂, rfl, -, -, ⟨l, rfl, hl⟩, r, rfl, hr⟩)
    · exact h.append_right hp hst
    · exact h.append_left hp hst
    · exact ⟨l, r, by simp only [List.append_assoc], hl, hr⟩

/-- A separator that is not in the pattern has every occurrence on one of its sides. -/
theorem occurs_separated (hx : word x = false) (hxp : x ∉ p) (hp : p ≠ []) :
    Occurs word p (s ++ x :: t) ↔ Occurs word p s ∨ Occurs word p t := by
  constructor
  · rintro ⟨l, r, h, hl, hr⟩
    rw [List.append_assoc] at h
    obtain ⟨c, rfl, hc⟩ | ⟨c, rfl, hc⟩ := List.append_eq_append_iff.1 h
    · cases c with
      | nil =>
        obtain ⟨y, q, rfl⟩ := List.exists_cons_of_ne_nil hp
        rw [List.nil_append, List.cons_append, List.cons.injEq] at hc
        exact absurd (hc.1 ▸ List.mem_cons_self) hxp
      | cons y c =>
        rw [List.cons_append, List.cons.injEq] at hc
        refine .inr ⟨c, r, by rw [hc.2, List.append_assoc], ?_, hr⟩
        exact EndsOpen.right (s := s ++ [y]) (by rwa [List.append_assoc])
    · obtain ⟨e, rfl, rfl⟩ | ⟨e, rfl, he⟩ := List.append_eq_append_iff.1 hc
      · exact .inl ⟨l, e, (List.append_assoc ..).symm, hl, hr.left⟩
      · cases e with
        | nil => exact .inl ⟨l, [], by simp, hl, startsOpen_nil⟩
        | cons y e =>
          rw [List.cons_append, List.cons.injEq] at he
          exact absurd (he.1 ▸ by simp) hxp
  · rintro (⟨l, r, rfl, hl, hr⟩ | ⟨l, r, rfl, hl, hr⟩)
    · refine ⟨l, r ++ x :: t, by simp only [List.append_assoc], hl, ?_⟩
      cases r with
      | nil => exact startsOpen_cons.2 hx
      | cons y r => exact startsOpen_cons.2 (startsOpen_cons.1 hr)
    · refine ⟨s ++ x :: l, r, by simp, ?_, hr⟩
      rcases eq_or_ne l [] with rfl | hne
      · exact endsOpen_concat.2 hx
      · rw [← List.singleton_append, ← List.append_assoc]
        exact (endsOpen_append hne).2 hl

/-- A pattern stands in a word if it is the word. -/
theorem occurs_word_iff (hs : ∀ c ∈ s, word c = true) : Occurs word p s ↔ p = s := by
  constructor
  · rintro ⟨l, r, rfl, hl, hr⟩
    have hleft := eq_nil_of_endsOpen (fun c hc ↦ hs c (by simp [hc])) hl
    have hright := eq_nil_of_startsOpen (fun c hc ↦ hs c (by simp [hc])) hr
    rw [hleft, hright, List.nil_append, List.append_nil]
  · rintro rfl
    exact ⟨[], [], by simp, endsOpen_nil, startsOpen_nil⟩

/-- Where an occurrence goes over, a character on one side is no word character. -/
theorem Apart.open_of_cut (hst : Apart word s t) {p₁ p₂ : List α} (hp₁ : p₁ ≠ []) (hp₂ : p₂ ≠ [])
    (hs : EndsIn word p₁ s) (ht : StartsWith word p₂ t) :
    EndsOpen word p₁ ∨ StartsOpen word p₂ := by
  obtain ⟨l, rfl, -⟩ := hs
  obtain ⟨r, rfl, -⟩ := ht
  exact hst.imp (endsOpen_append hp₁).1 (startsOpen_append hp₂).1

theorem wordEnds_of_word (hp : ∀ c ∈ p, word c = true) (hne : p ≠ []) : WordEnds word p where
  starts := by
    obtain ⟨x, rest, rfl⟩ := List.exists_cons_of_ne_nil hne
    exact ⟨x, rest, rfl, hp x List.mem_cons_self⟩
  ends := ⟨p.dropLast, p.getLast hne, (List.dropLast_append_getLast hne).symm,
    hp _ (List.getLast_mem hne)⟩

/-- A word lies in one of two parts. -/
theorem occurs_append_of_word (hp : ∀ c ∈ p, word c = true) (hne : p ≠ [])
    (hst : Apart word s t) : Occurs word p (s ++ t) ↔ Occurs word p s ∨ Occurs word p t := by
  rw [occurs_append (wordEnds_of_word hp hne) hst]
  refine or_congr_right (or_iff_left ?_)
  rintro ⟨p₁, p₂, rfl, hp₁, hp₂, hs, ht⟩
  obtain hopen | hopen := hst.open_of_cut hp₁ hp₂ hs ht
  · exact hp₁ (eq_nil_of_endsOpen (fun c hc ↦ hp c (List.mem_append_left p₂ hc)) hopen)
  · exact hp₂ (eq_nil_of_startsOpen (fun c hc ↦ hp c (List.mem_append_right p₁ hc)) hopen)

theorem wordEnds_of_dotted (hm : ∀ c ∈ m, word c = true) (hm₁ : m ≠ [])
    (hf : ∀ c ∈ f, word c = true) (hf₁ : f ≠ []) : WordEnds word (m ++ x :: f) where
  starts := by
    obtain ⟨y, rest, rfl, hy⟩ := (wordEnds_of_word hm hm₁).starts
    exact ⟨y, rest ++ x :: f, rfl, hy⟩
  ends := by
    obtain ⟨init, y, rfl, hy⟩ := (wordEnds_of_word hf hf₁).ends
    exact ⟨m ++ x :: init, y, by simp, hy⟩

/-- Two words with a separator between them lie in one of two parts, or they are cut next to the
separator. -/
theorem occurs_append_of_dotted (hm : ∀ c ∈ m, word c = true) (hm₁ : m ≠ [])
    (hf : ∀ c ∈ f, word c = true) (hf₁ : f ≠ []) (hst : Apart word s t) :
    Occurs word (m ++ x :: f) (s ++ t) ↔
      Occurs word (m ++ x :: f) s ∨ Occurs word (m ++ x :: f) t ∨
        (EndsIn word m s ∧ StartsWith word (x :: f) t) ∨
        (EndsIn word (m ++ [x]) s ∧ StartsWith word f t) := by
  rw [occurs_append (wordEnds_of_dotted hm hm₁ hf hf₁) hst]
  refine or_congr_right (or_congr_right ⟨?_, ?_⟩)
  · rintro ⟨p₁, p₂, hp, hp₁, hp₂, hs, ht⟩
    have hopen := hst.open_of_cut hp₁ hp₂ hs ht
    obtain ⟨c, rfl, hc⟩ | ⟨c, rfl, hc⟩ := List.append_eq_append_iff.1 hp
    · -- the first word ends in the first part
      cases c with
      | nil =>
        rw [List.append_nil] at hs
        rw [List.nil_append] at hc
        exact .inl ⟨hs, hc ▸ ht⟩
      | cons y c =>
        obtain ⟨rfl, rfl⟩ := List.cons.inj hc
        rcases eq_or_ne c [] with rfl | hc₁
        · exact .inr ⟨hs, ht⟩
        · exfalso
          rw [List.append_cons, endsOpen_append hc₁] at hopen
          rcases hopen with hopen | hopen
          · exact hc₁ (eq_nil_of_endsOpen
              (fun z hz ↦ hf z (List.mem_append_left p₂ hz)) hopen)
          · exact hp₂ (eq_nil_of_startsOpen (fun z hz ↦ hf z (List.mem_append_right c hz)) hopen)
    · rcases eq_or_ne c [] with rfl | hc₁
      · rw [hc, List.nil_append] at ht
        rw [List.append_nil]
        exact .inl ⟨hs, ht⟩
      · exfalso
        rw [hc, startsOpen_append hc₁] at hopen
        rcases hopen with hopen | hopen
        · exact hp₁ (eq_nil_of_endsOpen (fun z hz ↦ hm z (List.mem_append_left c hz)) hopen)
        · exact hc₁ (eq_nil_of_startsOpen (fun z hz ↦ hm z (List.mem_append_right p₁ hz)) hopen)
  · rintro (⟨hs, ht⟩ | ⟨hs, ht⟩)
    · exact ⟨m, x :: f, rfl, hm₁, List.cons_ne_nil x f, hs, ht⟩
    · exact ⟨m ++ [x], f, by simp, by simp, hf₁, hs, ht⟩

end WordOccurrence
