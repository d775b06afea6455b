import FastRules.CApi.Params
import FastRules.Rule.Result

/-!
# Result strings

`format_results` writes each result as `id:name:success`, with the text of its exception after
another `:` if there is one, and puts a `;` between results. `escape_field` encodes `:` and `;`, but
not the `%` that begins a code, so a code in a text is not told from what it stands for
(`formatResults_ne_iff`).
-/

namespace FastRules

/-! ### Formatting -/

def escapeFieldChar (c : Char) : List Char :=
  if c = ':' then "%3A".toList else if c = ';' then "%3B".toList else [c]

/-- `escape_field`. -/
def escapeField (s : List Char) : List Char :=
  s.flatMap escapeFieldChar

/-- The texts of a result that are separated by `:`. -/
def resultFields (r : RuleResult) : List (List Char) :=
  [(toString r.ruleId).toList, escapeField r.ruleName.toList,
    if r.isSuccess then ['1'] else ['0']] ++
    (r.exception.map fun what ↦ escapeField (cStr what).toList).toList

/-- What the loop writes for a result. -/
def resultText (r : RuleResult) : List Char :=
  [':'].intercalate (resultFields r)

/-- `format_results`. The text is copied as a C string. -/
def formatResults (results : List RuleResult) : String :=
  cStr (String.ofList ([';'].intercalate (results.map resultText)))

/-! ### Escapes -/

/-- A text with the codes of the separators read as what they stand for. -/
def readEscapes : List Char → List Char
  | '%' :: '3' :: 'A' :: s => ':' :: readEscapes s
  | '%' :: '3' :: 'B' :: s => ';' :: readEscapes s
  | c :: s => c :: readEscapes s
  | [] => []

section Escapes

variable {s t : List Char} {c : Char}

theorem escapeField_cons (c : Char) (s : List Char) :
    escapeField (c :: s) = escapeFieldChar c ++ escapeField s :=
  List.flatMap_cons

/-- No separator is left. -/
theorem not_mem_escapeField (hc : c = ':' ∨ c = ';') : c ∉ escapeField s := by
  intro hmem
  obtain ⟨d, -, hd⟩ := List.mem_flatMap.1 hmem
  rw [escapeFieldChar] at hd
  split_ifs at hd with hcolon hsemicolon
  · rcases hc with rfl | rfl
    · exact absurd hd (by decide)
    · exact absurd hd (by decide)
  · rcases hc with rfl | rfl
    · exact absurd hd (by decide)
    · exact absurd hd (by decide)
  · obtain rfl := List.mem_singleton.1 hd
    exact hc.elim hcolon hsemicolon

theorem mem_of_mem_escapeField (h : c ∈ escapeField s) (hc : c ∉ ['%', '3', 'A', 'B']) : c ∈ s := by
  have hcodes : ∀ d ∈ "%3A".toList ++ "%3B".toList, d ∈ ['%', '3', 'A', 'B'] := by decide
  obtain ⟨d, hd, hcd⟩ := List.mem_flatMap.1 h
  rw [escapeFieldChar] at hcd
  split_ifs at hcd
  · exact absurd (hcodes c (List.mem_append_left _ hcd)) hc
  · exact absurd (hcodes c (List.mem_append_right _ hcd)) hc
  · rwa [List.mem_singleton.1 hcd]

/-- A character that begins no code comes from itself. -/
theorem escapeField_eq_cons (hc : c ≠ '%') (h : escapeField s = c :: t) :
    ∃ s', s = c :: s' ∧ escapeField s' = t := by
  rcases s with - | ⟨d, s⟩
  · cases h
  rw [escapeField_cons, escapeFieldChar] at h
  split_ifs at h
  · exact absurd (List.cons.inj h).1.symm hc
  · exact absurd (List.cons.inj h).1.symm hc
  · obtain ⟨rfl, ht⟩ := List.cons.inj h
    exact ⟨s, rfl, ht⟩

theorem readEscapes_escapeField (s : List Char) : readEscapes (escapeField s) = readEscapes s := by
  fun_induction readEscapes s with
  | case1 s ih =>
    show readEscapes ('%' :: '3' :: 'A' :: escapeField s) = _
    rw [readEscapes, ih]
  | case2 s ih =>
    show readEscapes ('%' :: '3' :: 'B' :: escapeField s) = _
    rw [readEscapes, ih]
  | case3 c s hA hB ih =>
    -- escaping makes no code of what was none
    have hcode {d : Char} (hd : d ≠ '%') (u : List Char) (hu : escapeField s = '3' :: d :: u) :
        ∃ u', s = '3' :: d :: u' := by
      obtain ⟨s', rfl, hs'⟩ := escapeField_eq_cons (by decide) hu
      obtain ⟨u', rfl, -⟩ := escapeField_eq_cons hd hs'
      exact ⟨u', rfl⟩
    rw [escapeField_cons, escapeFieldChar]
    split_ifs with hcolon hsemicolon
    · show readEscapes ('%' :: '3' :: 'A' :: escapeField s) = _
      rw [readEscapes, ih, hcolon]
    · show readEscapes ('%' :: '3' :: 'B' :: escapeField s) = _
      rw [readEscapes, ih, hsemicolon]
    · rw [List.singleton_append, readEscapes, ih]
      · rintro u rfl hu
        obtain ⟨u', hs⟩ := hcode (by decide) u hu
        exact hA u' rfl hs
      · rintro u rfl hu
        obtain ⟨u', hs⟩ := hcode (by decide) u hu
        exact hB u' rfl hs
  | case4 => rfl

theorem escapeField_readEscapes (s : List Char) : escapeField (readEscapes s) = escapeField s := by
  fun_induction readEscapes s with
  | case1 s ih =>
    rw [escapeField_cons, ih]
    rfl
  | case2 s ih =>
    rw [escapeField_cons, ih]
    rfl
  | case3 c s hA hB ih => rw [escapeField_cons, ih, escapeField_cons]
  | case4 => rfl

/-- Two texts are escaped to the same text exactly if they are the same with the codes read. -/
theorem escapeField_eq_iff : escapeField s = escapeField t ↔ readEscapes s = readEscapes t := by
  constructor
  · intro h
    rw [← readEscapes_escapeField s, h, readEscapes_escapeField]
  · intro h
    rw [← escapeField_readEscapes s, h, escapeField_readEscapes]

end Escapes

/-! ### Results -/

/-- What a client is told about a result. -/
structure ResultView where
  ruleId : Id
  ruleName : List Char
  isSuccess : Bool
  exception : Option (List Char)
  deriving DecidableEq, Repr

/-- A result with its texts taken through a function. -/
def RuleResult.view (texts : List Char → List Char) (r : RuleResult) : ResultView where
  ruleId := r.ruleId
  ruleName := texts r.ruleName.toList
  isSuccess := r.isSuccess
  exception := r.exception.map fun what ↦ texts (cStr what).toList

section Results

variable {r r' : RuleResult} {results results' : List RuleResult}

theorem not_mem_resultFields {c : Char} (hc : c = ':' ∨ c = ';') :
    ∀ text ∈ resultFields r, c ∉ text := by
  have hid : c ∉ (toString r.ruleId).toList := by
    rcases hc with rfl | rfl
    · exact not_mem_toString (by decide) (by decide) _
    · exact not_mem_toString (by decide) (by decide) _
  have hbit : c ∉ if r.isSuccess then ['1'] else ['0'] := by
    rcases hc with rfl | rfl
    · split_ifs <;> decide
    · split_ifs <;> decide
  intro text htext
  rw [resultFields, List.mem_append] at htext
  rcases htext with h | h
  · simp only [List.mem_cons, List.not_mem_nil, or_false] at h
    rcases h with rfl | rfl | rfl
    · exact hid
    · exact not_mem_escapeField hc
    · exact hbit
  · obtain ⟨what, -, rfl⟩ := Option.map_eq_some_iff.1 (Option.mem_toList.1 h)
    exact not_mem_escapeField hc

theorem resultFields_ne_nil (r : RuleResult) : resultFields r ≠ [] := by
  simp [resultFields]

/-- The fields of a result are its escaped texts. -/
theorem resultFields_eq_iff : resultFields r = resultFields r' ↔
    r.view escapeField = r'.view escapeField := by
  have hid : (toString r.ruleId).toList = (toString r'.ruleId).toList ↔ r.ruleId = r'.ruleId := by
    rw [String.toList_inj, toString_int_inj]
  have hbit : (if r.isSuccess then ['1'] else ['0']) = (if r'.isSuccess then ['1'] else ['0']) ↔
      r.isSuccess = r'.isSuccess := by
    rcases r.isSuccess with - | - <;> rcases r'.isSuccess with - | - <;> decide
  have htexts {o o' : Option (List Char)} : o.toList = o'.toList ↔ o = o' := by
    rcases o with - | text <;> rcases o' with - | text' <;> simp
  rw [resultFields, resultFields, RuleResult.view, RuleResult.view, ResultView.mk.injEq,
    List.cons_append, List.cons_append, List.cons_append, List.cons_append, List.cons_append,
    List.cons_append, List.cons.injEq, List.cons.injEq, List.cons.injEq, List.nil_append,
    List.nil_append, hid, hbit, htexts]

theorem resultText_eq_iff : resultText r = resultText r' ↔
    r.view escapeField = r'.view escapeField := by
  rw [← resultFields_eq_iff]
  refine ⟨fun h ↦ ?_, congrArg _⟩
  have hsplit := congrArg (List.splitOn ':') h
  rwa [resultText, resultText,
    List.splitOn_intercalate ':' (not_mem_resultFields (.inl rfl) ·) (resultFields_ne_nil r),
    List.splitOn_intercalate ':' (not_mem_resultFields (.inl rfl) ·) (resultFields_ne_nil r')]
    at hsplit

theorem resultText_ne_nil (r : RuleResult) : resultText r ≠ [] := by
  rw [resultText, resultFields, List.cons_append, List.cons_append, List.intercalate_cons_cons]
  simp

theorem not_mem_resultText (r : RuleResult) : ';' ∉ resultText r := by
  rw [resultText, mem_intercalate_iff (by decide)]
  rintro ⟨text, htext, hmem⟩
  exact not_mem_resultFields (.inr rfl) text htext hmem

/-- The texts of the results are found between the separators. -/
theorem intercalate_resultText_eq_iff :
    [';'].intercalate (results.map resultText) = [';'].intercalate (results'.map resultText) ↔
      results.map resultText = results'.map resultText := by
  refine ⟨fun h ↦ ?_, congrArg _⟩
  have hsep (l : List RuleResult) : ∀ text ∈ l.map resultText, ';' ∉ text :=
    List.forall_mem_map.2 fun r _ ↦ not_mem_resultText r
  have hempty {r : RuleResult} {l : List RuleResult} :
      [';'].intercalate ((r :: l).map resultText) ≠ [] := by
    rcases l with - | ⟨r', l⟩
    · simpa using resultText_ne_nil r
    · rw [List.map_cons, List.map_cons, List.intercalate_cons_cons]
      simp
  rcases results with - | ⟨r, results⟩
  · rcases results' with - | ⟨r', results'⟩
    · rfl
    · exact absurd h.symm hempty
  · rcases results' with - | ⟨r', results'⟩
    · exact absurd h hempty
    · have hsplit := congrArg (List.splitOn ';') h
      rwa [List.splitOn_intercalate ';' (hsep _ ·) (by simp),
        List.splitOn_intercalate ';' (hsep _ ·) (by simp)] at hsplit

/-- The texts of a result have no NUL bytes. -/
structure HasNulFreeTexts (r : RuleResult) : Prop where
  ruleName : NulFree r.ruleName
  exception : ∀ what ∈ r.exception, NulFree what

theorem formatResults_eq_text (h : ∀ r ∈ results, HasNulFreeTexts r) :
    formatResults results = String.ofList ([';'].intercalate (results.map resultText)) := by
  refine cStr_eq_self ?_
  rw [NulFree, String.toList_ofList, mem_intercalate_iff (by decide)]
  rintro ⟨text, htext, hmem⟩
  obtain ⟨r, hr, rfl⟩ := List.mem_map.1 htext
  rw [resultText, mem_intercalate_iff (by decide)] at hmem
  obtain ⟨field, hfield, hmem⟩ := hmem
  rw [resultFields, List.mem_append] at hfield
  rcases hfield with hfield | hfield
  · simp only [List.mem_cons, List.not_mem_nil, or_false] at hfield
    rcases hfield with rfl | rfl | rfl
    · exact nulFree_toString _ hmem
    · exact (h r hr).ruleName (mem_of_mem_escapeField hmem (by decide))
    · split_ifs at hmem
      · exact absurd hmem (by decide)
      · exact absurd hmem (by decide)
  · obtain ⟨what, -, rfl⟩ := Option.map_eq_some_iff.1 (Option.mem_toList.1 hfield)
    exact nulFree_cStr what (mem_of_mem_escapeField hmem (by decide))

/-- Two results have the same escaped texts exactly if they have the same texts with the codes
read. -/
theorem view_escapeField_eq_iff :
    r.view escapeField = r'.view escapeField ↔ r.view readEscapes = r'.view readEscapes := by
  have hexception {o o' : Option String} :
      o.map (fun what ↦ escapeField (cStr what).toList) =
          o'.map (fun what ↦ escapeField (cStr what).toList) ↔
        o.map (fun what ↦ readEscapes (cStr what).toList) =
          o'.map fun what ↦ readEscapes (cStr what).toList := by
    rcases o with - | what <;> rcases o' with - | what' <;> simp [escapeField_eq_iff]
  rw [RuleResult.view, RuleResult.view, RuleResult.view, RuleResult.view, ResultView.mk.injEq,
    ResultView.mk.injEq, escapeField_eq_iff, hexception]

/-- Functions that identify the same elements identify the same lists. -/
theorem map_eq_map_congr {α β γ : Type} {f : α → β} {g : α → γ}
    (h : ∀ a a', f a = f a' ↔ g a = g a') {l l' : List α} :
    l.map f = l'.map f ↔ l.map g = l'.map g := by
  induction l generalizing l' with
  | nil => rcases l' with - | ⟨a', l'⟩ <;> simp
  | cons a l ih =>
    rcases l' with - | ⟨a', l'⟩
    · simp
    · rw [List.map_cons, List.map_cons, List.map_cons, List.map_cons, List.cons.injEq,
        List.cons.injEq, h, ih]

/-- Two lists have the same string exactly if they are the same with the codes read. -/
theorem formatResults_eq_iff (h : ∀ r ∈ results, HasNulFreeTexts r)
    (h' : ∀ r ∈ results', HasNulFreeTexts r) :
    formatResults results = formatResults results' ↔
      results.map (RuleResult.view readEscapes) = results'.map (RuleResult.view readEscapes) := by
  rw [formatResults_eq_text h, formatResults_eq_text h', String.ofList_inj,
    intercalate_resultText_eq_iff]
  exact map_eq_map_congr fun r r' ↦ resultText_eq_iff.trans view_escapeField_eq_iff

end Results

/-- **Result strings decode** exactly if the results differ with `%3A` and `%3B` read as the
separators they stand for. -/
theorem formatResults_ne_iff (results results' : List RuleResult)
    (h : ∀ r ∈ results, HasNulFreeTexts r) (h' : ∀ r ∈ results', HasNulFreeTexts r)
    (s t : List Char) :
    (formatResults results ≠ formatResults results' ↔
      results.map (RuleResult.view readEscapes) ≠ results'.map (RuleResult.view readEscapes)) ∧
    (escapeField s ≠ escapeField t ↔ readEscapes s ≠ readEscapes t) :=
  ⟨not_congr (formatResults_eq_iff h h'), not_congr escapeField_eq_iff⟩

/-- A successful result of a rule. -/
def succeeded (ruleName : String) : RuleResult :=
  { ruleId := 1, ruleName, success := true }

theorem hasNulFreeTexts_succeeded {ruleName : String} (h : NulFree ruleName) :
    ∀ r ∈ [succeeded ruleName], HasNulFreeTexts r :=
  List.forall_mem_singleton.2 ⟨h, fun _ hwhat ↦ nomatch hwhat⟩

/-- Two rules with different names. -/
theorem formatResults_ne_adult :
    formatResults [succeeded "adult"] ≠ formatResults [succeeded "a:b"] ∧
      escapeField "adult".toList ≠ escapeField "a:b".toList := by
  have hne := formatResults_ne_iff [succeeded "adult"] [succeeded "a:b"]
    (hasNulFreeTexts_succeeded (by decide)) (hasNulFreeTexts_succeeded (by decide))
    "adult".toList "a:b".toList
  exact ⟨hne.1.2 (by decide), hne.2.2 (by decide)⟩

/-- A separator and its code. -/
theorem formatResults_not_injective :
    (succeeded "a:b").ruleName ≠ (succeeded "a%3Ab").ruleName ∧
      formatResults [succeeded "a:b"] = "1:a%3Ab:1" ∧
      formatResults [succeeded "a%3Ab"] = "1:a%3Ab:1" ∧
      escapeField "a:b".toList = escapeField "a%3Ab".toList := by
  decide

end FastRules
