import FastRules.CApi.Numbers
import FastRules.Foundations.Members
import FastRules.Rule.Parameter
import Mathlib.Data.List.DropRight

/-!
# Parameter strings

`parse_params` of the C API reads parameters from a string of the form `key=value;key2=value2`. The
scanner looks for the next `=` first and for a `;` only after it, so a segment without a value
becomes a part of the next key (`parseParams_local_iff`). An integer is read by `strtol` and
converted to `int` (`parseParams_decodes_iff`).
-/

namespace FastRules

/-! ### Values -/

/-- What the implementation calls the types: `typeid(T).name()` and `typeid(T).hash_code()`. -/
abbrev TypeNames := TypeKind → String × ℕ

/-- `std::type_index(typeid(T))`. -/
def TypeNames.index (names : TypeNames) (kind : TypeKind) : TypeIndex :=
  ⟨kind, (names kind).1, (names kind).2⟩

/-- A value of type `T` in a `std::any`. -/
def TypeNames.any (names : TypeNames) (kind : TypeKind) (value : kind.Value) : AnyValue :=
  ⟨names.index kind, value⟩

/-- `RuleParameter(name, value)`, for a value. -/
def RuleParameter.ofAny (name : String) (value : AnyValue) : RuleParameter :=
  ⟨name, some value, some value.type⟩

/-- Spaces and tabs. -/
def isTrimmed (c : Char) : Bool :=
  c = ' ' || c = '\t'

/-- `trim`. -/
def trim (s : List Char) : List Char :=
  (s.dropWhile isTrimmed).rdropWhile isTrimmed

section Parse

variable (names : TypeNames)

/-- The value that a text stands for. -/
def parseValue (text : List Char) : AnyValue :=
  if text = "true".toList ∨ text = "TRUE".toList then names.any .bool true
  else if text = "false".toList ∨ text = "FALSE".toList then names.any .bool false
  else if text = [] then names.any .string ""
  else if (strtol text).2 = [] then names.any .int (toInt32 (strtol text).1)
  else if (strtod text).2 = [] then names.any .double (strtod text).1
  else names.any .string (String.ofList text)

/-- The parameter of a key and a value. -/
def parseParam (key value : List Char) : RuleParameter :=
  .ofAny (String.ofList (trim key)) (parseValue names (trim value))

/-- The text after the next separator. -/
def afterSeparator (s : List Char) : List Char :=
  (s.dropWhile (· ≠ ';')).tail

theorem length_afterSeparator_le (s : List Char) : (afterSeparator s).length ≤ s.length := by
  rw [afterSeparator, List.length_tail]
  exact (Nat.sub_le _ 1).trans (List.length_dropWhile_le _ _)

/-- The loop of `parse_params` from a position on. -/
def parseFrom (input : List Char) : List RuleParameter :=
  match _h : input.dropWhile (· ≠ '=') with
  | [] => []
  | _ :: tail =>
    parseParam names (input.takeWhile (· ≠ '=')) (tail.takeWhile (· ≠ ';')) ::
      parseFrom (afterSeparator tail)
termination_by input.length
decreasing_by
  have hle : (input.dropWhile (· ≠ '=')).length ≤ input.length := List.length_dropWhile_le _ _
  rw [_h, List.length_cons] at hle
  exact Nat.lt_of_le_of_lt (length_afterSeparator_le tail) hle

/-- `parse_params`. The string is a C string, or a null pointer. -/
def parseParams (paramsStr : Option String) : List RuleParameter :=
  match paramsStr with
  | none => []
  | some s => parseFrom names s.toList

end Parse

/-! ### Segments -/

section Segments

variable {names : TypeNames} {key value rest s : List Char}

/-- Without a `=` nothing is found. -/
theorem parseFrom_of_not_mem (h : '=' ∉ s) : parseFrom names s = [] := by
  have hnone : s.dropWhile (· ≠ '=') = [] :=
    List.dropWhile_eq_nil_iff.2 fun c hc ↦ by simpa using fun he : c = '=' ↦ h (he ▸ hc)
  rw [parseFrom]
  split
  · rfl
  · rename_i heq
    rw [hnone] at heq
    cases heq

/-- The first `=` ends the key, whatever the key is. -/
theorem parseFrom_key (hkey : '=' ∉ key) :
    parseFrom names (key ++ '=' :: rest) =
      parseParam names key (rest.takeWhile (· ≠ ';')) :: parseFrom names (afterSeparator rest) := by
  have hall : ∀ c ∈ key, decide (c ≠ '=') = true := fun c hc ↦ by
    simpa using fun he : c = '=' ↦ hkey (he ▸ hc)
  have hdrop : (key ++ '=' :: rest).dropWhile (· ≠ '=') = '=' :: rest := by
    rw [List.dropWhile_append_of_pos hall]
    rfl
  have htake : (key ++ '=' :: rest).takeWhile (· ≠ '=') = key := by
    rw [List.takeWhile_append_of_pos hall]
    simp
  rw [parseFrom]
  split
  · rename_i heq
    rw [hdrop] at heq
    cases heq
  · rename_i heq
    rw [hdrop] at heq
    rw [htake, (List.cons.inj heq).2]

theorem takeWhile_value (hvalue : ';' ∉ value) :
    value.takeWhile (· ≠ ';') = value ∧ afterSeparator value = [] := by
  have hall : ∀ c ∈ value, decide (c ≠ ';') = true := fun c hc ↦ by
    simpa using fun he : c = ';' ↦ hvalue (he ▸ hc)
  refine ⟨List.takeWhile_eq_self_iff.2 hall, ?_⟩
  rw [afterSeparator, List.dropWhile_eq_nil_iff.2 hall]
  rfl

theorem takeWhile_value_append (hvalue : ';' ∉ value) :
    (value ++ ';' :: rest).takeWhile (· ≠ ';') = value ∧
      afterSeparator (value ++ ';' :: rest) = rest := by
  have hall : ∀ c ∈ value, decide (c ≠ ';') = true := fun c hc ↦ by
    simpa using fun he : c = ';' ↦ hvalue (he ▸ hc)
  refine ⟨?_, ?_⟩
  · rw [List.takeWhile_append_of_pos hall]
    simp
  · rw [afterSeparator, List.dropWhile_append_of_pos hall]
    rfl

/-- The last segment. -/
theorem parseFrom_segment (hkey : '=' ∉ key) (hvalue : ';' ∉ value) :
    parseFrom names (key ++ '=' :: value) = [parseParam names key value] := by
  rw [parseFrom_key hkey, (takeWhile_value hvalue).1, (takeWhile_value hvalue).2,
    parseFrom_of_not_mem List.not_mem_nil]

/-- A segment with others after it. -/
theorem parseFrom_segment_append (hkey : '=' ∉ key) (hvalue : ';' ∉ value) :
    parseFrom names (key ++ '=' :: (value ++ ';' :: rest)) =
      parseParam names key value :: parseFrom names rest := by
  rw [parseFrom_key hkey, (takeWhile_value_append hvalue).1, (takeWhile_value_append hvalue).2]

/-- What is not trimmed is kept. -/
theorem mem_trim {c : Char} (hmem : c ∈ s) (hc : isTrimmed c = false) : c ∈ trim s := by
  have hdrop {l : List Char} (hl : c ∈ l) : c ∈ l.dropWhile isTrimmed := by
    rw [← List.takeWhile_append_dropWhile (p := isTrimmed) (l := l)] at hl
    refine (List.mem_append.1 hl).resolve_left fun htake ↦ ?_
    rw [List.mem_takeWhile_imp htake] at hc
    cases hc
  rw [trim, List.rdropWhile, List.mem_reverse]
  exact hdrop (List.mem_reverse.2 (hdrop hmem))

theorem trim_subset {c : Char} (h : c ∈ trim s) : c ∈ s :=
  (List.dropWhile_sublist _).subset ((List.rdropWhile_prefix _ _).subset h)

/-- The key of a segment has no separator in it. -/
theorem not_mem_name_of_segment (hs : ';' ∉ s) {p : RuleParameter} (hp : p ∈ parseFrom names s) :
    ';' ∉ p.name.toList := by
  by_cases heq : '=' ∈ s
  · obtain ⟨key, value, rfl, hkey⟩ := List.eq_append_cons_of_mem heq
    rw [List.mem_append, List.mem_cons, not_or, not_or] at hs
    rw [parseFrom_segment hkey hs.2.2, List.mem_singleton] at hp
    rw [hp]
    show ';' ∉ (String.ofList (trim key)).toList
    rw [String.toList_ofList]
    exact fun h ↦ hs.1 (trim_subset h)
  · rw [parseFrom_of_not_mem heq] at hp
    cases hp

/-- The texts between the separators. -/
def segments (s : List Char) : List (List Char) :=
  s.splitOn ';'

theorem not_mem_of_mem_segments {segment : List Char} (h : segment ∈ segments s) :
    ';' ∉ segment := by
  rw [segments] at h
  induction s generalizing segment with
  | nil =>
    rw [List.splitOn_nil, List.mem_singleton] at h
    rw [h]
    exact List.not_mem_nil
  | cons c s ih =>
    rw [List.splitOn_cons_eq_if_modifyHead] at h
    split_ifs at h with hc
    · rcases List.mem_cons.1 h with rfl | h
      · exact List.not_mem_nil
      · exact ih h
    · rcases hsplit : s.splitOn ';' with - | ⟨head, tail⟩ <;> rw [hsplit] at h ih
      · cases h
      · rcases List.mem_cons.1 h with rfl | h
        · rw [List.mem_cons, not_or]
          exact ⟨fun he ↦ hc (by simp [← he]), ih List.mem_cons_self⟩
        · exact ih (List.mem_cons_of_mem head h)

/-- Joining adds separators only. -/
theorem mem_intercalate_iff {c sep : Char} (hc : c ≠ sep) {segs : List (List Char)} :
    c ∈ [sep].intercalate segs ↔ ∃ segment ∈ segs, c ∈ segment := by
  induction segs with
  | nil => simp
  | cons a segs ih =>
    rcases segs with - | ⟨b, segs⟩
    · simp
    · rw [List.intercalate_cons_cons, List.append_assoc, List.mem_append, List.mem_append, ih]
      simp [hc]

/-- Only the last segments have no value. -/
def ValuesFirst (segments : List (List Char)) : Prop :=
  segments.Pairwise fun a b ↦ '=' ∈ b → '=' ∈ a

instance (segments : List (List Char)) : Decidable (ValuesFirst segments) :=
  inferInstanceAs (Decidable (List.Pairwise _ _))

theorem parseFrom_intercalate_iff {segs : List (List Char)} (hne : segs ≠ [])
    (hsegs : ∀ segment ∈ segs, ';' ∉ segment) :
    parseFrom names ([';'].intercalate segs) = segs.flatMap (parseFrom names) ↔
      ValuesFirst segs := by
  induction segs with
  | nil => exact absurd rfl hne
  | cons a segs ih =>
    rw [List.forall_mem_cons] at hsegs
    rcases segs with - | ⟨b, segs⟩
    · simp [ValuesFirst]
    have hjoin : [';'].intercalate (a :: b :: segs) =
        a ++ ';' :: [';'].intercalate (b :: segs) := by
      rw [List.intercalate_cons_cons, List.append_assoc]
      rfl
    rw [hjoin, List.flatMap_cons, ValuesFirst, List.pairwise_cons]
    by_cases heq : '=' ∈ a
    · obtain ⟨key, value, rfl, hkey⟩ := List.eq_append_cons_of_mem heq
      have hvalue : ';' ∉ value := fun h ↦ hsegs.1 (by simp [h])
      rw [List.append_assoc, List.cons_append, parseFrom_segment_append hkey hvalue,
        parseFrom_segment hkey hvalue, List.singleton_append, List.cons_inj_right,
        ih (List.cons_ne_nil _ _) hsegs.2]
      exact (and_iff_right fun _ _ _ ↦ heq).symm
    · rw [parseFrom_of_not_mem heq, List.nil_append]
      by_cases hlater : ∃ segment ∈ b :: segs, '=' ∈ segment
      · have hin : '=' ∈ [';'].intercalate (b :: segs) :=
          (mem_intercalate_iff (by decide)).2 hlater
        obtain ⟨key, rest, hkeys, hkey⟩ := List.eq_append_cons_of_mem hin
        refine iff_of_false (fun hlocal ↦ ?_) fun h ↦ ?_
        · -- the separator is in the first key, but in none of the keys of the segments
          have hfirst : '=' ∉ a ++ ';' :: key := by
            rw [List.mem_append, List.mem_cons, not_or, not_or]
            exact ⟨heq, by decide, hkey⟩
          rw [hkeys, ← List.cons_append, ← List.append_assoc, parseFrom_key hfirst] at hlocal
          have hmem : parseParam names (a ++ ';' :: key) (rest.takeWhile (· ≠ ';')) ∈
              (b :: segs).flatMap (parseFrom names) := hlocal ▸ List.mem_cons_self
          obtain ⟨segment, hsegment, hp⟩ := List.mem_flatMap.1 hmem
          refine not_mem_name_of_segment (hsegs.2 segment hsegment) hp ?_
          show ';' ∈ (String.ofList (trim (a ++ ';' :: key))).toList
          rw [String.toList_ofList]
          exact mem_trim (by simp) (by decide)
        · obtain ⟨segment, hsegment, hin⟩ := hlater
          exact heq (h.1 segment hsegment hin)
      · have hnone : '=' ∉ a ++ ';' :: [';'].intercalate (b :: segs) := by
          rw [List.mem_append, List.mem_cons, not_or, not_or, mem_intercalate_iff (by decide)]
          exact ⟨heq, by decide, hlater⟩
        rw [parseFrom_of_not_mem hnone]
        refine iff_of_true (Eq.symm ?_) ⟨fun segment hsegment hin ↦ ?_, ?_⟩
        · rw [List.flatMap_eq_nil_iff]
          exact fun segment hsegment ↦
            parseFrom_of_not_mem fun hin ↦ hlater ⟨segment, hsegment, hin⟩
        · exact absurd ⟨segment, hsegment, hin⟩ hlater
        · exact List.pairwise_of_forall_mem_list fun _ _ c hc hin ↦ absurd ⟨c, hc, hin⟩ hlater

theorem parseFrom_segments_iff (s : List Char) :
    parseFrom names s = (segments s).flatMap (parseFrom names) ↔ ValuesFirst (segments s) := by
  have hlocal : parseFrom names ([';'].intercalate (segments s)) =
      (segments s).flatMap (parseFrom names) ↔ ValuesFirst (segments s) :=
    parseFrom_intercalate_iff (List.splitOn_ne_nil _ _) fun segment h ↦ not_mem_of_mem_segments h
  rwa [segments, List.intercalate_splitOn] at hlocal

end Segments

/-- **Parsing is local** exactly if no segment without a value comes before one with a value. -/
theorem parseParams_local_iff (names : TypeNames) (s : String) :
    parseParams names (some s) =
        (segments s.toList).flatMap (fun segment ↦
          parseParams names (some (String.ofList segment))) ↔
      ValuesFirst (segments s.toList) := by
  simp only [parseParams, String.toList_ofList]
  exact parseFrom_segments_iff s.toList

/-- Types without names. -/
def TypeNames.unnamed : TypeNames := fun _ ↦ ("", 0)

/-- The separator and the text before it become a part of the key. -/
theorem parseParams_not_local :
    (parseParams .unnamed (some "a;b=c")).map RuleParameter.name = ["a;b"] ∧
      parseParams .unnamed (some "a;b=c") ≠
        (segments "a;b=c".toList).flatMap (fun segment ↦
          parseParams .unnamed (some (String.ofList segment))) := by
  have hparse : parseParams .unnamed (some "a;b=c") =
      [parseParam .unnamed "a;b".toList "c".toList] :=
    @parseFrom_segment _ "a;b".toList "c".toList (by decide) (by decide)
  refine ⟨by rw [hparse]; decide, fun hlocal ↦ ?_⟩
  simp only [parseParams, String.toList_ofList] at hlocal
  exact absurd ((parseFrom_segments_iff _).1 hlocal) (by decide)

/-! ### Decoding -/

/-- The value of an integer type. -/
def TypeKind.toInteger : (kind : TypeKind) → kind.Value → Option Int
  | int, n | unsignedInt, n | short, n | unsignedShort, n => some n
  | long, n | unsignedLong, n | longLong, n | unsignedLongLong, n => some n
  | float, _ | double, _ | longDouble, _ | bool, _ => none
  | string, _ | constCharPtr, _ | charPtr, _ | other, _ => none

/-- The exact value of a `double`. -/
def TypeKind.toDatum : (kind : TypeKind) → kind.Value → Option FloatText.Datum
  | double, word => some (FloatText.Format.binary64.decode word.toNat)
  | int, _ | unsignedInt, _ | short, _ | unsignedShort, _ => none
  | long, _ | unsignedLong, _ | longLong, _ | unsignedLongLong, _ => none
  | float, _ | longDouble, _ | bool, _ => none
  | string, _ | constCharPtr, _ | charPtr, _ | other, _ => none

/-- The number is the integer. -/
def DatumIsInteger (n : Int) : FloatText.Datum → Prop
  | .finite negative mantissa exponent =>
    (if negative then -(mantissa : ℚ) else mantissa) * (2 : ℚ) ^ exponent = n
  | .infinity _ => False
  | .nan _ => False

/-- The value is the integer, and of an integer type if the integer is one of Lua. -/
structure AnyValue.IsInteger (n : Int) (v : AnyValue) : Prop where
  value : v.type.kind.toInteger v.value = some n ∨
    ∃ datum, v.type.kind.toDatum v.value = some datum ∧ DatumIsInteger n datum
  integer : -2 ^ 63 ≤ n → n < 2 ^ 63 → v.type.kind.toInteger v.value = some n

/-- The words for truth values. -/
def truthValue (text : List Char) : Option Bool :=
  if text = "true".toList ∨ text = "TRUE".toList then some true
  else if text = "false".toList ∨ text = "FALSE".toList then some false
  else none

/-- The value is what the text says. -/
structure Decodes (names : TypeNames) (text : List Char) (v : AnyValue) : Prop where
  integer : ∀ n, decimalLiteral text = some n → v.IsInteger n
  truth : ∀ b, truthValue text = some b → v = names.any .bool b
  empty : text = [] → v = names.any .string ""
  other : isNumber text = false → truthValue text = none → text ≠ [] →
    v = names.any .string (String.ofList text)

section Decoding

variable {names : TypeNames} {text : List Char} {n : Int}

theorem strtol_of_literal (h : decimalLiteral text = some n) : strtol text = (clampLong n, []) := by
  rw [decimalLiteral] at h
  dsimp only at h
  by_cases hdigits : (readSign text).2 ≠ [] ∧ (readSign text).2.all Char.isDigit = true
  swap
  · rw [if_neg hdigits] at h
    cases h
  rw [if_pos hdigits] at h
  obtain ⟨hne, hall⟩ := hdigits
  rw [List.all_eq_true] at hall
  rw [strtol, dropWhile_isSpace_of_literal hne hall]
  dsimp only
  rw [List.takeWhile_eq_self_iff.2 hall, List.dropWhile_eq_nil_iff.2 hall]
  split
  · rename_i hnil
    exact absurd hnil hne
  · rw [Option.some.inj h]

theorem parseValue_of_literal (h : decimalLiteral text = some n) :
    parseValue names text = names.any .int (toInt32 (clampLong n)) := by
  have hword {word : List Char} (hnone : decimalLiteral word = none) : text ≠ word := by
    rintro rfl
    rw [hnone] at h
    cases h
  have htrue : text ≠ "true".toList ∧ text ≠ "TRUE".toList := ⟨hword (by decide), hword (by decide)⟩
  have hfalse : text ≠ "false".toList ∧ text ≠ "FALSE".toList :=
    ⟨hword (by decide), hword (by decide)⟩
  rw [parseValue, if_neg (not_or.2 htrue), if_neg (not_or.2 hfalse), if_neg (hword rfl),
    strtol_of_literal h, if_pos rfl]

theorem parseValue_of_truth {b : Bool} (h : truthValue text = some b) :
    parseValue names text = names.any .bool b := by
  rw [truthValue] at h
  rw [parseValue]
  split_ifs at h ⊢
  · rw [← Option.some.inj h]
  · rw [← Option.some.inj h]

theorem parseValue_of_other (hnumber : isNumber text = false) (htruth : truthValue text = none)
    (hne : text ≠ []) : parseValue names text = names.any .string (String.ofList text) := by
  have hnot : ¬(strtol text).2 = [] ∧ ¬(strtod text).2 = [] := by
    rw [isNumber, decide_eq_true hne, Bool.true_and, Bool.or_eq_false_iff] at hnumber
    exact ⟨of_decide_eq_false hnumber.1, of_decide_eq_false hnumber.2⟩
  rw [truthValue] at htruth
  rw [parseValue]
  split_ifs at htruth ⊢ with _ _ hlong hdouble
  · exact absurd hlong hnot.1
  · exact absurd hdouble hnot.2
  · rfl

/-- **A value decodes** exactly if it is no literal of an integer that does not fit an `int`. -/
theorem parseValue_decodes_iff :
    Decodes names text (parseValue names text) ↔
      ∀ n, decimalLiteral text = some n → -2 ^ 31 ≤ n ∧ n < 2 ^ 31 := by
  refine ⟨fun h n hn ↦ ?_, fun h ↦ ⟨fun n hn ↦ ?_, fun b hb ↦ parseValue_of_truth hb, ?_,
    parseValue_of_other⟩⟩
  · have hvalue := (h.integer n hn).value
    rw [parseValue_of_literal hn] at hvalue
    rcases hvalue with hint | ⟨datum, hdatum, -⟩
    · have hn' : toInt32 (clampLong n) = n := Option.some.inj hint
      rw [← toInt32_eq_self_iff, ← hn', toInt32_toInt32]
    · cases hdatum
  · have hrange := h n hn
    have hclamp : clampLong n = n := by
      rw [clampLong]
      omega
    have hint : (parseValue names text).type.kind.toInteger (parseValue names text).value =
        some n := by
      rw [parseValue_of_literal hn, hclamp, toInt32_eq_self_iff.2 hrange]
      rfl
    exact ⟨.inl hint, fun _ _ ↦ hint⟩
  · rintro rfl
    rfl

end Decoding

/-- There is no blank at either end. -/
def NoBlankEnds (s : List Char) : Prop :=
  (∀ c ∈ s.head?, isTrimmed c = false) ∧ ∀ c ∈ s.getLast?, isTrimmed c = false

instance (s : List Char) : Decidable (NoBlankEnds s) :=
  inferInstanceAs (Decidable (_ ∧ _))

theorem trim_of_noBlankEnds {s : List Char} (h : NoBlankEnds s) : trim s = s := by
  have hdrop : s.dropWhile isTrimmed = s := by
    rcases s with - | ⟨c, cs⟩
    · rfl
    · rw [List.dropWhile_cons_of_neg (by simp [h.1 c rfl])]
  rw [trim, hdrop, List.rdropWhile_eq_self_iff]
  intro hne
  rw [h.2 _ (List.getLast?_eq_some_getLast hne)]
  exact Bool.false_ne_true

/-- A key and a value as they may be written: without blanks at their ends and without the
characters that separate. -/
structure IsEntry (entry : String × String) : Prop where
  key_ne : entry.1 ≠ ""
  key_trimmed : NoBlankEnds entry.1.toList
  key_equals : '=' ∉ entry.1.toList
  key_separator : ';' ∉ entry.1.toList
  value_trimmed : NoBlankEnds entry.2.toList
  value_separator : ';' ∉ entry.2.toList

/-- The text of a key and a value. -/
def entryText (entry : String × String) : List Char :=
  entry.1.toList ++ '=' :: entry.2.toList

/-- A parameter string. -/
def paramsText (entries : List (String × String)) : String :=
  String.ofList ([';'].intercalate (entries.map entryText))

/-- The parameter has the key of the entry, and the value that its text says. -/
def EntryDecodes (names : TypeNames) (entry : String × String) (p : RuleParameter) : Prop :=
  p.name = entry.1 ∧ ∃ v, p.value = some v ∧ p.type = some v.type ∧ Decodes names entry.2.toList v

/-- What is parsed of an entry. -/
def entryParam (names : TypeNames) (entry : String × String) : RuleParameter :=
  .ofAny entry.1 (parseValue names entry.2.toList)

theorem IsEntry.parseParam_eq {entry : String × String} (h : IsEntry entry) (names : TypeNames) :
    parseParam names entry.1.toList entry.2.toList = entryParam names entry := by
  rw [parseParam, trim_of_noBlankEnds h.key_trimmed, trim_of_noBlankEnds h.value_trimmed,
    String.ofList_toList]
  rfl

/-- A list of entries is parsed entry by entry. -/
theorem parseParams_entries {names : TypeNames} {entries : List (String × String)}
    (h : ∀ entry ∈ entries, IsEntry entry) :
    parseParams names (some (paramsText entries)) = entries.map (entryParam names) := by
  rw [parseParams, paramsText, String.toList_ofList]
  induction entries with
  | nil => exact parseFrom_of_not_mem List.not_mem_nil
  | cons entry entries ih =>
    rw [List.forall_mem_cons] at h
    obtain ⟨hentry, hentries⟩ := h
    rw [List.map_cons, List.map_cons, ← ih hentries]
    rcases entries with - | ⟨entry', entries⟩
    · rw [List.map_nil, List.intercalate_singleton, entryText,
        parseFrom_segment hentry.key_equals hentry.value_separator, hentry.parseParam_eq,
        List.intercalate_nil, parseFrom_of_not_mem List.not_mem_nil]
    · rw [List.map_cons, List.intercalate_cons_cons, List.append_assoc, entryText,
        List.append_assoc, List.cons_append]
      exact (parseFrom_segment_append hentry.key_equals hentry.value_separator).trans
        (congrArg (· :: _) (hentry.parseParam_eq names))

theorem entryDecodes_entryParam_iff {names : TypeNames} {entry : String × String} :
    EntryDecodes names entry (entryParam names entry) ↔
      ∀ n, decimalLiteral entry.2.toList = some n → -2 ^ 31 ≤ n ∧ n < 2 ^ 31 := by
  rw [← @parseValue_decodes_iff names]
  refine ⟨fun h ↦ ?_, fun h ↦ ⟨rfl, _, rfl, rfl, h⟩⟩
  obtain ⟨-, v, hv, -, hdecodes⟩ := h
  obtain rfl := Option.some.inj hv
  exact hdecodes

end FastRules
