import FastRules.Foundations.Members
import FastRules.Rule.Basic
import Mathlib

/-!
# Parameter names and values

`ParameterValidator` checks the names and values of parameters, and makes acceptable ones of others.
What it makes of a name passes all checks but one: dropping characters may leave a reserved word.
-/

namespace FastRules

/-! ### Characters -/

/-- The character can stand in an identifier. -/
def isIdentifierChar (c : Char) : Bool :=
  c.isAlphanum || c = '_'

/-- The character can begin an identifier. -/
def isIdentifierStart (c : Char) : Bool :=
  c.isAlpha || c = '_'

/-- `std::tolower` in the C locale. -/
def toLowerAscii (s : String) : String :=
  String.ofList (s.toList.map Char.toLower)

@[simp] theorem isIdentifierChar_toLower (c : Char) :
    isIdentifierChar c.toLower = isIdentifierChar c := by
  rcases h : c.isUpper with - | -
  · rw [Char.toLower_eq_of_not_isUpper (Bool.eq_false_iff.1 h)]
  · have halpha : c.isAlpha = true := by rw [Char.isAlpha, h, Bool.true_or]
    have hlower : c.toLower.isAlpha = true := (Char.isAlpha_toLower_eq_isAlpha c).trans halpha
    rw [isIdentifierChar, isIdentifierChar, Char.isAlphanum, Char.isAlphanum, halpha, hlower]
    rfl

@[simp] theorem toList_toLowerAscii (s : String) :
    (toLowerAscii s).toList = s.toList.map Char.toLower := by
  rw [toLowerAscii, String.toList_ofList]

namespace ParameterValidator

def maxParameterNameLength : ℕ := 100

def maxParameterValueLength : ℕ := 10000

/-- Names that no parameter may have, in any spelling. -/
def reservedNames : List String :=
  ["nil", "true", "false", "function", "end", "if", "then", "else", "elseif", "while", "for", "in",
    "do", "repeat", "until", "break", "return", "local", "goto", "and", "or", "not", "self"]

/-! ### Checks -/

/-- `ParameterValidator::validateName`, with the message of what it throws. -/
def validateName (name : String) : Except String Unit :=
  match name.toList with
  | [] => .error "Parameter name cannot be empty"
  | c :: cs =>
    if maxParameterNameLength < (c :: cs).length then .error "Parameter name too long"
    else if toLowerAscii name ∈ reservedNames then .error ("Parameter name is reserved: " ++ name)
    else if !isIdentifierStart c then
      .error "Parameter name must start with a letter or underscore"
    else if !(c :: cs).all isIdentifierChar then
      .error "Parameter name contains invalid characters"
    else .ok ()

/-- `ParameterValidator::validateValue`. -/
def validateValue (value : String) : Except String Unit :=
  if maxParameterValueLength < value.toList.length then .error "Parameter value too long"
  else if '\x00' ∈ value.toList then .error "Parameter value contains null bytes"
  else .ok ()

/-! ### Sanitizers -/

/-- The characters of a name that can stand in an identifier. -/
def identifierChars (name : String) : List Char :=
  name.toList.filter isIdentifierChar

/-- Put an underscore before what cannot begin an identifier. -/
def prefixed : List Char → List Char
  | [] => []
  | c :: cs => if isIdentifierStart c then c :: cs else '_' :: c :: cs

/-- `ParameterValidator::sanitizeName`. -/
def sanitizeName (name : String) : String :=
  String.ofList ((prefixed (identifierChars name)).take maxParameterNameLength)

/-- `ParameterValidator::sanitizeValue`. -/
def sanitizeValue (value : String) : String :=
  String.ofList ((value.toList.filter (· ≠ '\x00')).take maxParameterValueLength)

/-! ### What the sanitizers establish -/

/-- A list of identifier characters that does not begin with a digit, and is not too long. -/
structure IsName (cs : List Char) : Prop where
  length_le : cs.length ≤ maxParameterNameLength
  start : ∀ c ∈ cs.head?, isIdentifierStart c = true
  chars : ∀ c ∈ cs, isIdentifierChar c = true

theorem sanitizeName_isName (name : String) : IsName (sanitizeName name).toList := by
  rw [sanitizeName, String.toList_ofList]
  have hchars : ∀ c ∈ identifierChars name, isIdentifierChar c = true := fun c hc ↦
    (List.mem_filter.1 hc).2
  refine ⟨by rw [List.length_take]; exact min_le_left _ _, fun c hc ↦ ?_, fun c hc ↦ ?_⟩
  · rw [List.head?_take, if_neg (by decide)] at hc
    rcases hcs : identifierChars name with - | ⟨d, ds⟩ <;> rw [hcs, prefixed] at hc
    · cases hc
    · split_ifs at hc with hstart
      · obtain rfl := Option.some.inj hc
        exact hstart
      · obtain rfl := Option.some.inj hc
        rfl
  · have hmem := List.mem_of_mem_take hc
    rcases hcs : identifierChars name with - | ⟨d, ds⟩ <;> rw [hcs, prefixed] at hmem
    · cases hmem
    · rw [hcs] at hchars
      split_ifs at hmem
      · exact hchars c hmem
      · rcases List.mem_cons.1 hmem with rfl | hmem
        · rfl
        · exact hchars c hmem

/-- What is a name already stays as it is. -/
theorem sanitizeName_of_isName {name : String} (h : IsName name.toList) :
    sanitizeName name = name := by
  have hchars : identifierChars name = name.toList := List.filter_eq_self.2 h.chars
  have hprefixed : prefixed name.toList = name.toList := by
    rcases hcs : name.toList with - | ⟨c, cs⟩
    · rfl
    · rw [prefixed, if_pos (h.start c (by rw [hcs]; rfl))]
  rw [sanitizeName, hchars, hprefixed, List.take_of_length_le h.length_le, String.ofList_toList]

/-- A name passes the check unless it is empty or reserved. -/
theorem validateName_of_isName {name : String} (h : IsName name.toList) (hne : name ≠ "") :
    validateName name = .ok () ↔ toLowerAscii name ∉ reservedNames := by
  have hnil : name.toList ≠ [] := fun hnil ↦ hne (String.toList_eq_nil_iff.1 hnil)
  obtain ⟨hlength, hstart, hchars⟩ := h
  rw [validateName]
  rcases hcs : name.toList with - | ⟨c, cs⟩
  · exact absurd hcs hnil
  rw [hcs] at hlength hstart hchars
  dsimp only
  rw [if_neg (not_lt.2 hlength)]
  split_ifs with hreserved hbegins hall
  · exact iff_of_false (by simp) (not_not.2 hreserved)
  · rw [hstart c rfl] at hbegins
    cases hbegins
  · rw [List.all_eq_true.2 hchars] at hall
    cases hall
  · exact iff_of_true rfl hreserved

/-! ### Reserved words -/

/-- Reserved words are short and begin with a letter. -/
theorem reservedNames_shape : ∀ w ∈ reservedNames, w.toList.length < maxParameterNameLength ∧
    ∀ c ∈ w.toList.head?, c.isAlpha = true := by
  decide

theorem not_reserved_of_length {cs : List Char} (h : maxParameterNameLength ≤ cs.length) :
    toLowerAscii (String.ofList cs) ∉ reservedNames := fun hmem ↦ by
  have hlength := (reservedNames_shape _ hmem).1
  rw [toList_toLowerAscii, String.toList_ofList, List.length_map] at hlength
  omega

theorem not_reserved_of_head {c : Char} {cs : List Char} (h : c.isAlpha = false) :
    toLowerAscii (String.ofList (c :: cs)) ∉ reservedNames := fun hmem ↦ by
  have hhead := (reservedNames_shape _ hmem).2 c.toLower
    (by rw [toList_toLowerAscii, String.toList_ofList]; rfl)
  rw [Char.isAlpha_toLower_eq_isAlpha, h] at hhead
  cases hhead

/-- Sanitizing gives a reserved word if the identifier characters of the name are one. -/
theorem sanitizeName_reserved_iff (name : String) :
    toLowerAscii (sanitizeName name) ∈ reservedNames ↔
      toLowerAscii (String.ofList (identifierChars name)) ∈ reservedNames := by
  rw [sanitizeName]
  rcases hcs : identifierChars name with - | ⟨c, cs⟩
  · rfl
  rw [prefixed]
  split_ifs with hstart
  · rcases Nat.le_total (c :: cs).length maxParameterNameLength with hle | hge
    · rw [List.take_of_length_le hle]
    · refine iff_of_false (not_reserved_of_length ?_) (not_reserved_of_length hge)
      rw [List.length_take, min_eq_left hge]
  · have halpha : c.isAlpha = false := by
      rw [isIdentifierStart, Bool.or_eq_true, not_or] at hstart
      exact Bool.eq_false_iff.2 hstart.1
    refine iff_of_false ?_ (not_reserved_of_head halpha)
    exact not_reserved_of_head (c := '_') (by decide)

/-! ### Sanitizers and checks -/

theorem sanitizeName_idempotent (name : String) :
    sanitizeName (sanitizeName name) = sanitizeName name :=
  sanitizeName_of_isName (sanitizeName_isName name)

/-- The characters of a sanitized value. -/
theorem mem_sanitizeValue {value : String} {c : Char} (h : c ∈ (sanitizeValue value).toList) :
    c ≠ '\x00' := by
  rw [sanitizeValue, String.toList_ofList] at h
  simpa using (List.mem_filter.1 (List.mem_of_mem_take h)).2

theorem length_sanitizeValue (value : String) :
    (sanitizeValue value).toList.length ≤ maxParameterValueLength := by
  rw [sanitizeValue, String.toList_ofList, List.length_take]
  exact min_le_left _ _

theorem sanitizeValue_idempotent (value : String) :
    sanitizeValue (sanitizeValue value) = sanitizeValue value := by
  have hfilter : (sanitizeValue value).toList.filter (· ≠ '\x00') = (sanitizeValue value).toList :=
    List.filter_eq_self.2 fun c hc ↦ by simpa using mem_sanitizeValue hc
  rw [sanitizeValue, hfilter, List.take_of_length_le (length_sanitizeValue value),
    String.ofList_toList]

theorem validateValue_sanitizeValue (value : String) :
    validateValue (sanitizeValue value) = .ok () := by
  rw [validateValue, if_neg (not_lt.2 (length_sanitizeValue value)),
    if_neg fun h ↦ mem_sanitizeValue h rfl]

/-- What sanitizers are for: the checks accept what they return, and they change nothing that they
have returned. -/
structure Sanitizes (s : String) : Prop where
  name : sanitizeName s ≠ "" → validateName (sanitizeName s) = .ok ()
  value : validateValue (sanitizeValue s) = .ok ()
  name_idempotent : sanitizeName (sanitizeName s) = sanitizeName s
  value_idempotent : sanitizeValue (sanitizeValue s) = sanitizeValue s

/-- **The sanitizers establish what the checks ask for**, unless the characters that are left of a
name are a reserved word. -/
theorem sanitizes_iff (s : String) :
    Sanitizes s ↔ toLowerAscii (String.ofList (identifierChars s)) ∉ reservedNames := by
  rw [← sanitizeName_reserved_iff]
  refine ⟨fun h hreserved ↦ ?_, fun h ↦ ⟨fun hne ↦ ?_, validateValue_sanitizeValue s,
    sanitizeName_idempotent s, sanitizeValue_idempotent s⟩⟩
  · have hne : sanitizeName s ≠ "" := fun hempty ↦ by
      rw [hempty] at hreserved
      exact absurd hreserved (by decide)
    exact (validateName_of_isName (sanitizeName_isName s) hne).1 (h.name hne) hreserved
  · exact (validateName_of_isName (sanitizeName_isName s) hne).2 h

/-- A hyphen is dropped, and a reserved word is left. -/
theorem not_sanitizes_end : sanitizeName "en-d" = "end" ∧ ¬Sanitizes "en-d" := by
  have hname : sanitizeName "en-d" = "end" := by decide
  refine ⟨hname, fun h ↦ ?_⟩
  have hvalid := h.name (by rw [hname]; decide)
  rw [hname] at hvalid
  exact absurd hvalid (by decide)

end ParameterValidator

end FastRules
