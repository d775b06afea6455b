import FastRules.Engine.Globals
import FastRules.Foundations.LuaPatterns
import FastRules.Foundations.LuaStrings
import FastRules.Validation.ExpressionValidator

/-!
# Predicates with a string

`Rule::equals` and `Rule::contains` paste a string between quotes into the text of an expression.
Lua reads there a literal string, and `string.find` reads the string as a pattern. So the expression
of `equals` says what it is to say if and only if the string stands for itself between quotes, and
the validator finds nothing in it (`embedsEquals_iff`); for `contains` nothing of it may be magic
either (`embedsContains_iff`).
-/

open Lua LuaPattern WordOccurrence

namespace FastRules

/-! ### The factories -/

namespace Rule

def equals (parameterName value : String) (description : String := "") : Rule where
  description := if description = "" then parameterName ++ " == " ++ value else description
  expression := parameterName ++ " == \"" ++ value ++ "\""

def contains (parameterName substring : String) (description : String := "") : Rule where
  description :=
    if description = "" then parameterName ++ " contains " ++ substring else description
  expression := "string.find(" ++ parameterName ++ ", \"" ++ substring ++ "\") ~= nil"

end Rule

/-- What `compileExpression` gives to `luaL_loadstring`. -/
def chunkText (code : String) : List Char :=
  (cStr ("return " ++ code)).toList

/-! ### Lua -/

/-- The reserved words of Lua. -/
def keywords : List (List Char) :=
  ["and", "break", "do", "else", "elseif", "end", "false", "for", "function", "goto", "if", "in",
    "local", "nil", "not", "or", "repeat", "return", "then", "true", "until", "while"].map
    String.toList

/-- An identifier of Lua. -/
structure IsIdentifier (name : List Char) : Prop where
  starts : ∃ c ∈ name.head?, isNameStart c = true
  chars : ∀ c ∈ name, isNameChar c = true
  not_keyword : name ∉ keywords

/-- The name of the table of the globals, which is no global itself. -/
def environmentName : List Char := "_ENV".toList

/-- The chunk that compares a name with a literal, of which `text` is what follows the quote. -/
def comparisonChunk (name text : List Char) : List Char :=
  "return ".toList ++ (name ++ " == ".toList ++ '"' :: text)

/-- The chunk that begins to look for a literal, of which `text` is what follows the quote. -/
def searchChunk (name text : List Char) : List Char :=
  "return ".toList ++ ("string.find(".toList ++ name ++ ", ".toList ++ '"' :: text)

/-- The end of such a chunk. -/
def searchEnd : List Char := ") ~= nil".toList

/-- What is said of Lua: which texts it loads, and what the chunks return where a parameter holds a
value, as far as the text is one comparison of a name with a literal string, or of what
`string.find` returns with `nil`. -/
structure LuaInterpreter where
  Loads : List Char → Prop
  /-- The chunk returns the last value where the parameter of the name holds the first. -/
  Returns : List Char → List Char → LuaValue → LuaValue → Prop
  loads_comparison {name text value} : IsIdentifier name → Denotes text value [] →
    Loads (comparisonChunk name text)
  loads_search {name text value} : IsIdentifier name → Denotes text value searchEnd →
    Loads (searchChunk name text)
  /-- A literal is closed. -/
  not_loads_comparison {name text} : IsIdentifier name → (∀ value rest, ¬Denotes text value rest) →
    ¬Loads (comparisonChunk name text)
  not_loads_search {name text} : IsIdentifier name → (∀ value rest, ¬Denotes text value rest) →
    ¬Loads (searchChunk name text)
  /-- Strings are equal to strings of the same bytes only. -/
  returns_comparison {name text value} (v : LuaValue) : IsIdentifier name → Denotes text value [] →
    (Returns (comparisonChunk name text) name v (.boolean true) ↔
      name ≠ environmentName ∧ v = .string (String.ofList value))
  /-- `string.find` returns nothing but `nil` if the pattern is not found, and raises an error if it
  is malformed. -/
  returns_search {name text value} (t : String) : IsIdentifier name →
    Denotes text value searchEnd →
    (Returns (searchChunk name text) name (.string t) (.boolean true) ↔
      name ≠ environmentName ∧ ∃ p, parse value = some p ∧ Found p t.toList)

/-! ### Embedding a string -/

/-- A literal with this text is closed by the quote behind it, if at all. -/
def StaysInside (s behind : List Char) : Prop :=
  ∀ value rest, Denotes (s ++ '"' :: behind) value rest → rest = behind

/-- The expression of `Rule::equals` is accepted, and true if and only if the parameter holds the
string, none of which is read as anything but the literal. -/
structure EmbedsEquals (lua : LuaInterpreter) (p s : String) : Prop where
  valid : (ExpressionValidator.validate (Rule.equals p s).expression).valid = true
  inside : StaysInside s.toList []
  loads : lua.Loads (chunkText (Rule.equals p s).expression)
  right : ∀ v, lua.Returns (chunkText (Rule.equals p s).expression) p.toList v (.boolean true) ↔
    v = .string s

/-- The expression of `Rule::contains` is accepted, and true of a string if and only if that
contains the string, none of which is read as anything but the literal. -/
structure EmbedsContains (lua : LuaInterpreter) (p s : String) : Prop where
  valid : (ExpressionValidator.validate (Rule.contains p s).expression).valid = true
  inside : StaysInside s.toList searchEnd
  loads : lua.Loads (chunkText (Rule.contains p s).expression)
  right : ∀ t, lua.Returns (chunkText (Rule.contains p s).expression) p.toList (.string t)
    (.boolean true) ↔ s.toList <:+: t.toList

/-- The literal with this text denotes no pattern with frontiers or references to captures. -/
def RegularPattern (s : List Char) : Prop :=
  ∀ value, Denotes (s ++ '"' :: searchEnd) value searchEnd →
    ∀ p, parse value = some p → p.Regular

/-- The string stands for itself between quotes, and the validator finds nothing in it or in the
name. -/
structure Embeddable (p s : String) : Prop where
  global : p.toList ≠ environmentName
  unlisted : ∀ q ∈ ExpressionValidator.getDangerousPatterns,
    p.toList.map Char.toLower ≠ q.1.toList ∧ ¬ExpressionValidator.Lists q s.toList
  balanced : ExpressionValidator.Balanced s.toList
  plain : ∀ c ∈ s.toList, c ∉ unplain

/-! ### What the validator finds -/

namespace ExpressionValidator

/-- What stands between the words of the expressions. -/
def separators : List Char := [' ', '=', '~', ',', '(', ')', '"']

theorem not_lists_nil {q : String × String} (hq : q ∈ getDangerousPatterns) : ¬Lists q [] :=
  passes_nil.dangerous q hq

theorem lists_separated {q : String × String} (hq : q ∈ getDangerousPatterns) {c : Char}
    (hc : c ∈ separators) (s t : List Char) : Lists q (s ++ c :: t) ↔ Lists q s ∨ Lists q t := by
  have hnone : ∀ q ∈ getDangerousPatterns, ∀ c ∈ separators, c ∉ q.1.toList := by decide +kernel
  have hsame : ∀ c ∈ separators, c.toLower = c ∧ isNameChar c = false := by decide
  rw [Lists, List.map_append, List.map_cons, (hsame c hc).1]
  refine occurs_separated (hsame c hc).2 (hnone q hq c hc) fun hnil ↦ ?_
  exact patterns_ne_empty q hq (String.toList_inj.1 hnil)

theorem lists_word_iff {q : String × String} {s : List Char} (hs : ∀ c ∈ s, isNameChar c = true) :
    Lists q s ↔ s.map Char.toLower = q.1.toList := by
  rw [Lists, occurs_word_iff, eq_comm]
  intro c hc
  obtain ⟨d, hd, rfl⟩ := List.mem_map.1 hc
  rw [keepsWords_toLower.word]
  exact hs d hd

/-- Between double quotes without a quote or a backslash the scan stays inside. -/
theorem foldl_plain {s : List Char} (hs : ∀ c ∈ s, c ∉ unplain) {scan : QuoteScan}
    (hdelim : scan.delim = some '"') (hlast : scan.last ≠ some '\\') :
    (s.foldl QuoteScan.step scan).delim = some '"' ∧
      (s.foldl QuoteScan.step scan).last ≠ some '\\' := by
  induction s generalizing scan with
  | nil => exact ⟨hdelim, hlast⟩
  | cons c s ih =>
    obtain ⟨hc, hs⟩ := List.forall_mem_cons.1 hs
    have hquote : c ≠ '"' := fun h ↦ hc (h ▸ by decide)
    have hescape : c ≠ '\\' := fun h ↦ hc (h ▸ by decide)
    refine ih hs ?_ fun h ↦ hescape (Option.some.inj h)
    rw [QuoteScan.step, hdelim]
    exact if_neg fun h ↦ hquote h.1

theorem quotesClosed_quoted {head s tail : List Char} (hhead : ∀ c ∈ head, c ∉ quoting)
    (htail : ∀ c ∈ tail, c ∉ quoting) (hs : ∀ c ∈ s, c ∉ unplain) :
    QuotesClosed (head ++ '"' :: (s ++ '"' :: tail)) := by
  obtain ⟨hnone, hclear⟩ := QuoteScan.foldl_of_not_quoting QuoteScan.clear_start hhead
  rw [QuotesClosed, List.foldl_append, List.foldl_cons, List.foldl_append, List.foldl_cons]
  generalize head.foldl QuoteScan.step {} = scan at hnone hclear
  have hopen : (scan.step '"').delim = some '"' := by
    rw [QuoteScan.step, hnone]
    rfl
  obtain ⟨hdelim, hlast⟩ := foldl_plain hs hopen (by decide : some '"' ≠ some '\\')
  generalize s.foldl QuoteScan.step (scan.step '"') = scan at hdelim hlast
  have hclose : (scan.step '"').delim = none := by
    rw [QuoteScan.step, hdelim]
    exact if_pos ⟨rfl, hlast⟩
  have hclear : (scan.step '"').Clear := by
    refine ⟨fun d hd ↦ ?_, fun hlast ↦ by cases hlast⟩
    rw [hclose] at hd
    cases hd
  exact (QuoteScan.foldl_of_not_quoting hclear htail).1.trans hclose

/-- What the checks find in an expression with a plain string is the name and what stands in the
string. -/
theorem passes_quoted_iff {name head s tail : List Char}
    (hname : ∀ q ∈ getDangerousPatterns, Lists q head ↔ name.map Char.toLower = q.1.toList)
    (htail : ∀ q ∈ getDangerousPatterns, ¬Lists q tail) (hbalanced : Balanced (head ++ tail))
    (hquoting : ∀ c ∈ head ++ tail, c ∉ quoting) (hs : ∀ c ∈ s, c ∉ unplain) :
    Passes (head ++ '"' :: (s ++ '"' :: tail)) ↔
      (∀ q ∈ getDangerousPatterns, name.map Char.toLower ≠ q.1.toList ∧ ¬Lists q s) ∧
        Balanced s := by
  obtain ⟨hhead, hbehind⟩ := List.forall_mem_append.1 hquoting
  have hlists : (∀ q ∈ getDangerousPatterns, ¬Lists q (head ++ '"' :: (s ++ '"' :: tail))) ↔
      ∀ q ∈ getDangerousPatterns, name.map Char.toLower ≠ q.1.toList ∧ ¬Lists q s := by
    refine forall₂_congr fun q hq ↦ ?_
    rw [lists_separated hq (by decide), lists_separated hq (by decide), hname q hq, not_or, not_or,
      and_iff_left (htail q hq)]
  have hcount {o c : Char} (ho : o ≠ '"') (hc : c ≠ '"') (hframe : SameCount o c (head ++ tail)) :
      SameCount o c (head ++ '"' :: (s ++ '"' :: tail)) ↔ SameCount o c s := by
    rw [SameCount, List.count_append, List.count_append] at hframe
    rw [SameCount, SameCount]
    simp only [List.count_append, List.count_cons_of_ne ho.symm, List.count_cons_of_ne hc.symm]
    omega
  have hparens := hcount (by decide) (by decide) hbalanced.parens
  have hbrackets := hcount (by decide) (by decide) hbalanced.brackets
  have hbraces := hcount (by decide) (by decide) hbalanced.braces
  constructor
  · rintro ⟨hdangerous, hb, -⟩
    exact ⟨hlists.1 hdangerous, hparens.1 hb.parens, hbrackets.1 hb.brackets, hbraces.1 hb.braces⟩
  · rintro ⟨hdangerous, hb⟩
    exact ⟨hlists.2 hdangerous,
      ⟨hparens.2 hb.parens, hbrackets.2 hb.brackets, hbraces.2 hb.braces⟩,
      quotesClosed_quoted hhead hbehind hs⟩

end ExpressionValidator

/-! ### The expressions -/

section Expressions

variable {lua : LuaInterpreter} {p s : String}

theorem IsIdentifier.count_eq_zero {name : List Char} (h : IsIdentifier name) {c : Char}
    (hc : isNameChar c = false) : name.count c = 0 :=
  List.count_eq_zero.2 fun hmem ↦ by
    rw [h.chars c hmem] at hc
    cases hc

theorem IsIdentifier.nulFree (h : IsIdentifier p.toList) : NulFree p :=
  fun hmem ↦ by cases h.chars _ hmem

theorem nulFree_append {s t : String} (hs : NulFree s) (ht : NulFree t) : NulFree (s ++ t) := by
  rw [NulFree, String.toList_append, List.mem_append, not_or]
  exact ⟨hs, ht⟩

theorem chunkText_eq {code : String} (h : NulFree code) :
    chunkText code = "return ".toList ++ code.toList := by
  rw [chunkText, cStr_eq_self (nulFree_append (by decide) h), String.toList_append]

/-- A text with a string between quotes. -/
theorem toList_quoted (head s tail : String) : (head ++ "\"" ++ s ++ ("\"" ++ tail)).toList =
    head.toList ++ '"' :: (s.toList ++ '"' :: tail.toList) := by
  simp

theorem toList_equals (p s : String) : (Rule.equals p s).expression.toList =
    p.toList ++ " == ".toList ++ '"' :: (s.toList ++ '"' :: []) := by
  have hopen : " == \"" = " == " ++ "\"" := rfl
  have hclose : "\"" = "\"" ++ "" := rfl
  have hexpression : (Rule.equals p s).expression =
      p ++ " == " ++ "\"" ++ s ++ ("\"" ++ "") := by
    have hassoc : p ++ " == " ++ "\"" = p ++ (" == " ++ "\"") := String.append_assoc
    rw [hassoc, ← hopen, ← hclose]
    rfl
  rw [hexpression, toList_quoted, String.toList_append]
  rfl

theorem toList_contains (p s : String) : (Rule.contains p s).expression.toList =
    "string.find(".toList ++ p.toList ++ ", ".toList ++ '"' :: (s.toList ++ '"' :: searchEnd) := by
  have hopen : ", \"" = ", " ++ "\"" := rfl
  have hclose : "\") ~= nil" = "\"" ++ ") ~= nil" := rfl
  have hexpression : (Rule.contains p s).expression =
      "string.find(" ++ p ++ ", " ++ "\"" ++ s ++ ("\"" ++ ") ~= nil") := by
    have hassoc : "string.find(" ++ p ++ ", " ++ "\"" = "string.find(" ++ p ++ (", " ++ "\"") :=
      String.append_assoc
    rw [hassoc, ← hopen, ← hclose]
    rfl
  rw [hexpression, toList_quoted, String.toList_append, String.toList_append]
  rfl

theorem chunkText_equals (hp : IsIdentifier p.toList) (hs : NulFree s) :
    chunkText (Rule.equals p s).expression = comparisonChunk p.toList (s.toList ++ '"' :: []) := by
  have hnul : NulFree (p ++ " == \"" ++ s ++ "\"") :=
    nulFree_append (nulFree_append (nulFree_append hp.nulFree (by decide)) hs) (by decide)
  exact (chunkText_eq hnul).trans (congrArg _ (toList_equals p s))

theorem chunkText_contains (hp : IsIdentifier p.toList) (hs : NulFree s) :
    chunkText (Rule.contains p s).expression =
      searchChunk p.toList (s.toList ++ '"' :: searchEnd) := by
  have hnul : NulFree ("string.find(" ++ p ++ ", \"" ++ s ++ "\") ~= nil") :=
    nulFree_append (nulFree_append (nulFree_append (nulFree_append (by decide) hp.nulFree)
      (by decide)) hs) (by decide)
  exact (chunkText_eq hnul).trans (congrArg _ (toList_contains p s))

/-- The name of a parameter between separators is all there can be listed. -/
theorem lists_equals_head (hp : IsIdentifier p.toList) :
    ∀ q ∈ ExpressionValidator.getDangerousPatterns,
      ExpressionValidator.Lists q (p.toList ++ " == ".toList) ↔
        p.toList.map Char.toLower = q.1.toList := by
  intro q hq
  have hnil := ExpressionValidator.not_lists_nil hq
  have hspaces : " == ".toList = ' ' :: ([] ++ '=' :: ([] ++ '=' :: ([] ++ [' ']))) := rfl
  rw [hspaces]
  simp only [ExpressionValidator.lists_separated hq (by decide : ' ' ∈ _),
    ExpressionValidator.lists_separated hq (by decide : '=' ∈ _), hnil, or_false,
    ExpressionValidator.lists_word_iff hp.chars]

theorem lists_contains_head (hp : IsIdentifier p.toList) :
    ∀ q ∈ ExpressionValidator.getDangerousPatterns,
      ExpressionValidator.Lists q ("string.find(".toList ++ p.toList ++ ", ".toList) ↔
        p.toList.map Char.toLower = q.1.toList := by
  intro q hq
  have hnil := ExpressionValidator.not_lists_nil hq
  have hfind : ¬ExpressionValidator.Lists q "string.find".toList :=
    ExpressionValidator.findDangerousPatterns_eq_nil_iff.1 (by decide +kernel) q hq
  have hopen : "string.find(".toList = "string.find".toList ++ ['('] := rfl
  have hcomma : ", ".toList = ',' :: ([] ++ [' ']) := rfl
  rw [hopen, hcomma, List.append_assoc, List.append_assoc, List.singleton_append]
  simp only [ExpressionValidator.lists_separated hq (by decide : '(' ∈ _),
    ExpressionValidator.lists_separated hq (by decide : ',' ∈ _),
    ExpressionValidator.lists_separated hq (by decide : ' ' ∈ _), hfind, hnil, or_false, false_or,
    ExpressionValidator.lists_word_iff hp.chars]

theorem not_lists_searchEnd :
    ∀ q ∈ ExpressionValidator.getDangerousPatterns, ¬ExpressionValidator.Lists q searchEnd :=
  ExpressionValidator.findDangerousPatterns_eq_nil_iff.1
    (by decide +kernel : ExpressionValidator.findDangerousPatterns ") ~= nil" = [])

/-- The brackets of the expressions around a name. -/
theorem balanced_frame {head name tail : List Char} (hname : IsIdentifier name)
    (h : ExpressionValidator.Balanced (head ++ tail)) :
    ExpressionValidator.Balanced (head ++ name ++ tail) := by
  have hcount {o c : Char} (ho : isNameChar o = false) (hc : isNameChar c = false)
      (hsame : ExpressionValidator.SameCount o c (head ++ tail)) :
      ExpressionValidator.SameCount o c (head ++ name ++ tail) := by
    rw [ExpressionValidator.SameCount, List.count_append, List.count_append] at hsame ⊢
    rw [List.count_append, List.count_append, hname.count_eq_zero ho, hname.count_eq_zero hc]
    exact hsame
  exact ⟨hcount (by decide) (by decide) h.parens, hcount (by decide) (by decide) h.brackets,
    hcount (by decide) (by decide) h.braces⟩

theorem not_quoting_frame {head name tail : List Char} (hname : IsIdentifier name)
    (h : ∀ c ∈ head ++ tail, c ∉ quoting) : ∀ c ∈ head ++ name ++ tail, c ∉ quoting := by
  obtain ⟨hhead, htail⟩ := List.forall_mem_append.1 h
  exact List.forall_mem_append.2 ⟨List.forall_mem_append.2
    ⟨hhead, fun c hc ↦ not_quoting_of_isNameChar (hname.chars c hc)⟩, htail⟩

/-- What the validator finds in the expression of `Rule::equals`. -/
theorem valid_equals_iff (hp : IsIdentifier p.toList) (hs : ∀ c ∈ s.toList, c ∉ unplain) :
    (ExpressionValidator.validate (Rule.equals p s).expression).valid = true ↔
      (∀ q ∈ ExpressionValidator.getDangerousPatterns,
        p.toList.map Char.toLower ≠ q.1.toList ∧ ¬ExpressionValidator.Lists q s.toList) ∧
        ExpressionValidator.Balanced s.toList := by
  have hbalanced : ExpressionValidator.Balanced ([] ++ p.toList ++ " == ".toList) :=
    balanced_frame hp ⟨by decide, by decide, by decide⟩
  have hquoting : ∀ c ∈ [] ++ p.toList ++ " == ".toList, c ∉ quoting :=
    not_quoting_frame hp (by decide)
  rw [ExpressionValidator.validate_valid_iff, toList_equals]
  refine ExpressionValidator.passes_quoted_iff (lists_equals_head hp)
    (fun q hq ↦ ExpressionValidator.not_lists_nil hq) ?_ ?_ hs
  · rwa [List.append_nil]
  · rwa [List.append_nil]

/-- What the validator finds in the expression of `Rule::contains`. -/
theorem valid_contains_iff (hp : IsIdentifier p.toList) (hs : ∀ c ∈ s.toList, c ∉ unplain) :
    (ExpressionValidator.validate (Rule.contains p s).expression).valid = true ↔
      (∀ q ∈ ExpressionValidator.getDangerousPatterns,
        p.toList.map Char.toLower ≠ q.1.toList ∧ ¬ExpressionValidator.Lists q s.toList) ∧
        ExpressionValidator.Balanced s.toList := by
  have hbalanced : ExpressionValidator.Balanced
      ("string.find(".toList ++ p.toList ++ (", ".toList ++ searchEnd)) :=
    balanced_frame hp ⟨by decide, by decide, by decide⟩
  have hquoting : ∀ c ∈ "string.find(".toList ++ p.toList ++ (", ".toList ++ searchEnd),
      c ∉ quoting :=
    not_quoting_frame hp (by decide)
  rw [ExpressionValidator.validate_valid_iff, toList_contains]
  rw [← List.append_assoc] at hbalanced hquoting
  exact ExpressionValidator.passes_quoted_iff (lists_contains_head hp) not_lists_searchEnd
    hbalanced hquoting hs

/-! ### What is embedded -/

/-- A literal that denotes all of `s` with `behind` behind it is `s` without anything to escape. -/
theorem plain_of_denotes {behind value : List Char}
    (h : Denotes (s.toList ++ '"' :: behind) value behind)
    (hvalue : s.toList.length ≤ value.length) :
    value = s.toList ∧ ∀ c ∈ s.toList, c ∉ unplain := by
  obtain ⟨content, heq, -, hsame⟩ := h.content
  obtain rfl := List.append_cancel_right heq
  exact hsame hvalue

theorem length_of_denotes {behind value : List Char}
    (h : Denotes (s.toList ++ '"' :: behind) value behind) : value.length ≤ s.toList.length := by
  obtain ⟨content, heq, hle, -⟩ := h.content
  obtain rfl := List.append_cancel_right heq
  exact hle

theorem staysInside_of_plain (hs : ∀ c ∈ s.toList, c ∉ unplain) (behind : List Char) :
    StaysInside s.toList behind :=
  fun _ _ h ↦ ((denotes_of_plain hs behind).unique h).2.symm

/-- Lua reads the literal that it loads. -/
theorem EmbedsEquals.exists_denotes (hp : IsIdentifier p.toList) (hs : NulFree s)
    (h : EmbedsEquals lua p s) : ∃ value, Denotes (s.toList ++ '"' :: []) value [] := by
  by_contra hnone
  have hloads := h.loads
  rw [chunkText_equals hp hs] at hloads
  refine lua.not_loads_comparison hp (fun value rest hread ↦ ?_) hloads
  obtain rfl := h.inside value rest hread
  exact hnone ⟨value, hread⟩

/-- The expression of `Rule::equals` says what it is to say if and only if the string stands for
itself between quotes and the validator finds nothing. -/
theorem embedsEquals_iff (hp : IsIdentifier p.toList) (hs : NulFree s) :
    EmbedsEquals lua p s ↔ Embeddable p s := by
  constructor
  · intro h
    obtain ⟨value, hread⟩ := h.exists_denotes hp hs
    have hright := h.right (.string s)
    rw [chunkText_equals hp hs, lua.returns_comparison _ hp hread] at hright
    obtain ⟨hglobal, hvalue⟩ := hright.2 rfl
    have hsame : s.toList = value := by
      rw [LuaValue.string.inj hvalue, String.toList_ofList]
    obtain ⟨-, hplain⟩ := plain_of_denotes hread (congrArg List.length hsame).le
    obtain ⟨hunlisted, hbalanced⟩ := (valid_equals_iff hp hplain).1 h.valid
    exact ⟨hglobal, hunlisted, hbalanced, hplain⟩
  · intro h
    have hread := denotes_of_plain h.plain []
    refine ⟨(valid_equals_iff hp h.plain).2 ⟨h.unlisted, h.balanced⟩,
      staysInside_of_plain h.plain _, ?_, fun v ↦ ?_⟩
    · rw [chunkText_equals hp hs]
      exact lua.loads_comparison hp hread
    · rw [chunkText_equals hp hs, lua.returns_comparison v hp hread, String.ofList_toList]
      exact and_iff_right h.global

theorem EmbedsContains.exists_denotes (hp : IsIdentifier p.toList) (hs : NulFree s)
    (h : EmbedsContains lua p s) :
    ∃ value, Denotes (s.toList ++ '"' :: searchEnd) value searchEnd := by
  by_contra hnone
  have hloads := h.loads
  rw [chunkText_contains hp hs] at hloads
  refine lua.not_loads_search hp (fun value rest hread ↦ ?_) hloads
  obtain rfl := h.inside value rest hread
  exact hnone ⟨value, hread⟩

/-- The pattern that the literal denotes finds exactly the strings that contain `s`. -/
theorem EmbedsContains.findsExactly (hp : IsIdentifier p.toList) (hs : NulFree s)
    (h : EmbedsContains lua p s) {value : List Char}
    (hread : Denotes (s.toList ++ '"' :: searchEnd) value searchEnd) :
    p.toList ≠ environmentName ∧ FindsExactly value s.toList := by
  have hright (t : String) : (p.toList ≠ environmentName ∧
      ∃ π, parse value = some π ∧ Found π t.toList) ↔ s.toList <:+: t.toList := by
    rw [← h.right t, chunkText_contains hp hs, lua.returns_search t hp hread]
  obtain ⟨hglobal, π, hπ, -⟩ := (hright s).2 List.infix_rfl
  refine ⟨hglobal, π, hπ, fun text ↦ ?_⟩
  have ht := hright (String.ofList text)
  rw [String.toList_ofList] at ht
  rw [← ht]
  constructor
  · exact fun hfound ↦ ⟨hglobal, π, hπ, hfound⟩
  · rintro ⟨-, π', hπ', hfound⟩
    rw [hπ, Option.some.injEq] at hπ'
    rwa [hπ']

/-- An expression of `Rule::contains` that says what it is to say has a string that stands for
itself, also as a pattern. -/
theorem EmbedsContains.literal (hp : IsIdentifier p.toList) (hs : NulFree s)
    (h : EmbedsContains lua p s) (hregular : RegularPattern s.toList) :
    Embeddable p s ∧ IsLiteral s.toList := by
  obtain ⟨value, hread⟩ := h.exists_denotes hp hs
  obtain ⟨hglobal, hfinds⟩ := h.findsExactly hp hs hread
  obtain ⟨hsame, hliteral⟩ := hfinds.literal (length_of_denotes hread) (hregular value hread)
  obtain ⟨-, hplain⟩ := plain_of_denotes hread (congrArg List.length hsame).ge
  obtain ⟨hunlisted, hbalanced⟩ := (valid_contains_iff hp hplain).1 h.valid
  exact ⟨⟨hglobal, hunlisted, hbalanced, hplain⟩, hliteral⟩

theorem embedsContains_of_literal (hp : IsIdentifier p.toList) (hs : NulFree s)
    (h : Embeddable p s) (hliteral : IsLiteral s.toList) : EmbedsContains lua p s := by
  have hread := denotes_of_plain h.plain searchEnd
  refine ⟨(valid_contains_iff hp h.plain).2 ⟨h.unlisted, h.balanced⟩,
    staysInside_of_plain h.plain _, ?_, fun t ↦ ?_⟩
  · rw [chunkText_contains hp hs]
    exact lua.loads_search hp hread
  · rw [chunkText_contains hp hs, lua.returns_search t hp hread, and_iff_right h.global,
      parse_of_literal hliteral]
    simp only [Option.some.injEq, exists_eq_left', found_literal_iff hliteral]

end Expressions

/-! ### The chunks alone -/

/-- A name is followed by a character that cannot stand in one. -/
theorem eq_of_name_append {name name' a b : List Char} {c d : Char} (hname : IsIdentifier name)
    (hname' : IsIdentifier name') (hc : isNameChar c = false) (hd : isNameChar d = false)
    (h : name ++ c :: a = name' ++ d :: b) : name = name' ∧ c :: a = d :: b := by
  obtain rfl := eq_of_word_append hname.chars hname'.chars (startsOpen_cons.2 hc)
    (startsOpen_cons.2 hd) h
  exact ⟨rfl, List.append_cancel_left h⟩

theorem comparisonChunk_inj {name name' text text' : List Char} (hname : IsIdentifier name)
    (hname' : IsIdentifier name') (h : comparisonChunk name text = comparisonChunk name' text') :
    text = text' := by
  have hchunk := List.append_cancel_left h
  rw [List.append_assoc, List.append_assoc] at hchunk
  have hbehind := (eq_of_name_append hname hname' (by decide : isNameChar ' ' = false)
    (by decide : isNameChar ' ' = false) hchunk).2
  exact (List.append_right_inj " == \"".toList).1 hbehind

theorem searchChunk_inj {name name' text text' : List Char} (hname : IsIdentifier name)
    (hname' : IsIdentifier name') (h : searchChunk name text = searchChunk name' text') :
    text = text' := by
  have hchunk := List.append_cancel_left h
  rw [List.append_assoc, List.append_assoc, List.append_assoc, List.append_assoc] at hchunk
  have hbehind := (eq_of_name_append hname hname' (by decide : isNameChar ',' = false)
    (by decide : isNameChar ',' = false) (List.append_cancel_left hchunk)).2
  exact (List.append_right_inj ", \"".toList).1 hbehind

theorem comparisonChunk_ne_searchChunk {name name' text text' : List Char}
    (hname : IsIdentifier name) : comparisonChunk name text ≠ searchChunk name' text' := by
  intro h
  have hstring : IsIdentifier "string".toList := ⟨⟨'s', rfl, rfl⟩, by decide, by decide⟩
  have hchunk := List.append_cancel_left h
  rw [List.append_assoc] at hchunk
  have hbehind := (eq_of_name_append hname hstring (by decide : isNameChar ' ' = false)
    (by decide : isNameChar '.' = false) hchunk).2
  exact absurd (List.cons.inj hbehind).1 (by decide)

/-- An interpreter that loads nothing but these chunks. -/
def LuaInterpreter.ofChunks : LuaInterpreter where
  Loads chunk := ∃ name text value, IsIdentifier name ∧
    (chunk = comparisonChunk name text ∧ Denotes text value [] ∨
      chunk = searchChunk name text ∧ Denotes text value searchEnd)
  Returns chunk name v result := ∃ text value,
    (chunk = comparisonChunk name text ∧ Denotes text value [] ∧
      result = .boolean (name ≠ environmentName ∧ v = .string (String.ofList value))) ∨
    (chunk = searchChunk name text ∧ Denotes text value searchEnd ∧ name ≠ environmentName ∧
      ∃ t p b, v = .string t ∧ parse value = some p ∧ result = .boolean b ∧
        (b = true ↔ Found p t.toList))
  loads_comparison hname hread := ⟨_, _, _, hname, .inl ⟨rfl, hread⟩⟩
  loads_search hname hread := ⟨_, _, _, hname, .inr ⟨rfl, hread⟩⟩
  not_loads_comparison hname hnone := by
    rintro ⟨name', text', value, hname', ⟨h, hread⟩ | ⟨h, -⟩⟩
    · exact hnone value [] (comparisonChunk_inj hname hname' h ▸ hread)
    · exact comparisonChunk_ne_searchChunk hname h
  not_loads_search hname hnone := by
    rintro ⟨name', text', value, hname', ⟨h, -⟩ | ⟨h, hread⟩⟩
    · exact comparisonChunk_ne_searchChunk hname' h.symm
    · exact hnone value searchEnd (searchChunk_inj hname hname' h ▸ hread)
  returns_comparison v hname hread := by
    constructor
    · rintro ⟨text', value', ⟨h, hread', hresult⟩ | ⟨h, -⟩⟩
      · obtain rfl := comparisonChunk_inj hname hname h
        rw [(hread.unique hread').1]
        exact of_decide_eq_true (LuaValue.boolean.inj hresult).symm
      · exact absurd h (comparisonChunk_ne_searchChunk hname)
    · intro h
      exact ⟨_, _, .inl ⟨rfl, hread, by rw [decide_eq_true h]⟩⟩
  returns_search t hname hread := by
    constructor
    · rintro ⟨text', value', ⟨h, -⟩ | ⟨h, hread', hglobal, t', p, b, ht, hp, hresult, hb⟩⟩
      · exact absurd h.symm (comparisonChunk_ne_searchChunk hname)
      · obtain rfl := searchChunk_inj hname hname h
        rw [(hread.unique hread').1, LuaValue.string.inj ht]
        exact ⟨hglobal, p, hp, hb.1 (LuaValue.boolean.inj hresult).symm⟩
    · rintro ⟨hglobal, p, hp, hfound⟩
      exact ⟨_, _, .inr ⟨rfl, hread, hglobal, t, p, true, rfl, hp, rfl, iff_of_true rfl hfound⟩⟩

/-! ### What the factories embed -/

/-- **The factories embed a string** if it stands for itself between quotes and the validator finds
nothing, and, for `Rule::contains`, if nothing of it is magic in a pattern. No other string is
embedded by `Rule::equals`, and none by `Rule::contains` unless it denotes a pattern with frontiers
or references to captures. -/
theorem factories_embed_iff (lua : LuaInterpreter) {p s : String} (hp : IsIdentifier p.toList)
    (hs : NulFree s) :
    (EmbedsEquals lua p s ↔ Embeddable p s) ∧
      (Embeddable p s ∧ IsLiteral s.toList → EmbedsContains lua p s) ∧
      (RegularPattern s.toList → EmbedsContains lua p s →
        Embeddable p s ∧ IsLiteral s.toList) :=
  ⟨embedsEquals_iff hp hs, fun h ↦ embedsContains_of_literal hp hs h.1 h.2,
    fun hregular h ↦ h.literal hp hs hregular⟩

theorem factories_embed_iff_abc : IsIdentifier "x".toList ∧ NulFree "abc" ∧
    (EmbedsEquals .ofChunks "x" "abc" ↔ Embeddable "x" "abc") ∧
      (Embeddable "x" "abc" ∧ IsLiteral "abc".toList → EmbedsContains .ofChunks "x" "abc") ∧
      (RegularPattern "abc".toList → EmbedsContains .ofChunks "x" "abc" →
        Embeddable "x" "abc" ∧ IsLiteral "abc".toList) := by
  have hx : IsIdentifier "x".toList := ⟨⟨'x', rfl, rfl⟩, by decide, by decide⟩
  exact ⟨hx, by decide, factories_embed_iff .ofChunks hx (by decide)⟩

/-- Between quotes `a\b` is the letter `a` and a backspace, and the pattern `a.c` is found in `abc`.
-/
theorem backslash_and_dot_not_embedded : (¬∃ lua, EmbedsEquals lua "x" "a\\b") ∧
    ¬∃ lua, EmbedsContains lua "x" "a.c" := by
  have hx : IsIdentifier "x".toList := ⟨⟨'x', rfl, rfl⟩, by decide, by decide⟩
  constructor
  · rintro ⟨lua, h⟩
    exact absurd ((embedsEquals_iff hx (by decide)).1 h).plain (by decide)
  · rintro ⟨lua, h⟩
    have hread : Denotes ("a.c".toList ++ '"' :: searchEnd) "a.c".toList searchEnd :=
      denotes_of_plain (by decide) searchEnd
    have hparse : parse "a.c".toList =
        some ⟨false, [.single (.char 'a'), .single .any, .single (.char 'c')]⟩ := by decide
    have hregular : RegularPattern "a.c".toList := by
      intro value hvalue p hp
      rw [(hvalue.unique hread).1, hparse] at hp
      obtain rfl := Option.some.inj hp
      show ∀ i ∈ [Item.single (.char 'a'), .single .any, .single (.char 'c')], i.Regular
      decide
    exact absurd (h.literal hx (by decide) hregular).2 (by decide)

end FastRules
