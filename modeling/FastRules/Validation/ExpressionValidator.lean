import FastRules.Engine.Compile
import FastRules.Foundations.LuaLiterals
import FastRules.Validation.InputValidator

/-!
# The expression validator

`ExpressionValidator::validate` reads the text of an expression three times without taking it apart:
it searches for the listed names between characters that cannot stand in an identifier, counts
brackets, and follows quotes with a look at the character before. Lua reads lexical elements.

On a text of Lua, the search finds the names that are identifiers, the accesses without anything
around the dot, and whatever is listed inside strings and comments, all of it in any case
(`lists_textOf_iff`). So every bare name is found, an access with a blank or a comment next to its
dot only by accident (`blocked_rejected_iff`). In a text of well-nested tokens, the brackets and
quotes that can be wrong are those of the literal strings (`harmless_accepted_iff`).
-/

open Lua WordOccurrence

namespace FastRules

namespace ExpressionValidator

/-! ### The validator -/

/-- `ExpressionValidator::getDangerousPatterns`. -/
def getDangerousPatterns : List (String × String) :=
  [("os.execute", "os.execute() - shell command execution"),
    ("os.exit", "os.exit() - process termination"),
    ("io.open", "io.open() - file system access"),
    ("io.popen", "io.popen() - shell command execution"),
    ("loadfile", "loadfile() - arbitrary code loading"),
    ("dofile", "dofile() - arbitrary code execution"),
    ("require", "require() - module loading"),
    ("loadstring", "loadstring() - arbitrary code loading"),
    ("load", "load() - arbitrary code loading"),
    ("debug.getregistry", "debug.getregistry() - internal access"),
    ("debug.getlocal", "debug.getlocal() - stack inspection"),
    ("debug.setupvalue", "debug.setupvalue() - upvalue manipulation"),
    ("collectgarbage", "collectgarbage() - GC manipulation"),
    ("rawset", "rawset() - bypass metatables"),
    ("rawget", "rawget() - bypass metatables"),
    ("setmetatable", "setmetatable() - metatable manipulation"),
    ("getmetatable", "getmetatable() - metatable access"),
    ("rawequal", "rawequal() - bypass metatables"),
    ("rawlen", "rawlen() - bypass metatables"),
    ("package", "package - module system access"),
    ("module", "module() - module creation"),
    ("newproxy", "newproxy() - userdata creation")]

/-- The places at which the pattern is found, from the left, until one is at an identifier boundary.
-/
def containsFrom (pattern : List Char) : Option Char → List Char → Bool
  | _, [] => false
  | before, c :: rest =>
    (pattern.isPrefixOf (c :: rest) && before.all (!isIdentifierChar ·) &&
      ((c :: rest).drop pattern.length).head?.all (!isIdentifierChar ·)) ||
    containsFrom pattern (some c) rest

/-- `containsAtIdentifierBoundary`. -/
def containsAtIdentifierBoundary (haystack pattern : String) : Bool :=
  pattern ≠ "" && containsFrom pattern.toList none haystack.toList

/-- `ExpressionValidator::findDangerousPatterns`. -/
def findDangerousPatterns (expression : String) : List String :=
  (getDangerousPatterns.filter fun p ↦
    containsAtIdentifierBoundary (toLowerAscii expression) p.1).map Prod.snd

/-- As many brackets are opened as are closed. -/
def SameCount (opening closing : Char) (text : List Char) : Prop :=
  text.count opening = text.count closing

instance (opening closing : Char) (text : List Char) : Decidable (SameCount opening closing text) :=
  inferInstanceAs (Decidable (_ = _))

/-- `inString` with `stringDelim`, and the character before. -/
structure QuoteScan where
  delim : Option Char := none
  last : Option Char := none

/-- One character of the check for unclosed literals. A quote after a backslash closes nothing. -/
def QuoteScan.step (s : QuoteScan) (c : Char) : QuoteScan where
  delim := match s.delim with
    | none => if c = '"' ∨ c = '\'' then some c else none
    | some d => if c = d ∧ s.last ≠ some '\\' then none else some d
  last := some c

/-- The check for unclosed literals ends outside of one. -/
def QuotesClosed (text : List Char) : Prop :=
  (text.foldl QuoteScan.step {}).delim = none

instance (text : List Char) : Decidable (QuotesClosed text) :=
  inferInstanceAs (Decidable (_ = _))

/-- The text has a part like this. -/
def contains (text part : String) : Bool :=
  part.toList <:+: text.toList

/-- What `validate` finds wrong. -/
def errors (expression : String) : List String :=
  let text := expression.toList
  (findDangerousPatterns expression).map ("Dangerous pattern detected: " ++ ·) ++
    (if SameCount '(' ')' text then [] else ["Mismatched parentheses"]) ++
    (if SameCount '[' ']' text then [] else ["Mismatched brackets"]) ++
    (if SameCount '{' '}' text then [] else ["Mismatched braces"]) ++
    (if QuotesClosed text then [] else ["Unclosed string literal"])

/-- What `validate` warns of. -/
def warnings (expression : String) : List String :=
  (if contains expression "while true" then
    ["Expression contains 'while true' - potential infinite loop"] else []) ++
  (if contains expression "for " && contains expression "do" then
    ["Expression contains loop - ensure timeout is set"] else [])

/-- `ExpressionValidator::validate`. -/
def validate (expression : String) : ValidationResult :=
  if expression = "" then { valid := true }
  else
    { valid := (errors expression).isEmpty
      errors := errors expression
      warnings := warnings expression }

/-! ### What is checked -/

/-- What the characters after a pattern begin with. -/
theorem all_not_iff {c : Option Char} :
    c.all (!isIdentifierChar ·) = true ↔ ∀ d ∈ c, isIdentifierChar d = false := by
  cases c <;> simp

theorem containsFrom_iff {pattern : List Char} (hne : pattern ≠ []) {before : Option Char}
    {s : List Char} :
    containsFrom pattern before s = true ↔
      ∃ l r, s = l ++ pattern ++ r ∧
        (∀ c ∈ (before.toList ++ l).getLast?, isIdentifierChar c = false) ∧
        StartsOpen isNameChar r := by
  induction s generalizing before with
  | nil =>
    refine iff_of_false Bool.noConfusion ?_
    rintro ⟨l, r, h, -⟩
    exact hne (List.append_eq_nil_iff.1 (List.append_eq_nil_iff.1 h.symm).1).2
  | cons c rest ih =>
    have hlast (l : List Char) :
        ((some c).toList ++ l).getLast? = (before.toList ++ c :: l).getLast? :=
      (List.getLast?_append_of_ne_nil _ (List.cons_ne_nil c l)).symm
    have hfirst : (∀ d ∈ (before.toList ++ []).getLast?, isIdentifierChar d = false) ↔
        ∀ d ∈ before, isIdentifierChar d = false := by
      cases before <;> simp
    rw [containsFrom, Bool.or_eq_true, ih, Bool.and_eq_true, Bool.and_eq_true,
      List.isPrefixOf_iff_prefix, all_not_iff, all_not_iff]
    constructor
    · rintro (⟨⟨⟨r, hr⟩, hbefore⟩, hafter⟩ | ⟨l, r, rfl, hl, hr⟩)
      · refine ⟨[], r, by rw [List.nil_append, hr], hfirst.2 hbefore, ?_⟩
        rwa [← hr, List.drop_left] at hafter
      · exact ⟨c :: l, r, rfl, hlast l ▸ hl, hr⟩
    · rintro ⟨l, r, h, hl, hr⟩
      cases l with
      | nil =>
        rw [List.nil_append] at h
        refine .inl ⟨⟨⟨r, h.symm⟩, hfirst.1 hl⟩, ?_⟩
        rw [h, List.drop_left]
        exact hr
      | cons d l =>
        obtain ⟨rfl, rfl⟩ := List.cons.inj h
        exact .inr ⟨l, r, rfl, (hlast l).symm ▸ hl, hr⟩

theorem containsAtIdentifierBoundary_iff {haystack pattern : String} (hne : pattern ≠ "") :
    containsAtIdentifierBoundary haystack pattern = true ↔
      Occurs isNameChar pattern.toList haystack.toList := by
  have hne' : pattern.toList ≠ [] := fun h ↦ hne (String.toList_inj.1 h)
  rw [containsAtIdentifierBoundary, decide_eq_true hne, Bool.true_and, containsFrom_iff hne']
  exact Iff.rfl

/-- Brackets of each kind are balanced. -/
structure Balanced (text : List Char) : Prop where
  parens : SameCount '(' ')' text
  brackets : SameCount '[' ']' text
  braces : SameCount '{' '}' text

/-- A listed name stands in the text at an identifier boundary, in any case. -/
def Lists (p : String × String) (text : List Char) : Prop :=
  Occurs isNameChar p.1.toList (text.map Char.toLower)

theorem patterns_ne_empty : ∀ p ∈ getDangerousPatterns, p.1 ≠ "" := by decide

theorem findDangerousPatterns_eq_nil_iff {expression : String} :
    findDangerousPatterns expression = [] ↔
      ∀ p ∈ getDangerousPatterns, ¬Lists p expression.toList := by
  rw [findDangerousPatterns, List.map_eq_nil_iff, List.filter_eq_nil_iff]
  refine forall₂_congr fun p hp ↦ not_congr ?_
  rw [containsAtIdentifierBoundary_iff (patterns_ne_empty p hp), toList_toLowerAscii]
  exact Iff.rfl

/-- The checks pass. -/
structure Passes (text : List Char) : Prop where
  dangerous : ∀ p ∈ getDangerousPatterns, ¬Lists p text
  balanced : Balanced text
  closed : QuotesClosed text

theorem passes_nil : Passes [] where
  dangerous p hp := by
    rintro ⟨l, r, h, -⟩
    have hnil := (List.append_eq_nil_iff.1 (List.append_eq_nil_iff.1 h.symm).1).2
    exact patterns_ne_empty p hp (String.toList_inj.1 hnil)
  balanced := ⟨rfl, rfl, rfl⟩
  closed := rfl

theorem errors_eq_nil_iff {expression : String} :
    errors expression = [] ↔ Passes expression.toList := by
  have hnil (c : Prop) [Decidable c] (m : String) : (if c then [] else [m]) = [] ↔ c := by
    split_ifs with h <;> simp [h]
  rw [errors, List.append_eq_nil_iff, List.append_eq_nil_iff, List.append_eq_nil_iff,
    List.append_eq_nil_iff, List.map_eq_nil_iff, findDangerousPatterns_eq_nil_iff, hnil, hnil,
    hnil, hnil]
  exact ⟨fun ⟨⟨⟨⟨h, hp⟩, hb⟩, hc⟩, hq⟩ ↦ ⟨h, ⟨hp, hb, hc⟩, hq⟩,
    fun h ↦ ⟨⟨⟨⟨h.dangerous, h.balanced.parens⟩, h.balanced.brackets⟩, h.balanced.braces⟩,
      h.closed⟩⟩

theorem validate_valid_iff (expression : String) :
    (validate expression).valid = true ↔ Passes expression.toList := by
  rw [← errors_eq_nil_iff, ← List.isEmpty_iff, validate]
  split_ifs with hempty
  · subst hempty
    exact iff_of_true rfl (List.isEmpty_iff.2 (errors_eq_nil_iff.2 passes_nil))
  · dsimp only
    exact Iff.rfl

/-! ### Listed names among tokens -/

/-- The name before the dot of a pattern, or all of it. -/
def ownerOf (p : String × String) : List Char :=
  p.1.toList.takeWhile (· ≠ '.')

/-- The name after the dot of a pattern, if there is one. -/
def memberOf (p : String × String) : Option (List Char) :=
  match p.1.toList.dropWhile (· ≠ '.') with
  | [] => none
  | _ :: f => some f

/-- The pattern is a name of its own, not a dotted access. -/
def IsBare (p : String × String) : Prop :=
  memberOf p = none

theorem toList_of_bare {p : String × String} (h : IsBare p) : p.1.toList = ownerOf p := by
  have hsplit := List.takeWhile_append_dropWhile (p := (· ≠ '.')) (l := p.1.toList)
  rw [IsBare, memberOf] at h
  split at h
  next hdrop => rw [← hsplit, hdrop, List.append_nil, ownerOf]
  next => cases h

theorem toList_of_member {p : String × String} {f : List Char} (h : memberOf p = some f) :
    p.1.toList = ownerOf p ++ '.' :: f := by
  have hsplit := List.takeWhile_append_dropWhile (p := (· ≠ '.')) (l := p.1.toList)
  rw [memberOf] at h
  split at h
  next => cases h
  next c f' hdrop =>
    have hdot : c = '.' := by
      have hhead := List.head?_dropWhile_not (· ≠ '.') p.1.toList
      rw [hdrop] at hhead
      simpa using hhead
    rw [← hsplit, hdrop, hdot, Option.some.inj h, ownerOf]

/-- The names of a pattern are words in lower case. -/
structure WellNamed (p : String × String) : Prop where
  owner : IsWord Char.toLower (ownerOf p)
  member : ∀ f ∈ memberOf p, IsWord Char.toLower f ∧ ∀ c ∈ f.head?, c ∉ digits.map Char.toLower
  lower : p.1.toList.map Char.toLower = p.1.toList

/-- The pattern is written out as a name or as two names with a dot right between them. -/
def Written (g : Char → Char) (p : String × String) (xs : List Lexeme) : Prop :=
  match memberOf p with
  | none => ∃ x ∈ xs, x.Names g (ownerOf p)
  | some f => HasAccess g (ownerOf p) f xs

/-- The pattern stands in a string or a comment. -/
def InOpaque (p : String × String) (xs : List Lexeme) : Prop :=
  ∃ x ∈ xs, x.isOpaque = true ∧ Lists p x.text

theorem keepsWords_toLower : KeepsWords Char.toLower where
  word c := isIdentifierChar_toLower c
  other c hc := Char.toLower_eq_of_not_isUpper fun hupper ↦ by
    rw [isNameChar, Char.isAlphanum, Char.isAlpha, hupper] at hc
    cases hc

theorem isWord_iff {m : List Char} :
    IsWord Char.toLower m ↔ m ≠ [] ∧ (∀ c ∈ m, isNameChar c = true) ∧
      ∃ c ∈ m, c ∉ numeralChars.map Char.toLower :=
  ⟨fun h ↦ ⟨h.ne_nil, h.word, h.foreign⟩, fun h ↦ ⟨h.1, h.2.1, h.2.2⟩⟩

theorem wellNamed : ∀ p ∈ getDangerousPatterns, WellNamed p := by
  have howner : ∀ p ∈ getDangerousPatterns, ownerOf p ≠ [] ∧
      (∀ c ∈ ownerOf p, isNameChar c = true) ∧
      ∃ c ∈ ownerOf p, c ∉ numeralChars.map Char.toLower := by
    decide +kernel
  have hmember : ∀ p ∈ getDangerousPatterns, ∀ f ∈ memberOf p,
      (f ≠ [] ∧ (∀ c ∈ f, isNameChar c = true) ∧ ∃ c ∈ f, c ∉ numeralChars.map Char.toLower) ∧
        ∀ c ∈ f.head?, c ∉ digits.map Char.toLower := by
    decide +kernel
  have hlower : ∀ p ∈ getDangerousPatterns, p.1.toList.map Char.toLower = p.1.toList := by
    decide +kernel
  exact fun p hp ↦ ⟨isWord_iff.2 (howner p hp),
    fun f hf ↦ ⟨isWord_iff.2 (hmember p hp f hf).1, (hmember p hp f hf).2⟩, hlower p hp⟩

/-- **What the search finds** in a text of Lua. -/
theorem lists_textOf_iff {p : String × String} (hp : p ∈ getDangerousPatterns) {xs : List Lexeme}
    (hxs : Munches xs) : Lists p (textOf xs) ↔ Written Char.toLower p xs ∨ InOpaque p xs := by
  have hnamed := wellNamed p hp
  rw [InOpaque, Written]
  simp only [Lists]
  cases hmember : memberOf p with
  | none =>
    rw [toList_of_bare hmember]
    exact occurs_textOf_of_word keepsWords_toLower hnamed.owner hxs
  | some f =>
    obtain ⟨hf, hletter⟩ := hnamed.member f hmember
    rw [toList_of_member hmember]
    exact occurs_textOf_of_dotted keepsWords_toLower hnamed.owner hf hletter hxs

/-! ### Blocked names -/

/-- A text of Lua with a listed name among its tokens, or with a listed access as three tokens in a
row. -/
structure Blocked (xs : List Lexeme) : Prop where
  munches : Munches xs
  named : ∃ p ∈ getDangerousPatterns, Written id p (tokens xs)

/-- A bare name among the tokens is among the names of the text in any case. -/
theorem Written.of_tokens {p : String × String} (hp : p ∈ getDangerousPatterns) (hbare : IsBare p)
    {xs : List Lexeme} (h : Written id p (tokens xs)) : Written Char.toLower p xs := by
  have hnone : memberOf p = none := hbare
  rw [Written, hnone] at h ⊢
  obtain ⟨x, hx, a, hstart, hname, rfl, ha⟩ := h
  rw [List.map_id] at ha
  refine ⟨_, List.mem_of_mem_filter hx, a, hstart, hname, rfl, ?_⟩
  rw [ha, ← toList_of_bare hbare, (wellNamed p hp).lower]

theorem validate_invalid_iff {xs : List Lexeme} (hxs : Munches xs) :
    (validate (String.ofList (textOf xs))).valid = false ↔
      (∃ p ∈ getDangerousPatterns, Written Char.toLower p xs ∨ InOpaque p xs) ∨
        ¬Balanced (textOf xs) ∨ ¬QuotesClosed (textOf xs) := by
  rw [← Bool.not_eq_true, validate_valid_iff, String.toList_ofList]
  constructor
  · intro h
    by_contra hnot
    rw [not_or, not_or, not_not, not_not] at hnot
    obtain ⟨hlists, hbalanced, hclosed⟩ := hnot
    exact h ⟨fun p hp hlisted ↦ hlists ⟨p, hp, (lists_textOf_iff hp hxs).1 hlisted⟩, hbalanced,
      hclosed⟩
  · rintro (⟨p, hp, h⟩ | h | h) hpasses
    · exact hpasses.dangerous p hp ((lists_textOf_iff hp hxs).2 h)
    · exact h hpasses.balanced
    · exact h hpasses.closed

/-- **Blocked names are rejected** as long as they are bare names, or there is something else to
reject: a listed name in any case, without anything around its dot or inside a string or a comment,
or brackets and quotes that do not pair up. -/
theorem blocked_rejected_iff {xs : List Lexeme} (h : Blocked xs) :
    (validate (String.ofList (textOf xs))).valid = false ↔
      (∃ p ∈ getDangerousPatterns, IsBare p ∧ Written id p (tokens xs)) ∨
        (∃ p ∈ getDangerousPatterns, Written Char.toLower p xs ∨ InOpaque p xs) ∨
        ¬Balanced (textOf xs) ∨ ¬QuotesClosed (textOf xs) := by
  rw [validate_invalid_iff h.munches]
  refine ⟨.inr, ?_⟩
  rintro (⟨p, hp, hbare, hwritten⟩ | h)
  · exact .inl ⟨p, hp, .inl (hwritten.of_tokens hp hbare)⟩
  · exact h

/-- `load ("x")`. -/
def loadCall : List Lexeme :=
  [.name ['l', 'o', 'a', 'd'] ⟨'l', rfl, rfl⟩ (by decide), .blank ' ' (by decide),
    .symbol ['('] (by decide), .shortString '"' [.plain 'x'] (by decide) (by decide),
    .symbol [')'] (by decide)]

theorem loadCall_rejected : (validate (String.ofList (textOf loadCall))).valid = false := by
  have hp : ("load", "load() - arbitrary code loading") ∈ getDangerousPatterns := by decide
  have hbare : IsBare ("load", "load() - arbitrary code loading") := by
    rw [IsBare]
    decide +kernel
  have hwritten : Written id ("load", "load() - arbitrary code loading") (tokens loadCall) := by
    have hnone : memberOf ("load", "load() - arbitrary code loading") = none := hbare
    rw [Written, hnone]
    exact ⟨_, List.mem_cons_self, _, _, _, rfl, by decide +kernel⟩
  exact (blocked_rejected_iff ⟨by decide, _, hp, hwritten⟩).2 (.inl ⟨_, hp, hbare, hwritten⟩)

/-- `os . execute ("x")`. -/
def spacedExecute : List Lexeme :=
  [.name ['o', 's'] ⟨'o', rfl, rfl⟩ (by decide), .blank ' ' (by decide),
    .symbol ['.'] (by decide), .blank ' ' (by decide),
    .name ['e', 'x', 'e', 'c', 'u', 't', 'e'] ⟨'e', rfl, rfl⟩ (by decide), .blank ' ' (by decide),
    .symbol ['('] (by decide), .shortString '"' [.plain 'x'] (by decide) (by decide),
    .symbol [')'] (by decide)]

theorem spacedExecute_accepted : Blocked spacedExecute ∧
    (validate (String.ofList (textOf spacedExecute))).valid = true := by
  have hp : ("os.execute", "os.execute() - shell command execution") ∈ getDangerousPatterns := by
    decide
  have hmember : memberOf ("os.execute", "os.execute() - shell command execution") =
      some ['e', 'x', 'e', 'c', 'u', 't', 'e'] := by
    decide +kernel
  refine ⟨⟨by decide, _, hp, ?_⟩, by decide +kernel⟩
  rw [Written, hmember]
  exact ⟨_, _, _, ⟨[], _, rfl⟩, ⟨_, _, _, rfl, by decide +kernel⟩, ⟨_, rfl⟩,
    ⟨_, _, _, rfl, by decide +kernel⟩⟩

/-! ### Harmless expressions -/

/-- Tokens with blanks between them, well nested, none of them a listed name and no three of them a
listed access. -/
structure Harmless (xs : List Lexeme) : Prop where
  munches : Munches xs
  onlyLiterals : OnlyLiterals xs
  nested : Nested xs
  unnamed : ∀ p ∈ getDangerousPatterns, ¬Written id p (tokens xs)

/-- The expression is valid, and no rule with this text is refused for it when it is compiled. -/
structure Accepted (expression : String) : Prop where
  valid : (validate expression).valid = true
  compiled : ∀ (lib : LuaLibrary) (engine : InstanceId) (kind : ChunkKind) (r : RuleFields),
    lib.validate = validate → r.sourceOf kind = expression →
    compileSource lib engine kind r ≠
      pure (.error (validationMessage r kind (validate expression)))

theorem accepted_iff {expression : String} :
    Accepted expression ↔ (validate expression).valid = true := by
  refine ⟨Accepted.valid, fun h ↦ ⟨h, ?_⟩⟩
  intro lib engine kind r hlib hsource
  rw [compileSource, hsource, hlib, if_pos h]
  split_ifs
  · exact fun heq ↦ by cases heq
  · exact fun heq ↦ by cases heq

theorem sameCount_textOf_iff {xs : List Lexeme} (h : Harmless xs) {o c : Char}
    (hoc : (o, c) ∈ brackets) : SameCount o c (textOf xs) ↔ SameCount o c (literals xs) := by
  have hcount := h.nested.count_add h.onlyLiterals hoc
  rw [SameCount, SameCount]
  omega

theorem balanced_textOf_iff {xs : List Lexeme} (h : Harmless xs) :
    Balanced (textOf xs) ↔ Balanced (literals xs) := by
  have hparens := sameCount_textOf_iff h (o := '(') (c := ')') (by decide)
  have hbrackets := sameCount_textOf_iff h (o := '[') (c := ']') (by decide)
  have hbraces := sameCount_textOf_iff h (o := '{') (c := '}') (by decide)
  constructor
  · rintro ⟨h₁, h₂, h₃⟩
    exact ⟨hparens.1 h₁, hbrackets.1 h₂, hbraces.1 h₃⟩
  · rintro ⟨h₁, h₂, h₃⟩
    exact ⟨hparens.2 h₁, hbrackets.2 h₂, hbraces.2 h₃⟩

namespace QuoteScan

/-- The scan is inside of quotes or outside, and nothing that comes is escaped. -/
structure Clear (s : QuoteScan) : Prop where
  delim : ∀ d ∈ s.delim, d ∈ quoting
  last : s.last ≠ some '\\'

theorem clear_start : Clear {} where
  delim d hd := by cases hd
  last := by decide

theorem step_of_not_quoting {s : QuoteScan} (h : s.Clear) {c : Char} (hc : c ∉ quoting) :
    (s.step c).delim = s.delim ∧ (s.step c).Clear := by
  have hdelim : (s.step c).delim = s.delim := by
    have hquotes : ¬(c = '"' ∨ c = '\'') := by
      rintro (rfl | rfl) <;> exact hc (by decide)
    rw [step]
    cases hs : s.delim with
    | none => exact if_neg hquotes
    | some d =>
      have hopen : ¬(c = d ∧ s.last ≠ some '\\') := fun hclose ↦ hc (hclose.1 ▸ h.delim d hs)
      exact if_neg hopen
  refine ⟨hdelim, hdelim ▸ h.delim, fun hlast ↦ ?_⟩
  obtain rfl : c = '\\' := Option.some.inj hlast
  exact hc (by decide)

theorem foldl_of_not_quoting {s : QuoteScan} (h : s.Clear) {text : List Char}
    (htext : ∀ c ∈ text, c ∉ quoting) :
    (text.foldl step s).delim = s.delim ∧ (text.foldl step s).Clear := by
  induction text generalizing s with
  | nil => exact ⟨rfl, h⟩
  | cons c text ih =>
    obtain ⟨hdelim, hclear⟩ := step_of_not_quoting h (htext c List.mem_cons_self)
    obtain ⟨hdelim', hclear'⟩ := ih hclear fun d hd ↦ htext d (List.mem_cons_of_mem c hd)
    exact ⟨hdelim'.trans hdelim, hclear'⟩

theorem delim_step {s : QuoteScan} (h : ∀ d ∈ s.delim, d ∈ quoting) (c : Char) :
    ∀ d ∈ (s.step c).delim, d ∈ quoting := by
  intro d hd
  rw [step] at hd
  cases hs : s.delim with
  | none =>
    rw [hs] at hd
    dsimp only at hd
    split_ifs at hd with hquote
    · obtain rfl := Option.some.inj hd
      rcases hquote with rfl | rfl <;> decide
    · cases hd
  | some e =>
    rw [hs] at hd
    dsimp only at hd
    split_ifs at hd with hclose
    · cases hd
    · obtain rfl := Option.some.inj hd
      exact h e hs

theorem delim_foldl {s : QuoteScan} (h : ∀ d ∈ s.delim, d ∈ quoting) (text : List Char) :
    ∀ d ∈ (text.foldl step s).delim, d ∈ quoting := by
  induction text generalizing s with
  | nil => exact h
  | cons c text ih => exact ih (delim_step h c)

/-- Two scans are at the same point. -/
structure Agrees (s t : QuoteScan) : Prop where
  delim : s.delim = t.delim
  left : s.Clear
  right : t.Clear

theorem Agrees.step_eq {s t : QuoteScan} (h : Agrees s t) (c : Char) : s.step c = t.step c := by
  have hleft : s.last ≠ some '\\' ↔ t.last ≠ some '\\' := iff_of_true h.left.last h.right.last
  rw [step, step, h.delim]
  simp only [hleft]

/-- A literal string is read alike where the scan is at the same point. -/
theorem Agrees.foldl_of_isLiteral {s t : QuoteScan} (h : Agrees s t) {x : Lexeme}
    (hx : x.isLiteral = true) : Agrees (x.text.foldl step s) (x.text.foldl step t) := by
  obtain ⟨q, hq, u, htext⟩ := Lexeme.text_of_isLiteral hx
  have hend (r : QuoteScan) (hr : r.Clear) : ((q :: (u ++ [q])).foldl step r).Clear := by
    refine ⟨delim_foldl hr.delim _, ?_⟩
    rw [List.foldl_cons, List.foldl_append]
    have hquotes : ∀ q ∈ ['"', '\''], some q ≠ some '\\' := by decide
    exact hquotes q hq
  rw [htext]
  refine ⟨?_, hend s h.left, hend t h.right⟩
  rw [List.foldl_cons, List.foldl_cons, h.step_eq]

/-- The scan of a text is at the same point as that of its literal strings alone. -/
theorem Agrees.foldl_literals {s t : QuoteScan} (h : Agrees s t) {xs : List Lexeme}
    (hxs : OnlyLiterals xs) : Agrees ((textOf xs).foldl step s) ((literals xs).foldl step t) := by
  induction xs generalizing s t with
  | nil => exact h
  | cons x xs ih =>
    rw [textOf_cons, List.foldl_append]
    cases hliteral : x.isLiteral with
    | true =>
      rw [literals_cons_of_isLiteral hliteral, List.foldl_append]
      exact ih (h.foldl_of_isLiteral hliteral) hxs.tail
    | false =>
      rw [literals_cons_of_not hliteral]
      have hplain := Lexeme.not_quoting_of_mem (hxs.head hliteral)
      obtain ⟨hdelim, hclear⟩ := foldl_of_not_quoting h.left hplain
      exact ih ⟨hdelim.trans h.delim, hclear, h.right⟩ hxs.tail

end QuoteScan

theorem quotesClosed_textOf_iff {xs : List Lexeme} (h : Harmless xs) :
    QuotesClosed (textOf xs) ↔ QuotesClosed (literals xs) := by
  have hstart : QuoteScan.Agrees {} {} := ⟨rfl, QuoteScan.clear_start, QuoteScan.clear_start⟩
  rw [QuotesClosed, QuotesClosed, (hstart.foldl_literals h.onlyLiterals).delim]

/-- **Harmless expressions are accepted** unless their literal strings have brackets or quotes that
do not pair up for the checks, a literal string contains a listed name, or one is written in another
case. -/
theorem harmless_accepted_iff {xs : List Lexeme} (h : Harmless xs) :
    Accepted (String.ofList (textOf xs)) ↔
      Balanced (literals xs) ∧ QuotesClosed (literals xs) ∧
        ∀ p ∈ getDangerousPatterns, ¬Written Char.toLower p xs ∧ ¬InOpaque p xs := by
  have hlists : (∀ p ∈ getDangerousPatterns, ¬Lists p (textOf xs)) ↔
      ∀ p ∈ getDangerousPatterns, ¬Written Char.toLower p xs ∧ ¬InOpaque p xs :=
    forall₂_congr fun p hp ↦ by rw [lists_textOf_iff hp h.munches, not_or]
  rw [accepted_iff, validate_valid_iff, String.toList_ofList, ← balanced_textOf_iff h,
    ← quotesClosed_textOf_iff h, ← hlists]
  constructor
  · rintro ⟨hdangerous, hbalanced, hclosed⟩
    exact ⟨hbalanced, hclosed, hdangerous⟩
  · rintro ⟨hbalanced, hclosed, hdangerous⟩
    exact ⟨hdangerous, hbalanced, hclosed⟩

/-- Nothing is written out where there are no names. -/
theorem Written.exists_name {g : Char → Char} {p : String × String} {xs : List Lexeme}
    (h : Written g p xs) : ∃ a hstart h, Lexeme.name a hstart h ∈ xs := by
  rw [Written] at h
  split at h
  next =>
    obtain ⟨x, hx, a, hstart, hname, rfl, -⟩ := h
    exact ⟨a, hstart, hname, hx⟩
  next f =>
    obtain ⟨x, y, z, hinfix, ⟨a, hstart, hname, rfl, -⟩, -⟩ := h
    exact ⟨a, hstart, hname, hinfix.subset List.mem_cons_self⟩

/-- One literal string is a harmless expression. -/
theorem harmless_of_shortString {quote : Char} {items : List StringItem}
    (hquote : quote ∈ ['"', '\'']) (h : ∀ i ∈ items, i.Fits quote) :
    Harmless [.shortString quote items hquote h] where
  munches := ⟨trivial, trivial⟩
  onlyLiterals x hx _ := by
    obtain rfl := List.mem_singleton.1 hx
    rfl
  nested := .other (fun hbracket ↦ by obtain ⟨c, -, hc, heq⟩ := hbracket; cases heq) .nil
  unnamed p hp hwritten := by
    obtain ⟨a, hstart, hname, hmem⟩ := hwritten.exists_name
    cases List.mem_singleton.1 hmem

/-- `"()"`. -/
def pairLiteral : List Lexeme :=
  [.shortString '"' [.plain '(', .plain ')'] (by decide) (by decide)]

theorem pairLiteral_accepted : Accepted (String.ofList (textOf pairLiteral)) := by
  refine (harmless_accepted_iff (harmless_of_shortString _ _)).2
    ⟨⟨by decide, by decide, by decide⟩, by decide, fun p hp ↦ ⟨fun hwritten ↦ ?_, ?_⟩⟩
  · obtain ⟨a, hstart, hname, hmem⟩ := hwritten.exists_name
    cases List.mem_singleton.1 hmem
  · rintro ⟨x, hx, -, hlists⟩
    obtain rfl := List.mem_singleton.1 hx
    have hnone : findDangerousPatterns (String.ofList ['"', '(', ')', '"']) = [] := by
      decide +kernel
    exact findDangerousPatterns_eq_nil_iff.1 hnone p hp (by rwa [String.toList_ofList])

/-- `":)"`. -/
def smileLiteral : List Lexeme :=
  [.shortString '"' [.plain ':', .plain ')'] (by decide) (by decide)]

theorem smileLiteral_rejected :
    Harmless smileLiteral ∧ ¬Accepted (String.ofList (textOf smileLiteral)) := by
  refine ⟨harmless_of_shortString _ _, fun h ↦ ?_⟩
  have hinvalid : (validate (String.ofList (textOf smileLiteral))).valid = false := by
    decide +kernel
  rw [h.valid] at hinvalid
  cases hinvalid

end ExpressionValidator

end FastRules
