import FastRules.Validation.BoundarySearch

/-!
# Code before it is sandboxed

`SandboxManager::validateCode` runs `LuaExpressionValidator::validate` on the code and then searches
it once more, for module prefixes and with a regular expression for names. What the second search
looks for the validator has looked for, so that it never throws: `validateCode` accepts what the
validator accepts, which has none of the listed names among its tokens (`validateCode_ends`).

A member of the validator that does nothing, `validateFunctions`, is left out.
-/

open Lua WordOccurrence Scanning

namespace FastRules

namespace LuaExpressionValidator

/-! ### Brackets -/

inductive Bracket
  | paren
  | bracket
  | brace
  deriving DecidableEq

namespace Bracket

def opening : Bracket → Char
  | paren => '('
  | bracket => '['
  | brace => '{'

def closing : Bracket → Char
  | paren => ')'
  | bracket => ']'
  | brace => '}'

/-- What is thrown for brackets of the kind. -/
def error : Bracket → String
  | paren => "Unbalanced parentheses"
  | bracket => "Unbalanced brackets"
  | brace => "Unbalanced braces"

end Bracket

/-- `parenCount`, `bracketCount` and `braceCount`. -/
abbrev Counts := Bracket → Int

def opened (b : Bracket) (counts : Counts) : Except String Counts :=
  .ok (Function.update counts b (counts b + 1))

def closed (b : Bracket) (counts : Counts) : Except String Counts :=
  if counts b - 1 < 0 then .error b.error
  else .ok (Function.update counts b (counts b - 1))

/-- The `switch` of `LuaExpressionValidator::validateSyntax`. -/
def countStep (counts : Counts) (c : Char) : Except String Counts :=
  match c with
  | '(' => opened .paren counts
  | ')' => closed .paren counts
  | '[' => opened .bracket counts
  | ']' => closed .bracket counts
  | '{' => opened .brace counts
  | '}' => closed .brace counts
  | _ => .ok counts

/-- The loop of `LuaExpressionValidator::validateSyntax`. -/
def count (counts : Counts) : List Char → Except String Counts
  | [] => .ok counts
  | c :: text =>
    match countStep counts c with
    | .ok counts => count counts text
    | .error e => .error e

/-- `LuaExpressionValidator::validateSyntax`. -/
def validateSyntax (expression : String) : Except String Unit :=
  match count (fun _ ↦ 0) expression.toList with
  | .error e => .error e
  | .ok counts =>
    if counts .paren ≠ 0 then .error Bracket.paren.error
    else if counts .bracket ≠ 0 then .error Bracket.bracket.error
    else if counts .brace ≠ 0 then .error Bracket.brace.error
    else .ok ()

/-- How many brackets of the kind a text leaves open. -/
def height (b : Bracket) (text : List Char) : Int :=
  text.count b.opening - text.count b.closing

/-- Brackets of the kind, counted without the others, close what was opened. -/
structure Nests (b : Bracket) (text : List Char) : Prop where
  initial : ∀ l, l <+: text → 0 ≤ height b l
  whole : height b text = 0

variable {counts counts' : Counts} {text : List Char} {b : Bracket} {c : Char}

theorem height_cons (b : Bracket) (c : Char) (text : List Char) :
    height b (c :: text) = height b [c] + height b text := by
  rw [height, height, height, ← List.singleton_append, List.count_append, List.count_append]
  omega

theorem opened_eq_ok (hcount : ∀ b', height b' [c] = if b' = b then 1 else 0)
    (hnonneg : ∀ b, 0 ≤ counts b) : opened b counts = .ok counts' ↔
      (∀ b', 0 ≤ counts b' + height b' [c]) ∧ counts' = fun b' ↦ counts b' + height b' [c] := by
  have hupdate : Function.update counts b (counts b + 1) = fun b' ↦ counts b' + height b' [c] := by
    funext b'
    rw [hcount]
    split_ifs with hb
    · rw [hb, Function.update_self]
    · rw [Function.update_of_ne hb, Int.add_zero]
  rw [opened, hupdate, Except.ok.injEq, eq_comm]
  refine (and_iff_right fun b' ↦ ?_).symm
  rw [hcount]
  split_ifs
  · exact Int.add_nonneg (hnonneg b') Int.one_nonneg
  · exact Int.add_nonneg (hnonneg b') (Int.le_refl 0)

theorem closed_eq_ok (hcount : ∀ b', height b' [c] = if b' = b then -1 else 0)
    (hnonneg : ∀ b, 0 ≤ counts b) : closed b counts = .ok counts' ↔
      (∀ b', 0 ≤ counts b' + height b' [c]) ∧ counts' = fun b' ↦ counts b' + height b' [c] := by
  have hupdate : Function.update counts b (counts b - 1) = fun b' ↦ counts b' + height b' [c] := by
    funext b'
    rw [hcount]
    split_ifs with hb
    · rw [hb, Function.update_self]
      rfl
    · rw [Function.update_of_ne hb, Int.add_zero]
  have hself : counts b + height b [c] = counts b - 1 := by
    rw [hcount, if_pos rfl]
    rfl
  rw [closed]
  split_ifs with hneg
  · refine iff_of_false (fun h ↦ by cases h) fun h ↦ ?_
    have hb := h.1 b
    omega
  · rw [hupdate, Except.ok.injEq, eq_comm]
    refine (and_iff_right fun b' ↦ ?_).symm
    by_cases hb : b' = b
    · rw [hb]
      omega
    · rw [hcount, if_neg hb, Int.add_zero]
      exact hnonneg b'

theorem countStep_eq_ok (hnonneg : ∀ b, 0 ≤ counts b) : countStep counts c = .ok counts' ↔
    (∀ b, 0 ≤ counts b + height b [c]) ∧ counts' = fun b ↦ counts b + height b [c] := by
  unfold countStep
  split
  · exact opened_eq_ok (fun b' ↦ by cases b' <;> rfl) hnonneg
  · exact closed_eq_ok (fun b' ↦ by cases b' <;> rfl) hnonneg
  · exact opened_eq_ok (fun b' ↦ by cases b' <;> rfl) hnonneg
  · exact closed_eq_ok (fun b' ↦ by cases b' <;> rfl) hnonneg
  · exact opened_eq_ok (fun b' ↦ by cases b' <;> rfl) hnonneg
  · exact closed_eq_ok (fun b' ↦ by cases b' <;> rfl) hnonneg
  · have hzero (b : Bracket) : height b [c] = 0 := by
      cases b <;> simp_all [height, Bracket.opening, Bracket.closing]
    simp only [hzero, Int.add_zero, Except.ok.injEq]
    exact ⟨fun h ↦ ⟨hnonneg, h.symm⟩, fun h ↦ h.2.symm⟩

/-- The loop goes through if no bracket is closed that is not open. -/
theorem count_eq_ok (hnonneg : ∀ b, 0 ≤ counts b) : count counts text = .ok counts' ↔
    (∀ b l, l <+: text → 0 ≤ counts b + height b l) ∧
      counts' = fun b ↦ counts b + height b text := by
  induction text generalizing counts with
  | nil =>
    have hnil (b : Bracket) : counts b + height b [] = counts b := Int.add_zero _
    rw [count, Except.ok.injEq, eq_comm]
    refine (and_iff_right fun b l hl ↦ ?_).symm.trans (and_congr_right fun _ ↦ ?_)
    · rw [List.prefix_nil.1 hl, hnil]
      exact hnonneg b
    · rw [funext hnil]
  | cons c text ih =>
    have hsplit : (∀ b l, l <+: c :: text → 0 ≤ counts b + height b l) ↔
        (∀ b, 0 ≤ counts b + height b [c]) ∧
          ∀ b l, l <+: text → 0 ≤ counts b + height b [c] + height b l := by
      constructor
      · refine fun h ↦ ⟨fun b ↦ h b [c] ⟨text, rfl⟩, fun b l hl ↦ ?_⟩
        have hcons := h b (c :: l) ((List.prefix_cons_inj c).2 hl)
        rwa [height_cons, ← Int.add_assoc] at hcons
      · rintro ⟨hfirst, hrest⟩ b l hl
        rcases List.prefix_cons_iff.1 hl with rfl | ⟨l', rfl, hl'⟩
        · exact Int.add_nonneg (hnonneg b) (Int.le_refl 0)
        · rw [height_cons, ← Int.add_assoc]
          exact hrest b l' hl'
    have htotal : (fun b ↦ counts b + height b (c :: text)) =
        fun b ↦ counts b + height b [c] + height b text := by
      funext b
      rw [height_cons, Int.add_assoc]
    rw [hsplit, htotal, count]
    by_cases hfirst : ∀ b, 0 ≤ counts b + height b [c]
    · rw [(countStep_eq_ok hnonneg).2 ⟨hfirst, rfl⟩]
      exact (ih hfirst).trans (and_congr_left fun _ ↦ (and_iff_right hfirst).symm)
    · refine iff_of_false (fun h ↦ ?_) fun h ↦ hfirst h.1.1
      rcases hstep : countStep counts c with e | next <;> rw [hstep] at h
      · cases h
      · exact hfirst ((countStep_eq_ok hnonneg).1 hstep).1

theorem validateSyntax_eq_ok {expression : String} :
    validateSyntax expression = .ok () ↔ ∀ b, Nests b expression.toList := by
  have hcount {counts : Counts} : count (fun _ ↦ 0) expression.toList = .ok counts ↔
      (∀ b l, l <+: expression.toList → 0 ≤ height b l) ∧
        counts = fun b ↦ height b expression.toList := by
    have hzero (b : Bracket) : 0 ≤ (fun _ ↦ 0 : Counts) b := Int.le_refl 0
    simpa only [Int.zero_add] using count_eq_ok hzero
  rw [validateSyntax]
  rcases hloop : count (fun _ ↦ 0) expression.toList with e | counts
  · refine iff_of_false (fun h ↦ by cases h) fun h ↦ ?_
    have hok := hcount.2 ⟨fun b ↦ (h b).initial, rfl⟩
    rw [hloop] at hok
    cases hok
  · obtain ⟨hinitial, rfl⟩ := hcount.1 hloop
    have hall : (∀ b, Nests b expression.toList) ↔ ∀ b, height b expression.toList = 0 :=
      forall_congr' fun b ↦ ⟨fun h ↦ h.whole, fun h ↦ ⟨hinitial b, h⟩⟩
    rw [hall]
    dsimp only
    split_ifs with hparen hbracket hbrace
    · exact iff_of_false (fun h ↦ by cases h) fun h ↦ hparen (h .paren)
    · exact iff_of_false (fun h ↦ by cases h) fun h ↦ hbracket (h .bracket)
    · exact iff_of_false (fun h ↦ by cases h) fun h ↦ hbrace (h .brace)
    · rw [not_not] at hparen hbracket hbrace
      refine iff_of_true rfl fun b ↦ ?_
      cases b
      · exact hparen
      · exact hbracket
      · exact hbrace

/-! ### The validator -/

/-- `LuaExpressionValidator::validate` ends with `outcome`. -/
def Validate (order : HashOrder String) (maxLength : ℕ) (expression : String)
    (outcome : Except String Unit) : Prop :=
  if maxLength < expression.length then
    outcome = .error ("Expression too long (max " ++ toString maxLength ++ " characters)")
  else if isBlank expression then
    outcome = .error "Expression cannot be empty or whitespace-only"
  else
    ∃ checked, CheckDangerousPatterns order expression checked ∧
      outcome = match checked with
        | .error e => .error e
        | .ok () => validateSyntax expression

/-- What the validator accepts. -/
structure Accepts (maxLength : ℕ) (expression : String) : Prop where
  length : expression.length ≤ maxLength
  notBlank : isBlank expression = false
  harmless : ∀ p ∈ dangerousPatterns, ¬Found (toLowerAscii expression).toList p
  nests : ∀ b, Nests b expression.toList

variable {order : HashOrder String} {maxLength : ℕ} {expression : String}
  {outcome : Except String Unit}

theorem exists_validate (order : HashOrder String) (maxLength : ℕ) (expression : String) :
    ∃ outcome, Validate order maxLength expression outcome := by
  simp only [Validate]
  split_ifs
  · exact ⟨_, rfl⟩
  · exact ⟨_, rfl⟩
  · obtain ⟨checked, hchecked, -⟩ := checkDangerousPatterns_ends order expression
    exact ⟨_, checked, hchecked, rfl⟩

theorem Validate.eq_ok_iff (h : Validate order maxLength expression outcome) :
    outcome = .ok () ↔ Accepts maxLength expression := by
  rw [Validate] at h
  split_ifs at h with hlength hblank
  · rw [h]
    exact iff_of_false (fun h ↦ by cases h) fun h ↦ Nat.not_le_of_gt hlength h.length
  · rw [h]
    refine iff_of_false (fun h ↦ by cases h) fun h ↦ ?_
    rw [h.notBlank] at hblank
    cases hblank
  · obtain ⟨checked, hchecked, rfl⟩ := h
    obtain ⟨checked', hchecked', hiff⟩ := checkDangerousPatterns_ends order expression
    obtain rfl := hchecked.unique hchecked'
    rcases checked with e | ⟨⟨⟩⟩
    · exact iff_of_false (fun h ↦ by cases h) fun h ↦ absurd (hiff.2 h.harmless) (by simp)
    · exact validateSyntax_eq_ok.trans ⟨fun h ↦ ⟨Nat.le_of_not_lt hlength,
        Bool.eq_false_iff.2 hblank, hiff.1 rfl, h⟩, fun h ↦ h.nests⟩

theorem word_of_bare : ∀ p ∈ dangerousPatterns, Bare p.toList →
    p.toList ≠ [] ∧ ∀ c ∈ p.toList, isNameChar c = true := by
  decide +kernel

/-- No name among the tokens of what is accepted is a bare pattern, in any case. -/
theorem Accepts.not_names {xs : List Lexeme} (h : Accepts maxLength (String.ofList (textOf xs)))
    (hxs : Munches xs) {p : String} (hp : p ∈ dangerousPatterns) (hbare : Bare p.toList) :
    ∀ x ∈ xs, ¬x.Names Char.toLower p.toList := by
  intro x hx hnames
  obtain ⟨hne, hword⟩ := word_of_bare p hp hbare
  refine h.harmless p hp ?_
  rw [Found, if_pos hbare, toLowerAscii, String.toList_ofList, String.toList_ofList]
  exact occurs_textOf_of_names ExpressionValidator.keepsWords_toLower hword hne hxs hx hnames

end LuaExpressionValidator

namespace SandboxManager

open LuaExpressionValidator

/-! ### The second search -/

def dangerousModulePrefixes : List String := ["os.", "io.", "debug.", "package."]

/-- The alternatives of the regular expression `dangerousNames`. -/
def dangerousNames : List String :=
  ["load", "loadstring", "loadfile", "dofile", "require", "module", "setmetatable",
    "getmetatable", "rawget", "rawset", "rawequal", "collectgarbage", "gcinfo", "newproxy",
    "system", "exec", "spawn", "popen"]

/-- `\b` between two characters, or at an end of the text. -/
def wordBoundary (before after : Option Char) : Bool :=
  before.any isIdentifierChar != after.any isIdentifierChar

/-- The first alternative that matches at the beginning of a text, with what it matches. -/
def matchName (before : Option Char) (text : List Char) : Option String :=
  (dangerousNames.find? fun name ↦
    wordBoundary before text.head? &&
      (text.take name.length).map Char.toLower = name.toList &&
      wordBoundary (text.take name.length).getLast? (text.drop name.length).head?).map
    fun name ↦ String.ofList (text.take name.length)

/-- `std::regex_search` with `dangerousNames`: the leftmost match. -/
def regexSearch (before : Option Char) : List Char → Option String
  | [] => matchName before []
  | c :: text =>
    match matchName before (c :: text) with
    | some found => some found
    | none => regexSearch (some c) text

/-- `SandboxManager::validateCode` behind the validator. -/
def scanCode (code : String) : Except String Unit :=
  match dangerousModulePrefixes.find? fun pre ↦
      (find pre.toList (toLowerAscii code).toList 0).isSome with
  | some pre => .error ("Dangerous pattern detected: " ++ pre)
  | none =>
    match regexSearch none code.toList with
    | some found => .error ("Dangerous pattern detected: " ++ found)
    | none => .ok ()

/-- `SandboxManager::validateCode` ends with `outcome`. -/
def ValidateCode (order : HashOrder String) (maxLength : ℕ) (enabled : Bool) (code : String)
    (outcome : Except String Unit) : Prop :=
  if enabled = false then
    outcome = .ok ()
  else
    ∃ validated, Validate order maxLength code validated ∧
      outcome = match validated with
        | .error e => .error ("Code validation failed: " ++ e)
        | .ok () => scanCode code

theorem word_of_dangerousName : ∀ name ∈ dangerousNames,
    name.toList ≠ [] ∧ ∀ c ∈ name.toList, isIdentifierChar c = true := by
  decide +kernel

/-- What the regular expression matches is a name of its own. -/
theorem occurs_of_matchName {l text : List Char} {found : String}
    (h : matchName l.getLast? text = some found) :
    ∃ name ∈ dangerousNames,
      Occurs isNameChar name.toList ((l ++ text).map Char.toLower) := by
  obtain ⟨name, hname, -⟩ := Option.map_eq_some_iff.1 h
  have hmem := List.mem_of_find?_eq_some hname
  have hmatch := List.find?_some hname
  rw [Bool.and_eq_true, Bool.and_eq_true, decide_eq_true_eq] at hmatch
  obtain ⟨⟨hstart, htext⟩, hend⟩ := hmatch
  obtain ⟨hne, hword⟩ := word_of_dangerousName name hmem
  set m := text.take name.length with hm
  set r := text.drop name.length with hr
  have hsplit : text = m ++ r := (List.take_append_drop _ _).symm
  -- the match consists of name characters, so that a boundary is one to what is next to it
  have hmatch : ∀ c ∈ m, isIdentifierChar c = true := by
    intro c hc
    rw [← isIdentifierChar_toLower]
    exact hword _ (htext ▸ List.mem_map_of_mem hc)
  have hm₀ : m ≠ [] := by
    intro hnil
    rw [hnil] at htext
    exact hne htext.symm
  have hhead : text.head?.any isIdentifierChar = true := by
    rw [hsplit, List.head?_append_of_ne_nil m hm₀, List.head?_eq_some_head hm₀]
    exact hmatch _ (List.head_mem hm₀)
  have hlast : m.getLast?.any isIdentifierChar = true := by
    rw [List.getLast?_eq_some_getLast hm₀]
    exact hmatch _ (List.getLast_mem hm₀)
  rw [wordBoundary, hhead] at hstart
  rw [wordBoundary, hlast] at hend
  refine ⟨name, hmem, l.map Char.toLower, r.map Char.toLower, ?_, ?_, ?_⟩
  · rw [hsplit, ← htext, List.map_append, List.map_append, List.append_assoc]
  · refine (endsOpen_map isIdentifierChar_toLower).2 fun c hc ↦ ?_
    rw [Option.mem_def.1 hc] at hstart
    simpa using hstart
  · refine (startsOpen_map isIdentifierChar_toLower).2 fun c hc ↦ ?_
    rw [Option.mem_def.1 hc] at hend
    simpa using hend

theorem occurs_of_regexSearch {l text : List Char} {found : String}
    (h : regexSearch l.getLast? text = some found) :
    ∃ name ∈ dangerousNames,
      Occurs isNameChar name.toList ((l ++ text).map Char.toLower) := by
  induction text generalizing l with
  | nil => exact occurs_of_matchName h
  | cons c text ih =>
    rw [regexSearch] at h
    rcases hmatch : matchName l.getLast? (c :: text) with - | found' <;> rw [hmatch] at h
    · have hnext : regexSearch (l ++ [c]).getLast? text = some found := by
        rw [List.getLast?_concat]
        exact h
      rw [List.append_cons]
      exact ih hnext
    · exact occurs_of_matchName hmatch

/-- What the second search looks for, the validator looks for. -/
theorem dangerous_of_prefix : ∀ pre ∈ dangerousModulePrefixes,
    ∃ p ∈ dangerousPatterns, ¬Bare p.toList ∧ unescapeDots p.toList = pre.toList := by
  decide +kernel

theorem dangerous_of_name : ∀ name ∈ dangerousNames,
    name ∈ dangerousPatterns ∧ Bare name.toList := by
  decide +kernel

variable {order : HashOrder String} {maxLength : ℕ} {enabled : Bool} {code : String}
  {outcome : Except String Unit}

/-- The second search never throws behind the validator. -/
theorem scanCode_of_accepts (h : Accepts maxLength code) : scanCode code = .ok () := by
  rw [scanCode]
  split
  next pre hpre =>
    have hfind := List.find?_some hpre
    obtain ⟨p, hp, hbare, hdots⟩ := dangerous_of_prefix pre (List.mem_of_find?_eq_some hpre)
    refine absurd ?_ (h.harmless p hp)
    rw [Found, if_neg hbare, hdots]
    exact hfind
  next =>
    rcases hsearch : regexSearch none code.toList with - | found
    · rfl
    · obtain ⟨name, hname, hoccurs⟩ := occurs_of_regexSearch (l := []) hsearch
      obtain ⟨hmem, hbare⟩ := dangerous_of_name name hname
      refine absurd ?_ (h.harmless name hmem)
      rw [Found, if_pos hbare, toLowerAscii, String.toList_ofList]
      exact hoccurs

/-- **`validateCode` is the validator**: it ends, it accepts exactly what the validator accepts
(anything where the sandbox is disabled), every error that it throws is one of the validator, and
code that is accepted by an enabled sandbox has none of the listed names among its tokens, in any
case. -/
theorem validateCode_ends (order : HashOrder String) (maxLength : ℕ) (enabled : Bool)
    (code : String) :
    (∃ outcome, ValidateCode order maxLength enabled code outcome) ∧
      ∀ outcome, ValidateCode order maxLength enabled code outcome →
        (outcome = .ok () ↔ enabled = false ∨ Accepts maxLength code) ∧
        (∀ e, outcome = .error e → ∃ e', Validate order maxLength code (.error e') ∧
          e = "Code validation failed: " ++ e') ∧
        (enabled = true → outcome = .ok () → ∀ xs, code = String.ofList (textOf xs) → Munches xs →
          ∀ p ∈ dangerousPatterns, Bare p.toList → ∀ x ∈ xs, ¬x.Names Char.toLower p.toList) := by
  have hvalid {validated : Except String Unit} (h : Validate order maxLength code validated) :
      (∃ e, validated = .error e ∧ ¬Accepts maxLength code) ∨
        validated = .ok () ∧ Accepts maxLength code ∧ scanCode code = .ok () := by
    rcases validated with e | ⟨⟨⟩⟩
    · exact .inl ⟨e, rfl, fun haccepts ↦ by cases h.eq_ok_iff.2 haccepts⟩
    · have haccepts := h.eq_ok_iff.1 rfl
      exact .inr ⟨rfl, haccepts, scanCode_of_accepts haccepts⟩
  rcases enabled with - | -
  · refine ⟨⟨_, rfl⟩, ?_⟩
    rintro _ rfl
    exact ⟨iff_of_true rfl (.inl rfl), fun e he ↦ (by cases he), fun h ↦ (by cases h)⟩
  · obtain ⟨validated, hvalidated⟩ := exists_validate order maxLength code
    refine ⟨⟨_, validated, hvalidated, rfl⟩, ?_⟩
    rintro _ ⟨validated', hvalidated', rfl⟩
    rcases hvalid hvalidated' with ⟨e, rfl, hnot⟩ | ⟨rfl, haccepts, hscan⟩
    · exact ⟨iff_of_false (fun h ↦ by cases h) fun h ↦ h.elim (fun h ↦ by cases h) hnot,
        fun e' he ↦ ⟨e, hvalidated', (Except.error.inj he).symm⟩, fun _ h ↦ by cases h⟩
    · dsimp only
      rw [hscan]
      refine ⟨iff_of_true rfl (.inr haccepts), fun e he ↦ (by cases he), ?_⟩
      rintro - - xs rfl hxs p hp hbare
      exact haccepts.not_names hxs hp hbare

end SandboxManager

end FastRules
