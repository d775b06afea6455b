import FastRules.Foundations.Loop
import FastRules.Foundations.Scanning
import FastRules.Validation.ExpressionValidator

/-!
# The search at identifier boundaries

`containsAtIdentifierBoundary` and the loop of `LuaExpressionValidator::checkDangerousPatterns` over
bare names are the same search, written twice: find the pattern, look at the characters next to it,
and go on one position further. No occurrence is passed over (`unseen_step`), so both end, and find
the pattern where it stands between characters that are not of an identifier.
-/

open Lua WordOccurrence Scanning

namespace FastRules

/-! ### Boundaries -/

/-- There is no identifier character before the position. -/
def startOk (text : List Char) (pos : ℕ) : Bool :=
  pos = 0 || (text[pos - 1]?).all (!isIdentifierChar ·)

/-- There is no identifier character at the position. -/
def endOk (text : List Char) (pos : ℕ) : Bool :=
  text.length ≤ pos || (text[pos]?).all (!isIdentifierChar ·)

theorem startOk_length (l r : List Char) :
    startOk (l ++ r) l.length = true ↔ EndsOpen isNameChar l := by
  rcases List.eq_nil_or_concat l with rfl | ⟨l, c, rfl⟩
  · exact iff_of_true rfl endsOpen_nil
  · rw [List.concat_eq_append, endsOpen_concat]
    simp [startOk, isIdentifierChar, isNameChar]

theorem endOk_length (l r : List Char) :
    endOk (l ++ r) l.length = true ↔ StartsOpen isNameChar r := by
  rcases r with - | ⟨c, r⟩
  · exact iff_of_true (by simp [endOk]) startsOpen_nil
  · rw [startsOpen_cons]
    simp [endOk, isIdentifierChar, isNameChar]

/-- Where the pattern stands, no identifier character is next to it. -/
def boundaryAt (text pattern : List Char) (pos : ℕ) : Bool :=
  startOk text pos && endOk text (pos + pattern.length)

/-- **Occurrences at identifier boundaries as positions.** -/
theorem occurs_iff_exists_standsAt {text pattern : List Char} :
    Occurs isNameChar pattern text ↔
      ∃ i, StandsAt pattern text i ∧ boundaryAt text pattern i = true := by
  have hiff (l r : List Char) : boundaryAt (l ++ pattern ++ r) pattern l.length = true ↔
      EndsOpen isNameChar l ∧ StartsOpen isNameChar r := by
    rw [boundaryAt, Bool.and_eq_true, ← List.length_append, endOk_length, List.append_assoc,
      startOk_length]
  constructor
  · rintro ⟨l, r, rfl, hl, hr⟩
    exact ⟨l.length, standsAt_iff.2 ⟨l, r, rfl, rfl⟩, (hiff l r).2 ⟨hl, hr⟩⟩
  · rintro ⟨i, hi, hb⟩
    obtain ⟨l, r, rfl, rfl⟩ := standsAt_iff.1 hi
    exact ⟨l, r, rfl, (hiff l r).1 hb⟩

/-- Before the position, the pattern stands nowhere at a boundary. -/
def Unseen (text pattern : List Char) (pos : ℕ) : Prop :=
  ∀ i < pos, StandsAt pattern text i → boundaryAt text pattern i = false

theorem unseen_zero (text pattern : List Char) : Unseen text pattern 0 :=
  fun _ h ↦ absurd h (Nat.not_lt_zero _)

variable {text pattern : List Char} {pos i : ℕ}

/-- Going on one position after what was found passes over no other occurrence. -/
theorem unseen_step (h : Unseen text pattern pos) (hfind : find pattern text pos = some i)
    (hb : boundaryAt text pattern i = false) : Unseen text pattern (i + 1) := by
  obtain ⟨-, -, hbetween⟩ := exists_of_find hfind
  intro j hj hstands
  rcases Nat.lt_or_ge j pos with hlt | hge
  · exact h j hlt hstands
  · rcases (Nat.lt_succ_iff.1 hj).eq_or_lt with rfl | hlt
    · exact hb
    · exact absurd hstands (hbetween j hge hlt)

/-- What is not found any more occurs nowhere. -/
theorem not_occurs_of_unseen (h : Unseen text pattern pos) (hfind : find pattern text pos = none) :
    ¬Occurs isNameChar pattern text := by
  rw [occurs_iff_exists_standsAt]
  rintro ⟨j, hstands, hb⟩
  rcases Nat.lt_or_ge j pos with hlt | hge
  · rw [h j hlt hstands] at hb
    cases hb
  · exact find_eq_none_iff.1 hfind j hge hstands

theorem occurs_of_find (hfind : find pattern text pos = some i)
    (hb : boundaryAt text pattern i = true) : Occurs isNameChar pattern text :=
  occurs_iff_exists_standsAt.2 ⟨i, (exists_of_find hfind).2.1, hb⟩

/-- A position that is found lies in the text, behind where the search began. -/
theorem le_of_find (hfind : find pattern text pos = some i) : pos ≤ i ∧ i ≤ text.length :=
  have h := exists_of_find hfind
  ⟨h.1, h.2.1.1⟩

/-! ### The loop of the expression validator -/

namespace ExpressionValidator

/-- One pass of the loop of `containsAtIdentifierBoundary`, with what `find` has returned. -/
def searchStep (haystack pattern : List Char) : Option ℕ → Option ℕ ⊕ Bool
  | none => .inr false
  | some pos =>
    if boundaryAt haystack pattern pos then .inr true
    else .inl (find pattern haystack (pos + 1))

/-- What `find` has returned, for a search that has passed over no occurrence. -/
def Searching (haystack pattern : List Char) (found : Option ℕ) : Prop :=
  ∃ pos, Unseen haystack pattern pos ∧ found = find pattern haystack pos

theorem searching_find_zero (haystack pattern : List Char) :
    Searching haystack pattern (find pattern haystack 0) :=
  ⟨0, unseen_zero haystack pattern, rfl⟩

/-- How much of the text is left to be searched. -/
def unsearched (haystack : List Char) (found : Option ℕ) : ℕ :=
  found.elim 0 fun pos ↦ haystack.length + 1 - pos

variable {haystack pattern : List Char} {found found' : Option ℕ}

theorem searching_step (h : Searching haystack pattern found)
    (hstep : searchStep haystack pattern found = .inl found') :
    Searching haystack pattern found' ∧ unsearched haystack found' < unsearched haystack found := by
  obtain ⟨pos, hunseen, rfl⟩ := h
  rcases hfind : find pattern haystack pos with - | i <;> rw [hfind, searchStep] at hstep
  · cases hstep
  · split_ifs at hstep with hb
    obtain rfl := Sum.inl.inj hstep
    refine ⟨⟨i + 1, unseen_step hunseen hfind (Bool.eq_false_iff.2 hb), rfl⟩, ?_⟩
    have hle := le_of_find hfind
    rcases hnext : find pattern haystack (i + 1) with - | j
    · simp only [unsearched, Option.elim]
      omega
    · have hlt := le_of_find hnext
      simp only [unsearched, Option.elim]
      omega

/-- **The loop ends, with what an occurrence is.** -/
theorem search_returns (haystack pattern : List Char) :
    ∃ b, Loop.Returns (searchStep haystack pattern) (find pattern haystack 0) b ∧
      (b = true ↔ Occurs isNameChar pattern haystack) := by
  obtain ⟨b, hb⟩ := Loop.exists_returns_of_measure (Searching haystack pattern)
    (unsearched haystack) (fun _ _ h hstep ↦ searching_step h hstep)
    (searching_find_zero haystack pattern)
  refine ⟨b, hb, ?_⟩
  obtain ⟨found, ⟨pos, hunseen, rfl⟩, hexit⟩ :=
    hb.invariant (fun _ _ h hstep ↦ (searching_step h hstep).1)
      (searching_find_zero haystack pattern)
  rcases hfind : find pattern haystack pos with - | i <;> rw [hfind, searchStep] at hexit
  · obtain rfl := Sum.inr.inj hexit
    exact iff_of_false Bool.noConfusion (not_occurs_of_unseen hunseen hfind)
  · split_ifs at hexit with hboundary
    obtain rfl := Sum.inr.inj hexit
    exact iff_of_true rfl (occurs_of_find hfind hboundary)

/-- The places at which the pattern is found, one after the other, are those of the loop. -/
theorem containsAtIdentifierBoundary_returns {haystack pattern : String} (hne : pattern ≠ "") :
    Loop.Returns (searchStep haystack.toList pattern.toList) (find pattern.toList haystack.toList 0)
      (containsAtIdentifierBoundary haystack pattern) := by
  obtain ⟨b, hb, hiff⟩ := search_returns haystack.toList pattern.toList
  have heq : b = containsAtIdentifierBoundary haystack pattern :=
    Bool.eq_iff_iff.2 (hiff.trans (containsAtIdentifierBoundary_iff hne).symm)
  rwa [← heq]

end ExpressionValidator

/-! ### The loop of the validator for expressions of users -/

open ExpressionValidator

namespace LuaExpressionValidator

/-- `LuaExpressionValidator::dangerousPatterns_`. -/
def dangerousPatterns : List String :=
  ["os\\.", "io\\.", "debug\\.", "loadstring", "load", "loadfile", "dofile",
    "require", "package\\.", "module", "setmetatable",
    "getmetatable", "rawget", "rawset", "rawequal",
    "collectgarbage", "gcinfo", "newproxy", "getfenv", "setfenv",
    "system", "exec", "spawn", "popen",
    "import", "using", "include", "source",
    "eval", "execute", "run", "call", "_g"]

/-- What stands for a dot in a pattern. -/
def escapedDot : List Char := ['\\', '.']

/-- The pattern has no escaped dot. -/
def Bare (pattern : List Char) : Prop :=
  find escapedDot pattern 0 = none

instance (pattern : List Char) : Decidable (Bare pattern) :=
  inferInstanceAs (Decidable (_ = _))

/-- `searchPattern`, with the escaped dots replaced. -/
def unescapeDots : List Char → List Char
  | '\\' :: '.' :: rest => '.' :: unescapeDots rest
  | c :: rest => c :: unescapeDots rest
  | [] => []

/-- What is thrown for a pattern. -/
def patternError (pattern : String) : String :=
  "Dangerous pattern detected: " ++ pattern

/-- One pass of the loops of `LuaExpressionValidator::checkDangerousPatterns`, with the patterns
that are left and the position from which the first of them is searched for. -/
def checkStep (lowerExpr : List Char) :
    List String × ℕ → List String × ℕ ⊕ Except String Unit
  | ([], _) => .inr (.ok ())
  | (pattern :: rest, pos) =>
    if Bare pattern.toList then
      match find pattern.toList lowerExpr pos with
      | none => .inl (rest, 0)
      | some pos =>
        if boundaryAt lowerExpr pattern.toList pos then .inr (.error (patternError pattern))
        else .inl (pattern :: rest, pos + 1)
    else
      if (find (unescapeDots pattern.toList) lowerExpr 0).isSome then
        .inr (.error (patternError pattern))
      else .inl (rest, 0)

/-- `LuaExpressionValidator::checkDangerousPatterns` ends with `outcome`, where the set of patterns
is visited in that order. -/
def CheckDangerousPatterns (order : HashOrder String) (expression : String)
    (outcome : Except String Unit) : Prop :=
  Loop.Returns (checkStep (toLowerAscii expression).toList) (order.visit dangerousPatterns, 0)
    outcome

variable {lowerExpr : List Char} {pattern : String} {rest : List String} {pos : ℕ}

/-- What the loops find for a pattern: a bare name between characters that are not of an identifier,
any other pattern anywhere. -/
def Found (lowerExpr : List Char) (pattern : String) : Prop :=
  if Bare pattern.toList then Occurs isNameChar pattern.toList lowerExpr
  else (find (unescapeDots pattern.toList) lowerExpr 0).isSome

/-- The pattern is thrown for, or the loops go on to the next one, according to whether it is
`found`. -/
def Decides (lowerExpr : List Char) (pattern : String) (rest : List String) (pos : ℕ)
    (found : Prop) : Prop :=
  found ∧
      Loop.Returns (checkStep lowerExpr) (pattern :: rest, pos) (.error (patternError pattern)) ∨
    ¬found ∧ Loop.Reaches (checkStep lowerExpr) (pattern :: rest, pos) (rest, 0)

theorem Decides.of_step {found : Prop} {pos' : ℕ} (h : Decides lowerExpr pattern rest pos' found)
    (hstep : checkStep lowerExpr (pattern :: rest, pos) = .inl (pattern :: rest, pos')) :
    Decides lowerExpr pattern rest pos found := by
  have hreaches : Loop.Reaches (checkStep lowerExpr) (pattern :: rest, pos)
      (pattern :: rest, pos') := Relation.ReflTransGen.single hstep
  rcases h with ⟨hfound, hreturns⟩ | ⟨hfound, hrest⟩
  · exact .inl ⟨hfound, hreaches.returns hreturns⟩
  · exact .inr ⟨hfound, Relation.ReflTransGen.trans hreaches hrest⟩

/-- The loop over a bare name, from a position before which it was not found. -/
theorem bare_decides (hbare : Bare pattern.toList) (h : Unseen lowerExpr pattern.toList pos) :
    Decides lowerExpr pattern rest pos (Occurs isNameChar pattern.toList lowerExpr) := by
  induction hn : lowerExpr.length + 1 - pos using Nat.strong_induction_on generalizing pos with
  | h n ih =>
    have hcheck : checkStep lowerExpr (pattern :: rest, pos) = _ := if_pos hbare
    rcases hfind : find pattern.toList lowerExpr pos with - | i <;> rw [hfind] at hcheck
    · exact .inr ⟨not_occurs_of_unseen h hfind, Relation.ReflTransGen.single hcheck⟩
    · rcases hb : boundaryAt lowerExpr pattern.toList i with - | -
      · have hle := le_of_find hfind
        have hstep : checkStep lowerExpr (pattern :: rest, pos) = .inl (pattern :: rest, i + 1) :=
          hcheck.trans (if_neg (Bool.eq_false_iff.1 hb))
        exact (ih _ (by omega) (unseen_step h hfind hb) rfl).of_step hstep
      · exact .inl ⟨occurs_of_find hfind hb,
          1, Loop.run_succ_of_exit (hcheck.trans (if_pos hb)) 0⟩

theorem found_decides (lowerExpr : List Char) (pattern : String) (rest : List String) :
    Decides lowerExpr pattern rest 0 (Found lowerExpr pattern) := by
  by_cases hbare : Bare pattern.toList
  · rw [Found, if_pos hbare]
    exact bare_decides hbare (unseen_zero _ _)
  · rw [Found, if_neg hbare]
    have hcheck : checkStep lowerExpr (pattern :: rest, 0) = _ := if_neg hbare
    by_cases hfound : (find (unescapeDots pattern.toList) lowerExpr 0).isSome
    · exact .inl ⟨hfound, 1, Loop.run_succ_of_exit (hcheck.trans (if_pos hfound)) 0⟩
    · exact .inr ⟨hfound, Relation.ReflTransGen.single (hcheck.trans (if_neg hfound))⟩

/-- The loops throw for the first pattern that is found, and end if none is. -/
theorem check_returns (lowerExpr : List Char) (patterns : List String) :
    ∃ outcome, Loop.Returns (checkStep lowerExpr) (patterns, 0) outcome ∧
      (outcome = .ok () ∧ (∀ p ∈ patterns, ¬Found lowerExpr p) ∨
        ∃ p ∈ patterns, Found lowerExpr p ∧ outcome = .error (patternError p)) := by
  induction patterns with
  | nil => exact ⟨.ok (), ⟨1, rfl⟩, .inl ⟨rfl, fun _ h ↦ absurd h List.not_mem_nil⟩⟩
  | cons p patterns ih =>
    obtain ⟨hfound, hreturns⟩ | ⟨hfound, hreaches⟩ := found_decides lowerExpr p patterns
    · exact ⟨_, hreturns, .inr ⟨p, List.mem_cons_self, hfound, rfl⟩⟩
    · obtain ⟨outcome, hreturns, hcase⟩ := ih
      refine ⟨outcome, hreaches.returns hreturns, ?_⟩
      rcases hcase with ⟨hok, hnone⟩ | ⟨q, hq, hcase⟩
      · exact .inl ⟨hok, List.forall_mem_cons.2 ⟨hfound, hnone⟩⟩
      · exact .inr ⟨q, List.mem_cons_of_mem p hq, hcase⟩

/-- **The check for dangerous patterns ends, and throws if one of them is found**, in whatever order
they are visited. -/
theorem checkDangerousPatterns_ends (order : HashOrder String) (expression : String) :
    ∃ outcome, CheckDangerousPatterns order expression outcome ∧
      (outcome = .ok () ↔
        ∀ p ∈ dangerousPatterns, ¬Found (toLowerAscii expression).toList p) := by
  obtain ⟨outcome, hreturns, hcase⟩ :=
    check_returns (toLowerAscii expression).toList (order.visit dangerousPatterns)
  refine ⟨outcome, hreturns, ?_⟩
  have hmem (p : String) : p ∈ order.visit dangerousPatterns ↔ p ∈ dangerousPatterns :=
    (order.perm dangerousPatterns).mem_iff
  simp only [hmem] at hcase
  rcases hcase with ⟨rfl, hnone⟩ | ⟨p, hp, hfound, rfl⟩
  · exact iff_of_true rfl hnone
  · exact iff_of_false (fun h ↦ by cases h) fun hnone ↦ hnone p hp hfound

/-- **Both loops find a pattern where it is an identifier of its own**, the one in the text, the
other in the text in lower case. -/
theorem boundary_search_exact (haystack pattern : String) (hne : pattern ≠ "") :
    Loop.Returns (searchStep haystack.toList pattern.toList)
      (find pattern.toList haystack.toList 0) (containsAtIdentifierBoundary haystack pattern) ∧
    (containsAtIdentifierBoundary haystack pattern = true ↔
      Occurs isNameChar pattern.toList haystack.toList) ∧
    (Bare pattern.toList → ∀ rest,
      Decides (toLowerAscii haystack).toList pattern rest 0
        (containsAtIdentifierBoundary (toLowerAscii haystack) pattern = true)) := by
  refine ⟨containsAtIdentifierBoundary_returns hne, containsAtIdentifierBoundary_iff hne,
    fun hbare rest ↦ ?_⟩
  rw [containsAtIdentifierBoundary_iff hne]
  exact bare_decides hbare (unseen_zero _ _)

/-- An occurrence that begins inside one that is rejected is found, by both. -/
theorem boundary_search_exact_overlapping :
    Occurs isNameChar "a.a".toList "xa.a.a".toList ∧
      Decides (toLowerAscii "xa.a.a").toList "a.a" ["load"] 0
        (containsAtIdentifierBoundary (toLowerAscii "xa.a.a") "a.a" = true) :=
  have h := boundary_search_exact "xa.a.a" "a.a" (by decide)
  ⟨h.2.1.1 (by decide), h.2.2 (by decide) ["load"]⟩

end LuaExpressionValidator

end FastRules
