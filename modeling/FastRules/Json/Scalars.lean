import FastRules.Foundations.Members
import FastRules.Json.RoundTrip

/-!
# Texts of ids and durations

`parseRuleAtDepth` and `loadWorkflow` read an id that is a text with `std::stoi`, and a duration
that is a text with `std::stoll` and a suffix. Both functions of the library stop at the first
character that they do not read. An id is read exactly or rejected unless something stands around
its number (`scalars_exact_iff`); a duration that is not exact is never rejected as the loader
rejects things.
-/

namespace FastRules

/-! ### Numbers at the start of a text -/

section Literals

variable {s : String} {n : Int} {bits : ℕ}

theorem readInteger_eq (s : String) : readInteger s =
    let (negative, body) := readSign (s.toList.dropWhile isSpace)
    match body.takeWhile Char.isDigit with
    | [] => none
    | digits => some (if negative then -(decimalValue digits : Int) else decimalValue digits) := by
  rw [readInteger, readSign.eq_def]
  rfl

/-- A literal is digits, perhaps after a sign. -/
theorem digits_of_literal {text : List Char} (h : decimalLiteral text = some n) :
    (readSign text).2 ≠ [] ∧ (∀ c ∈ (readSign text).2, c.isDigit = true) ∧
      n = if (readSign text).1 then -(decimalValue (readSign text).2 : Int)
        else decimalValue (readSign text).2 := by
  rw [decimalLiteral] at h
  dsimp only at h
  by_cases hdigits : (readSign text).2 ≠ [] ∧ (readSign text).2.all Char.isDigit = true
  · rw [if_pos hdigits] at h
    exact ⟨hdigits.1, List.all_eq_true.1 hdigits.2, (Option.some.inj h).symm⟩
  · rw [if_neg hdigits] at h
    cases h

/-- A literal is read as a whole. -/
theorem readInteger_of_literal (h : decimalLiteral s.toList = some n) : readInteger s = some n := by
  obtain ⟨hne, hall, rfl⟩ := digits_of_literal h
  rw [readInteger_eq, dropWhile_isSpace_of_literal hne hall]
  dsimp only
  rw [List.takeWhile_eq_self_iff.2 hall]
  split
  · rename_i hnil
    exact absurd hnil hne
  · rfl

theorem readSign_suffix (text : List Char) : (readSign text).2 <:+ text := by
  rw [readSign.eq_def]
  split
  · exact List.suffix_cons _ _
  · exact List.suffix_cons _ _
  · exact List.suffix_rfl

/-- A literal ends in a digit. -/
theorem isDigit_of_literal_concat {text : List Char} {c : Char}
    (h : decimalLiteral (text ++ [c]) = some n) : c.isDigit = true := by
  obtain ⟨hne, hall, -⟩ := digits_of_literal h
  obtain ⟨sign, hsuffix⟩ := readSign_suffix (text ++ [c])
  rw [← List.dropLast_append_getLast hne, ← List.append_assoc] at hsuffix
  have hlast : (readSign (text ++ [c])).2.getLast hne = c :=
    List.singleton_inj.1 (List.append_inj' hsuffix rfl).2
  rw [← hlast]
  exact hall _ (List.getLast_mem hne)

theorem readBounded_eq_some_iff : readBounded bits s = some n ↔
    readInteger s = some n ∧ -2 ^ (bits - 1) ≤ n ∧ n < 2 ^ (bits - 1) := by
  rw [readBounded, Option.filter_eq_some_iff, decide_eq_true_iff]

end Literals

/-! ### Durations -/

/-- The suffixes of a duration, with the milliseconds that they stand for. -/
def durationUnits : List (String × Int) :=
  [("ms", 1), ("s", 1000), ("m", 60000)]

/-- The text is a decimal integer and a unit, and stands for the number of milliseconds. -/
def IsDuration (s : String) (d : Int) : Prop :=
  ∃ number n, ∃ unit ∈ durationUnits, s.toList = number ++ unit.1.toList ∧
    decimalLiteral number = some n ∧ d = n * unit.2 ∧ -2 ^ 63 ≤ d ∧ d < 2 ^ 63

section Durations

variable {s : String} {d n : Int} {number : List Char} {key : String} {j : Json}

theorem toInt64_of_fits (h : -2 ^ 63 ≤ d ∧ d < 2 ^ 63) : toInt64 d = d :=
  Int.bmod_eq_of_le (by omega) (by omega)

/-- A duration whose number is a literal is read as it is. -/
theorem readDuration_of_literal {unit : List Char} {suffix : ℕ} {ms : Int}
    (hs : s.toList = number ++ unit) (hlen : unit.length = suffix)
    (hnumber : decimalLiteral number = some n) (hn : -2 ^ 63 ≤ n ∧ n < 2 ^ 63)
    (hd : -2 ^ 63 ≤ n * ms ∧ n * ms < 2 ^ 63) :
    readDuration s suffix ms = .ok (some (n * ms)) := by
  have htake : s.toList.take (s.toList.length - suffix) = number := by
    rw [hs, List.length_append, hlen, Nat.add_sub_cancel_right, List.take_left]
  have hread : readBounded 64 (String.ofList number) = some n :=
    readBounded_eq_some_iff.2 ⟨readInteger_of_literal (by rwa [String.toList_ofList]), hn⟩
  rw [readDuration, htake, hread]
  dsimp only
  rw [toInt64_of_fits hd]

/-- The text of a duration is read. -/
theorem durationMember_of_isDuration (hmember : j.member? key = some (.string s))
    (h : IsDuration s d) : durationMember key j = .ok (some d) := by
  obtain ⟨number, n, unit, hunit, hs, hnumber, rfl, hd⟩ := h
  -- a number ends in a digit, so the suffix is the one that is looked for
  have hms : unit.1.toList.length = 1 → ¬"ms".toList <:+ s.toList := by
    rintro hlen ⟨start, hstart⟩
    obtain ⟨c, hc⟩ := List.length_eq_one_iff.1 hlen
    rw [hs, hc, show "ms".toList = ['m'] ++ ['s'] from rfl, ← List.append_assoc] at hstart
    obtain ⟨hnumber', -⟩ := List.append_inj' hstart rfl
    rw [← hnumber'] at hnumber
    exact absurd (isDigit_of_literal_concat hnumber) (by decide)
  have hsuffix : unit.1.toList <:+ s.toList := ⟨number, hs.symm⟩
  rw [durationMember, hmember]
  dsimp only
  simp only [durationUnits, List.mem_cons, List.not_mem_nil, or_false] at hunit
  rcases hunit with rfl | rfl | rfl
  · dsimp only at hd hs hsuffix ⊢
    rw [if_pos hsuffix]
    exact readDuration_of_literal hs rfl hnumber (by omega) hd
  · dsimp only at hd hs hsuffix ⊢
    rw [if_neg (hms rfl), if_pos hsuffix]
    exact readDuration_of_literal hs rfl hnumber (by omega) hd
  · dsimp only at hd hs hsuffix ⊢
    have hs' : ¬"s".toList <:+ s.toList := by
      rintro ⟨start, hstart⟩
      rw [hs] at hstart
      exact absurd (List.append_inj' hstart rfl).2 (by decide)
    rw [if_neg (hms rfl), if_neg hs', if_pos hsuffix]
    exact readDuration_of_literal hs rfl hnumber (by omega) hd

/-- A duration is never rejected with a `RuleException`. -/
theorem durationMember_ne_rule (hmember : j.member? key = some (.string s)) (message : String) :
    durationMember key j ≠ .error (.rule message) := by
  have hread (suffix : ℕ) (ms : Int) : readDuration s suffix ms ≠ .error (.rule message) := by
    rw [readDuration]
    split
    · simp
    · simp
  rw [durationMember, hmember]
  dsimp only
  split_ifs
  · exact hread 2 1
  · exact hread 1 1000
  · exact hread 1 60000
  · simp

end Durations

/-! ### Ids -/

/-- The text is a decimal integer that fits an `int`. -/
def IsIntText (s : String) (n : Int) : Prop :=
  decimalLiteral s.toList = some n ∧ -2 ^ 31 ≤ n ∧ n < 2 ^ 31

/-- The text is a decimal integer, or `std::stoi` reads no `int` of it. -/
def IsIdText (s : String) : Prop :=
  (decimalLiteral s.toList).isSome ∨ readBounded 32 s = none

instance (s : String) : Decidable (IsIdText s) :=
  inferInstanceAs (Decidable (_ ∨ _))

section Ids

variable {s what : String} {n : Int} {nextId : Loader Int} {j : Json} {state : LoaderState}

theorem readBounded_of_isIntText (h : IsIntText s n) : readBounded 32 s = some n :=
  readBounded_eq_some_iff.2 ⟨readInteger_of_literal h.1, h.2⟩

theorem parseId_of_readBounded (hmember : j.member? "id" = some (.string s))
    (h : readBounded 32 s = some n) : (parseId what nextId j).run state = .ok (n, state) := by
  rw [parseId, hmember]
  dsimp only
  rw [h]
  rfl

theorem parseId_of_none (hmember : j.member? "id" = some (.string s))
    (h : readBounded 32 s = none) : (parseId what nextId j).run state =
      .error (.rule (what ++ " 'id' is a string but not a valid integer: " ++ s)) := by
  rw [parseId, hmember]
  dsimp only
  rw [h]
  rfl

/-- No other text stands for the number. -/
theorem isIntText_of_readBounded (htext : IsIdText s) (h : readBounded 32 s = some n) :
    IsIntText s n := by
  rcases htext with hliteral | hnone
  · obtain ⟨m, hm⟩ := Option.isSome_iff_exists.1 hliteral
    obtain ⟨hread, hn⟩ := readBounded_eq_some_iff.1 h
    rw [readInteger_of_literal hm] at hread
    obtain rfl := Option.some.inj hread
    exact ⟨hm, hn⟩
  · rw [hnone] at h
    cases h

end Ids

/-! ### Documents -/

/-- A text with a meaning is accepted for what it means, and any other is rejected with a
`RuleException`. -/
structure ParsedExactly {α : Type} (Means : Int → Prop) (run : Except Exn (α × LoaderState))
    (out : Int → α × LoaderState) : Prop where
  accepted : ∀ n, Means n → run = .ok (out n)
  rejected : (∀ n, ¬Means n) → ∃ message, run = .error (.rule message)

/-- The documents have the same members but for one. -/
def Json.AgreeExcept (key : String) (j j₀ : Json) : Prop :=
  ∀ other, other ≠ key → j.member? other = j₀.member? other

/-- The rule of a document, with the fields that have been read. -/
def ruleOf (j : Json) (id : Int) (timeout cacheDuration : Option Int) (childRules : List Rule) :
    Rule where
  id := id
  name := (stringMember "name" j).getD ""
  description := (stringMember "description" j).getD ""
  isActive := (booleanMember "isActive" j).getD true
  priority := (integerMember "priority" j).getD 0
  expression := (stringMember "expression" j).getD ""
  action := (stringMember "action" j).getD ""
  dependsOnRuleName := stringMember "dependsOnRuleName" j
  timeout := timeout
  cacheDuration := cacheDuration
  childRules := childRules

section Documents

variable {j j₀ : Json} {levels : ℕ} {state state' : LoaderState} {r₀ : Rule} {s : String}

theorem Loader.run_bind_error {α β : Type} {x : Loader α} {f : α → Loader β} {e : Exn}
    (h : x.run state = .error e) : (x >>= f).run state = .error e := by
  rw [StateT.run_bind, h]
  rfl

/-- A run that returns has returned from its first part. -/
theorem Loader.exists_of_run_bind {α β : Type} {x : Loader α} {f : α → Loader β} {b : β}
    (h : (x >>= f).run state = .ok (b, state')) :
    ∃ a state₁, x.run state = .ok (a, state₁) ∧ (f a).run state₁ = .ok (b, state') := by
  rw [StateT.run_bind] at h
  rcases hx : x.run state with e | ⟨a, state₁⟩
  · rw [hx] at h
    cases h
  · rw [hx] at h
    exact ⟨a, state₁, rfl, h⟩

/-- What is lifted into the loader leaves its state as it is. -/
theorem Loader.run_lift_eq_ok_iff {α : Type} {x : Except Exn α} {a : α} :
    StateT.run (x : Loader α) state = .ok (a, state') ↔ x = .ok a ∧ state = state' := by
  rcases x with e | b
  · exact ⟨nofun, nofun⟩
  · constructor
    · intro h
      obtain ⟨rfl, rfl⟩ := Prod.mk.inj (Except.ok.inj h)
      exact ⟨rfl, rfl⟩
    · rintro ⟨h, rfl⟩
      rw [h]
      rfl

/-- What a rule that was parsed has been put together from. -/
theorem exists_of_parseRuleAtDepth
    (h : (parseRuleAtDepth (levels + 1) j₀).run state = .ok (r₀, state')) :
    ∃ id state₁ timeout cacheDuration childRules,
      (parseId "Rule" nextRuleId j₀).run state = .ok (id, state₁) ∧
      durationMember "timeout" j₀ = .ok timeout ∧
      durationMember "cacheDuration" j₀ = .ok cacheDuration ∧
      ((arrayMember "childRules" j₀).mapM (parseRuleAtDepth levels)).run state₁ =
        .ok (childRules, state') ∧
      r₀ = ruleOf j₀ id timeout cacheDuration childRules := by
  rw [parseRuleAtDepth] at h
  obtain ⟨id, state₁, hid, h₁⟩ := Loader.exists_of_run_bind h
  obtain ⟨timeout, state₂, htimeout, h₂⟩ := Loader.exists_of_run_bind h₁
  obtain ⟨cacheDuration, state₃, hcache, h₃⟩ := Loader.exists_of_run_bind h₂
  obtain ⟨childRules, state₄, hchildren, h₄⟩ := Loader.exists_of_run_bind h₃
  obtain ⟨htimeout', rfl⟩ := Loader.run_lift_eq_ok_iff.1 htimeout
  obtain ⟨hcache', rfl⟩ := Loader.run_lift_eq_ok_iff.1 hcache
  obtain ⟨rfl, rfl⟩ := Prod.mk.inj (Except.ok.inj h₄)
  exact ⟨id, state₁, timeout, cacheDuration, childRules, hid, htimeout', hcache', hchildren, rfl⟩

/-- A rule is put together from what was read. -/
theorem run_parseRuleAtDepth {id : Int} {state₁ : LoaderState} {timeout cacheDuration : Option Int}
    {childRules : List Rule} (hid : (parseId "Rule" nextRuleId j).run state = .ok (id, state₁))
    (htimeout : durationMember "timeout" j = .ok timeout)
    (hcache : durationMember "cacheDuration" j = .ok cacheDuration)
    (hchildren : ((arrayMember "childRules" j).mapM (parseRuleAtDepth levels)).run state₁ =
      .ok (childRules, state')) :
    (parseRuleAtDepth (levels + 1) j).run state =
      .ok (ruleOf j id timeout cacheDuration childRules, state') := by
  rw [parseRuleAtDepth, Loader.run_bind_ok hid,
    Loader.run_bind_ok (Loader.run_lift_eq_ok_iff.2 ⟨htimeout, rfl⟩),
    Loader.run_bind_ok (Loader.run_lift_eq_ok_iff.2 ⟨hcache, rfl⟩), Loader.run_bind_ok hchildren]
  rfl

/-- The rule is not parsed if its id is not. -/
theorem run_parseRuleAtDepth_of_id {e : Exn}
    (hid : (parseId "Rule" nextRuleId j).run state = .error e) :
    (parseRuleAtDepth (levels + 1) j).run state = .error e := by
  rw [parseRuleAtDepth]
  exact Loader.run_bind_error hid

/-- A rule that is rejected although its id and children are read is rejected for a duration. -/
theorem run_parseRuleAtDepth_eq_error {id : Int} {state₁ : LoaderState} {childRules : List Rule}
    {e : Exn} (hid : (parseId "Rule" nextRuleId j).run state = .ok (id, state₁))
    (hchildren : ((arrayMember "childRules" j).mapM (parseRuleAtDepth levels)).run state₁ =
      .ok (childRules, state'))
    (h : (parseRuleAtDepth (levels + 1) j).run state = .error e) :
    durationMember "timeout" j = .error e ∨ durationMember "cacheDuration" j = .error e := by
  rcases htimeout : durationMember "timeout" j with e' | timeout
  · rw [parseRuleAtDepth, Loader.run_bind_ok hid, htimeout,
      Loader.run_bind_error (e := e') rfl] at h
    exact .inl (congrArg Except.error (Except.error.inj h))
  · rcases hcache : durationMember "cacheDuration" j with e' | cacheDuration
    · rw [parseRuleAtDepth, Loader.run_bind_ok hid,
        Loader.run_bind_ok (Loader.run_lift_eq_ok_iff.2 ⟨htimeout, rfl⟩), hcache,
        Loader.run_bind_error (e := e') rfl] at h
      exact .inr (congrArg Except.error (Except.error.inj h))
    · rw [run_parseRuleAtDepth hid htimeout hcache hchildren] at h
      cases h

/-! ### Texts in documents -/

theorem parseId_congr (what : String) (nextId : Loader Int)
    (h : j.member? "id" = j₀.member? "id") : parseId what nextId j = parseId what nextId j₀ := by
  rw [parseId, parseId, h]

theorem durationMember_congr {key : String} (h : j.member? key = j₀.member? key) :
    durationMember key j = durationMember key j₀ := by
  rw [durationMember, durationMember, h]

theorem arrayMember_congr {key : String} (h : j.member? key = j₀.member? key) :
    arrayMember key j = arrayMember key j₀ := by
  rw [arrayMember, arrayMember, h]

/-- Ids and durations are not looked at again. -/
theorem ruleOf_congr {key : String} (hkey : key ∈ ["id", "timeout", "cacheDuration"])
    (hagree : Json.AgreeExcept key j j₀) : ruleOf j = ruleOf j₀ := by
  have hmember {other : String} (hother : other ∉ ["id", "timeout", "cacheDuration"]) :
      j.member? other = j₀.member? other :=
    hagree other fun h ↦ hother (h ▸ hkey)
  funext id timeout cacheDuration childRules
  rw [ruleOf, ruleOf, stringMember, stringMember, stringMember, stringMember, stringMember,
    booleanMember, integerMember, hmember (by decide), hmember (by decide), hmember (by decide),
    hmember (by decide), hmember (by decide), hmember (by decide), hmember (by decide)]
  rfl

/-- A duration is read exactly if it has a meaning, for no duration is rejected. -/
theorem duration_exact_iff {α : Type} {run : Except Exn (α × LoaderState)}
    {out : Int → α × LoaderState} (haccepted : ∀ d, IsDuration s d → run = .ok (out d))
    (hrejected : ∀ message, run ≠ .error (.rule message)) :
    ParsedExactly (IsDuration s) run out ↔ ∃ d, IsDuration s d := by
  constructor
  · intro h
    by_contra hnone
    obtain ⟨message, hrun⟩ := h.rejected (not_exists.1 hnone)
    exact hrejected message hrun
  · rintro ⟨d, hd⟩
    exact ⟨haccepted, fun hnone ↦ absurd hd (hnone d)⟩

theorem timeout_exact_iff (hmember : j.member? "timeout" = some (.string s))
    (hagree : Json.AgreeExcept "timeout" j j₀)
    (hrest : (parseRuleAtDepth (levels + 1) j₀).run state = .ok (r₀, state')) :
    ParsedExactly (IsDuration s) ((parseRuleAtDepth (levels + 1) j).run state)
        (fun d ↦ ({ r₀ with timeout := some d }, state')) ↔
      ∃ d, IsDuration s d := by
  obtain ⟨id, state₁, timeout, cacheDuration, childRules, hid, -, hcache, hchildren, rfl⟩ :=
    exists_of_parseRuleAtDepth hrest
  rw [← parseId_congr _ _ (hagree "id" (by decide))] at hid
  rw [← durationMember_congr (hagree "cacheDuration" (by decide))] at hcache
  rw [← arrayMember_congr (hagree "childRules" (by decide))] at hchildren
  refine duration_exact_iff (fun d hd ↦ ?_) fun message hrun ↦ ?_
  · rw [run_parseRuleAtDepth hid (durationMember_of_isDuration hmember hd) hcache hchildren,
      ruleOf_congr (by decide) hagree]
    rfl
  · rcases run_parseRuleAtDepth_eq_error hid hchildren hrun with herror | herror
    · exact durationMember_ne_rule hmember message herror
    · rw [hcache] at herror
      cases herror

theorem cacheDuration_exact_iff (hmember : j.member? "cacheDuration" = some (.string s))
    (hagree : Json.AgreeExcept "cacheDuration" j j₀)
    (hrest : (parseRuleAtDepth (levels + 1) j₀).run state = .ok (r₀, state')) :
    ParsedExactly (IsDuration s) ((parseRuleAtDepth (levels + 1) j).run state)
        (fun d ↦ ({ r₀ with cacheDuration := some d }, state')) ↔
      ∃ d, IsDuration s d := by
  obtain ⟨id, state₁, timeout, cacheDuration, childRules, hid, htimeout, -, hchildren, rfl⟩ :=
    exists_of_parseRuleAtDepth hrest
  rw [← parseId_congr _ _ (hagree "id" (by decide))] at hid
  rw [← durationMember_congr (hagree "timeout" (by decide))] at htimeout
  rw [← arrayMember_congr (hagree "childRules" (by decide))] at hchildren
  refine duration_exact_iff (fun d hd ↦ ?_) fun message hrun ↦ ?_
  · rw [run_parseRuleAtDepth hid htimeout (durationMember_of_isDuration hmember hd) hchildren,
      ruleOf_congr (by decide) hagree]
    rfl
  · rcases run_parseRuleAtDepth_eq_error hid hchildren hrun with herror | herror
    · rw [htimeout] at herror
      cases herror
    · exact durationMember_ne_rule hmember message herror

/-- An id is read exactly if the rest is read with every id, and nothing else with a bad one. -/
theorem id_exact_iff {α : Type} {run : Except Exn (α × LoaderState)} {out : Int → α × LoaderState}
    {message : String} (haccepted : ∀ n, readBounded 32 s = some n → run = .ok (out n))
    (hrejected : readBounded 32 s = none → run = .error (.rule message)) :
    ParsedExactly (IsIntText s) run out ↔ IsIdText s := by
  constructor
  · intro h
    rw [IsIdText, or_iff_not_imp_right]
    intro hread
    obtain ⟨n, hn⟩ := Option.ne_none_iff_exists'.1 hread
    by_contra hliteral
    have hnone : ∀ m, ¬IsIntText s m := fun m hm ↦
      hliteral (Option.isSome_iff_exists.2 ⟨m, hm.1⟩)
    obtain ⟨message, hrun⟩ := h.rejected hnone
    rw [haccepted n hn] at hrun
    cases hrun
  · intro htext
    refine ⟨fun n hn ↦ haccepted n (readBounded_of_isIntText hn), fun hnone ↦ ⟨message, ?_⟩⟩
    refine hrejected (Option.eq_none_iff_forall_ne_some.2 fun n hn ↦ hnone n ?_)
    exact isIntText_of_readBounded htext hn

theorem ruleId_exact_iff {m : Int} (hmember : j.member? "id" = some (.string s))
    (hagree : Json.AgreeExcept "id" j j₀) (hid₀ : j₀.member? "id" = some (.integer m))
    (hrest : (parseRuleAtDepth (levels + 1) j₀).run state = .ok (r₀, state')) :
    ParsedExactly (IsIntText s) ((parseRuleAtDepth (levels + 1) j).run state)
        (fun n ↦ ({ r₀ with id := n }, state')) ↔
      IsIdText s := by
  obtain ⟨id, state₁, timeout, cacheDuration, childRules, hid, htimeout, hcache, hchildren, rfl⟩ :=
    exists_of_parseRuleAtDepth hrest
  have hrun₀ : (parseId "Rule" nextRuleId j₀).run state = .ok (toInt32 m, state) := by
    rw [parseId, hid₀]
    rfl
  obtain ⟨rfl, rfl⟩ := Prod.mk.inj (Except.ok.inj (hrun₀.symm.trans hid))
  rw [← durationMember_congr (hagree "timeout" (by decide))] at htimeout
  rw [← durationMember_congr (hagree "cacheDuration" (by decide))] at hcache
  rw [← arrayMember_congr (hagree "childRules" (by decide))] at hchildren
  refine id_exact_iff (fun n hn ↦ ?_) fun hnone ↦
    run_parseRuleAtDepth_of_id (parseId_of_none hmember hnone)
  rw [run_parseRuleAtDepth (parseId_of_readBounded hmember hn) htimeout hcache hchildren,
    ruleOf_congr (by decide) hagree]
  rfl

theorem workflowId_exact_iff {m : Int} {w₀ : Workflow}
    (hmember : j.member? "id" = some (.string s)) (hagree : Json.AgreeExcept "id" j j₀)
    (hid₀ : j₀.member? "id" = some (.integer m))
    (hrest : (parseWorkflow j₀).run state = .ok (w₀, state')) :
    ParsedExactly (IsIntText s) ((parseWorkflow j).run state)
        (fun n ↦ ({ w₀ with id := n }, state')) ↔
      IsIdText s := by
  have hrun₀ : (parseId "Workflow" nextWorkflowId j₀).run state = .ok (toInt32 m, state) := by
    rw [parseId, hid₀]
    rfl
  rw [parseWorkflow, Loader.run_bind_ok hrun₀] at hrest
  obtain ⟨rules, state₁, hrules, hw₀⟩ := Loader.exists_of_run_bind hrest
  obtain ⟨rfl, rfl⟩ := Prod.mk.inj (Except.ok.inj hw₀)
  rw [← arrayMember_congr (hagree "rules" (by decide))] at hrules
  refine id_exact_iff (fun n hn ↦ ?_) fun hnone ↦
    Loader.run_bind_error (parseId_of_none hmember hnone)
  rw [parseWorkflow, Loader.run_bind_ok (parseId_of_readBounded hmember hn),
    Loader.run_bind_ok hrules, stringMember, stringMember, stringMember, stringMember,
    booleanMember, booleanMember, hagree "description" (by decide), hagree "name" (by decide),
    hagree "isActive" (by decide)]
  rfl

end Documents

/-- **Texts are parsed exactly or rejected.** For a duration this is so exactly if its text is one
of a duration that fits; for an id, exactly if its text is a decimal integer or `std::stoi` reads
none of it. The other members of the document are those of a document that is loaded. -/
theorem scalars_exact_iff (s : String) (j j₀ : Json) (state state' : LoaderState) :
    (∀ levels r₀, j.member? "timeout" = some (.string s) → Json.AgreeExcept "timeout" j j₀ →
      (parseRuleAtDepth (levels + 1) j₀).run state = .ok (r₀, state') →
      (ParsedExactly (IsDuration s) ((parseRuleAtDepth (levels + 1) j).run state)
          (fun d ↦ ({ r₀ with timeout := some d }, state')) ↔
        ∃ d, IsDuration s d)) ∧
    (∀ levels r₀, j.member? "cacheDuration" = some (.string s) →
      Json.AgreeExcept "cacheDuration" j j₀ →
      (parseRuleAtDepth (levels + 1) j₀).run state = .ok (r₀, state') →
      (ParsedExactly (IsDuration s) ((parseRuleAtDepth (levels + 1) j).run state)
          (fun d ↦ ({ r₀ with cacheDuration := some d }, state')) ↔
        ∃ d, IsDuration s d)) ∧
    (∀ levels r₀ m, j.member? "id" = some (.string s) → Json.AgreeExcept "id" j j₀ →
      j₀.member? "id" = some (.integer m) →
      (parseRuleAtDepth (levels + 1) j₀).run state = .ok (r₀, state') →
      (ParsedExactly (IsIntText s) ((parseRuleAtDepth (levels + 1) j).run state)
          (fun n ↦ ({ r₀ with id := n }, state')) ↔
        IsIdText s)) ∧
    ∀ w₀ m, j.member? "id" = some (.string s) → Json.AgreeExcept "id" j j₀ →
      j₀.member? "id" = some (.integer m) → (parseWorkflow j₀).run state = .ok (w₀, state') →
      (ParsedExactly (IsIntText s) ((parseWorkflow j).run state)
          (fun n ↦ ({ w₀ with id := n }, state')) ↔
        IsIdText s) :=
  ⟨fun _ _ ↦ timeout_exact_iff, fun _ _ ↦ cacheDuration_exact_iff, fun _ _ _ ↦ ruleId_exact_iff,
    fun _ _ ↦ workflowId_exact_iff⟩

/-- Documents with one member. -/
def ruleWith (key : String) (value : Json) : Json :=
  .object [("id", .integer 1), (key, value)]

theorem agreeExcept_ruleWith (key : String) (value value' : Json) :
    Json.AgreeExcept key (ruleWith key value) (ruleWith key value') := by
  intro other hother
  simp [ruleWith, Json.member?, List.lookup_cons, beq_false_of_ne hother]

/-- Five seconds, and the id 12. -/
theorem scalars_exact_five :
    ParsedExactly (IsDuration "5s")
        ((parseRuleAtDepth 1 (ruleWith "timeout" (.string "5s"))).run {})
        (fun d ↦ ({ id := 1, timeout := some d }, {})) ∧
      ParsedExactly (IsDuration "5s")
        ((parseRuleAtDepth 1 (ruleWith "cacheDuration" (.string "5s"))).run {})
        (fun d ↦ ({ id := 1, cacheDuration := some d }, {})) ∧
      ParsedExactly (IsIntText "12")
        ((parseRuleAtDepth 1 (.object [("id", .string "12")])).run {})
        (fun n ↦ ({ id := n }, {})) ∧
      ParsedExactly (IsIntText "12")
        ((parseWorkflow (.object [("id", .string "12")])).run {})
        (fun n ↦ ({ id := n, rules := [] }, {})) := by
  have hfive : ∃ d, IsDuration "5s" d :=
    ⟨5000, "5".toList, 5, ("s", 1000), by decide, by decide, by decide, by decide, by decide,
      by decide⟩
  have hid : Json.AgreeExcept "id" (.object [("id", .string "12")])
      (.object [("id", .integer 1)]) := by
    intro other hother
    simp [Json.member?, List.lookup_cons, beq_false_of_ne hother]
  obtain ⟨htimeout, -, -, -⟩ := scalars_exact_iff "5s" (ruleWith "timeout" (.string "5s"))
    (ruleWith "timeout" .null) {} {}
  obtain ⟨-, hcache, -, -⟩ := scalars_exact_iff "5s" (ruleWith "cacheDuration" (.string "5s"))
    (ruleWith "cacheDuration" .null) {} {}
  obtain ⟨-, -, hrule, hworkflow⟩ := scalars_exact_iff "12" (.object [("id", .string "12")])
    (.object [("id", .integer 1)]) {} {}
  exact ⟨(htimeout 0 { id := 1 } rfl (agreeExcept_ruleWith _ _ _) rfl).2 hfive,
    (hcache 0 { id := 1 } rfl (agreeExcept_ruleWith _ _ _) rfl).2 hfive,
    (hrule 0 { id := 1 } 1 rfl hid rfl rfl).2 (by decide),
    (hworkflow { id := 1, rules := [] } 1 rfl hid rfl rfl).2 (by decide)⟩

theorem not_isDuration_half (d : Int) : ¬IsDuration "1.5s" d := by
  rintro ⟨number, n, unit, hunit, hs, hnumber, -⟩
  have htake : number = "1.5s".toList.take (4 - unit.1.toList.length) := by
    have hlen : "1.5s".toList.length = (number ++ unit.1.toList).length := congrArg _ hs
    have hsub : 4 - unit.1.toList.length = number.length := by
      rw [List.length_append] at hlen
      exact Nat.sub_eq_of_eq_add hlen
    rw [hsub, hs, List.take_left]
  have hnone : ∀ unit ∈ durationUnits,
      decimalLiteral ("1.5s".toList.take (4 - unit.1.toList.length)) = none := by
    decide
  rw [htake, hnone unit hunit] at hnumber
  cases hnumber

/-- One and a half seconds are read as one, an unknown unit is ignored, a missing number is another
exception, and an id is read up to the letter after it. -/
theorem scalars_not_exact :
    (parseRuleAtDepth 1 (ruleWith "timeout" (.string "1.5s"))).run {} =
        .ok ({ id := 1, timeout := some 1000 }, {}) ∧
      (parseRuleAtDepth 1 (ruleWith "timeout" (.string "5h"))).run {} = .ok ({ id := 1 }, {}) ∧
      (parseRuleAtDepth 1 (ruleWith "timeout" (.string "ms"))).run {} =
        .error (.standard "stoll") ∧
      (parseRuleAtDepth 1 (.object [("id", .string "12a")])).run {} = .ok ({ id := 12 }, {}) ∧
      ∀ out, ¬ParsedExactly (IsDuration "1.5s")
        ((parseRuleAtDepth 1 (ruleWith "timeout" (.string "1.5s"))).run {}) out := by
  have hhalf : (parseRuleAtDepth 1 (ruleWith "timeout" (.string "1.5s"))).run {} =
      .ok ({ id := 1, timeout := some 1000 }, {}) :=
    run_parseRuleAtDepth (j := ruleWith "timeout" (.string "1.5s")) rfl (by decide +kernel) rfl
      rfl
  refine ⟨hhalf, rfl, rfl, rfl, fun out h ↦ ?_⟩
  obtain ⟨message, hrun⟩ := h.rejected not_isDuration_half
  rw [hhalf] at hrun
  cases hrun

end FastRules
