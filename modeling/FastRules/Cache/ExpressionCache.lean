import FastRules.Foundations.EventRun
import FastRules.Foundations.KeyedList
import FastRules.Rule.Basic

/-!
# The expression cache

`LuaExpressionCache` maps expressions to what a function of its caller compiles them to. A full
cache makes room before it calls that function. Where the function throws, the entry that had to go
is gone for nothing, and the cache has changed (`safe_iff`); the results and the bound are right in
any case.
-/

open KeyedList EventRun

namespace FastRules

/-- `LuaExpressionCache`. -/
structure LuaExpressionCache where
  cache : List (String × String) := []
  maxCacheSize : ℕ := 1000
  /-- There is one entry for an expression. -/
  distinct : DistinctKeys cache

namespace LuaExpressionCache

variable {ε : Type}

/-- The empty cache. -/
def ofMaxSize (maxCacheSize : ℕ) : LuaExpressionCache where
  maxCacheSize := maxCacheSize
  distinct := distinctKeys_nil

/-- `cache_.find`. -/
def find (c : LuaExpressionCache) (expression : String) : Option (String × String) :=
  c.cache.find? fun entry ↦ entry.1 = expression

/-- `cache_.erase`. -/
def erase (c : LuaExpressionCache) (expression : String) : LuaExpressionCache where
  cache := eraseKey expression c.cache
  maxCacheSize := c.maxCacheSize
  distinct := c.distinct.sublist (eraseKey_sublist expression c.cache)

/-- `cache_[expression] = compiled`. -/
def store (c : LuaExpressionCache) (expression compiled : String) : LuaExpressionCache where
  cache := (expression, compiled) :: eraseKey expression c.cache
  maxCacheSize := c.maxCacheSize
  distinct := c.distinct.insert expression compiled

/-- `LuaExpressionCache::clear`. -/
def clear (c : LuaExpressionCache) : LuaExpressionCache :=
  ofMaxSize c.maxCacheSize

/-- Make room in a full cache. There is no result where the first entry of an empty one is erased,
which is undefined. -/
def evict (order : HashOrder (String × String)) (c : LuaExpressionCache) :
    Option LuaExpressionCache :=
  if c.maxCacheSize ≤ c.cache.length then
    (order.visit c.cache).head?.map fun entry ↦ c.erase entry.1
  else some c

/-- `LuaExpressionCache::getOrCompile`, with the result or what the function has thrown. -/
def getOrCompile (order : HashOrder (String × String)) (c : LuaExpressionCache)
    (expression : String) (compileFunc : String → Except ε String) :
    Option (Except ε String × LuaExpressionCache) :=
  match c.find expression with
  | some entry => some (.ok entry.2, c)
  | none =>
    (c.evict order).map fun c ↦
      match compileFunc expression with
      | .error e => (.error e, c)
      | .ok compiled => (.ok compiled, c.store expression compiled)

variable {order : HashOrder (String × String)} {c c' : LuaExpressionCache}
  {expression compiled : String} {entry : String × String} {compileFunc : String → Except ε String}

theorem mem_of_find (h : c.find expression = some entry) :
    entry ∈ c.cache ∧ entry.1 = expression :=
  ⟨List.mem_of_find?_eq_some h, by simpa using List.find?_some h⟩

theorem getOrCompile_of_find (h : c.find expression = some entry) :
    c.getOrCompile order expression compileFunc = some (.ok entry.2, c) := by
  rw [getOrCompile, h]

theorem getOrCompile_of_not_find (h : c.find expression = none) :
    c.getOrCompile order expression compileFunc = (c.evict order).map fun c ↦
      match compileFunc expression with
      | .error e => (.error e, c)
      | .ok compiled => (.ok compiled, c.store expression compiled) := by
  rw [getOrCompile, h]

theorem evict_of_lt (h : c.cache.length < c.maxCacheSize) : c.evict order = some c :=
  if_neg (not_le.2 h)

/-- A full cache that has an entry loses one. -/
theorem exists_evict_of_full (order : HashOrder (String × String))
    (h : c.maxCacheSize ≤ c.cache.length) (hne : c.cache ≠ []) :
    ∃ entry ∈ c.cache, c.evict order = some (c.erase entry.1) := by
  have hvisit : order.visit c.cache ≠ [] := fun hnil ↦
    hne ((hnil ▸ (order.perm c.cache).symm).eq_nil)
  obtain ⟨entry, rest, hcons⟩ := List.exists_cons_of_ne_nil hvisit
  refine ⟨entry, (order.perm c.cache).subset (hcons ▸ List.mem_cons_self), ?_⟩
  rw [evict, if_pos h, hcons]
  rfl

theorem evict_of_empty (h : c.maxCacheSize = 0) (hnil : c.cache = []) : c.evict order = none := by
  have hvisit : order.visit [] = [] := (order.perm []).eq_nil
  rw [evict, if_pos (h ▸ Nat.zero_le _), hnil, hvisit]
  rfl

theorem length_store_le (c : LuaExpressionCache) (expression compiled : String) :
    (c.store expression compiled).cache.length ≤ c.cache.length + 1 :=
  Nat.succ_le_succ (eraseKey_sublist expression c.cache).length_le

/-- There is room after it, and nothing was removed if there was room before. -/
theorem exists_evict (order : HashOrder (String × String)) (hle : c.cache.length ≤ c.maxCacheSize)
    (hpos : 0 < c.maxCacheSize) :
    ∃ c', c.evict order = some c' ∧ c'.maxCacheSize = c.maxCacheSize ∧
      c'.cache.length < c.maxCacheSize ∧ (∀ entry ∈ c'.cache, entry ∈ c.cache) ∧
      (c' = c ↔ c.cache.length < c.maxCacheSize) := by
  rcases Nat.lt_or_ge c.cache.length c.maxCacheSize with hlt | hge
  · exact ⟨c, evict_of_lt hlt, rfl, hlt, fun _ h ↦ h, iff_of_true rfl hlt⟩
  · have hne : c.cache ≠ [] := List.ne_nil_of_length_pos (hpos.trans_le hge)
    obtain ⟨entry, hentry, hevict⟩ := exists_evict_of_full order hge hne
    have hlt : (c.erase entry.1).cache.length < c.cache.length := length_eraseKey_lt hentry
    refine ⟨_, hevict, rfl, hlt.trans_le hle, fun x hx ↦ (mem_eraseKey.1 hx).1, ?_⟩
    refine iff_of_false (fun h ↦ ?_) (not_lt.2 hge)
    rw [h] at hlt
    exact lt_irrefl _ hlt

/-! ### Runs -/

/-- A call, with the order in which the map happens to be visited and the caller's function. -/
inductive Call (ε : Type) where
  | getOrCompile (order : HashOrder (String × String)) (expression : String)
      (compileFunc : String → Except ε String)
  | clear

/-- The cache, unless undefined behaviour was reached, and what functions have returned so far for
which expression. -/
structure Run where
  cache : Option LuaExpressionCache
  returned : List (String × String) := []

/-- What the function has returned in a call that has got it as far as that. -/
def returns (c : LuaExpressionCache) (expression : String)
    (compileFunc : String → Except ε String) : List (String × String) :=
  match c.find expression, compileFunc expression with
  | none, .ok compiled => [(expression, compiled)]
  | _, _ => []

/-- One call. -/
def Run.step (r : Run) : Call ε → Run
  | .getOrCompile order expression compileFunc =>
    { cache := r.cache.bind fun c ↦ (c.getOrCompile order expression compileFunc).map Prod.snd
      returned := r.returned ++ r.cache.elim [] fun c ↦ c.returns expression compileFunc }
  | .clear => { r with cache := r.cache.map clear }

/-- The call ends, the cache stays within its bound, the result was returned by a function for the
expression, and where the function throws the cache is as before. -/
def Safe (r : Run) : Call ε → Prop
  | .getOrCompile order expression compileFunc =>
    ∃ c result c', r.cache = some c ∧
      c.getOrCompile order expression compileFunc = some (result, c') ∧
      c'.cache.length ≤ c'.maxCacheSize ∧
      (∀ compiled, result = .ok compiled →
        (expression, compiled) ∈
          (r.step (.getOrCompile order expression compileFunc)).returned) ∧
      ∀ e, result = .error e → compileFunc expression = .error e ∧ c' = c
  | .clear => ∃ c, r.cache = some c ∧ c.clear.cache.length ≤ c.clear.maxCacheSize

/-- The expression is in the cache, or there is room for it, or its function returns and there may
be entries. -/
def Fits (r : Run) : Call ε → Prop
  | .getOrCompile _ expression compileFunc =>
    ∀ c, r.cache = some c →
      (c.find expression).isSome ∨ c.cache.length < c.maxCacheSize ∨
        0 < c.maxCacheSize ∧ ∃ compiled, compileFunc expression = .ok compiled
  | .clear => True

/-- Within its bound, and with nothing in it that no function has returned. -/
structure Sound (r : Run) : Prop where
  bounded : ∃ c, r.cache = some c ∧ c.cache.length ≤ c.maxCacheSize
  returned : ∀ c, r.cache = some c → ∀ entry ∈ c.cache, entry ∈ r.returned

theorem sound_start (maxCacheSize : ℕ) : Sound { cache := some (ofMaxSize maxCacheSize) } where
  bounded := ⟨_, rfl, Nat.zero_le _⟩
  returned := by
    rintro c hc entry hentry
    obtain rfl := Option.some.inj hc
    cases hentry

variable {r : Run}

/-- **A call is safe if it fits.** -/
theorem safe_iff (h : Sound r) (call : Call ε) : Safe r call ↔ Fits r call := by
  obtain ⟨c, hc, hle⟩ := h.bounded
  cases call with
  | clear => exact iff_of_true ⟨c, hc, Nat.zero_le _⟩ trivial
  | getOrCompile order expression compileFunc =>
    simp only [Safe, Fits, hc, Option.some.injEq, forall_eq', exists_eq_left', exists_and_left]
    rcases hfind : c.find expression with - | entry
    · rw [getOrCompile_of_not_find hfind]
      rcases Nat.eq_zero_or_pos c.maxCacheSize with hzero | hpos
      · -- the first entry of an empty map is erased
        have hnil : c.cache = [] := List.length_eq_zero_iff.1 (Nat.le_zero.1 (hzero ▸ hle))
        simp [evict_of_empty hzero hnil, hzero]
      · obtain ⟨c', hevict, hmax, hlt, -, hsame⟩ := exists_evict order hle hpos
        rw [hevict]
        rcases hcompile : compileFunc expression with e | compiled
        · simp [hsame, hmax, hlt.le]
        · have hstore : (c'.store expression compiled).cache.length ≤
              (c'.store expression compiled).maxCacheSize :=
            ((length_store_le c' expression compiled).trans hlt).trans hmax.ge
          simpa [hpos, Run.step, hc, returns, hfind, hcompile] using hstore
    · have hentry := h.returned c hc entry (mem_of_find hfind).1
      obtain rfl := (mem_of_find hfind).2
      simp [getOrCompile_of_find hfind, hle, Run.step, hentry]

/-- What is in the cache after a call was in it before, or was returned by the function. -/
theorem mem_of_getOrCompile {result : Except ε String}
    (h : c.getOrCompile order expression compileFunc = some (result, c'))
    (hentry : entry ∈ c'.cache) :
    entry ∈ c.cache ∨ entry ∈ c.returns expression compileFunc := by
  rcases hfind : c.find expression with - | found
  · rw [getOrCompile_of_not_find hfind] at h
    obtain ⟨c₁, hevict, h⟩ := Option.map_eq_some_iff.1 h
    have hsub : ∀ x ∈ c₁.cache, x ∈ c.cache := by
      rw [evict] at hevict
      split_ifs at hevict
      · obtain ⟨first, -, rfl⟩ := Option.map_eq_some_iff.1 hevict
        exact fun x hx ↦ (mem_eraseKey.1 hx).1
      · obtain rfl := Option.some.inj hevict
        exact fun _ hx ↦ hx
    rcases hcompile : compileFunc expression with e | compiled <;> rw [hcompile] at h
    · obtain ⟨-, rfl⟩ := Prod.mk.inj h
      exact .inl (hsub entry hentry)
    · obtain ⟨-, rfl⟩ := Prod.mk.inj h
      rcases List.mem_cons.1 hentry with rfl | hentry
      · exact .inr (by simp [returns, hfind, hcompile])
      · exact .inl (hsub entry (mem_eraseKey.1 hentry).1)
  · rw [getOrCompile_of_find hfind] at h
    obtain ⟨-, rfl⟩ := Prod.mk.inj (Option.some.inj h)
    exact .inl hentry

theorem Sound.step {call : Call ε} (h : Sound r) (hsafe : Safe r call) : Sound (r.step call) := by
  cases call with
  | clear =>
    obtain ⟨c, hc, hle⟩ := hsafe
    refine ⟨⟨c.clear, by rw [Run.step, hc]; rfl, hle⟩, fun c' hc' entry hentry ↦ ?_⟩
    rw [Run.step, hc] at hc'
    obtain rfl := Option.some.inj hc'
    cases hentry
  | getOrCompile order expression compileFunc =>
    obtain ⟨c, result, c', hc, hcall, hle, -⟩ := hsafe
    have hstep : r.step (.getOrCompile order expression compileFunc) =
        { cache := some c', returned := r.returned ++ c.returns expression compileFunc } := by
      simp [Run.step, hc, hcall]
    rw [hstep]
    refine ⟨⟨c', rfl, hle⟩, fun c'' hc'' entry hentry ↦ ?_⟩
    obtain rfl := Option.some.inj hc''
    refine List.mem_append.2 ((mem_of_getOrCompile hcall hentry).imp_left fun hmem ↦ ?_)
    exact h.returned c hc entry hmem

/-- **The cache is safe in a run if every call fits**, whatever its maximum is and whatever the
functions do. -/
theorem run_safe_iff (maxCacheSize : ℕ) (calls : List (Call ε)) :
    Along Run.step Safe { cache := some (ofMaxSize maxCacheSize) } calls ↔
      Along Run.step Fits { cache := some (ofMaxSize maxCacheSize) } calls :=
  along_iff (along_true _ _ _) (sound_start maxCacheSize) (fun _ call h _ ↦ safe_iff h call)
    fun _ call h _ hfits ↦ h.step ((safe_iff h call).2 hfits)

/-! ### A full cache -/

theorem find_store {e : String} :
    (c.store expression compiled).find e = none ↔ c.find e = none ∧ e ≠ expression := by
  simp only [find, List.find?_eq_none, decide_eq_true_iff, store, List.mem_cons, forall_eq_or_imp,
    KeyedList.mem_eraseKey]
  constructor
  · rintro ⟨hne, h⟩
    refine ⟨fun x hx hxe ↦ ?_, fun he ↦ hne he.symm⟩
    by_cases hkey : x.1 = expression
    · exact hne (hkey ▸ hxe)
    · exact h x ⟨hx, hkey⟩ hxe
  · rintro ⟨h, hne⟩
    exact ⟨fun he ↦ hne he.symm, fun x hx ↦ h x hx.1⟩

theorem length_store (compiled : String) (h : c.find expression = none) :
    (c.store expression compiled).cache.length = c.cache.length + 1 := by
  have hkeep : eraseKey expression c.cache = c.cache :=
    List.filter_eq_self.2 fun x hx ↦ by simpa using List.find?_eq_none.1 h x hx
  have hstored : (c.store expression compiled).cache = (expression, compiled) :: c.cache :=
    congrArg _ hkeep
  rw [hstored, List.length_cons]

/-- A call whose function returns. -/
def compiles (expression : String) : Call Unit :=
  .getOrCompile (.insertion _) expression Except.ok

theorem step_compiles (hc : r.cache = some c) (hfind : c.find expression = none)
    (hlt : c.cache.length < c.maxCacheSize) :
    (r.step (compiles expression)).cache = some (c.store expression expression) := by
  simp [compiles, Run.step, hc, getOrCompile_of_not_find hfind, evict_of_lt hlt]

/-- Calls for new expressions fill the cache. -/
theorem foldl_compiles {expressions : List String} (hc : r.cache = some c)
    (hnodup : expressions.Nodup) (hfresh : ∀ e ∈ expressions, c.find e = none)
    (hle : c.cache.length + expressions.length ≤ c.maxCacheSize) :
    ∃ c', ((expressions.map compiles).foldl Run.step r).cache = some c' ∧
      c'.maxCacheSize = c.maxCacheSize ∧
      c'.cache.length = c.cache.length + expressions.length ∧
      ∀ e, c.find e = none → e ∉ expressions → c'.find e = none := by
  induction expressions generalizing r c with
  | nil => exact ⟨c, hc, rfl, rfl, fun _ h _ ↦ h⟩
  | cons x expressions ih =>
    have hx := hfresh x List.mem_cons_self
    have hlength := length_store x hx
    obtain ⟨hnotin, hnodup⟩ := List.nodup_cons.1 hnodup
    rw [List.length_cons] at hle
    obtain ⟨c', hc', hmax, hlength', hfind⟩ := ih (c := c.store x x)
      (step_compiles hc hx (by omega)) hnodup
      (fun e he ↦ find_store.2
        ⟨hfresh e (List.mem_cons_of_mem x he), ne_of_mem_of_not_mem he hnotin⟩)
      (by rw [hlength, Nat.add_assoc, Nat.add_comm 1]; exact hle)
    refine ⟨c', hc', hmax, by rw [hlength', hlength, List.length_cons]; omega, fun e he hmem ↦ ?_⟩
    obtain ⟨hne, hmem⟩ := not_or.1 (List.mem_cons.not.1 hmem)
    exact hfind e (find_store.2 ⟨he, hne⟩) hmem

/-- Distinct expressions. -/
def expressions (n : ℕ) : List String :=
  (List.range n).map fun i ↦ String.ofList (List.replicate i 'x')

theorem length_expressions (n : ℕ) : (expressions n).length = n := by
  rw [expressions, List.length_map, List.length_range]

theorem nodup_expressions (n : ℕ) : (expressions n).Nodup := by
  refine List.nodup_range.map fun i j h ↦ ?_
  have hlength := congrArg (fun s ↦ s.toList.length) h
  simpa using hlength

theorem not_mem_expressions (n : ℕ) : "?" ∉ expressions n := by
  intro h
  obtain ⟨i, -, hi⟩ := List.mem_map.1 h
  have hmem : '?' ∈ List.replicate i 'x' := by
    rw [← String.toList_ofList (l := List.replicate i 'x'), hi]
    decide
  exact absurd (List.eq_of_mem_replicate hmem) (by decide)

/-- As many calls as there is room for, and one whose function throws. -/
def overfilling (n : ℕ) : List (Call Unit) :=
  (expressions n).map compiles ++ [.getOrCompile (.insertion _) "?" fun _ ↦ .error ()]

/-- In a full cache, an expression that cannot be compiled costs an entry. -/
theorem overfilling_not_safe (n : ℕ) :
    ¬Along Run.step Safe { cache := some (ofMaxSize n) } (overfilling n) := by
  intro h
  obtain ⟨hfilling, hlast, -⟩ := along_append.1 h
  have hsound := hfilling.invariant (sound_start n) fun _ _ hsound hsafe ↦ hsound.step hsafe
  have hroom :
      (ofMaxSize n).cache.length + (expressions n).length ≤ (ofMaxSize n).maxCacheSize := by
    rw [length_expressions]
    exact (Nat.zero_add n).le
  obtain ⟨c, hc, hmax, hlength, hfind⟩ := foldl_compiles (r := { cache := some (ofMaxSize n) }) rfl
    (nodup_expressions n) (fun _ _ ↦ rfl) hroom
  have hmiss : c.find "?" = none := hfind "?" rfl (not_mem_expressions n)
  have hfull : c.cache.length = c.maxCacheSize := by
    rw [hlength, hmax, length_expressions]
    exact Nat.zero_add n
  rcases (safe_iff hsound _).1 hlast c hc with hhit | hlt | ⟨-, compiled, hcompiled⟩
  · rw [hmiss] at hhit
    cases hhit
  · exact absurd hfull hlt.ne
  · cases hcompiled

theorem thousand_not_safe :
    ¬Along Run.step Safe { cache := some (ofMaxSize 1000) } (overfilling 1000) :=
  overfilling_not_safe 1000

end LuaExpressionCache

end FastRules
