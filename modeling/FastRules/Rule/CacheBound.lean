import FastRules.Foundations.KeyedList
import FastRules.Rule.CacheKey
import Mathlib.Data.List.Basic

/-!
# What a result cache holds

The cache of a rule through requests of executions and invalidations in any order. It holds at most
`kMaxCacheEntries` entries, all of the current generation, and storing a result drops a live entry
only where every entry is live and none is to spare, and then the one that expires first
(`cache_bounded_and_sound`).
-/

namespace FastRules

open KeyedList

/-! ### Invalidation -/

/-- The locked body of `Rule::invalidateCache`. -/
def RuleCache.invalidate (c : RuleCache) : RuleCache where
  entries := []
  generation := c.generation + 1

/-- `Rule::invalidateCache`, which returns the new generation. -/
def World.invalidateCache {E : Type} (ptr : RulePtr) (w : World E) : Int × World E :=
  ((w.caches ptr).invalidate.generation, w.updateCache ptr RuleCache.invalidate)

/-- A request of an execution, by whichever thread, or an invalidation. -/
inductive CacheCall
  | request (op : Op)
  | invalidateCache (ptr : RulePtr)

namespace Environment

variable {E : Type} (env : Environment E)

/-- What a call leaves behind. -/
def afterCall (w : World E) : CacheCall → World E
  | .request op => (env.handle op w).2
  | .invalidateCache ptr => (w.invalidateCache ptr).2

/-- The world after calls. -/
def afterCalls (calls : List CacheCall) (w : World E) : World E :=
  calls.foldl env.afterCall w

end Environment

/-! ### Making room -/

/-- The entry that is kept while the others are looked at expires no later than any of them. -/
theorem foldl_oldest (entries : List (String × CacheEntry)) (o : String × CacheEntry) :
    let oldest := entries.foldl (fun o e ↦ if e.2.expiresAt < o.2.expiresAt then e else o) o
    oldest ∈ o :: entries ∧ ∀ x ∈ o :: entries, oldest.2.expiresAt ≤ x.2.expiresAt := by
  induction entries generalizing o with
  | nil => exact ⟨List.mem_singleton_self o, fun x hx ↦ List.mem_singleton.1 hx ▸ Int.le_refl _⟩
  | cons e entries ih =>
    obtain ⟨hmem, hle⟩ := ih (if e.2.expiresAt < o.2.expiresAt then e else o)
    rw [List.foldl_cons]
    by_cases hearlier : e.2.expiresAt < o.2.expiresAt
    · rw [if_pos hearlier] at hmem hle ⊢
      refine ⟨List.mem_cons_of_mem o hmem, List.forall_mem_cons.2 ⟨?_, hle⟩⟩
      exact Int.le_trans (hle e List.mem_cons_self) (Int.le_of_lt hearlier)
    · rw [if_neg hearlier] at hmem hle ⊢
      obtain ⟨ho, hrest⟩ := List.forall_mem_cons.1 hle
      refine ⟨?_, List.forall_mem_cons.2 ⟨ho, List.forall_mem_cons.2 ⟨?_, hrest⟩⟩⟩
      · rcases List.mem_cons.1 hmem with hmem | hmem
        · exact List.mem_cons.2 (.inl hmem)
        · exact List.mem_cons_of_mem o (List.mem_cons_of_mem e hmem)
      · exact Int.le_trans ho (Int.not_lt.1 hearlier)

/-- The entry that expires first is one of the entries, and none expires before it. -/
theorem exists_oldestEntry (order : HashOrder (String × CacheEntry))
    {entries : List (String × CacheEntry)} (h : entries ≠ []) :
    ∃ e ∈ entries, oldestEntry (order.visit entries) = some e ∧
      ∀ x ∈ entries, e.2.expiresAt ≤ x.2.expiresAt := by
  have hperm := order.perm entries
  rcases hvisit : order.visit entries with - | ⟨o, rest⟩
  · rw [hvisit] at hperm
    exact absurd hperm.nil_eq.symm h
  · rw [hvisit] at hperm
    obtain ⟨hmem, hle⟩ := foldl_oldest rest o
    exact ⟨_, hperm.mem_iff.1 hmem, rfl, fun x hx ↦ hle x (hperm.mem_iff.2 hx)⟩

namespace RuleCache

/-- The keys are distinct, there are not too many of them, and no entry is from another
generation. -/
structure WellFormed (c : RuleCache) : Prop where
  distinct : DistinctKeys c.entries
  bounded : c.entries.length ≤ kMaxCacheEntries
  current : ∀ e ∈ c.entries, e.2.generation = c.generation

section MakeRoom

variable {c : RuleCache} {now : Time} {key : String} (order : HashOrder (String × CacheEntry))

/-- The three ways of making room: there is some already, something has expired, or everything is
live and the entry that expires first has to go. -/
theorem makeRoom_cases (h : c.WellFormed) :
    ((c.entries.length < kMaxCacheEntries ∨ c.entries.lookup key ≠ none) ∧
        c.makeRoom order now key = c) ∨
      (∃ live, c.makeRoom order now key = { c with entries := live } ∧
        live = c.entries.filter (fun e ↦ now < e.2.expiresAt) ∧ live.length < kMaxCacheEntries) ∨
      c.entries.lookup key = none ∧ c.entries.length = kMaxCacheEntries ∧
        ∃ e ∈ c.entries, c.makeRoom order now key = c.erase e.1 ∧
          ∀ x ∈ c.entries, now < x.2.expiresAt ∧ e.2.expiresAt ≤ x.2.expiresAt := by
  by_cases hfull : kMaxCacheEntries ≤ c.entries.length ∧ c.entries.lookup key = none
  · rw [makeRoom, if_pos hfull]
    dsimp only
    split_ifs with hstill
    · -- nothing was dropped, so everything is live
      have hlength : c.entries.length = kMaxCacheEntries := le_antisymm h.bounded hfull.1
      have hlive : ∀ x ∈ c.entries, now < x.2.expiresAt := by
        have := List.length_filter_eq_length_iff.1
          (le_antisymm (List.length_filter_le _ _) (hlength.le.trans hstill))
        exact fun x hx ↦ of_decide_eq_true (this x hx)
      rw [List.filter_eq_self.2 fun x hx ↦ decide_eq_true (hlive x hx)]
      have hne : c.entries ≠ [] := by
        intro hnil
        rw [hnil] at hlength
        exact absurd hlength (by decide)
      obtain ⟨e, he, holdest, hleast⟩ := exists_oldestEntry order hne
      rw [holdest]
      exact .inr (.inr ⟨hfull.2, hlength, e, he, rfl, fun x hx ↦ ⟨hlive x hx, hleast x hx⟩⟩)
    · exact .inr (.inl ⟨_, rfl, rfl, not_le.1 hstill⟩)
  · rw [makeRoom, if_neg hfull]
    refine .inl ⟨?_, rfl⟩
    rw [not_and_or, not_le] at hfull
    exact hfull

/-- After that there is a place under the key. -/
theorem length_erase_makeRoom_lt (h : c.WellFormed) :
    ((c.makeRoom order now key).erase key).entries.length < kMaxCacheEntries := by
  have hshorter (c : RuleCache) : (c.erase key).entries.length ≤ c.entries.length :=
    List.length_filter_le _ _
  rcases makeRoom_cases order h with ⟨hroom | hfound, heq⟩ | ⟨live, heq, -, hlt⟩ |
    ⟨-, hlength, e, he, heq, -⟩
  · rw [heq]
    exact (hshorter c).trans_lt hroom
  · obtain ⟨entry, hentry⟩ := Option.ne_none_iff_exists'.1 hfound
    obtain ⟨before, later, hsplit, -⟩ := List.lookup_eq_some_iff.1 hentry
    have hmem : (key, entry) ∈ c.entries := by
      rw [hsplit]
      exact List.mem_append_right _ List.mem_cons_self
    rw [heq]
    exact (length_eraseKey_lt hmem).trans_le h.bounded
  · rw [heq]
    exact (hshorter _).trans_lt hlt
  · rw [heq, ← hlength]
    exact (hshorter _).trans_lt (length_eraseKey_lt he)

theorem makeRoom_sublist (now : Time) (key : String) (h : c.WellFormed) :
    List.Sublist (c.makeRoom order now key).entries c.entries ∧
      (c.makeRoom order now key).generation = c.generation := by
  rcases makeRoom_cases order h with ⟨-, heq⟩ | ⟨live, heq, rfl, -⟩ | ⟨-, -, e, -, heq, -⟩ <;>
    rw [heq]
  · exact ⟨List.Sublist.refl _, rfl⟩
  · exact ⟨List.filter_sublist, rfl⟩
  · exact ⟨eraseKey_sublist _ _, rfl⟩

end MakeRoom

/-! ### Every call keeps a cache well-formed -/

theorem WellFormed.empty (generation : Int) : WellFormed { generation } where
  distinct := distinctKeys_nil
  bounded := Nat.zero_le _
  current _ he := absurd he List.not_mem_nil

theorem WellFormed.erase {c : RuleCache} (h : c.WellFormed) (key : String) :
    (c.erase key).WellFormed where
  distinct := h.distinct.sublist (eraseKey_sublist key c.entries)
  bounded := (List.length_filter_le _ _).trans h.bounded
  current e he := h.current e (c.erase_subset key he)

theorem WellFormed.store {c : RuleCache} (h : c.WellFormed)
    (order : HashOrder (String × CacheEntry))
    (now : Time) (key : String) (result : RuleResult) (expiresAt : Time) :
    ((c.makeRoom order now key).insert key result expiresAt).WellFormed := by
  obtain ⟨hsublist, hgeneration⟩ := makeRoom_sublist order now key h
  refine ⟨(h.distinct.sublist hsublist).insert key _, length_erase_makeRoom_lt order h,
    fun e he ↦ ?_⟩
  rcases mem_insert he with rfl | hold
  · rfl
  · exact (h.current e (hsublist.subset hold)).trans hgeneration.symm

end RuleCache

namespace Environment

variable {E : Type} {env : Environment E} {w : World E}

/-- All caches are well-formed. -/
def CachesWellFormed (w : World E) : Prop :=
  ∀ ptr, (w.caches ptr).WellFormed

theorem CachesWellFormed.updateCache (h : CachesWellFormed w) {ptr : RulePtr}
    {f : RuleCache → RuleCache}
    (hf : (f (w.caches ptr)).WellFormed) : CachesWellFormed (w.updateCache ptr f) := by
  intro ptr'
  rcases eq_or_ne ptr' ptr with rfl | hne
  · rwa [updateCache_self]
  · rw [updateCache_of_ne hne]
    exact h ptr'

theorem CachesWellFormed.lookupCache (h : CachesWellFormed w) (rule : RuleFields)
    (parameters : List RuleParameter) : CachesWellFormed (env.lookupCache rule parameters w).2 := by
  rcases env.lookupCache_cases rule parameters w with hnone | ⟨entry, hentry, hlive | hstale⟩
  · rwa [env.lookupCache_missing hnone]
  · rw [env.lookupCache_live hentry hlive]
    exact h
  · rw [env.lookupCache_stale hentry hstale]
    have hlater : CachesWellFormed { w with env := (env.now w.env).2 } := h
    exact hlater.updateCache (f := fun c ↦ c.erase _) ((h rule.ptr).erase _)

theorem CachesWellFormed.handle (h : CachesWellFormed w) (op : Op) :
    CachesWellFormed (env.handle op w).2 := by
  cases op with
  | lookupCache rule parameters => exact h.lookupCache rule parameters
  | storeInCache rule parameters result =>
    have hlater : CachesWellFormed { w with env := (env.now w.env).2 } := h
    exact hlater.updateCache (f := fun c ↦ (c.makeRoom _ _ _).insert _ _ _)
      ((h rule.ptr).store _ _ _ _ _)
  | _ => exact h

theorem CachesWellFormed.afterCall (h : CachesWellFormed w) (call : CacheCall) :
    CachesWellFormed (env.afterCall w call) := by
  cases call with
  | request op => exact h.handle op
  | invalidateCache ptr => exact h.updateCache (RuleCache.WellFormed.empty _)

theorem CachesWellFormed.afterCalls (h : CachesWellFormed w) (calls : List CacheCall) :
    CachesWellFormed (env.afterCalls calls w) := by
  induction calls generalizing w with
  | nil => exact h
  | cons call calls ih => exact ih (h.afterCall call)

end Environment

/-! ### What storing does to the others -/

/-- What storing under a key does at the instant: the entry is there, nothing else is dropped for a
key that was there, and a live entry is dropped for a new one only if all are live and none is to
spare; then it is one, and none expires before it. -/
structure StoresSoundly (now : Time) (key : String) (entry : CacheEntry) (c c' : RuleCache) :
    Prop where
  present : c'.entries.lookup key = some entry
  existing : c.entries.lookup key ≠ none → ∀ e ∈ c.entries, e.1 ≠ key → e ∈ c'.entries
  new : c.entries.lookup key = none →
    ∀ e ∈ c.entries, e.2.isLive now c.generation = true → e ∉ c'.entries →
      c.entries.length = kMaxCacheEntries ∧
        ∀ x ∈ c.entries, x.2.isLive now c.generation = true ∧ e.2.expiresAt ≤ x.2.expiresAt ∧
          (x ∉ c'.entries ↔ x = e)

namespace RuleCache

theorem isLive_iff {c : RuleCache} (h : c.WellFormed) {e : String × CacheEntry} (he : e ∈ c.entries)
    (now : Time) : e.2.isLive now c.generation = true ↔ now < e.2.expiresAt := by
  rw [CacheEntry.isLive, Bool.and_eq_true, decide_eq_true_iff, decide_eq_true_iff,
    and_iff_left (h.current e he)]

/-- Inserting touches nothing under another key. -/
theorem mem_insert_of_ne (c : RuleCache) {key : String} (result : RuleResult) (expiresAt : Time)
    {e : String × CacheEntry} (hkey : e.1 ≠ key) :
    e ∈ (c.insert key result expiresAt).entries ↔ e ∈ c.entries := by
  refine ⟨fun he ↦ (mem_insert he).resolve_left ?_, fun he ↦ ?_⟩
  · rintro rfl
    exact hkey rfl
  · exact List.mem_cons_of_mem _ (mem_eraseKey.2 ⟨he, hkey⟩)

theorem ne_of_lookup_eq_none {c : RuleCache} {key : String} (hnew : c.entries.lookup key = none)
    {e : String × CacheEntry} (he : e ∈ c.entries) : e.1 ≠ key := by
  rintro rfl
  simpa using List.lookup_eq_none_iff.1 hnew e he

theorem WellFormed.storesSoundly {c : RuleCache} (h : c.WellFormed)
    (order : HashOrder (String × CacheEntry)) (now : Time) (key : String) (result : RuleResult)
    (expiresAt : Time) :
    StoresSoundly now key ⟨result, expiresAt, c.generation⟩ c
      ((c.makeRoom order now key).insert key result expiresAt) := by
  refine ⟨?_, fun hfound e he hkey ↦ ?_, fun hnew e he hlive hdropped ↦ ?_⟩
  · rw [← (makeRoom_sublist order now key h).2]
    exact List.lookup_cons_self
  · rw [makeRoom, if_neg fun hfull ↦ hfound hfull.2]
    exact (mem_insert_of_ne c result expiresAt hkey).2 he
  · have hold {x : String × CacheEntry} (hx : x ∈ c.entries) :=
      mem_insert_of_ne (c.makeRoom order now key) result expiresAt
        (ne_of_lookup_eq_none hnew hx)
    rw [hold he] at hdropped
    -- only the third way of making room drops a live entry
    rcases makeRoom_cases order h with ⟨-, heq⟩ | ⟨live, heq, rfl, -⟩ |
      ⟨-, hlength, oldest, holdest, heq, hall⟩
    · rw [heq] at hdropped
      exact absurd he hdropped
    · refine absurd ?_ hdropped
      rw [heq]
      exact List.mem_filter.2 ⟨he, decide_eq_true ((isLive_iff h he now).1 hlive)⟩
    · have hkept {x : String × CacheEntry} (hx : x ∈ c.entries) :
          x ∈ (c.makeRoom order now key).entries ↔ x ≠ oldest := by
        rw [heq]
        exact h.distinct.mem_eraseKey holdest hx
      obtain rfl : e = oldest := not_not.1 fun hne ↦ hdropped ((hkept he).2 hne)
      refine ⟨hlength, fun x hx ↦ ⟨(isLive_iff h hx now).2 (hall x hx).1, (hall x hx).2, ?_⟩⟩
      rw [hold hx, hkept hx, not_not]

end RuleCache

/-- **The caches are bounded and evict soundly.** After any requests and invalidations from empty
caches on, every cache holds at most `kMaxCacheEntries` entries, and whatever is stored next is
stored soundly. -/
theorem cache_bounded_and_sound {E : Type} (env : Environment E) (e : E) (calls : List CacheCall) :
    let w := env.afterCalls calls { env := e }
    (∀ ptr, (w.caches ptr).entries.length ≤ kMaxCacheEntries ∧
      DistinctKeys (w.caches ptr).entries) ∧
      ∀ (rule : RuleFields) (parameters : List RuleParameter) (result : RuleResult),
        StoresSoundly (env.now w.env).1 (buildCacheKey rule.id parameters)
          ⟨result, (env.now w.env).1 + rule.cacheDuration.getD 0 * 1000000,
            (w.caches rule.ptr).generation⟩
          (w.caches rule.ptr) ((env.handle (.storeInCache rule parameters result) w).2.caches
            rule.ptr) := by
  intro w
  have hempty : Environment.CachesWellFormed { env := e } := fun _ ↦ RuleCache.WellFormed.empty 0
  have h : Environment.CachesWellFormed w := hempty.afterCalls calls
  refine ⟨fun ptr ↦ ⟨(h ptr).bounded, (h ptr).distinct⟩, fun rule parameters result ↦ ?_⟩
  show StoresSoundly _ _ _ _ ((env.storeInCache rule parameters result w).caches rule.ptr)
  rw [Environment.storeInCache, Environment.updateCache_self]
  exact (h rule.ptr).storesSoundly _ _ _ _ _

end FastRules
