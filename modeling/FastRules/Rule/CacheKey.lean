import FastRules.Rule.World
import Std.Data.String.ToInt

/-!
# Which parameter lists share a cache key

`Rule::buildCacheKey` writes `name=text;` for each parameter, with nothing escaped and no mark of
the type. Cut at every `;`, the keys of two parameter lists are the same exactly if the lists of
pieces are, whichever parameters the pieces come from.

What a cache lookup answers was stored under the same key, in every sequence of requests. So a
result is never served for other parameters if the pieces tell the lists apart; where they do not,
it can be.
-/

/-! ### Lists written with a terminator -/

section Terminated

variable {α : Type} [DecidableEq α] {a : α}

/-- Splitting at the terminator takes every item apart where it contains the terminator itself. -/
theorem splitOn_flatMap_terminated (items : List (List α)) :
    (items.flatMap (· ++ [a])).splitOn a = items.flatMap (·.splitOn a) ++ [[]] := by
  induction items with
  | nil => rfl
  | cons item items ih =>
    rw [List.flatMap_cons, List.flatMap_cons, List.append_assoc, List.append_assoc,
      List.singleton_append, List.splitOn_append_cons_self, ih]

/-- Two lists of items are written alike exactly if they split into the same pieces. -/
theorem flatMap_terminated_inj {xs ys : List (List α)} :
    xs.flatMap (· ++ [a]) = ys.flatMap (· ++ [a]) ↔
      xs.flatMap (·.splitOn a) = ys.flatMap (·.splitOn a) := by
  constructor
  · intro h
    have hsplit := congrArg (List.splitOn a) h
    rw [splitOn_flatMap_terminated, splitOn_flatMap_terminated] at hsplit
    exact List.append_cancel_right hsplit
  · intro h
    have hsplit : (xs.flatMap (· ++ [a])).splitOn a = (ys.flatMap (· ++ [a])).splitOn a := by
      rw [splitOn_flatMap_terminated, splitOn_flatMap_terminated, h]
    calc xs.flatMap (· ++ [a])
        = [a].intercalate ((xs.flatMap (· ++ [a])).splitOn a) := (List.intercalate_splitOn a).symm
      _ = [a].intercalate ((ys.flatMap (· ++ [a])).splitOn a) := by rw [hsplit]
      _ = ys.flatMap (· ++ [a]) := List.intercalate_splitOn a

/-- Items without the terminator are their own pieces. -/
theorem flatMap_splitOn_of_notMem {items : List (List α)} (h : ∀ item ∈ items, a ∉ item) :
    items.flatMap (·.splitOn a) = items := by
  induction items with
  | nil => rfl
  | cons item items ih =>
    rw [List.flatMap_cons, List.splitOn_eq_singleton (h item List.mem_cons_self),
      ih fun other hother ↦ h other (List.mem_cons_of_mem item hother)]
    rfl

/-- The first separator tells where the front part ends. -/
theorem append_cons_inj_of_notMem_left {xs xs' ys ys' : List α} (h : a ∉ xs) (h' : a ∉ xs') :
    xs ++ a :: ys = xs' ++ a :: ys' ↔ xs = xs' ∧ ys = ys' := by
  refine ⟨fun heq ↦ ?_, by rintro ⟨rfl, rfl⟩; rfl⟩
  have hsplit := congrArg (List.splitOn a) heq
  rw [List.splitOn_append_cons_self_of_not_mem h,
    List.splitOn_append_cons_self_of_not_mem h'] at hsplit
  obtain rfl : xs = xs' := (List.cons.inj hsplit).1
  exact ⟨rfl, (List.cons.inj (List.append_cancel_left heq)).2⟩

end Terminated

namespace FastRules

/-! ### Keys -/

/-- The parameter lists have the same length, and the same names and values, types included. -/
def SameArguments (ps qs : List RuleParameter) : Prop :=
  ps.map (fun p ↦ (p.name, p.value)) = qs.map fun q ↦ (q.name, q.value)

instance (ps qs : List RuleParameter) : Decidable (SameArguments ps qs) :=
  inferInstanceAs (Decidable (_ = _))

namespace RuleParameter

/-- What a key says of a parameter, without the terminator. -/
def assignment (p : RuleParameter) : List Char :=
  p.name.toList ++ '=' :: (valueText p).toList

/-- The pieces a parameter falls into when its text is cut at every `;`. -/
def pieces (p : RuleParameter) : List (List Char) :=
  p.assignment.splitOn ';'

/-- No delimiter occurs in a place where it could be mistaken for one. -/
def IsPlain (p : RuleParameter) : Prop :=
  '=' ∉ p.name.toList ∧ ';' ∉ p.name.toList ∧ ';' ∉ (valueText p).toList

theorem toList_cacheKeyOf (p : RuleParameter) : (cacheKeyOf p).toList = p.assignment ++ [';'] := by
  simp [cacheKeyOf, assignment]

theorem IsPlain.notMem_assignment {p : RuleParameter} (h : p.IsPlain) : ';' ∉ p.assignment := by
  obtain ⟨-, hname, htext⟩ := h
  simp [assignment, hname, htext]

theorem IsPlain.assignment_inj {p q : RuleParameter} (hp : p.IsPlain) (hq : q.IsPlain)
    (h : p.assignment = q.assignment) : p.name = q.name ∧ valueText p = valueText q := by
  obtain ⟨hname, htext⟩ := (append_cons_inj_of_notMem_left hp.1 hq.1).1 h
  exact ⟨String.toList_inj.1 hname, String.toList_inj.1 htext⟩

end RuleParameter

theorem toList_join_cacheKeyOf (ps : List RuleParameter) :
    (String.join (ps.map cacheKeyOf)).toList =
      (ps.map RuleParameter.assignment).flatMap (· ++ [';']) := by
  rw [String.toList_join, List.flatMap_map, List.flatMap_map]
  exact List.flatMap_congr fun p _ ↦ p.toList_cacheKeyOf

/-- The digits and the sign of an id are not the bar behind it. -/
theorem bar_notMem_toString (id : Id) : '|' ∉ (toString id).toList := by
  have hdigits (n : ℕ) : '|' ∉ n.repr.toList := by
    rw [Nat.toList_repr]
    exact fun h ↦ absurd (Nat.isDigit_of_mem_toDigits (by decide) (by decide) h) (by decide)
  rw [Int.toString_eq_repr, Int.repr_eq_if]
  split_ifs
  · exact hdigits _
  · simpa using hdigits _

/-- Keys are equal exactly if the ids are and the parameters fall into the same pieces. -/
theorem buildCacheKey_eq_iff {id id' : Id} {ps qs : List RuleParameter} :
    buildCacheKey id ps = buildCacheKey id' qs ↔
      id = id' ∧ ps.flatMap RuleParameter.pieces = qs.flatMap RuleParameter.pieces := by
  have hkey (i : Id) (l : List RuleParameter) : (buildCacheKey i l).toList =
      (toString i).toList ++ '|' :: (l.map RuleParameter.assignment).flatMap (· ++ [';']) := by
    rw [← toList_join_cacheKeyOf]
    simp [buildCacheKey]
  have hid : (toString id).toList = (toString id').toList ↔ id = id' := by
    rw [String.toList_inj, Int.toString_eq_repr, Int.toString_eq_repr, Int.repr_inj]
  rw [← String.toList_inj, hkey, hkey,
    append_cons_inj_of_notMem_left (bar_notMem_toString id) (bar_notMem_toString id'), hid,
    flatMap_terminated_inj, List.flatMap_map, List.flatMap_map]
  rfl

/-- Lists that agree under `f` agree under whatever `f` determines on their items. -/
theorem map_eq_map_of_determined {α β γ : Type} {f : α → β} {g : α → γ} :
    ∀ {xs ys : List α}, (∀ x ∈ xs, ∀ y ∈ ys, f x = f y → g x = g y) → xs.map f = ys.map f →
      xs.map g = ys.map g
  | [], [], _, _ => rfl
  | x :: xs, y :: ys, h, heq => by
    obtain ⟨hhead, htail⟩ := List.cons.inj heq
    have hrest := map_eq_map_of_determined (fun x' hx' y' hy' ↦
      h x' (List.mem_cons_of_mem x hx') y' (List.mem_cons_of_mem y hy')) htail
    rw [List.map_cons, List.map_cons, hrest, h x List.mem_cons_self y List.mem_cons_self hhead]

/-- Where no delimiter occurs inside a name or a text, keys tell the names and the texts apart. -/
theorem buildCacheKey_eq_iff_of_plain {id : Id} {ps qs : List RuleParameter}
    (hps : ∀ p ∈ ps, p.IsPlain) (hqs : ∀ q ∈ qs, q.IsPlain) :
    buildCacheKey id ps = buildCacheKey id qs ↔
      ps.map (fun p ↦ (p.name, valueText p)) = qs.map fun q ↦ (q.name, valueText q) := by
  have hpieces {l : List RuleParameter} (hl : ∀ p ∈ l, p.IsPlain) :
      l.flatMap RuleParameter.pieces = l.map RuleParameter.assignment := by
    have hitems : ∀ item ∈ l.map RuleParameter.assignment, ';' ∉ item := by
      intro item hitem
      obtain ⟨p, hp, rfl⟩ := List.mem_map.1 hitem
      exact (hl p hp).notMem_assignment
    rw [← flatMap_splitOn_of_notMem hitems, List.flatMap_map]
    rfl
  rw [buildCacheKey_eq_iff, hpieces hps, hpieces hqs]
  refine ⟨fun h ↦ map_eq_map_of_determined (fun p hp q hq heq ↦ ?_) h.2,
    fun h ↦ ⟨rfl, map_eq_map_of_determined (fun p _ q _ heq ↦ ?_) h⟩⟩
  · exact Prod.ext_iff.2 ((hps p hp).assignment_inj (hqs q hq) heq)
  · obtain ⟨hname, htext⟩ := Prod.mk.inj heq
    rw [RuleParameter.assignment, RuleParameter.assignment, hname, htext]

/-! ### What lookups answer -/

namespace RuleCache

theorem erase_subset (c : RuleCache) (key : String) : (c.erase key).entries ⊆ c.entries :=
  List.filter_sublist.subset

theorem makeRoom_subset (order : HashOrder (String × CacheEntry)) (now : Time) (key : String)
    (c : RuleCache) : (c.makeRoom order now key).entries ⊆ c.entries := by
  rw [makeRoom]
  dsimp only
  split_ifs
  · split
    · exact List.Subset.trans (erase_subset _ _) List.filter_sublist.subset
    · exact List.filter_sublist.subset
  · exact List.filter_sublist.subset
  · exact List.Subset.refl _

/-- An entry after an insertion is the inserted one or was there before. -/
theorem mem_insert {c : RuleCache} {key : String} {result : RuleResult} {expiresAt : Time}
    {e : String × CacheEntry} (h : e ∈ (c.insert key result expiresAt).entries) :
    e = (key, ⟨result, expiresAt, c.generation⟩) ∨ e ∈ c.entries :=
  (List.mem_cons.1 h).imp_right fun he ↦ c.erase_subset key he

end RuleCache

namespace Environment

variable {E : Type} (env : Environment E)

/-- The world after requests, by whichever threads they were made. -/
def after (history : List Op) (w : World E) : World E :=
  history.foldl (fun w op ↦ (env.handle op w).2) w

/-- What a program does to the world is what some requests do. -/
theorem exists_after_eq_run {α : Type} (p : RuleProgram α) (w : World E) :
    ∃ history, env.after history w = (p.run env.handle w).2 := by
  induction p generalizing w with
  | ret a => exact ⟨[], rfl⟩
  | ask op next ih =>
    obtain ⟨history, hhistory⟩ := ih (env.handle op w).1 (env.handle op w).2
    exact ⟨op :: history, hhistory⟩

/-- Every entry of the rule's cache comes from a request of the history. -/
def EntriesFrom (history : List Op) (ptr : RulePtr) (w : World E) : Prop :=
  ∀ key entry, (key, entry) ∈ (w.caches ptr).entries →
    ∃ rule parameters, Op.storeInCache rule parameters entry.result ∈ history ∧ rule.ptr = ptr ∧
      key = buildCacheKey rule.id parameters

variable {env} {history : List Op} {ptr : RulePtr} {w w' : World E}

theorem updateCache_of_ne {ptr' : RulePtr} (h : ptr ≠ ptr') (f : RuleCache → RuleCache) :
    (w.updateCache ptr' f).caches ptr = w.caches ptr :=
  Function.update_of_ne h _ _

theorem updateCache_self (f : RuleCache → RuleCache) :
    (w.updateCache ptr f).caches ptr = f (w.caches ptr) :=
  Function.update_self _ _ _

theorem lookupCache_entries_subset (rule : RuleFields) (parameters : List RuleParameter) :
    ((env.lookupCache rule parameters w).2.caches ptr).entries ⊆ (w.caches ptr).entries := by
  rcases env.lookupCache_cases rule parameters w with h | ⟨entry, h, hlive | hlive⟩
  · rw [env.lookupCache_missing h]
    exact List.Subset.refl _
  · rw [env.lookupCache_live h hlive]
    exact List.Subset.refl _
  · rw [env.lookupCache_stale h hlive]
    rcases eq_or_ne ptr rule.ptr with rfl | hne
    · rw [updateCache_self]
      exact RuleCache.erase_subset _ _
    · rw [updateCache_of_ne hne]
      exact List.Subset.refl _

/-- An entry of a cache after a result was stored is the stored one or was there before. -/
theorem mem_storeInCache {rule : RuleFields} {parameters : List RuleParameter} {result : RuleResult}
    {e : String × CacheEntry}
    (h : e ∈ ((env.storeInCache rule parameters result w).caches ptr).entries) :
    rule.ptr = ptr ∧ e.1 = buildCacheKey rule.id parameters ∧ e.2.result = result ∨
      e ∈ (w.caches ptr).entries := by
  rw [Environment.storeInCache] at h
  rcases eq_or_ne ptr rule.ptr with rfl | hne
  · rw [updateCache_self] at h
    rcases RuleCache.mem_insert h with rfl | hold
    · exact .inl ⟨rfl, rfl, rfl⟩
    · exact .inr (RuleCache.makeRoom_subset _ _ _ _ hold)
  · rw [updateCache_of_ne hne] at h
    exact .inr h

theorem EntriesFrom.mono (h : EntriesFrom history ptr w) {op : Op}
    (hsub : (w'.caches ptr).entries ⊆ (w.caches ptr).entries) :
    EntriesFrom (history ++ [op]) ptr w' := by
  intro key entry hentry
  obtain ⟨rule, parameters, hstored, hrule⟩ := h key entry (hsub hentry)
  exact ⟨rule, parameters, List.mem_append_left _ hstored, hrule⟩

/-- A request adds at most the entry it stores. -/
theorem EntriesFrom.handle (h : EntriesFrom history ptr w) (op : Op) :
    EntriesFrom (history ++ [op]) ptr (env.handle op w).2 := by
  cases op with
  | lookupCache rule parameters => exact h.mono (lookupCache_entries_subset rule parameters)
  | storeInCache rule parameters result =>
    intro key entry hentry
    rcases mem_storeInCache hentry with ⟨hptr, hkey, rfl⟩ | hold
    · exact ⟨rule, parameters, by simp, hptr, hkey⟩
    · obtain ⟨rule', parameters', hstored, hrule⟩ := h key entry hold
      exact ⟨rule', parameters', List.mem_append_left _ hstored, hrule⟩
  | _ => exact h.mono (List.Subset.refl _)

theorem entriesFrom_after (hempty : (w.caches ptr).entries = []) (history : List Op) :
    EntriesFrom history ptr (env.after history w) := by
  induction history using List.reverseRecOn with
  | nil =>
    intro key entry hentry
    rw [after, List.foldl_nil, hempty] at hentry
    exact absurd hentry List.not_mem_nil
  | append_singleton history op ih =>
    rw [after, List.foldl_append]
    exact ih.handle op

/-- What a lookup answers is the result of an entry under the key it asks for. -/
theorem mem_of_lookupCache {rule : RuleFields} {parameters : List RuleParameter}
    {result : RuleResult} (hfound : (env.lookupCache rule parameters w).1 = some result) :
    ∃ entry, (buildCacheKey rule.id parameters, entry) ∈ (w.caches rule.ptr).entries ∧
      entry.result = result := by
  rcases env.lookupCache_cases rule parameters w with hnone | ⟨entry, hentry, hlive | hstale⟩
  · rw [env.lookupCache_missing hnone] at hfound
    exact absurd hfound (by simp)
  · rw [env.lookupCache_live hentry hlive] at hfound
    obtain ⟨before, later, hsplit, -⟩ := List.lookup_eq_some_iff.1 hentry
    refine ⟨entry, ?_, Option.some.inj hfound⟩
    rw [hsplit]
    exact List.mem_append_right _ List.mem_cons_self
  · rw [env.lookupCache_stale hentry hstale] at hfound
    exact absurd hfound (by simp)

/-- What a lookup answers was stored under the key it asks for. -/
theorem EntriesFrom.of_lookupCache (h : EntriesFrom history ptr w) {rule : RuleFields}
    (hptr : rule.ptr = ptr) {parameters : List RuleParameter} {result : RuleResult}
    (hfound : (env.lookupCache rule parameters w).1 = some result) :
    ∃ rule' parameters', Op.storeInCache rule' parameters' result ∈ history ∧ rule'.ptr = ptr ∧
      buildCacheKey rule.id parameters = buildCacheKey rule'.id parameters' := by
  obtain ⟨entry, hentry, rfl⟩ := mem_of_lookupCache hfound
  exact h _ entry (hptr ▸ hentry)

end Environment

/-- Whatever was requested since the rule's cache was empty, what a lookup for `qs` is answered with
was stored for another list than `ps`. -/
def ServedApart (ps qs : List RuleParameter) : Prop :=
  ∀ (E : Type) (env : Environment E) (w : World E) (history : List Op) (rule : RuleFields)
    (result : RuleResult), (w.caches rule.ptr).entries = [] →
    (env.lookupCache rule qs (env.after history w)).1 = some result →
    ∃ rule' stored, Op.storeInCache rule' stored result ∈ history ∧ rule'.ptr = rule.ptr ∧
      stored ≠ ps

theorem servedApart_of_pieces_ne {ps qs : List RuleParameter}
    (h : ps.flatMap RuleParameter.pieces ≠ qs.flatMap RuleParameter.pieces) :
    ServedApart ps qs := by
  intro E env w history rule result hempty hfound
  obtain ⟨rule', stored, hstored, hptr, hkey⟩ :=
    (Environment.entriesFrom_after hempty history).of_lookupCache rfl hfound
  refine ⟨rule', stored, hstored, hptr, ?_⟩
  rintro rfl
  exact h (buildCacheKey_eq_iff.1 hkey).2.symm

/-- Two parameter lists have different cache keys, and nothing cached for the one is served to the
other, exactly if they do not fall into the same pieces. Having different arguments is not
enough. -/
theorem cacheKey_separates_iff (id : Id) (ps qs : List RuleParameter) :
    buildCacheKey id ps ≠ buildCacheKey id qs ∧ ServedApart ps qs ↔
      ps.flatMap RuleParameter.pieces ≠ qs.flatMap RuleParameter.pieces := by
  constructor
  · rintro ⟨hkeys, -⟩ hpieces
    exact hkeys (buildCacheKey_eq_iff.2 ⟨rfl, hpieces⟩)
  · intro hpieces
    exact ⟨fun hkeys ↦ hpieces (buildCacheKey_eq_iff.1 hkeys).2, servedApart_of_pieces_ne hpieces⟩

/-! ### One for the other -/

/-- The parameter `x` with the `int` value 1. -/
def intOne : RuleParameter :=
  { name := "x", value := some ⟨⟨.int, "i", 1⟩, (1 : Int)⟩, type := none }

/-- The parameter `x` with the `std::string` value `1`. -/
def stringOne : RuleParameter :=
  { name := "x", value := some ⟨⟨.string, "s", 2⟩, "1"⟩, type := none }

/-- A rule that passes only the number 1. -/
def isNumberOne : Rule :=
  { id := 1, name := "A", expression := "x == 1", cacheDuration := some 60000 }

/-- The environment in which every expression compares `x` with the number 1. -/
def comparesWithOne : Environment Unit :=
  { Environment.noScripts with
    beginExpression := fun _ _ parameters e ↦
      (.ok (some (.ret (.ok (parameters = [intOne])))), e) }

/-- The string `1` has the key of the number 1. A rule that fails on the string alone passes it
after it was executed on the number. -/
theorem stringOne_served_as_intOne :
    ¬ SameArguments [intOne] [stringOne] ∧
      buildCacheKey 1 [intOne] = buildCacheKey 1 [stringOne] ∧
      ((isNumberOne.execute 0 0 [stringOne]).run comparesWithOne.handle
        { env := () }).1.isSuccess = false ∧
      ((isNumberOne.execute 0 0 [stringOne]).run comparesWithOne.handle
        ((isNumberOne.execute 0 0 [intOne]).run comparesWithOne.handle
          { env := () }).2).1.isSuccess = true := by
  refine ⟨by decide, by decide, rfl, rfl⟩

end FastRules
