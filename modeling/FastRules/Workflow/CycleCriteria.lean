import FastRules.Workflow.Validate

/-!
# When the levelling accepts what validation accepts

The levelling lowers the in-degree of a rule once for every finished rule of the name it waits for.
With several rules of one name that is once too often: the in-degree skips zero as soon as two of
them finish in the same level. `within rules k` are the rules that a levelling could place in its
first `k + 1` levels, and the levelling succeeds exactly when, for each rule that waits, one rule of
the name it waits for is nearer to the start than all the others (`NearestUnique`).

Both directions go through `before_iff_within`: as long as every rule is placed right after the
first rule of the name it waits for, the first `i` levels are the rules within distance less than
`i`.
-/

namespace FastRules

open Layers

variable {rules : List Rule} {levels : List (List Rule)}

/-- At most `k` steps of waiting separate the rule from one that waits for nobody. -/
def within (rules : List Rule) : ℕ → Rule → Bool
  | 0, r => !isCounted rules r
  | k + 1, r => !isCounted rules r || rules.any fun q ↦ waitsOn q r && within rules k q

/-- For each rule that waits, some rule of the name it waits for is strictly nearer to the start
than all others of that name. -/
def NearestUnique (rules : List Rule) : Prop :=
  ∀ r ∈ rules, isCounted rules r = true →
    ∃ k, ∃ d ∈ rules, (waitsOn d r = true ∧ within rules k d = true) ∧
      ∀ q ∈ rules, waitsOn q r = true → within rules k q = true → q = d

theorem within_of_not_isCounted {r : Rule} (h : isCounted rules r = false) (k : ℕ) :
    within rules k r = true := by
  cases k <;> simp [within, h]

theorem not_within_zero {r : Rule} (h : isCounted rules r = true) : ¬within rules 0 r = true := by
  simp [within, h]

theorem within_succ_iff {r : Rule} (h : isCounted rules r = true) {k : ℕ} :
    within rules (k + 1) r = true ↔
      ∃ q ∈ rules, waitsOn q r = true ∧ within rules k q = true := by
  simp [within, h]

theorem within_succ {k : ℕ} : ∀ {r : Rule}, within rules k r = true → within rules (k + 1) r =
    true := by
  induction k with
  | zero =>
    intro r h
    exact within_of_not_isCounted (by simpa [within] using h) 1
  | succ k ih =>
    intro r h
    rcases hc : isCounted rules r with - | -
    · exact within_of_not_isCounted hc _
    · obtain ⟨q, hq, hw, hk⟩ := (within_succ_iff hc).1 h
      exact (within_succ_iff hc).2 ⟨q, hq, hw, ih hk⟩

theorem within_mono {r : Rule} {j k : ℕ} (hjk : j ≤ k) (h : within rules j r = true) :
    within rules k r = true := by
  induction hjk with
  | refl => exact h
  | step _ ih => exact within_succ ih

/-! ### Distances and levels -/

/-- The first `i` levels are the rules within distance less than `i`. -/
def Placed (rules : List Rule) (levels : List (List Rule)) (i : ℕ) : Prop :=
  ∀ x ∈ rules, x ∈ before levels i ↔ ∃ j < i, within rules j x = true

theorem ready_zero_of_not_isCounted {r : Rule} (hc : isCounted rules r = false) :
    Ready rules (before levels 0) r := by
  have hcharge : charge rules r = 0 := if_neg (by simp [hc])
  rw [Ready, hcharge]
  exact hits_eq_zero_iff.2 fun q hq ↦ absurd hq (by simp [before])

theorem charge_of_isCounted {r : Rule} (hc : isCounted rules r = true) : charge rules r = 1 :=
  if_pos hc

section Layers

variable (hlay : Layering rules (Ready rules) levels)
include hlay

/-- If every rule is placed right after the first rule it waits for, levels are distances. -/
theorem before_iff_within
    (hprompt : ∀ i < levels.length, Placed rules levels i → ∀ x ∈ rules,
      isCounted rules x = true → (∃ q ∈ before levels i, waitsOn q x = true) →
      x ∈ before levels (i + 1)) {i : ℕ} (hi : i ≤ levels.length) : Placed rules levels i := by
  induction i with
  | zero =>
    intro x _
    simp [before]
  | succ i ih =>
    have hplaced := ih (by omega)
    intro x hx
    constructor
    · intro hbefore
      obtain ⟨j, hj, hat⟩ := mem_before_iff.1 hbefore
      rcases hc : isCounted rules x with - | -
      · exact ⟨0, by omega, within_of_not_isCounted hc 0⟩
      · -- the one finished rule that made `x` ready is at a smaller distance
        have hready := hlay.ready_of_at hat
        rw [Ready, charge_of_isCounted hc, hits_eq_one_iff (hlay.before_nodup j)] at hready
        obtain ⟨d, hd, hwait, -⟩ := hready
        obtain ⟨k, hk, hdk⟩ := mem_before_iff.1 hd
        have hdi : d ∈ before levels i := mem_before_iff.2 ⟨k, by omega, hdk⟩
        have hdr := hlay.mem_nodes_of_mem_before hd
        obtain ⟨m, hm, hdm⟩ := (hplaced d hdr).1 hdi
        exact ⟨m + 1, by omega, (within_succ_iff hc).2 ⟨d, hdr, hwait, hdm⟩⟩
    · rintro ⟨j, hj, hwithin⟩
      rcases hc : isCounted rules x with - | -
      · obtain ⟨k, hk, hat⟩ := hlay.exists_at_le (by omega : 0 < levels.length) hx
          (ready_zero_of_not_isCounted hc)
        exact mem_before_iff.2 ⟨k, by omega, hat⟩
      · rcases j with - | j
        · exact absurd hwithin (not_within_zero hc)
        · obtain ⟨q, hq, hwait, hqj⟩ := (within_succ_iff hc).1 hwithin
          exact hprompt i (by omega) hplaced x hx hc
            ⟨q, (hplaced q hq).2 ⟨j, by omega, hqj⟩, hwait⟩

/-- A rule whose nearest dependency is unique is ready as soon as that one is done. -/
theorem NearestUnique.ready (h : NearestUnique rules) {i : ℕ} (hplaced : Placed rules levels i)
    {x : Rule} (hx : x ∈ rules) (hc : isCounted rules x = true) (hout : x ∉ before levels i)
    (hq : ∃ q ∈ before levels i, waitsOn q x = true) : Ready rules (before levels i) x := by
  obtain ⟨k, d, hd, ⟨hwait, hdk⟩, huniq⟩ := h x hx hc
  -- `x` itself is within distance `k + 1` and not placed yet
  have hik : i ≤ k + 1 := by
    by_contra hlt
    exact hout ((hplaced x hx).2 ⟨k + 1, by omega, (within_succ_iff hc).2 ⟨d, hd, hwait, hdk⟩⟩)
  have heq : ∀ q ∈ before levels i, waitsOn q x = true → q = d := by
    intro q hq hqx
    have hqr := hlay.mem_nodes_of_mem_before hq
    obtain ⟨j, hj, hqj⟩ := (hplaced q hqr).1 hq
    exact huniq q hqr hqx (within_mono (by omega) hqj)
  obtain ⟨q, hq, hqx⟩ := hq
  rw [Ready, charge_of_isCounted hc, hits_eq_one_iff (hlay.before_nodup i)]
  exact ⟨q, hq, hqx, fun p hp hpx ↦ (heq p hp hpx).trans (heq q hq hqx).symm⟩

/-- With unique nearest dependencies a layering that cannot be continued is complete. -/
theorem NearestUnique.complete (h : NearestUnique rules)
    (hfinal : ∀ r ∈ rules, r ∉ levels.flatten → ¬Ready rules levels.flatten r) :
    ∀ r ∈ rules, r ∈ levels.flatten := by
  have hready : ∀ i ≤ levels.length, ∀ r ∈ rules, Ready rules (before levels i) r →
      r ∈ levels.flatten := by
    intro i hi r hr hready
    rcases hi.lt_or_eq with hlt | rfl
    · obtain ⟨j, -, hat⟩ := hlay.exists_at_le hlt hr hready
      exact mem_flatten_iff.2 ⟨j, hat⟩
    · rw [before_length] at hready
      by_contra hout
      exact hfinal r hr hout hready
  have hplaced : ∀ i ≤ levels.length, Placed rules levels i := fun i hi ↦
    before_iff_within hlay (fun i hi hplaced x hx hc hq ↦ by
      by_cases hout : x ∈ before levels i
      · obtain ⟨j, hj, hat⟩ := mem_before_iff.1 hout
        exact mem_before_iff.2 ⟨j, by omega, hat⟩
      · obtain ⟨j, hj, hat⟩ := hlay.exists_at_le hi hx (h.ready hlay hplaced hx hc hout hq)
        exact mem_before_iff.2 ⟨j, by omega, hat⟩) hi
  -- the nearest rule that waits for nothing is finished, and with it all that wait for it
  have hwithin : ∀ k, ∀ r ∈ rules, within rules k r = true → r ∈ levels.flatten := by
    intro k
    induction k with
    | zero =>
      intro r hr hk
      exact hready 0 (Nat.zero_le _) r hr
        (ready_zero_of_not_isCounted (by simpa [within] using hk))
    | succ k ih =>
      intro r hr hk
      rcases hc : isCounted rules r with - | -
      · exact hready 0 (Nat.zero_le _) r hr (ready_zero_of_not_isCounted hc)
      · obtain ⟨q, hq, hwait, hqk⟩ := (within_succ_iff hc).1 hk
        have hqb : q ∈ before levels levels.length := before_length ▸ ih q hq hqk
        by_contra hout
        refine hout
          (hready _ le_rfl r hr (h.ready hlay (hplaced _ le_rfl) hr hc ?_ ⟨q, hqb, hwait⟩))
        rwa [before_length]
  intro r hr
  rcases hc : isCounted rules r with - | -
  · exact hwithin 0 r hr (within_of_not_isCounted hc 0)
  · obtain ⟨k, d, hd, ⟨hwait, hdk⟩, -⟩ := h r hr hc
    exact hwithin (k + 1) r hr ((within_succ_iff hc).2 ⟨d, hd, hwait, hdk⟩)

theorem hits_before_mono {i j : ℕ} (hij : i ≤ j) (r : Rule) :
    hits (before levels i) r ≤ hits (before levels j) r := by
  have hsub : (before levels i).Subperm (before levels j) :=
    List.subperm_of_subset (hlay.before_nodup i) fun q hq ↦ by
      obtain ⟨k, hk, hat⟩ := mem_before_iff.1 hq
      exact mem_before_iff.2 ⟨k, by omega, hat⟩
  exact hsub.countP_le _

/-- A complete layering has unique nearest dependencies. -/
theorem NearestUnique.of_complete (hall : ∀ r ∈ rules, r ∈ levels.flatten) :
    NearestUnique rules := by
  have hplaced : ∀ i ≤ levels.length, Placed rules levels i := fun i hi ↦
    before_iff_within hlay (fun i hi _ x hx hc hq ↦ by
      obtain ⟨m, hm⟩ := mem_flatten_iff.1 (hall x hx)
      rcases Nat.lt_or_ge i m with him | hmi
      · -- `x` is placed later, so one hit is there already and no second one comes before `x`
        have hready := hlay.ready_of_at hm
        have hle := hits_before_mono hlay him.le x
        rw [Ready, charge_of_isCounted hc] at hready
        have hne : hits (before levels i) x ≠ 0 := fun h0 ↦ by
          obtain ⟨q, hqb, hwait⟩ := hq
          exact hits_eq_zero_iff.1 h0 q hqb hwait
        refine absurd ?_ (hlay.not_ready_of_lt hm him)
        rw [Ready, charge_of_isCounted hc]
        omega
      · exact mem_before_iff.2 ⟨m, by omega, hm⟩) hi
  intro r hr hc
  obtain ⟨m, hm⟩ := mem_flatten_iff.1 (hall r hr)
  have hready := hlay.ready_of_at hm
  rw [Ready, charge_of_isCounted hc, hits_eq_one_iff (hlay.before_nodup m)] at hready
  obtain ⟨d, hd, hwait, huniq⟩ := hready
  have hdr := hlay.mem_nodes_of_mem_before hd
  obtain ⟨k, hk, hdk⟩ := (hplaced m hm.lt_length.le d hdr).1 hd
  exact ⟨k, d, hdr, ⟨hwait, hdk⟩, fun q hq hqr hqk ↦
    huniq q ((hplaced m hm.lt_length.le q hq).2 ⟨k, hk, hqk⟩) hqr⟩

end Layers

/-! ### The levelling of a validated workflow -/

/-- The levelling succeeds exactly on rules with unique nearest dependencies. -/
theorem buildDependencyLevels_isOk_iff (order : HashOrder Rule) (hrules : DistinctIds rules) :
    (∃ levels, buildDependencyLevels order rules = .ok levels ∧ levels.flatten.Perm rules) ↔
      NearestUnique rules := by
  constructor
  · rintro ⟨levels, hok, -⟩
    obtain ⟨hlay, hall, -⟩ := buildDependencyLevels_ok hrules hok
    exact NearestUnique.of_complete hlay hall
  · intro h
    rcases hout : buildDependencyLevels order rules with message | levels
    · obtain ⟨-, levels, hlay, ⟨r, hr, hrout⟩, hfinal⟩ := buildDependencyLevels_error hrules hout
      exact absurd (h.complete hlay hfinal r hr) hrout
    · obtain ⟨hlay, hall, -⟩ := buildDependencyLevels_ok hrules hout
      exact ⟨levels, rfl, hlay.flatten_perm hrules.nodup hall⟩

/-- **The levelling of a validated workflow** emits every rule exactly if, for each rule that waits,
the nearest rule of the name it waits for is unique. -/
theorem levelling_accepts_validated_iff (idOrder : HashOrder Id) (order order' : HashOrder Rule)
    (w w' : Workflow) (hw : w.Fresh) (h : w.validate idOrder order = (.ok (), w')) :
    (∃ levels, buildDependencyLevels order' w'.rules = .ok levels ∧
      levels.flatten.Perm w'.rules) ↔ NearestUnique w'.rules :=
  buildDependencyLevels_isOk_iff order' (Workflow.validate_accepted hw h).distinct

/-- Two rules of one name and a rule that depends on this name. -/
def twins : Workflow where
  rules := [{ id := 1, name := "A" }, { id := 2, name := "A" },
    { id := 3, name := "B", dependsOnRuleName := some "A" }]

theorem twins_fresh : twins.Fresh :=
  ⟨rfl, by simp [twins]⟩

theorem twins_not_nearestUnique :
    ¬NearestUnique
      (twins.validate (HashOrder.insertion Id) (HashOrder.insertion Rule)).2.rules := by
  intro h
  obtain ⟨levels, hok, -⟩ := (levelling_accepts_validated_iff (HashOrder.insertion Id)
    (HashOrder.insertion Rule) (HashOrder.insertion Rule) twins _ twins_fresh rfl).2 h
  cases hok

/-- Validation accepts the twins and the levelling reports a cycle. -/
theorem twins_validated_and_rejected :
    twins.Fresh ∧
      (twins.validate (HashOrder.insertion Id) (HashOrder.insertion Rule)).1 = .ok () ∧
      buildDependencyLevels (HashOrder.insertion Rule)
        (twins.validate (HashOrder.insertion Id) (HashOrder.insertion Rule)).2.rules =
          .error circularMessage :=
  ⟨twins_fresh, rfl, rfl⟩

end FastRules
