import FastRules.Foundations.Descent
import Mathlib.Data.List.Count
import Mathlib.Data.List.Basic
import Mathlib.Logic.Function.Basic
import Mathlib.Algebra.Order.Ring.Nat

/-!
# Three-colour depth-first search

The textbook search for cycles, over an arbitrary type of nodes and an arbitrary list of outgoing
edges. Nodes without a colour are unknown and are passed over. The search fails with the path and
the edge that closes a cycle; running out of fuel is a failure of its own, which
`search_ne_outOfFuel` rules out for the fuel `search` starts with.

A finished node is accessible along its edges (`Inv.acc`), so a search that succeeds proves the
absence of cycles; while a node is visited every gray node leads to it, so a search that fails has
met one. `findCycle` is the search without the fuel, and `findCycle_eq_none_iff` is the rule a
client uses.
-/

namespace DepthFirst

open Relation

/-- Unvisited, on the stack, done. -/
inductive Color
  | white
  | gray
  | black
  deriving DecidableEq, Repr

/-- The two ways not to finish. -/
inductive Failure (α : Type*)
  | outOfFuel
  /-- The edge from the end of `path` back to `back` closes a cycle. -/
  | cycle (path : List α) (back : α)

/-- A coloring; unknown nodes have no colour. -/
abbrev Coloring (α : Type*) := α → Option Color

section Search

variable {α : Type*} [DecidableEq α] (edges : α → List α)

/-- Visit a white node. -/
def visit : ℕ → α → List α → Coloring α → Except (Failure α) (Coloring α)
  | 0, _, _, _ => .error .outOfFuel
  | fuel + 1, node, stack, color => do
    let color ← (edges node).foldlM
      (fun color neighbor ↦
        match color neighbor with
        | some .white => visit fuel neighbor (stack ++ [node]) color
        | some .gray => .error (.cycle (stack ++ [node]) neighbor)
        | some .black => .ok color
        | none => .ok color)
      (Function.update color node (some .gray))
    return Function.update color node (some .black)

/-- What a visit does at one edge. -/
def follow (fuel : ℕ) (stack : List α) (color : Coloring α) (neighbor : α) :
    Except (Failure α) (Coloring α) :=
  match color neighbor with
  | some .white => visit edges fuel neighbor stack color
  | some .gray => .error (.cycle stack neighbor)
  | some .black => .ok color
  | none => .ok color

theorem visit_succ (fuel : ℕ) (node : α) (stack : List α) (color : Coloring α) :
    visit edges (fuel + 1) node stack color = (do
      let color ← (edges node).foldlM (follow edges fuel (stack ++ [node]))
        (Function.update color node (some .gray))
      return Function.update color node (some .black)) :=
  rfl

/-- All nodes white. -/
def unvisited (nodes : List α) : Coloring α :=
  fun x ↦ if x ∈ nodes then some .white else none

/-- What the search does at one node of its list. -/
def searchStep (fuel : ℕ) (color : Coloring α) (node : α) : Except (Failure α) (Coloring α) :=
  if color node = some .white then visit edges fuel node [] color else .ok color

/-- Visit every node that is still white. -/
def search (nodes : List α) : Except (Failure α) (Coloring α) :=
  nodes.foldlM (searchStep edges nodes.length) (unvisited nodes)

end Search

variable {α : Type*} {edges : α → List α} {nodes : List α}

/-- The edges the search follows. -/
def Edge (edges : α → List α) (nodes : List α) (x y : α) : Prop :=
  y ∈ edges x ∧ y ∈ nodes

/-- What holds of every coloring of the search: exactly the nodes have a colour, and finished nodes
lead to finitely long paths only. -/
structure Inv (edges : α → List α) (nodes : List α) (color : Coloring α) : Prop where
  known : ∀ x, color x = none ↔ x ∉ nodes
  acc : ∀ x, color x = some .black → Acc (flip (Edge edges nodes)) x

/-- What a part of the search may change: it turns white nodes black. -/
structure Extends (color color' : Coloring α) : Prop where
  gray : ∀ x, color' x = some .gray ↔ color x = some .gray
  black : ∀ x, color x = some .black → color' x = some .black
  known : ∀ x, color' x = none ↔ color x = none

theorem Extends.refl (color : Coloring α) : Extends color color :=
  ⟨fun _ ↦ Iff.rfl, fun _ h ↦ h, fun _ ↦ Iff.rfl⟩

theorem Extends.trans {c₁ c₂ c₃ : Coloring α} (h₁₂ : Extends c₁ c₂) (h₂₃ : Extends c₂ c₃) :
    Extends c₁ c₃ :=
  ⟨fun x ↦ (h₂₃.gray x).trans (h₁₂.gray x), fun x hx ↦ h₂₃.black x (h₁₂.black x hx),
    fun x ↦ (h₂₃.known x).trans (h₁₂.known x)⟩

/-- White nodes only become fewer. -/
theorem Extends.white {color color' : Coloring α} (h : Extends color color') {x : α}
    (hx : color' x = some .white) : color x = some .white := by
  rcases hc : color x with - | c
  · rw [(h.known x).2 hc] at hx
    cases hx
  · cases c with
    | white => rfl
    | gray => rw [(h.gray x).2 hc] at hx; cases hx
    | black => rw [h.black x hc] at hx; cases hx

/-- The number of white nodes. -/
def whites (nodes : List α) (color : Coloring α) : ℕ :=
  nodes.countP fun x ↦ color x = some .white

theorem Extends.whites_le {color color' : Coloring α} (h : Extends color color') :
    whites nodes color' ≤ whites nodes color :=
  List.countP_mono_left fun x _ hx ↦ by
    simpa using h.white (of_decide_eq_true hx)

variable [DecidableEq α]

theorem whites_update_lt {color : Coloring α} {node : α} (hnode : node ∈ nodes)
    (hwhite : color node = some .white) :
    whites nodes (Function.update color node (some .gray)) < whites nodes color := by
  have hfilter : nodes.filter (fun x ↦ Function.update color node (some .gray) x = some .white) =
      (nodes.filter fun x ↦ color x = some .white).filter fun x ↦ x ≠ node := by
    rw [List.filter_filter]
    refine List.filter_congr fun x _ ↦ ?_
    by_cases hxn : x = node
    · simp [hxn]
    · simp [hxn]
  rw [whites, whites, List.countP_eq_length_filter, List.countP_eq_length_filter, hfilter]
  exact List.length_filter_lt_length_iff_exists.2
    ⟨node, List.mem_filter.2 ⟨hnode, by simpa using hwhite⟩, by simp⟩

/-- A node that has just become gray is neither unknown nor finished. -/
theorem Inv.update_gray {color : Coloring α} (h : Inv edges nodes color) {node : α}
    (hwhite : color node = some .white) :
    Inv edges nodes (Function.update color node (some .gray)) where
  known x := by
    by_cases hxn : x = node
    · subst hxn
      simpa [hwhite] using h.known x
    · rw [Function.update_of_ne hxn]
      exact h.known x
  acc x hx := by
    by_cases hxn : x = node
    · simp [hxn] at hx
    · rw [Function.update_of_ne hxn] at hx
      exact h.acc x hx

/-! ### One visit -/

section Follow

variable {fuel : ℕ} {stack : List α} {color color' : Coloring α}

/-- Following the edges of a node finishes all its neighbours, provided a visit does what it
should. -/
theorem follow_foldlM
    (hvisit : ∀ node color color', visit edges fuel node stack color = .ok color' →
      color node = some .white → Inv edges nodes color →
      Inv edges nodes color' ∧ Extends color color' ∧ color' node = some .black)
    {neighbors : List α} (h : neighbors.foldlM (follow edges fuel stack) color = .ok color')
    (hinv : Inv edges nodes color) :
    Inv edges nodes color' ∧ Extends color color' ∧
      ∀ y ∈ neighbors, y ∈ nodes → color' y = some .black := by
  induction neighbors generalizing color with
  | nil =>
    obtain rfl : color = color' := Except.ok.inj h
    exact ⟨hinv, Extends.refl _, fun y hy ↦ absurd hy List.not_mem_nil⟩
  | cons y neighbors ih =>
    rw [List.foldlM_cons] at h
    -- one edge: the neighbour is unknown or finished afterwards
    have hone : ∀ c, follow edges fuel stack color y = .ok c →
        Inv edges nodes c ∧ Extends color c ∧ (y ∈ nodes → c y = some .black) := by
      intro c hc
      rw [follow] at hc
      split at hc
      · rename_i hy
        obtain ⟨hi, he, hb⟩ := hvisit y color c hc hy hinv
        exact ⟨hi, he, fun _ ↦ hb⟩
      · cases hc
      · rename_i hy
        obtain rfl := Except.ok.inj hc
        exact ⟨hinv, Extends.refl _, fun _ ↦ hy⟩
      · rename_i hy
        obtain rfl := Except.ok.inj hc
        exact ⟨hinv, Extends.refl _, fun hmem ↦ absurd hmem ((hinv.known y).1 hy)⟩
    rcases hf : follow edges fuel stack color y with e | c
    · rw [hf] at h
      cases h
    · rw [hf] at h
      obtain ⟨hi, he, hy⟩ := hone c hf
      obtain ⟨hi', he', hrest⟩ := ih h hi
      refine ⟨hi', he.trans he', fun z hz hmem ↦ ?_⟩
      rcases List.mem_cons.1 hz with rfl | hz
      · exact he'.black z (hy hmem)
      · exact hrest z hz hmem

end Follow

/-- A visit that succeeds finishes its node and leaves the stack as it was. -/
theorem visit_spec {fuel : ℕ} : ∀ {stack : List α} (node : α) (color color' : Coloring α),
    visit edges fuel node stack color = .ok color' → color node = some .white →
    Inv edges nodes color →
    Inv edges nodes color' ∧ Extends color color' ∧ color' node = some .black := by
  induction fuel with
  | zero =>
    intro _ _ _ _ h
    cases h
  | succ fuel ih =>
    intro stack node color color' h hwhite hinv
    rw [visit_succ] at h
    rcases hf : (edges node).foldlM (follow edges fuel (stack ++ [node]))
        (Function.update color node (some .gray)) with e | c
    · rw [hf] at h
      cases h
    · rw [hf] at h
      obtain rfl : Function.update c node (some .black) = color' := Except.ok.inj h
      obtain ⟨hi, he, hall⟩ := follow_foldlM (fun node color color' ↦ ih node color color') hf
        (hinv.update_gray hwhite)
      have hne : ∀ x, x ≠ node → Function.update color node (some Color.gray) x = color x :=
        fun x hx ↦ Function.update_of_ne hx _ _
      have hnode : c node = some .gray := (he.gray node).2 (by simp)
      refine ⟨⟨fun x ↦ ?_, fun x hx ↦ ?_⟩, ⟨fun x ↦ ?_, fun x hx ↦ ?_, fun x ↦ ?_⟩, by simp⟩ <;>
        by_cases hxn : x = node
      · subst hxn
        simpa [hnode] using hi.known x
      · rw [Function.update_of_ne hxn]
        exact hi.known x
      · -- the node itself: all its neighbours are finished
        subst hxn
        exact Acc.intro _ fun y hy ↦ hi.acc y (hall y hy.1 hy.2)
      · rw [Function.update_of_ne hxn] at hx
        exact hi.acc x hx
      · subst hxn
        simp [hwhite]
      · rw [Function.update_of_ne hxn, he.gray, hne x hxn]
      · simp [hxn]
      · rw [Function.update_of_ne hxn]
        exact he.black x (by rwa [hne x hxn])
      · subst hxn
        simp [hwhite]
      · rw [Function.update_of_ne hxn, he.known, hne x hxn]

/-- One edge: the neighbour is unknown or finished afterwards. -/
theorem follow_spec {fuel : ℕ} {stack : List α} {color color' : Coloring α} {y : α}
    (h : follow edges fuel stack color y = .ok color') (hinv : Inv edges nodes color) :
    Inv edges nodes color' ∧ Extends color color' ∧ (y ∈ nodes → color' y = some .black) := by
  have hlist : [y].foldlM (follow edges fuel stack) color = .ok color' := by
    rw [List.foldlM_cons, h]
    rfl
  obtain ⟨hi, he, hy⟩ :=
    follow_foldlM (fun node color color' ↦ visit_spec node color color') hlist hinv
  exact ⟨hi, he, hy y (List.mem_singleton_self y)⟩

/-! ### Failures -/

section Cycle

variable {path : List α} {back : α}

/-- While the edges of `node` are followed, every gray node leads to it. So an edge to a gray node
closes a cycle. -/
theorem follow_foldlM_cycle {fuel : ℕ} {stack : List α} {node : α}
    (hvisit : ∀ y color, visit edges fuel y stack color = .error (.cycle path back) →
      color y = some .white → Inv edges nodes color →
      (∀ x, color x = some .gray → TransGen (Edge edges nodes) x y) →
      ∃ z, Descent.OnCycle (Edge edges nodes) z)
    {neighbors : List α} (hsub : ∀ y ∈ neighbors, y ∈ edges node) {color : Coloring α}
    (h : neighbors.foldlM (follow edges fuel stack) color = .error (.cycle path back))
    (hinv : Inv edges nodes color)
    (hgray : ∀ x, color x = some .gray → ReflTransGen (Edge edges nodes) x node) :
    ∃ z, Descent.OnCycle (Edge edges nodes) z := by
  induction neighbors generalizing color with
  | nil => cases h
  | cons y neighbors ih =>
    have hedge : ∀ c, color y = some c → Edge edges nodes node y := fun c hc ↦
      ⟨hsub y List.mem_cons_self, by_contra fun hout ↦ by
        rw [(hinv.known y).2 hout] at hc
        cases hc⟩
    rw [List.foldlM_cons] at h
    rcases hf : follow edges fuel stack color y with e | c
    · rw [hf] at h
      obtain rfl : e = .cycle path back := Except.error.inj h
      rw [follow] at hf
      split at hf
      · -- white: the cycle was found below it
        rename_i hy
        exact hvisit y color hf hy hinv fun x hx ↦ .tail' (hgray x hx) (hedge _ hy)
      · rename_i hy
        exact ⟨y, .tail' (hgray y hy) (hedge _ hy)⟩
      · cases hf
      · cases hf
    · rw [hf] at h
      obtain ⟨hi, he, -⟩ := follow_spec hf hinv
      exact ih (fun z hz ↦ hsub z (List.mem_cons_of_mem y hz)) h hi
        fun x hx ↦ hgray x ((he.gray x).1 hx)

/-- A visit that meets a cycle meets one of the graph. -/
theorem visit_cycle {fuel : ℕ} : ∀ {stack : List α} (node : α) (color : Coloring α),
    visit edges fuel node stack color = .error (.cycle path back) → color node = some .white →
    Inv edges nodes color → (∀ x, color x = some .gray → TransGen (Edge edges nodes) x node) →
    ∃ z, Descent.OnCycle (Edge edges nodes) z := by
  induction fuel with
  | zero =>
    intro _ _ _ h
    cases h
  | succ fuel ih =>
    intro stack node color h hwhite hinv hgray
    rw [visit_succ] at h
    rcases hf : (edges node).foldlM (follow edges fuel (stack ++ [node]))
        (Function.update color node (some .gray)) with e | c
    · rw [hf] at h
      obtain rfl : e = .cycle path back := Except.error.inj h
      refine follow_foldlM_cycle (fun y color ↦ ih y color) (fun y hy ↦ hy) hf
        (hinv.update_gray hwhite) fun x hx ↦ ?_
      rcases eq_or_ne x node with rfl | hxn
      · exact .refl
      · rw [Function.update_of_ne hxn] at hx
        exact (hgray x hx).to_reflTransGen
    · rw [hf] at h
      cases h

end Cycle

section Fuel

/-- Following edges does not run out of fuel if visits do not. -/
theorem follow_foldlM_ne_outOfFuel {fuel : ℕ} {stack : List α}
    (hvisit : ∀ node color, color node = some .white → Inv edges nodes color →
      whites nodes color ≤ fuel → visit edges fuel node stack color ≠ .error .outOfFuel)
    {neighbors : List α} {color : Coloring α} (hinv : Inv edges nodes color)
    (hfuel : whites nodes color ≤ fuel) :
    neighbors.foldlM (follow edges fuel stack) color ≠ .error .outOfFuel := by
  induction neighbors generalizing color with
  | nil =>
    intro h
    cases h
  | cons y neighbors ih =>
    intro h
    rw [List.foldlM_cons] at h
    rcases hf : follow edges fuel stack color y with e | c
    · rw [hf] at h
      obtain rfl : e = .outOfFuel := Except.error.inj h
      rw [follow] at hf
      split at hf
      · rename_i hy
        exact hvisit y color hy hinv hfuel hf
      · cases hf
      · cases hf
      · cases hf
    · obtain ⟨hi, he, -⟩ := follow_spec hf hinv
      rw [hf] at h
      exact ih hi (he.whites_le.trans hfuel) h

/-- With as much fuel as there are white nodes, a visit does not run out of it. -/
theorem visit_ne_outOfFuel {fuel : ℕ} : ∀ {stack : List α} (node : α) (color : Coloring α),
    color node = some .white → Inv edges nodes color → whites nodes color ≤ fuel →
    visit edges fuel node stack color ≠ .error .outOfFuel := by
  induction fuel with
  | zero =>
    intro _ node color hwhite hinv hfuel
    have hnode : node ∈ nodes := by
      by_contra hout
      rw [(hinv.known node).2 hout] at hwhite
      cases hwhite
    have := whites_update_lt hnode hwhite
    omega
  | succ fuel ih =>
    intro stack node color hwhite hinv hfuel h
    have hnode : node ∈ nodes := by
      by_contra hout
      rw [(hinv.known node).2 hout] at hwhite
      cases hwhite
    -- the node is gray from here on, so the nodes below it have one white node less
    have hlt := whites_update_lt hnode hwhite
    rw [visit_succ] at h
    rcases hf : (edges node).foldlM (follow edges fuel (stack ++ [node]))
        (Function.update color node (some .gray)) with e | c
    · rw [hf] at h
      obtain rfl : e = .outOfFuel := Except.error.inj h
      exact follow_foldlM_ne_outOfFuel (fun node color ↦ ih node color)
        (hinv.update_gray hwhite) (by omega) hf
    · rw [hf] at h
      cases h

end Fuel

/-! ### The whole search -/

theorem unvisited_inv : Inv edges nodes (unvisited nodes) where
  known x := by
    by_cases hx : x ∈ nodes <;> simp [unvisited, hx]
  acc x hx := by
    by_cases hmem : x ∈ nodes <;> simp [unvisited, hmem] at hx

theorem unvisited_ne_gray (x : α) : unvisited nodes x ≠ some .gray := by
  intro hx
  by_cases hmem : x ∈ nodes <;> simp [unvisited, hmem] at hx

/-- One node of the list: it is finished, and the stack is empty again. -/
theorem searchStep_spec {fuel : ℕ} {color color' : Coloring α} {node : α}
    (h : searchStep edges fuel color node = .ok color') (hinv : Inv edges nodes color)
    (hgray : ∀ x, color x ≠ some .gray) :
    Inv edges nodes color' ∧ Extends color color' ∧ (node ∈ nodes → color' node = some .black) := by
  rw [searchStep] at h
  split_ifs at h with hwhite
  · obtain ⟨hi, he, hb⟩ := visit_spec node color color' h hwhite hinv
    exact ⟨hi, he, fun _ ↦ hb⟩
  · obtain rfl := Except.ok.inj h
    refine ⟨hinv, Extends.refl _, fun hmem ↦ ?_⟩
    rcases hc : color node with - | c
    · exact absurd hmem ((hinv.known node).1 hc)
    · cases c with
      | white => exact absurd hc hwhite
      | gray => exact absurd hc (hgray node)
      | black => rfl

theorem searchStep_foldlM {fuel : ℕ} {l : List α} {color color' : Coloring α}
    (h : l.foldlM (searchStep edges fuel) color = .ok color') (hinv : Inv edges nodes color)
    (hgray : ∀ x, color x ≠ some .gray) :
    Inv edges nodes color' ∧ Extends color color' ∧
      ∀ x ∈ l, x ∈ nodes → color' x = some .black := by
  induction l generalizing color with
  | nil =>
    obtain rfl : color = color' := Except.ok.inj h
    exact ⟨hinv, Extends.refl _, fun x hx ↦ absurd hx List.not_mem_nil⟩
  | cons node l ih =>
    rw [List.foldlM_cons] at h
    rcases hf : searchStep edges fuel color node with e | c
    · rw [hf] at h
      cases h
    · rw [hf] at h
      obtain ⟨hi, he, hb⟩ := searchStep_spec hf hinv hgray
      obtain ⟨hi', he', hrest⟩ := ih h hi fun x hx ↦ hgray x ((he.gray x).1 hx)
      refine ⟨hi', he.trans he', fun x hx hmem ↦ ?_⟩
      rcases List.mem_cons.1 hx with rfl | hx
      · exact he'.black x (hb hmem)
      · exact hrest x hx hmem

/-- A search that succeeds proves that no cycle passes through its nodes. -/
theorem not_onCycle_of_search {color : Coloring α} (h : search edges nodes = .ok color) (x : α) :
    ¬Descent.OnCycle (Edge edges nodes) x := by
  obtain ⟨hinv, -, hblack⟩ := searchStep_foldlM h unvisited_inv unvisited_ne_gray
  intro hcycle
  obtain ⟨y, hxy, hy⟩ := hcycle.exists_succ
  exact Descent.not_onCycle_of_acc (hinv.acc y (hblack y hxy.2 hxy.2)) hy

/-- A search that meets a cycle meets one of the graph. -/
theorem searchStep_foldlM_cycle {fuel : ℕ} {l : List α} {color : Coloring α} {path : List α}
    {back : α} (h : l.foldlM (searchStep edges fuel) color = .error (.cycle path back))
    (hinv : Inv edges nodes color) (hgray : ∀ x, color x ≠ some .gray) :
    ∃ z, Descent.OnCycle (Edge edges nodes) z := by
  induction l generalizing color with
  | nil => cases h
  | cons node l ih =>
    rw [List.foldlM_cons] at h
    rcases hf : searchStep edges fuel color node with e | c
    · rw [hf] at h
      obtain rfl : e = .cycle path back := Except.error.inj h
      rw [searchStep] at hf
      split_ifs at hf with hwhite
      exact visit_cycle node color hf hwhite hinv fun x hx ↦ absurd hx (hgray x)
    · rw [hf] at h
      obtain ⟨hi, he, -⟩ := searchStep_spec hf hinv hgray
      exact ih h hi fun x hx ↦ hgray x ((he.gray x).1 hx)

theorem searchStep_foldlM_ne_outOfFuel {fuel : ℕ} {l : List α} {color : Coloring α}
    (hinv : Inv edges nodes color) (hgray : ∀ x, color x ≠ some .gray)
    (hfuel : whites nodes color ≤ fuel) :
    l.foldlM (searchStep edges fuel) color ≠ .error .outOfFuel := by
  induction l generalizing color with
  | nil =>
    intro h
    cases h
  | cons node l ih =>
    intro h
    rw [List.foldlM_cons] at h
    rcases hf : searchStep edges fuel color node with e | c
    · rw [hf] at h
      obtain rfl : e = .outOfFuel := Except.error.inj h
      rw [searchStep] at hf
      split_ifs at hf with hwhite
      exact visit_ne_outOfFuel node color hwhite hinv hfuel hf
    · rw [hf] at h
      obtain ⟨hi, he, -⟩ := searchStep_spec hf hinv hgray
      exact ih hi (fun x hx ↦ hgray x ((he.gray x).1 hx)) (he.whites_le.trans hfuel) h

/-- The search never runs out of fuel. -/
theorem search_ne_outOfFuel : search edges nodes ≠ .error .outOfFuel :=
  searchStep_foldlM_ne_outOfFuel unvisited_inv unvisited_ne_gray List.countP_le_length

/-- The path and the edge that closed the cycle, if the search met one. -/
def findCycle (edges : α → List α) (nodes : List α) : Option (List α × α) :=
  match h : search edges nodes with
  | .ok _ => none
  | .error (.cycle path back) => some (path, back)
  | .error .outOfFuel => absurd h search_ne_outOfFuel

theorem not_onCycle_of_findCycle (h : findCycle edges nodes = none) (x : α) :
    ¬Descent.OnCycle (Edge edges nodes) x := by
  rw [findCycle] at h
  split at h
  · rename_i color hs
    exact not_onCycle_of_search hs x
  · cases h
  · rename_i hs
    exact absurd hs search_ne_outOfFuel

/-- The search finds a cycle exactly if there is one. -/
theorem findCycle_eq_none_iff :
    findCycle edges nodes = none ↔ ∀ x, ¬Descent.OnCycle (Edge edges nodes) x := by
  refine ⟨not_onCycle_of_findCycle, fun hacyclic ↦ ?_⟩
  rw [findCycle]
  split
  · rfl
  · rename_i hs
    obtain ⟨x, hx⟩ := searchStep_foldlM_cycle hs unvisited_inv unvisited_ne_gray
    exact absurd hx (hacyclic x)
  · rename_i hs
    exact absurd hs search_ne_outOfFuel

/-- The order of the nodes does not matter. -/
theorem findCycle_eq_none_iff_of_perm {nodes' : List α} (h : nodes.Perm nodes') :
    findCycle edges nodes = none ↔ ∀ x, ¬Descent.OnCycle (Edge edges nodes') x := by
  have hedge : Edge edges nodes = Edge edges nodes' := by
    funext x y
    exact propext (and_congr_right fun _ ↦ h.mem_iff)
  rw [findCycle_eq_none_iff, hedge]

end DepthFirst
