import Mathlib.Logic.Basic
import Mathlib.Logic.Relation
import Mathlib.Data.List.Basic

/-!
# Programs as trees of requests

A program either returns or makes a request and continues with the answer. What a request does is
not part of the program: `Program.run` gives it a meaning on a state, and `Ensures` reasons about
every meaning an `Interface` allows, with the requirement that each request is made in a state that
permits it. Small atomic requests are what an interleaving of several programs is an interleaving
of.

The rules a client uses are `ensures_bind` (sequencing), `Ensures.mono` (consequence),
`Ensures.of_view` (reasoning about a part of the state) and `Ensures.run` (what is ensured holds of
the run).
-/

/-- A program that makes requests `op : Op`, is answered in `Ans op` and returns an `α`. -/
inductive Program (Op : Type) (Ans : Op → Type) (α : Type) : Type
  | ret (a : α)
  | ask (op : Op) (next : Ans op → Program Op Ans α)

namespace Program

variable {Op : Type} {Ans : Op → Type} {α β γ σ τ : Type}

/-- Sequencing. -/
protected def bind : Program Op Ans α → (α → Program Op Ans β) → Program Op Ans β
  | ret a, f => f a
  | ask op next, f => ask op fun a ↦ (next a).bind f

instance : Monad (Program Op Ans) where
  pure := ret
  bind := Program.bind

/-- Make one request and return its answer. -/
def perform (op : Op) : Program Op Ans (Ans op) :=
  ask op ret

@[simp] theorem ret_bind (a : α) (f : α → Program Op Ans β) : (ret a >>= f) = f a := rfl

@[simp] theorem ask_bind (op : Op) (next : Ans op → Program Op Ans α) (f : α → Program Op Ans β) :
    (ask op next >>= f) = ask op fun a ↦ next a >>= f := rfl

theorem bind_ret (p : Program Op Ans α) : (p >>= ret) = p := by
  induction p with
  | ret a => rfl
  | ask op next ih =>
    rw [ask_bind]
    exact congrArg (ask op) (funext ih)

theorem bind_bind (p : Program Op Ans α) (f : α → Program Op Ans β) (g : β → Program Op Ans γ) :
    (p >>= f >>= g) = p >>= fun a ↦ f a >>= g := by
  induction p with
  | ret a => rfl
  | ask op next ih =>
    rw [ask_bind, ask_bind, ask_bind]
    exact congrArg (ask op) (funext ih)

instance : LawfulMonad (Program Op Ans) :=
  LawfulMonad.mk' (Program Op Ans) bind_ret (fun a f ↦ ret_bind a f) bind_bind

/-- The program has come to its end. -/
def hasReturned : Program Op Ans α → Bool
  | ret _ => true
  | ask _ _ => false

/-! ### Runs -/

/-- Answer every request by a handler that acts on a state. -/
def run (handle : (op : Op) → σ → Ans op × σ) : Program Op Ans α → σ → α × σ
  | ret a, s => (a, s)
  | ask op next, s => (next (handle op s).1).run handle (handle op s).2

section Run

variable (handle : (op : Op) → σ → Ans op × σ)

@[simp] theorem run_ret (a : α) (s : σ) : (ret a : Program Op Ans α).run handle s = (a, s) := rfl

@[simp] theorem run_pure (a : α) (s : σ) :
    (pure a : Program Op Ans α).run handle s = (a, s) := rfl

@[simp] theorem run_ask (op : Op) (next : Ans op → Program Op Ans α) (s : σ) :
    (ask op next).run handle s = (next (handle op s).1).run handle (handle op s).2 := rfl

@[simp] theorem run_perform (op : Op) (s : σ) :
    (perform op : Program Op Ans (Ans op)).run handle s = handle op s := rfl

@[simp] theorem run_map (f : α → β) (p : Program Op Ans α) (s : σ) :
    (f <$> p).run handle s = (f (p.run handle s).1, (p.run handle s).2) := by
  induction p generalizing s with
  | ret a => rfl
  | ask op next ih => exact ih _ _

@[simp] theorem run_bind (p : Program Op Ans α) (f : α → Program Op Ans β) (s : σ) :
    (p >>= f).run handle s = (f (p.run handle s).1).run handle (p.run handle s).2 := by
  induction p generalizing s with
  | ret a => rfl
  | ask op next ih =>
    rw [ask_bind, run_ask, run_ask]
    exact ih _ _

end Run

/-- A handler beside which a ghost state follows the requests and their answers. -/
def observed {γ : Type} (handle : (op : Op) → σ → Ans op × σ)
    (after : (op : Op) → Ans op → γ → γ) (op : Op) (s : σ × γ) : Ans op × (σ × γ) :=
  ((handle op s.1).1, (handle op s.1).2, after op (handle op s.1).1 s.2)

/-- The ghost state does not take part. -/
theorem run_observed {γ : Type} (handle : (op : Op) → σ → Ans op × σ)
    (after : (op : Op) → Ans op → γ → γ) (p : Program Op Ans α) (s : σ × γ) :
    (p.run (observed handle after) s).1 = (p.run handle s.1).1 ∧
      (p.run (observed handle after) s).2.1 = (p.run handle s.1).2 := by
  induction p generalizing s with
  | ret a => exact ⟨rfl, rfl⟩
  | ask op next ih => exact ih _ (observed handle after op s).2

/-- In the run of the program every request is made in a state that permits it. -/
def Guarded (handle : (op : Op) → σ → Ans op × σ) (pre : Op → σ → Prop) :
    Program Op Ans α → σ → Prop
  | ret _, _ => True
  | ask op next, s => pre op s ∧ Guarded handle pre (next (handle op s).1) (handle op s).2

section Guarded

variable {handle : (op : Op) → σ → Ans op × σ} {pre : Op → σ → Prop}

instance decidableGuarded [∀ op s, Decidable (pre op s)] :
    (p : Program Op Ans α) → (s : σ) → Decidable (Guarded handle pre p s)
  | ret _, _ => isTrue trivial
  | ask op next, s =>
    have := decidableGuarded (next (handle op s).1) (handle op s).2
    inferInstanceAs (Decidable (pre op s ∧ _))

/-- Where an invariant permits every request, every run is permitted. -/
theorem guarded_of_invariant {I : σ → Prop} (hpre : ∀ op s, I s → pre op s)
    (h : ∀ op s, I s → I (handle op s).2) (p : Program Op Ans α) {s : σ} (hs : I s) :
    Guarded handle pre p s := by
  induction p generalizing s with
  | ret a => trivial
  | ask op next ih => exact ⟨hpre op s hs, ih _ (h op s hs)⟩

end Guarded

/-! ### What a program ensures -/

/-- What is known about requests: the states in which one may be made, and what one may do. -/
structure Interface (Op : Type) (Ans : Op → Type) (σ : Type) where
  pre : Op → σ → Prop
  step : (op : Op) → σ → Ans op → σ → Prop

/-- Started in the given state, the program makes requests only where they are permitted, and
returns only where `Q` holds, whatever the interface lets happen. -/
def Ensures (I : Interface Op Ans σ) (Q : α → σ → Prop) : Program Op Ans α → σ → Prop
  | ret a, s => Q a s
  | ask op next, s => I.pre op s ∧ ∀ a s', I.step op s a s' → Ensures I Q (next a) s'

section Ensures

variable {I : Interface Op Ans σ} {J : Interface Op Ans τ} {Q : α → σ → Prop}

@[simp] theorem ensures_ret (a : α) (s : σ) :
    Ensures I Q (ret a) s ↔ Q a s := Iff.rfl

@[simp] theorem ensures_pure (a : α) (s : σ) :
    Ensures I Q (pure a) s ↔ Q a s := Iff.rfl

@[simp] theorem ensures_ask (op : Op) (next : Ans op → Program Op Ans α) (s : σ) :
    Ensures I Q (ask op next) s ↔
      I.pre op s ∧ ∀ a s', I.step op s a s' → Ensures I Q (next a) s' := Iff.rfl

@[simp] theorem ensures_perform (op : Op) (Q : Ans op → σ → Prop) (s : σ) :
    Ensures I Q (perform op) s ↔ I.pre op s ∧ ∀ a s', I.step op s a s' → Q a s' := Iff.rfl

/-- Consequence. -/
theorem Ensures.mono {Q' : α → σ → Prop} (hQ : ∀ a s, Q a s → Q' a s) {p : Program Op Ans α} {s : σ}
    (h : Ensures I Q p s) : Ensures I Q' p s := by
  induction p generalizing s with
  | ret a => exact hQ a s h
  | ask op next ih => exact ⟨h.1, fun a s' hs ↦ ih a (h.2 a s' hs)⟩

theorem Ensures.and {Q' : α → σ → Prop} {p : Program Op Ans α} {s : σ} (h : Ensures I Q p s)
    (h' : Ensures I Q' p s) : Ensures I (fun a s' ↦ Q a s' ∧ Q' a s') p s := by
  induction p generalizing s with
  | ret a => exact ⟨h, h'⟩
  | ask op next ih => exact ⟨h.1, fun a s' hs ↦ ih a (h.2 a s' hs) (h'.2 a s' hs)⟩

/-- Sequencing. -/
@[simp] theorem ensures_bind {Q : β → σ → Prop} (p : Program Op Ans α) (f : α → Program Op Ans β)
    (s : σ) :
    Ensures I Q (p >>= f) s ↔ Ensures I (fun a s' ↦ Ensures I Q (f a) s') p s := by
  induction p generalizing s with
  | ret a => rfl
  | ask op next ih =>
    rw [ask_bind, ensures_ask, ensures_ask]
    exact and_congr_right fun _ ↦ forall₃_congr fun a s' _ ↦ ih a s'

/-- A request, and what comes after it. -/
theorem ensures_perform_bind {Q : β → σ → Prop} {op : Op} {f : Ans op → Program Op Ans β} {s : σ}
    (hpre : I.pre op s) (h : ∀ a s', I.step op s a s' → Ensures I Q (f a) s') :
    Ensures I Q (perform op >>= f) s :=
  ⟨hpre, h⟩

/-- A program that behaves under what `J` knows of a part of the state behaves on the state, if what
is assumed of the rest is kept. -/
theorem Ensures.of_view_inv (view : σ → τ) {R : σ → Prop} {Q : α → τ → Prop}
    (hpre : ∀ op s, R s → J.pre op (view s) → I.pre op s)
    (hstep : ∀ op s a s', R s → J.pre op (view s) → I.step op s a s' →
      J.step op (view s) a (view s') ∧ R s')
    {p : Program Op Ans α} {s : σ} (h : Ensures J Q p (view s)) (hR : R s) :
    Ensures I (fun a s' ↦ Q a (view s') ∧ R s') p s := by
  induction p generalizing s with
  | ret a => exact ⟨h, hR⟩
  | ask op next ih =>
    refine ⟨hpre op s hR h.1, fun a s' hs ↦ ?_⟩
    obtain ⟨hs', hR'⟩ := hstep op s a s' hR h.1 hs
    exact ih a (h.2 a _ hs') hR'

/-- A program that behaves under what `J` knows of a part of the state behaves on the state. -/
theorem Ensures.of_view (view : σ → τ) {Q : α → τ → Prop}
    (hpre : ∀ op s, J.pre op (view s) → I.pre op s)
    (hstep : ∀ op s a s', J.pre op (view s) → I.step op s a s' → J.step op (view s) a (view s'))
    {p : Program Op Ans α} {s : σ} (h : Ensures J Q p (view s)) :
    Ensures I (fun a s' ↦ Q a (view s')) p s :=
  (h.of_view_inv view (R := fun _ ↦ True) (fun op s _ ↦ hpre op s)
    (fun op s a s' _ hp hs ↦ ⟨hstep op s a s' hp hs, trivial⟩) trivial).mono fun _ _ h ↦ h.1

/-- The state may have been moved along `rely` in the meantime, if the interface reckons with it. -/
theorem Ensures.of_rely {rely : σ → σ → Prop}
    (hpre : ∀ op s t, rely s t → I.pre op s → I.pre op t)
    (hstep : ∀ op s t a s', rely s t → I.step op t a s' → I.step op s a s')
    (hQ : ∀ a s t, rely s t → Q a s → Q a t) {p : Program Op Ans α} {s t : σ}
    (h : Ensures I Q p s) (hst : rely s t) : Ensures I Q p t := by
  cases p with
  | ret a => exact hQ a s t hst h
  | ask op next =>
    exact ⟨hpre op s t hst h.1, fun a s' hs ↦ h.2 a s' (hstep op s t a s' hst hs)⟩

/-- Every request the program can make satisfies `P`. -/
def Asks (P : Op → Prop) : Program Op Ans α → Prop
  | ret _ => True
  | ask op next => P op ∧ ∀ a, Asks P (next a)

@[simp] theorem asks_ret (P : Op → Prop) (a : α) : Asks P (ret a : Program Op Ans α) := trivial

@[simp] theorem asks_pure (P : Op → Prop) (a : α) : Asks P (pure a : Program Op Ans α) := trivial

@[simp] theorem asks_perform {P : Op → Prop} {op : Op} :
    Asks P (perform op : Program Op Ans (Ans op)) ↔ P op :=
  and_iff_left fun _ ↦ trivial

theorem Asks.bind {P : Op → Prop} {p : Program Op Ans α} {f : α → Program Op Ans β}
    (hp : Asks P p) (hf : ∀ a, Asks P (f a)) : Asks P (p >>= f) := by
  induction p with
  | ret a => exact hf a
  | ask op next ih => exact ⟨hp.1, fun a ↦ ih a (hp.2 a)⟩

theorem Asks.mono {P P' : Op → Prop} (h : ∀ op, P op → P' op) {p : Program Op Ans α}
    (hp : Asks P p) : Asks P' p := by
  induction p with
  | ret a => trivial
  | ask op next ih => exact ⟨h op hp.1, fun a ↦ ih a (hp.2 a)⟩

/-- A relation that every request keeps holds between the ends of a run. -/
theorem Asks.ensures_rel {P : Op → Prop} {R : σ → σ → Prop} (hrefl : ∀ s, R s s)
    (htrans : ∀ s₁ s₂ s₃, R s₁ s₂ → R s₂ s₃ → R s₁ s₃) (hpre : ∀ op s, P op → I.pre op s)
    (hstep : ∀ op s a s', P op → I.step op s a s' → R s s') {p : Program Op Ans α}
    (hp : Asks P p) (s : σ) : Ensures I (fun _ s' ↦ R s s') p s := by
  induction p generalizing s with
  | ret a => exact hrefl s
  | ask op next ih =>
    refine ⟨hpre op s hp.1, fun a s₁ hs ↦ (ih a (hp.2 a) s₁).mono fun _ s₂ h ↦ ?_⟩
    exact htrans s s₁ s₂ (hstep op s a s₁ hp.1 hs) h

/-- What every request keeps, and what permits every request, holds at the end of a run. -/
theorem Asks.ensures_invariant {P : Op → Prop} {R : σ → Prop}
    (hpre : ∀ op s, P op → R s → I.pre op s)
    (hstep : ∀ op s a s', P op → R s → I.step op s a s' → R s') {p : Program Op Ans α}
    (hp : Asks P p) {s : σ} (hs : R s) : Ensures I (fun _ s' ↦ R s') p s := by
  induction p generalizing s with
  | ret a => exact hs
  | ask op next ih =>
    exact ⟨hpre op s hp.1 hs, fun a s' hs' ↦ ih a (hp.2 a) (hstep op s a s' hp.1 hs hs')⟩

/-- A program of requests that change nothing changes nothing. -/
theorem Asks.ensures {P : Op → Prop} (hpre : ∀ op s, P op → I.pre op s)
    (hstep : ∀ op s a s', P op → I.step op s a s' → s' = s) {p : Program Op Ans α}
    (hp : Asks P p) (s : σ) : Ensures I (fun _ s' ↦ s' = s) p s :=
  hp.ensures_rel (R := fun s s' ↦ s' = s) (fun _ ↦ rfl) (fun _ _ _ h₁₂ h₂₃ ↦ h₂₃.trans h₁₂)
    hpre hstep s

/-- A run keeps what every request the program can make keeps. -/
theorem Asks.run_invariant {handle : (op : Op) → σ → Ans op × σ} {P : Op → Prop} {Inv : σ → Prop}
    (h : ∀ op s, P op → Inv s → Inv (handle op s).2) {p : Program Op Ans α} (hp : Asks P p) {s : σ}
    (hs : Inv s) : Inv (p.run handle s).2 := by
  induction p generalizing s with
  | ret a => exact hs
  | ask op next ih => exact ih _ (hp.2 _) (h op s hp.1 hs)

/-- Where every request the program can make is permitted, its run is. -/
theorem Asks.guarded {handle : (op : Op) → σ → Ans op × σ} {pre : Op → σ → Prop} {P : Op → Prop}
    (hpre : ∀ op s, P op → pre op s) {p : Program Op Ans α} (hp : Asks P p) (s : σ) :
    Guarded handle pre p s := by
  induction p generalizing s with
  | ret a => trivial
  | ask op next ih => exact ⟨hpre op s hp.1, ih _ (hp.2 _) _⟩

/-- Two requirements are met alike in a run if they agree wherever the run can be, and before a
counter that only grows has come to a bound that it does not reach. -/
theorem Asks.guarded_iff {handle : (op : Op) → σ → Ans op × σ} {pre pre' : Op → σ → Prop}
    {P : Op → Prop} {Inv : σ → Prop} {count : σ → ℕ} {bound : ℕ}
    (hInv : ∀ op s, P op → Inv s → Inv (handle op s).2)
    (hcount : ∀ op s, P op → Inv s → count s ≤ count (handle op s).2)
    (hpre : ∀ op s, P op → Inv s → count (handle op s).2 < bound → (pre op s ↔ pre' op s))
    {p : Program Op Ans α} (hp : Asks P p) {s : σ} (hs : Inv s)
    (hbound : count (p.run handle s).2 < bound) :
    Guarded handle pre p s ↔ Guarded handle pre' p s := by
  induction p generalizing s with
  | ret a => exact Iff.rfl
  | ask op' next ih =>
    have hs' := hInv op' s hp.1 hs
    have hkept : ∀ op t, P op → Inv t ∧ count (handle op' s).2 ≤ count t →
        Inv (handle op t).2 ∧ count (handle op' s).2 ≤ count (handle op t).2 :=
      fun op t hop ht ↦ ⟨hInv op t hop ht.1, Nat.le_trans ht.2 (hcount op t hop ht.1)⟩
    have hgrows := Asks.run_invariant hkept (hp.2 (handle op' s).1) ⟨hs', Nat.le_refl _⟩
    exact and_congr (hpre op' s hp.1 hs (Nat.lt_of_le_of_lt hgrows.2 hbound))
      (ih _ (hp.2 _) hs' hbound)

/-- What is known of every request the program can make may be added to what permits it. -/
theorem Ensures.and_asks {P : Op → Prop} {p : Program Op Ans α} (hp : Asks P p) {s : σ}
    (h : Ensures I Q p s) :
    Ensures { I with pre := fun op s ↦ P op ∧ I.pre op s } Q p s := by
  induction p generalizing s with
  | ret a => exact h
  | ask op next ih => exact ⟨⟨hp.1, h.1⟩, fun a s' hs ↦ ih a (hp.2 a) (h.2 a s' hs)⟩

/-- Nothing is known of the state: which requests may be made, and which answers they get. -/
def Interface.answers (pre : Op → Prop) (ok : (op : Op) → Ans op → Prop) :
    Interface Op Ans Unit where
  pre op _ := pre op
  step op _ a _ := ok op a

/-- The state counts the requests that satisfy `P`; there may be one at most. -/
def Interface.atMostOnce (P : Op → Bool) : Interface Op Ans ℕ where
  pre op n := P op = true → n = 0
  step op n _ n' := n' = n + (P op).toNat

/-- A program that makes no such request does not move the count. -/
theorem Asks.ensures_count {P : Op → Bool} {p : Program Op Ans α}
    (hp : Asks (fun op ↦ P op = false) p) (n : ℕ) :
    Ensures (Interface.atMostOnce P) (fun _ n' ↦ n' = n) p n := by
  refine hp.ensures (fun op _ hop htrue ↦ ?_) (fun op n' _ n'' hop hstep ↦ ?_) n
  · exact absurd (hop.symm.trans htrue) Bool.false_ne_true
  · rw [show n'' = n' + (P op).toNat from hstep, hop]
    rfl

/-- A program whose requests are permitted ensures nothing in particular. -/
theorem Asks.ensures_true {P : Op → Prop} (hpre : ∀ op s, P op → I.pre op s)
    {p : Program Op Ans α} (hp : Asks P p) (s : σ) : Ensures I (fun _ _ ↦ True) p s :=
  hp.ensures_rel (fun _ ↦ trivial) (fun _ _ _ _ _ ↦ trivial) hpre (fun _ _ _ _ _ _ ↦ trivial) s

/-- A deterministic handler as an interface; every request is permitted. -/
def Interface.ofHandler (handle : (op : Op) → σ → Ans op × σ) : Interface Op Ans σ where
  pre _ _ := True
  step op s a s' := handle op s = (a, s')

/-- What is ensured of a handler holds of the run. -/
theorem Ensures.run {handle : (op : Op) → σ → Ans op × σ} {p : Program Op Ans α} {s : σ}
    (h : Ensures (Interface.ofHandler handle) Q p s) :
    Q (p.run handle s).1 (p.run handle s).2 := by
  induction p generalizing s with
  | ret a => exact h
  | ask op next ih => exact ih _ (h.2 _ _ rfl)

/-- A deterministic handler as an interface of which only permitted requests are considered. -/
def Interface.assuming (handle : (op : Op) → σ → Ans op × σ) (pre : Op → σ → Prop) :
    Interface Op Ans σ where
  pre _ _ := True
  step op s a s' := pre op s ∧ a = (handle op s).1 ∧ s' = (handle op s).2

/-- What is ensured of the permitted requests holds of a run in which every request is permitted. -/
theorem Ensures.run_guarded {handle : (op : Op) → σ → Ans op × σ} {pre : Op → σ → Prop}
    {p : Program Op Ans α} {s : σ} (h : Ensures (Interface.assuming handle pre) Q p s)
    (hg : Guarded handle pre p s) : Q (p.run handle s).1 (p.run handle s).2 := by
  induction p generalizing s with
  | ret a => exact h
  | ask op next ih => exact ih _ (h.2 _ _ ⟨hg.1, rfl, rfl⟩) hg.2

/-! ### Returned values -/

/-- Whatever each request is answered with, if it is one of the answers `ok`, the program returns a
value with the property. -/
def Yields (ok : (op : Op) → Ans op → Prop) (Q : α → Prop) (p : Program Op Ans α) : Prop :=
  Ensures (Interface.answers (fun _ ↦ True) ok) (fun a _ ↦ Q a) p ()

section Yields

variable {ok : (op : Op) → Ans op → Prop} {P : α → Prop} {R : β → Prop}

theorem yields_pure {a : α} : Yields ok P (pure a) ↔ P a := Iff.rfl

theorem yields_bind {p : Program Op Ans α} {f : α → Program Op Ans β} :
    Yields ok R (p >>= f) ↔ Yields ok (fun a ↦ Yields ok R (f a)) p :=
  ensures_bind p f ()

theorem yields_perform_bind {op : Op} {f : Ans op → Program Op Ans β} :
    Yields ok R (perform op >>= f) ↔ ∀ a, ok op a → Yields ok R (f a) :=
  ⟨fun h a ha ↦ h.2 a () ha, fun h ↦ ⟨trivial, fun a _ ha ↦ h a ha⟩⟩

theorem Yields.mono {P' : α → Prop} (h : ∀ a, P a → P' a) {p : Program Op Ans α}
    (hp : Yields ok P p) : Yields ok P' p :=
  Ensures.mono (fun a _ ↦ h a) hp

theorem yields_true (p : Program Op Ans α) : Yields ok (fun _ ↦ True) p := by
  induction p with
  | ret a => trivial
  | ask op next ih => exact ⟨trivial, fun a _ _ ↦ ih a⟩

/-- The first part does not matter. -/
theorem yields_bind_of {p : Program Op Ans α} {f : α → Program Op Ans β}
    (h : ∀ a, Yields ok R (f a)) :
    Yields ok R (p >>= f) :=
  yields_bind.2 ((yields_true p).mono fun a _ ↦ h a)

/-- What is yielded is ensured wherever the answers are among those. -/
theorem Yields.ensures {P' : Op → Prop} {p : Program Op Ans α} (h : Yields ok P p) (hp : Asks P' p)
    (hpre : ∀ op s, P' op → I.pre op s)
    (hstep : ∀ op s a s', P' op → I.step op s a s' → ok op a) (s : σ) :
    Ensures I (fun a _ ↦ P a) p s := by
  induction p generalizing s with
  | ret a => exact h
  | ask op next ih =>
    exact ⟨hpre op s hp.1, fun a s' hs ↦
      ih a (h.2 a () (hstep op s a s' hp.1 hs)) (hp.2 a) s'⟩

end Yields

/-! ### Steps -/

/-- One request is answered. -/
inductive Step (step : (op : Op) → σ → Ans op → σ → Prop) :
    Program Op Ans α × σ → Program Op Ans α × σ → Prop
  | ask {op : Op} {next : Ans op → Program Op Ans α} {s s' : σ} {a : Ans op}
      (h : step op s a s') : Step step (ask op next, s) (next a, s')

/-- Any number of requests are answered. -/
def Steps (step : (op : Op) → σ → Ans op → σ → Prop) :
    Program Op Ans α × σ → Program Op Ans α × σ → Prop :=
  Relation.ReflTransGen (Step step)

section Steps

variable {step : (op : Op) → σ → Ans op → σ → Prop}

/-- The first part of a sequence makes its steps. -/
theorem Steps.bind {p p' : Program Op Ans α} {s s' : σ} (h : Steps step (p, s) (p', s'))
    (f : α → Program Op Ans β) : Steps step (p >>= f, s) (p' >>= f, s') := by
  generalize hp : (p', s') = q at h
  induction h generalizing p' s' with
  | refl =>
    obtain ⟨rfl, rfl⟩ := Prod.mk.inj hp
    exact .refl
  | tail _ hlast ih =>
    obtain ⟨hs⟩ := hlast
    obtain ⟨rfl, rfl⟩ := Prod.mk.inj hp
    exact (ih rfl).tail (Step.ask hs)

/-- If requests that are permitted can be answered, what is ensured can be reached. -/
theorem Ensures.exists_steps (hanswer : ∀ op s, I.pre op s → ∃ a s', I.step op s a s')
    {p : Program Op Ans α} {s : σ} (h : Ensures I Q p s) :
    ∃ a s', Steps I.step (p, s) (ret a, s') ∧ Q a s' := by
  induction p generalizing s with
  | ret a => exact ⟨a, s, .refl, h⟩
  | ask op next ih =>
    obtain ⟨a, s₁, hs⟩ := hanswer op s h.1
    obtain ⟨b, s₂, hsteps, hQ⟩ := ih a (h.2 a s₁ hs)
    exact ⟨b, s₂, .head (Step.ask hs) hsteps, hQ⟩

/-- A run in which every request is answered as it may be is a sequence of steps. -/
theorem Guarded.steps {handle : (op : Op) → σ → Ans op × σ} {pre : Op → σ → Prop}
    (hhandle : ∀ op s, pre op s → step op s (handle op s).1 (handle op s).2)
    {p : Program Op Ans α} {s : σ} (h : Guarded handle pre p s) :
    Steps step (p, s) (ret (p.run handle s).1, (p.run handle s).2) := by
  induction p generalizing s with
  | ret a => exact .refl
  | ask op next ih => exact .head (Step.ask (hhandle op s h.1)) (ih _ h.2)

/-- What is ensured stays ensured while requests are answered. -/
theorem Ensures.of_steps {p p' : Program Op Ans α} {s s' : σ} (h : Ensures I Q p s)
    (hsteps : Steps I.step (p, s) (p', s')) : Ensures I Q p' s' := by
  generalize hc : (p', s') = c at hsteps
  induction hsteps generalizing p' s' with
  | refl =>
    obtain ⟨rfl, rfl⟩ := Prod.mk.inj hc
    exact h
  | tail _ hlast ih =>
    obtain ⟨hstep⟩ := hlast
    obtain ⟨rfl, rfl⟩ := Prod.mk.inj hc
    exact (ih rfl).2 _ _ hstep

/-- What a run comes to is what is left of it. -/
theorem Steps.run_eq {handle : (op : Op) → σ → Ans op × σ} {p p' : Program Op Ans α} {s s' : σ}
    (h : Steps (fun op s a s' ↦ handle op s = (a, s')) (p, s) (p', s')) :
    p.run handle s = p'.run handle s' := by
  generalize hc : (p', s') = c at h
  induction h generalizing p' s' with
  | refl =>
    obtain ⟨rfl, rfl⟩ := Prod.mk.inj hc
    rfl
  | tail _ hlast ih =>
    obtain ⟨hstep⟩ := hlast
    obtain ⟨rfl, rfl⟩ := Prod.mk.inj hc
    rw [ih rfl, run_ask, hstep]

theorem Steps.mono {step' : (op : Op) → σ → Ans op → σ → Prop}
    (hstep : ∀ op s a s', step op s a s' → step' op s a s') {c c' : Program Op Ans α × σ}
    (h : Steps step c c') : Steps step' c c' := by
  induction h with
  | refl => exact .refl
  | tail _ hlast ih =>
    obtain ⟨hs⟩ := hlast
    exact ih.tail (Step.ask (hstep _ _ _ _ hs))

end Steps

/-! ### Two runs side by side -/

/-- A deterministic handler beside which the ghost state of an argument evolves. Requests are
permitted by the ghost state. -/
def Interface.ghost {γ : Type} (handle : (op : Op) → σ → Ans op × σ) (pre : Op → γ → Prop)
    (after : Op → γ → γ) : Interface Op Ans (σ × γ) where
  pre op s := pre op s.2
  step op s a s' := handle op s.1 = (a, s'.1) ∧ s'.2 = after op s.2

/-- A ghost state that permits every request and never changes restricts nothing. -/
theorem ensures_ghost_of_fixed {γ : Type} {handle : (op : Op) → σ → Ans op × σ}
    {pre : Op → γ → Prop} {after : Op → γ → γ} {g : γ} (hpre : ∀ op, pre op g)
    (hafter : ∀ op, after op g = g) {Q : α → σ × γ → Prop} {p : Program Op Ans α} {s : σ}
    (h : Q (p.run handle s).1 ((p.run handle s).2, g)) :
    Ensures (Interface.ghost handle pre after) Q p (s, g) := by
  induction p generalizing s with
  | ret a => exact h
  | ask op next ih =>
    refine ⟨hpre op, ?_⟩
    rintro a ⟨s', g'⟩ ⟨hs, hg⟩
    obtain rfl : g' = g := hg.trans (hafter op)
    refine ih a ?_
    rw [run_ask, hs] at h
    exact h

/-- Lockstep: if permitted requests are answered alike in related states and keep them related, the
runs of a program from related states return the same. -/
theorem Ensures.run_congr {γ : Type} {handle : (op : Op) → σ → Ans op × σ} {pre : Op → γ → Prop}
    {after : Op → γ → γ} {R : γ → σ → σ → Prop}
    (h : ∀ op g s t, pre op g → R g s t →
      (handle op t).1 = (handle op s).1 ∧ R (after op g) (handle op s).2 (handle op t).2)
    {Q : α → σ × γ → Prop} {p : Program Op Ans α} {s t : σ} {g : γ}
    (hp : Ensures (Interface.ghost handle pre after) Q p (s, g)) (hst : R g s t) :
    (p.run handle t).1 = (p.run handle s).1 ∧
      ∃ g', R g' (p.run handle s).2 (p.run handle t).2 ∧
        Q (p.run handle s).1 ((p.run handle s).2, g') := by
  induction p generalizing s t g with
  | ret a => exact ⟨rfl, g, hst, hp⟩
  | ask op next ih =>
    obtain ⟨hans, hrel⟩ := h op g s t hp.1 hst
    rw [run_ask, run_ask, hans]
    exact ih _ (hp.2 _ (_, _) ⟨rfl, rfl⟩) hrel

end Ensures

end Program
