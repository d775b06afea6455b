import FastRules.Foundations.Interleaving

/-!
# Traces

The requests of one run of a program with the answers they got. A trace of a sequence is a trace of
the first part followed by a trace of the second (`traces_bind`), which is how statements about the
order of requests are proved. Of several programs that share a state each has its own trace
(`Interleaving.Reaches.history_traces`).
-/

/-- A request with its answer. -/
structure Exchange (Op : Type) (Ans : Op → Type) where
  op : Op
  answer : Ans op

namespace Program

variable {Op : Type} {Ans : Op → Type} {α β : Type}

/-- The program can make these requests and, answered like this, return `a`. -/
inductive Traces : Program Op Ans α → List (Exchange Op Ans) → α → Prop
  | ret (a : α) : Traces (ret a) [] a
  | ask {op : Op} {next : Ans op → Program Op Ans α} {answer : Ans op}
      {t : List (Exchange Op Ans)} {a : α} (h : Traces (next answer) t a) :
      Traces (ask op next) (⟨op, answer⟩ :: t) a

theorem traces_ret {a b : α} {t : List (Exchange Op Ans)} :
    Traces (ret a) t b ↔ t = [] ∧ a = b := by
  constructor
  · rintro ⟨⟩
    exact ⟨rfl, rfl⟩
  · rintro ⟨rfl, rfl⟩
    exact .ret a

theorem traces_pure {a b : α} {t : List (Exchange Op Ans)} :
    Traces (pure a) t b ↔ t = [] ∧ a = b :=
  traces_ret

theorem traces_ask {op : Op} {next : Ans op → Program Op Ans α} {t : List (Exchange Op Ans)}
    {a : α} :
    Traces (ask op next) t a ↔ ∃ answer t', t = ⟨op, answer⟩ :: t' ∧ Traces (next answer) t' a := by
  constructor
  · intro h
    cases h with
    | ask h => exact ⟨_, _, rfl, h⟩
  · rintro ⟨answer, t', rfl, h⟩
    exact .ask h

/-- Sequencing. -/
theorem traces_bind {p : Program Op Ans α} {f : α → Program Op Ans β} {t : List (Exchange Op Ans)}
    {b : β} :
    Traces (p >>= f) t b ↔ ∃ t₁ t₂ a, t = t₁ ++ t₂ ∧ Traces p t₁ a ∧ Traces (f a) t₂ b := by
  induction p generalizing t with
  | ret a =>
    rw [ret_bind]
    constructor
    · exact fun h ↦ ⟨[], t, a, rfl, .ret a, h⟩
    · rintro ⟨t₁, t₂, a', rfl, hp, hf⟩
      obtain ⟨rfl, rfl⟩ := traces_ret.1 hp
      exact hf
  | ask op next ih =>
    rw [ask_bind, traces_ask]
    constructor
    · rintro ⟨answer, t', rfl, h⟩
      obtain ⟨t₁, t₂, a, rfl, hp, hf⟩ := (ih answer).1 h
      exact ⟨_, t₂, a, rfl, .ask hp, hf⟩
    · rintro ⟨t₁, t₂, a, rfl, hp, hf⟩
      obtain ⟨answer, t', rfl, hnext⟩ := traces_ask.1 hp
      exact ⟨answer, t' ++ t₂, rfl, (ih answer).2 ⟨t', t₂, a, rfl, hnext, hf⟩⟩

theorem traces_perform_bind {op : Op} {f : Ans op → Program Op Ans β} {t : List (Exchange Op Ans)}
    {b : β} :
    Traces (perform op >>= f) t b ↔ ∃ answer t', t = ⟨op, answer⟩ :: t' ∧ Traces (f answer) t' b :=
  traces_ask

/-- Every request in a trace is one that the program can make. -/
theorem Traces.forall_mem {P : Op → Prop} {p : Program Op Ans α} {t : List (Exchange Op Ans)}
    {a : α} (h : Traces p t a) (hp : Asks P p) : ∀ e ∈ t, P e.op := by
  induction h with
  | ret a => exact fun e he ↦ absurd he List.not_mem_nil
  | ask _ ih =>
    intro e he
    rcases List.mem_cons.1 he with rfl | he
    · exact hp.1
    · exact ih (hp.2 _) e he

/-- A program that is answered alike makes the same requests and returns the same. -/
theorem Traces.eq_of_append_eq {p : Program Op Ans α} {t t' s s' : List (Exchange Op Ans)}
    {a a' : α} (h : Traces p t a) (h' : Traces p t' a') (heq : t ++ s = t' ++ s') :
    t = t' ∧ a = a' ∧ s = s' := by
  induction h generalizing t' with
  | ret a =>
    obtain ⟨rfl, rfl⟩ := traces_ret.1 h'
    exact ⟨rfl, rfl, heq⟩
  | ask _ ih =>
    obtain ⟨answer, t', rfl, hnext⟩ := traces_ask.1 h'
    obtain ⟨hfirst, hrest⟩ := List.cons.inj heq
    obtain ⟨-, hanswer⟩ := Exchange.mk.inj hfirst
    obtain rfl := eq_of_heq hanswer
    obtain ⟨rfl, ha, hs⟩ := ih hnext hrest
    exact ⟨rfl, ha, hs⟩

/-- The requests of a run with their answers. -/
def exchanges {σ : Type} (handle : (op : Op) → σ → Ans op × σ) :
    Program Op Ans α → σ → List (Exchange Op Ans)
  | ret _, _ => []
  | ask op next, s => ⟨op, (handle op s).1⟩ :: exchanges handle (next (handle op s).1)
      (handle op s).2

theorem traces_exchanges {σ : Type} (handle : (op : Op) → σ → Ans op × σ) (p : Program Op Ans α)
    (s : σ) :
    Traces p (exchanges handle p s) (p.run handle s).1 := by
  induction p generalizing s with
  | ret a => exact .ret a
  | ask op next ih => exact .ask (ih _ _)

/-- What the program yields whatever it is answered with is returned. -/
theorem Traces.of_yields {P : α → Prop} {p : Program Op Ans α} {t : List (Exchange Op Ans)} {a : α}
    (h : Traces p t a) (hp : Yields (fun _ _ ↦ True) P p) : P a := by
  induction h with
  | ret a => exact hp
  | ask _ ih => exact ih (hp.2 _ () trivial)

end Program

namespace Interleaving

variable {ι Op : Type} {Ans : Op → Type} {α σ : Type}

/-- A state with the requests that each thread has made so far. -/
structure Observed (ι Op : Type) (Ans : Op → Type) (σ : Type) where
  state : σ
  history : ι → List (Exchange Op Ans)

variable [DecidableEq ι]

/-- A request is noted in the history of the thread. -/
def observed (step : ι → (op : Op) → σ → Ans op → σ → Prop) (i : ι) (op : Op)
    (s : Observed ι Op Ans σ) (a : Ans op) (s' : Observed ι Op Ans σ) : Prop :=
  step i op s.state a s'.state ∧
    s'.history = Function.update s.history i (s.history i ++ [⟨op, a⟩])

/-- A step of the supervisor is not noted. -/
def unobserved (other : σ → σ → Prop) (_ : ι → Program Op Ans α) (s s' : Observed ι Op Ans σ) :
    Prop :=
  other s.state s'.state ∧ s'.history = s.history

variable {step : ι → (op : Op) → σ → Ans op → σ → Prop} {other : σ → σ → Prop}
  {c c' : Config ι Op Ans α (Observed ι Op Ans σ)}

/-- The history of a thread is the beginning of a trace, and the thread is what is left to do. -/
theorem Reaches.history_traces (h : Reaches (observed step) (unobserved other) c c') {i : ι}
    (hstart : c.state.history i = []) {t : List (Exchange Op Ans)} {a : α}
    (ht : (c'.thread i).Traces t a) : (c.thread i).Traces (c'.state.history i ++ t) a := by
  induction h generalizing t with
  | refl =>
    rw [hstart]
    exact ht
  | tail _ hlast ih =>
    rcases hlast with @⟨j, op, next, answer, s', hthread, hstep⟩ | @⟨s', hother⟩
    · have hhistory : s'.history = _ := hstep.2
      dsimp only at ht ⊢
      rw [hhistory]
      by_cases hij : i = j
      · subst hij
        rw [Function.update_self] at ht ⊢
        rw [List.append_assoc]
        refine ih ?_
        rw [hthread]
        exact .ask ht
      · rw [Function.update_of_ne hij] at ht ⊢
        exact ih ht
    · have hhistory : s'.history = _ := hother.2
      dsimp only
      rw [hhistory]
      exact ih ht

/-- A thread can make its run alone. -/
theorem Reaches.exists_ret {handle : (op : Op) → σ → Ans op × σ} {i : ι}
    (hstep : ∀ op s, step i op s (handle op s).1 (handle op s).2)
    (c : Config ι Op Ans α (Observed ι Op Ans σ)) :
    ∃ s', Reaches (observed step) (unobserved other) c
      ⟨Function.update c.thread i (.ret ((c.thread i).run handle c.state.state).1), s'⟩ := by
  have hsteps (p : Program Op Ans α) (s : Observed ι Op Ans σ) :
      ∃ s', Program.Steps (observed step i) (p, s) (.ret (p.run handle s.state).1, s') := by
    induction p generalizing s with
    | ret a => exact ⟨s, .refl⟩
    | ask op next ih =>
      obtain ⟨s', h⟩ := ih (handle op s.state).1 ⟨(handle op s.state).2,
        Function.update s.history i (s.history i ++ [⟨op, (handle op s.state).1⟩])⟩
      exact ⟨s', .head (.ask ⟨hstep op s.state, rfl⟩) h⟩
  obtain ⟨s', h⟩ := hsteps (c.thread i) c.state
  exact ⟨s', .of_steps h⟩

/-- The history of a thread that has returned is a trace. -/
theorem Reaches.traces_of_ret (h : Reaches (observed step) (unobserved other) c c') {i : ι}
    (hstart : c.state.history i = []) {a : α} (hret : c'.thread i = .ret a) :
    (c.thread i).Traces (c'.state.history i) a := by
  have hrest : (c'.thread i).Traces [] a := by
    rw [hret]
    exact .ret a
  have htraces := h.history_traces hstart hrest
  rwa [List.append_nil] at htraces

end Interleaving
