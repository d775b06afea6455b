import FastRules.Foundations.Custody
import Mathlib.Data.Multiset.Replicate

/-!
# Counters that threads share

Threads make calls that add to counters, load them and store to them, one access at a time; an
addition wraps at a modulus. A thread has in its custody what it is still to add. As long as nobody
stores and the totals fit, nothing is lost (`Balanced.step`): the counters with what is in custody
make up the totals, so that they only grow, and what a call loads lies between what the counter held
when the call began and what it holds now (`Bracketed.step`).
-/

namespace SharedCounters

variable {ι κ : Type}

/-- An access to a counter. -/
inductive Access (κ : Type)
  | add (c : κ) (n : ℕ)
  | load (c : κ)
  | store (c : κ) (n : ℕ)

/-- A thread: what is left of its call, what it has loaded in it, and the calls to come. -/
structure Thread (κ : Type) where
  left : List (Access κ) := []
  loaded : List (κ × ℕ) := []
  calls : List (List (Access κ)) := []

structure Config (ι κ : Type) where
  counters : κ → ℕ
  threads : ι → Thread κ

/-- All counters are zero, and no thread has begun a call. -/
def Config.start (calls : ι → List (List (Access κ))) : Config ι κ where
  counters _ := 0
  threads i := { calls := calls i }

/-- A thread begins its next call, or makes one access. -/
inductive Step [DecidableEq ι] [DecidableEq κ] (modulus : ℕ) : Config ι κ → Config ι κ → Prop
  | begin {s : Config ι κ} {i : ι} {loaded call calls}
      (h : s.threads i = ⟨[], loaded, call :: calls⟩) :
      Step modulus s ⟨s.counters, Function.update s.threads i ⟨call, [], calls⟩⟩
  | add {s : Config ι κ} {i : ι} {c n left loaded calls}
      (h : s.threads i = ⟨.add c n :: left, loaded, calls⟩) :
      Step modulus s ⟨Function.update s.counters c ((s.counters c + n) % modulus),
        Function.update s.threads i ⟨left, loaded, calls⟩⟩
  | load {s : Config ι κ} {i : ι} {c left loaded calls}
      (h : s.threads i = ⟨.load c :: left, loaded, calls⟩) :
      Step modulus s ⟨s.counters,
        Function.update s.threads i ⟨left, loaded ++ [(c, s.counters c)], calls⟩⟩
  | store {s : Config ι κ} {i : ι} {c n left loaded calls}
      (h : s.threads i = ⟨.store c n :: left, loaded, calls⟩) :
      Step modulus s ⟨Function.update s.counters c n,
        Function.update s.threads i ⟨left, loaded, calls⟩⟩

/-! ### Schedules -/

section Schedules

variable [DecidableEq ι] [DecidableEq κ]

/-- The thread does what it does next, if it is not done. -/
def Config.advance (modulus : ℕ) (s : Config ι κ) (i : ι) : Config ι κ :=
  match s.threads i with
  | ⟨[], _, []⟩ => s
  | ⟨[], _, call :: calls⟩ => ⟨s.counters, Function.update s.threads i ⟨call, [], calls⟩⟩
  | ⟨.add c n :: left, loaded, calls⟩ =>
    ⟨Function.update s.counters c ((s.counters c + n) % modulus),
      Function.update s.threads i ⟨left, loaded, calls⟩⟩
  | ⟨.load c :: left, loaded, calls⟩ =>
    ⟨s.counters, Function.update s.threads i ⟨left, loaded ++ [(c, s.counters c)], calls⟩⟩
  | ⟨.store c n :: left, loaded, calls⟩ =>
    ⟨Function.update s.counters c n, Function.update s.threads i ⟨left, loaded, calls⟩⟩

/-- Threads are advanced in turn. -/
def Config.follow (modulus : ℕ) (s : Config ι κ) (schedule : List ι) : Config ι κ :=
  schedule.foldl (advance modulus) s

theorem reaches_advance (modulus : ℕ) (s : Config ι κ) (i : ι) :
    Relation.ReflTransGen (Step modulus) s (s.advance modulus i) := by
  rw [Config.advance]
  split
  · exact .refl
  · rename_i h
    exact .single (.begin h)
  · rename_i h
    exact .single (.add h)
  · rename_i h
    exact .single (.load h)
  · rename_i h
    exact .single (.store h)

theorem reaches_follow (modulus : ℕ) (s : Config ι κ) (schedule : List ι) :
    Relation.ReflTransGen (Step modulus) s (s.follow modulus schedule) := by
  induction schedule generalizing s with
  | nil => exact .refl
  | cons i schedule ih => exact (reaches_advance modulus s i).trans (ih _)

end Schedules

/-! ### What is owed -/

/-- What the accesses add to the counters, one by one. -/
def added : List (Access κ) → Multiset κ
  | [] => 0
  | .add c n :: accesses => added accesses + Multiset.replicate n c
  | .load _ :: accesses | .store _ _ :: accesses => added accesses

/-- What the thread is still to add. -/
def Thread.owed (t : Thread κ) : Multiset κ :=
  added t.left + (t.calls.map added).sum

/-- The thread stores nothing. -/
def Thread.Adds (t : Thread κ) : Prop :=
  ∀ call ∈ t.left :: t.calls, ∀ c n, .store c n ∉ call

/-- The thread has made all its calls. -/
def Thread.Done (t : Thread κ) : Prop :=
  t.left = [] ∧ t.calls = []

theorem Thread.Done.owed {t : Thread κ} (h : t.Done) : t.owed = 0 := by
  rw [Thread.owed, h.1, h.2]
  rfl

/-- The counters and what is owed to them make up the totals. -/
structure Balanced [Fintype ι] [DecidableEq κ] (total : Multiset κ) (s : Config ι κ) : Prop where
  balance : ∀ c, s.counters c + (custody Thread.owed s.threads).count c = total.count c
  adds : ∀ i, (s.threads i).Adds

section Steps

variable [Fintype ι] [DecidableEq ι] [DecidableEq κ] {total : Multiset κ} {modulus : ℕ}
  {s s' : Config ι κ} {i : ι}

omit [DecidableEq ι] in
theorem balanced_start {calls : ι → List (List (Access κ))}
    (hadds : ∀ i, ∀ call ∈ calls i, ∀ c n, .store c n ∉ call) :
    Balanced (custody Thread.owed (Config.start calls).threads) (Config.start calls) where
  balance _ := Nat.zero_add _
  adds i := List.forall_mem_cons.2 ⟨fun _ _ ↦ List.not_mem_nil, hadds i⟩

theorem Balanced.adds_update (h : Balanced total s) {t : Thread κ} (ht : t.Adds) (j : ι) :
    (Function.update s.threads i t j).Adds := by
  rcases eq_or_ne j i with rfl | hne
  · rwa [Function.update_self]
  · rw [Function.update_of_ne hne]
    exact h.adds j

omit [DecidableEq ι] in
theorem Balanced.adds_cons (h : Balanced total s) {access : Access κ} {left loaded calls}
    (hi : s.threads i = ⟨access :: left, loaded, calls⟩) (loaded' : List (κ × ℕ)) :
    (⟨left, loaded', calls⟩ : Thread κ).Adds := by
  have hadds := h.adds i
  rw [hi] at hadds
  obtain ⟨hleft, hcalls⟩ := List.forall_mem_cons.1 hadds
  exact List.forall_mem_cons.2 ⟨fun c n hmem ↦ hleft c n (List.mem_cons_of_mem access hmem), hcalls⟩

/-- **Nothing is lost.** A step keeps the balance if the totals fit, and no counter goes down. -/
theorem Balanced.step (h : Balanced total s) (hfit : ∀ c, total.count c < modulus)
    (hstep : Step modulus s s') : Balanced total s' ∧ ∀ c, s.counters c ≤ s'.counters c := by
  cases hstep with
  | @begin i loaded call calls hi =>
    have howed : Thread.owed ⟨call, [], calls⟩ = (s.threads i).owed := by
      rw [hi, Thread.owed, Thread.owed, List.map_cons, List.sum_cons]
      exact (zero_add _).symm
    refine ⟨⟨fun c ↦ ?_, h.adds_update ?_⟩, fun c ↦ le_rfl⟩
    · show s.counters c + (custody Thread.owed (Function.update s.threads i _)).count c = _
      rw [custody_update_keep howed]
      exact h.balance c
    · have hadds := h.adds i
      rw [hi] at hadds
      exact (List.forall_mem_cons.1 hadds).2
  | @add i c n left loaded calls hi =>
    have howed : (s.threads i).owed =
        Thread.owed ⟨left, loaded, calls⟩ + Multiset.replicate n c := by
      rw [hi, Thread.owed, Thread.owed, added, add_right_comm]
    have hcustody := custody_update_give howed
    have hbalance (c' : κ) :
        Function.update s.counters c ((s.counters c + n) % modulus) c' =
          s.counters c' + (Multiset.replicate n c).count c' := by
      have htotal := h.balance c'
      rw [← hcustody, Multiset.count_add] at htotal
      rcases eq_or_ne c' c with rfl | hne
      · rw [Multiset.count_replicate_self] at htotal ⊢
        rw [Function.update_self]
        have := hfit c'
        exact Nat.mod_eq_of_lt (by omega)
      · rw [Function.update_of_ne hne, Multiset.count_replicate, if_neg hne.symm, Nat.add_zero]
    refine ⟨⟨fun c' ↦ ?_, h.adds_update (h.adds_cons hi loaded)⟩, fun c' ↦ ?_⟩
    · show Function.update s.counters c _ c' +
        (custody Thread.owed (Function.update s.threads i _)).count c' = _
      have htotal := h.balance c'
      rw [← hcustody, Multiset.count_add] at htotal
      rw [hbalance c']
      omega
    · show s.counters c' ≤ Function.update s.counters c _ c'
      rw [hbalance c']
      exact Nat.le_add_right _ _
  | @load i c left loaded calls hi =>
    have howed : Thread.owed ⟨left, loaded ++ [(c, s.counters c)], calls⟩ = (s.threads i).owed := by
      rw [hi]
      rfl
    refine ⟨⟨fun c' ↦ ?_, h.adds_update (h.adds_cons hi _)⟩, fun c' ↦ le_rfl⟩
    show s.counters c' + (custody Thread.owed (Function.update s.threads i _)).count c' = _
    rw [custody_update_keep howed]
    exact h.balance c'
  | @store i c n left loaded calls hi =>
    have hadds := h.adds i
    rw [hi] at hadds
    exact absurd List.mem_cons_self (hadds _ List.mem_cons_self c n)

end Steps

/-! ### What is loaded -/

/-- The counters that the accesses load. -/
def loads : List (Access κ) → List κ
  | [] => []
  | .load c :: accesses => c :: loads accesses
  | .add _ _ :: accesses | .store _ _ :: accesses => loads accesses

/-- What is loaded in a call, with what it is still to load. -/
def Thread.loading (t : Thread κ) : List κ :=
  t.loaded.map Prod.fst ++ loads t.left

section Loads

variable [DecidableEq ι] [DecidableEq κ] {modulus : ℕ} {s s' : Config ι κ}

/-- What a step is for any of the threads: it begins a call, or goes on in it and may load something
meanwhile. -/
theorem Step.thread (hstep : Step modulus s s') (i : ι) :
    (s.threads i).calls = (s'.threads i).left :: (s'.threads i).calls ∨
    (s'.threads i).calls = (s.threads i).calls ∧ (s'.threads i).left <:+ (s.threads i).left ∧
      (s'.threads i).loading = (s.threads i).loading ∧
      ((s'.threads i).loaded = (s.threads i).loaded ∨
        ∃ c, (s.threads i).left = .load c :: (s'.threads i).left ∧ s'.counters = s.counters ∧
          (s'.threads i).loaded = (s.threads i).loaded ++ [(c, s.counters c)]) := by
  -- a step of another thread
  have hother {j : ι} {t : Thread κ} (hne : i ≠ j) : Function.update s.threads j t i = s.threads i :=
    Function.update_of_ne hne _ _
  cases hstep with dsimp only
  | @begin j loaded call calls hj =>
    rcases eq_or_ne i j with rfl | hne
    · refine .inl ?_
      rw [Function.update_self, hj]
    · rw [hother hne]
      exact .inr ⟨rfl, List.suffix_rfl, rfl, .inl rfl⟩
  | @add j c n left loaded calls hj =>
    refine .inr ?_
    rcases eq_or_ne i j with rfl | hne
    · rw [Function.update_self, hj]
      exact ⟨rfl, List.suffix_cons _ _, rfl, .inl rfl⟩
    · rw [hother hne]
      exact ⟨rfl, List.suffix_rfl, rfl, .inl rfl⟩
  | @load j c left loaded calls hj =>
    refine .inr ?_
    rcases eq_or_ne i j with rfl | hne
    · rw [Function.update_self, hj]
      refine ⟨rfl, List.suffix_cons _ _, ?_, .inr ⟨c, rfl, rfl, rfl⟩⟩
      rw [Thread.loading, Thread.loading, List.map_append, List.append_assoc]
      rfl
    · rw [hother hne]
      exact ⟨rfl, List.suffix_rfl, rfl, .inl rfl⟩
  | @store j c n left loaded calls hj =>
    refine .inr ?_
    rcases eq_or_ne i j with rfl | hne
    · rw [Function.update_self, hj]
      exact ⟨rfl, List.suffix_cons _ _, rfl, .inl rfl⟩
    · rw [hother hne]
      exact ⟨rfl, List.suffix_rfl, rfl, .inl rfl⟩

/-- The thread has begun another call since, or what it has loaded was in the counters after those
were `before`. -/
def Bracketed (before : κ → ℕ) (call : List (Access κ)) (calls : List (List (Access κ))) (i : ι)
    (s : Config ι κ) : Prop :=
  (s.threads i).calls.length < calls.length ∨
    (s.threads i).calls = calls ∧ (s.threads i).loading = loads call ∧
      (∀ c, before c ≤ s.counters c) ∧
      ∀ e ∈ (s.threads i).loaded, before e.1 ≤ e.2 ∧ e.2 ≤ s.counters e.1

variable {before : κ → ℕ} {call : List (Access κ)} {calls : List (List (Access κ))} {i : ι}

omit [DecidableEq ι] [DecidableEq κ] in
theorem bracketed_start (hi : s.threads i = ⟨call, [], calls⟩) :
    Bracketed s.counters call calls i s := by
  refine .inr ?_
  rw [hi]
  exact ⟨rfl, rfl, fun _ ↦ le_rfl, fun e he ↦ absurd he List.not_mem_nil⟩

/-- **What is loaded was there.** It lies between what the counters held at the start of the call
and what they hold now. -/
theorem Bracketed.step (h : Bracketed before call calls i s) (hstep : Step modulus s s')
    (hle : ∀ c, s.counters c ≤ s'.counters c) : Bracketed before call calls i s' := by
  rcases h with hlater | ⟨hcalls, hloading, hbefore, hloaded⟩
  · refine .inl (lt_of_le_of_lt ?_ hlater)
    rcases hstep.thread i with hbegin | ⟨hsame, -⟩
    · rw [hbegin]
      exact Nat.le_succ _
    · rw [hsame]
  · rcases hstep.thread i with hbegin | ⟨hsame, -, hloading', hgo⟩
    · refine .inl ?_
      rw [← hcalls, hbegin]
      exact Nat.lt_succ_self _
    · refine .inr ⟨hsame.trans hcalls, hloading'.trans hloading,
        fun c ↦ (hbefore c).trans (hle c), fun e he ↦ ?_⟩
      have hmem : e ∈ (s.threads i).loaded ∨ e.2 = s.counters e.1 := by
        rcases hgo with hkeep | ⟨c, -, -, hnew⟩
        · exact .inl (hkeep ▸ he)
        · rw [hnew] at he
          refine (List.mem_append.1 he).imp_right fun he ↦ ?_
          rw [List.mem_singleton.1 he]
      rcases hmem with he | he
      · exact ⟨(hloaded e he).1, (hloaded e he).2.trans (hle e.1)⟩
      · rw [he]
        exact ⟨hbefore e.1, hle e.1⟩

/-- What the thread has loaded from the counter in its call, or would load now. -/
def Config.seen (s : Config ι κ) (i : ι) (c : κ) : ℕ :=
  ((s.threads i).loaded.lookup c).getD (s.counters c)

/-- What a thread sees of a counter in one call does not go down. -/
theorem Step.seen_le (hstep : Step modulus s s') (hle : ∀ c, s.counters c ≤ s'.counters c)
    (hcalls : (s'.threads i).calls = (s.threads i).calls) (c : κ) : s.seen i c ≤ s'.seen i c := by
  rcases hstep.thread i with hbegin | ⟨-, -, -, hkeep | ⟨c', -, hcounters, hnew⟩⟩
  · rw [hcalls] at hbegin
    exact absurd (congrArg List.length hbegin) (Nat.ne_of_lt (Nat.lt_succ_self _))
  · rw [Config.seen, Config.seen, hkeep]
    rcases (s.threads i).loaded.lookup c with - | n
    · exact hle c
    · exact le_rfl
  · rw [Config.seen, Config.seen, hnew, hcounters, List.lookup_append]
    rcases (s.threads i).loaded.lookup c with - | n
    · rcases eq_or_ne c c' with rfl | hne
      · simp
      · have hkey : (c == c') = false := beq_false_of_ne hne
        simp [List.lookup_cons, hkey]
    · exact le_rfl

omit [DecidableEq ι] in
theorem loaded_eq_map {l : List (κ × ℕ)} (h : (l.map Prod.fst).Nodup) :
    l = (l.map Prod.fst).map fun c ↦ (c, (l.lookup c).getD 0) := by
  induction l with
  | nil => rfl
  | cons e l ih =>
    obtain ⟨c, n⟩ := e
    obtain ⟨hnew, hl⟩ := List.nodup_cons.1 h
    rw [List.map_cons, List.map_cons, List.lookup_cons_self]
    refine congrArg _ ((ih hl).trans (List.map_congr_left fun c' hc' ↦ ?_))
    have hne : (c' == c) = false := beq_false_of_ne fun heq ↦ hnew (heq ▸ hc')
    rw [List.lookup_cons, hne]

end Loads

end SharedCounters
