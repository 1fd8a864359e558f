import Mathlib.Data.List.Induction
import Letopis.Interleaving.Prog

/-!
# Interleavings of threads over one store

A `Config` is a store shared by a family of threads, one for each index of an arbitrary type
`ι`. A scheduled step `(i, f)` lets thread `i` make its next call under the fault `f`; the call
is atomic, and everything between two calls is local to the thread. A schedule is a list of
such steps, so a statement about all schedules is a statement about every interleaving and
every pattern of faults, and each prefix of a schedule is a schedule: what is proved at the
end of every schedule holds in every state reached.

Threads record what they observe. The record has no influence on the run; it is there so
that a *step condition* can speak about what the thread taking the step has seen so far
(`Config.Meets`).
-/

namespace Interleaving

open List Function

variable {I : Interface} {ι α σ φ : Type}

/-- The rest of a thread's program, with what the thread has observed so far. -/
structure Thread (I : Interface) (α : Type) where
  /-- What remains to be run. -/
  prog : Prog I α
  /-- The observations made, most recent first. -/
  seen : List (Obs I)

/-- A thread that has not started yet. -/
def Thread.fresh (p : Prog I α) : Thread I α := ⟨p, []⟩

/-- A store shared by the threads of a family. -/
structure Config (ι : Type) (I : Interface) (α σ : Type) where
  /-- The shared store. -/
  store : σ
  /-- The threads, finished ones included. -/
  threads : ι → Thread I α

namespace Config

/-- The configuration in which every thread still has its whole program to run. -/
def initial (s : σ) (p : ι → Prog I α) : Config ι I α σ := ⟨s, fun i => .fresh (p i)⟩

/-- Thread `i` has returned `a`. -/
def Returned (cfg : Config ι I α σ) (i : ι) (a : α) : Prop := (cfg.threads i).prog = .ret a

/-- The next call of thread `i` is `c`. -/
def AboutTo (cfg : Config ι I α σ) (i : ι) (c : I.Call) : Prop :=
  ∃ k, (cfg.threads i).prog = .call c k

/-- What a thread has returned, if it has. -/
def result (cfg : Config ι I α σ) (i : ι) : Option α :=
  match (cfg.threads i).prog with
  | .ret a => some a
  | .call _ _ => none

variable {cfg : Config ι I α σ} {sched : List (ι × φ)}
  {C : ι → List (Obs I) → I.Call → φ → σ → Prop}

theorem returned_iff {i : ι} {a : α} : cfg.Returned i a ↔ cfg.result i = some a := by
  unfold Returned result
  split <;> simp_all

/-- Every thread has returned. -/
def Finished (cfg : Config ι I α σ) : Prop := ∀ i, ∃ a, cfg.Returned i a

theorem finished_iff : cfg.Finished ↔ ∀ i, (cfg.result i).isSome := by
  simp only [Finished, returned_iff, Option.isSome_iff_exists]

variable [DecidableEq ι] (h : Handler I φ σ)

/-- One scheduled step: the chosen thread makes its next call; a finished thread does
nothing. -/
def step (cfg : Config ι I α σ) (a : ι × φ) : Config ι I α σ :=
  match (cfg.threads a.1).prog with
  | .ret _ => cfg
  | .call c k =>
    let reply := h c a.2 cfg.store
    ⟨reply.2, update cfg.threads a.1
      ⟨k reply.1, ⟨c, reply.1⟩ :: (cfg.threads a.1).seen⟩⟩

/-- Run a schedule from left to right. -/
def run (cfg : Config ι I α σ) (sched : List (ι × φ)) : Config ι I α σ :=
  sched.foldl (step h) cfg

@[simp] theorem run_nil (cfg : Config ι I α σ) : cfg.run h [] = cfg := rfl

@[simp] theorem run_cons (cfg : Config ι I α σ) (a : ι × φ) (sched : List (ι × φ)) :
    cfg.run h (a :: sched) = (cfg.step h a).run h sched := rfl

theorem run_append (cfg : Config ι I α σ) (s t : List (ι × φ)) :
    cfg.run h (s ++ t) = (cfg.run h s).run h t :=
  foldl_append

theorem step_of_ret {a : ι × φ} {b : α} (hb : cfg.Returned a.1 b) : cfg.step h a = cfg := by
  rw [Returned] at hb
  simp only [step, hb]

theorem step_of_call {a : ι × φ} {c : I.Call} {k : I.Reply c → Prog I α}
    (hc : (cfg.threads a.1).prog = .call c k) :
    cfg.step h a = ⟨(h c a.2 cfg.store).2, update cfg.threads a.1
      ⟨k (h c a.2 cfg.store).1, ⟨c, (h c a.2 cfg.store).1⟩ :: (cfg.threads a.1).seen⟩⟩ := by
  simp only [step, hc]

theorem run_pair {a b : ι × φ} (hne : b.1 ≠ a.1) {c d : I.Call} {k : I.Reply c → Prog I α}
    {l : I.Reply d → Prog I α} (hc : (cfg.threads a.1).prog = .call c k)
    (hd : (cfg.threads b.1).prog = .call d l) :
    let s := (cfg.step h a).store
    s = (h c a.2 cfg.store).2 ∧ (cfg.run h [a, b]).store = (h d b.2 s).2 ∧
      ((cfg.run h [a, b]).threads b.1).prog = l (h d b.2 s).1 := by
  have hnext : ((cfg.step h a).threads b.1).prog = .call d l := by
    rw [step_of_call h hc]
    simpa only [update_of_ne hne] using hd
  refine ⟨by rw [step_of_call h hc], ?_, ?_⟩
  · rw [run_cons, run_cons, run_nil, step_of_call h hnext]
  · rw [run_cons, run_cons, run_nil, step_of_call h hnext]
    simp only [update_self]

/-! ### The calls of a run -/

/-- The calls that a schedule makes, in order, each with the thread that makes it. -/
def calls : Config ι I α σ → List (ι × φ) → List (ι × I.Call)
  | _, [] => []
  | cfg, a :: sched =>
    match (cfg.threads a.1).prog with
    | .ret _ => (cfg.step h a).calls sched
    | .call c _ => (a.1, c) :: (cfg.step h a).calls sched

theorem calls_append (cfg : Config ι I α σ) (s t : List (ι × φ)) :
    cfg.calls h (s ++ t) = cfg.calls h s ++ (cfg.run h s).calls h t := by
  induction s generalizing cfg with
  | nil => rfl
  | cons a s ih =>
    rw [cons_append, calls, calls, ih, run_cons]
    split <;> rfl

/-- A step makes no call and changes nothing, or makes one and leaves the store that it leads to. -/
theorem step_calls (cfg : Config ι I α σ) (a : ι × φ) :
    (cfg.step h a = cfg ∧ cfg.calls h [a] = []) ∨
      ∃ c k, (cfg.threads a.1).prog = .call c k ∧ cfg.calls h [a] = [(a.1, c)] ∧
        (cfg.step h a).store = (h c a.2 cfg.store).2 := by
  rcases hp : (cfg.threads a.1).prog with b | ⟨c, k⟩
  · exact .inl ⟨step_of_ret h hp, by simp [calls, hp]⟩
  · exact .inr ⟨c, k, rfl, by simp [calls, hp], by rw [step_of_call h hp]⟩

/-- What a thread has observed, it has observed at some step of the run. -/
theorem exists_step_of_mem_seen {i : ι} {o : Obs I}
    (ho : o ∈ ((cfg.run h sched).threads i).seen) :
    o ∈ (cfg.threads i).seen ∨ ∃ s f t k, sched = s ++ (i, f) :: t ∧
      ((cfg.run h s).threads i).prog = .call o.1 k ∧ o.2 = (h o.1 f (cfg.run h s).store).1 := by
  induction sched generalizing cfg with
  | nil => exact .inl ho
  | cons a sched ih =>
    rcases ih ho with hseen | ⟨s, f, t, k, rfl, hprog, hreply⟩
    · rcases hp : (cfg.threads a.1).prog with b | ⟨c, k⟩
      · rw [step_of_ret h hp] at hseen
        exact .inl hseen
      · rw [step_of_call h hp] at hseen
        dsimp only at hseen
        by_cases hia : i = a.1
        · subst hia
          rw [update_self, mem_cons] at hseen
          rcases hseen with rfl | hseen
          · exact .inr ⟨[], a.2, sched, k, rfl, hp, rfl⟩
          · exact .inl hseen
        · rw [update_of_ne hia] at hseen
          exact .inl hseen
    · exact .inr ⟨a :: s, f, t, k, rfl, hprog, hreply⟩

theorem mem_calls_of_mem_seen {i : ι} {o : Obs I} (ho : o ∈ ((cfg.run h sched).threads i).seen) :
    o ∈ (cfg.threads i).seen ∨ (i, o.1) ∈ cfg.calls h sched := by
  refine (exists_step_of_mem_seen h ho).imp_right ?_
  rintro ⟨s, f, t, k, rfl, hprog, -⟩
  rw [calls_append, calls, hprog]
  exact mem_append_right _ mem_cons_self

/-- A thread that has observed nothing still has its whole program to run. -/
theorem prog_of_seen_eq_nil {s : σ} {p : ι → Prog I α} {i : ι}
    (hi : (((initial s p).run h sched).threads i).seen = []) :
    (((initial s p).run h sched).threads i).prog = p i := by
  induction sched using List.reverseRecOn with
  | nil => rfl
  | append_singleton sched a ih =>
    rw [run_append, run_cons, run_nil] at hi ⊢
    rcases hp : (((initial s p).run h sched).threads a.1).prog with b | ⟨c, k⟩
    · rw [step_of_ret h hp] at hi ⊢
      exact ih hi
    · rw [step_of_call h hp] at hi ⊢
      dsimp only at hi ⊢
      by_cases hia : i = a.1
      · subst hia
        simp at hi
      · rw [update_of_ne hia] at hi ⊢
        exact ih hi

/-! ### Step conditions -/

/-- The step `a` meets the condition `C`: if it makes a call, `C` holds of the thread, of
what the thread has seen, of the call and its fault, and of the store before the call. -/
def StepMeets (C : ι → List (Obs I) → I.Call → φ → σ → Prop) (cfg : Config ι I α σ)
    (a : ι × φ) : Prop :=
  ∀ c k, (cfg.threads a.1).prog = .call c k → C a.1 (cfg.threads a.1).seen c a.2 cfg.store

instance (C : ι → List (Obs I) → I.Call → φ → σ → Prop)
    [∀ i seen c f s, Decidable (C i seen c f s)] (cfg : Config ι I α σ) (a : ι × φ) :
    Decidable (cfg.StepMeets C a) :=
  match hp : (cfg.threads a.1).prog with
  | .ret b => isTrue fun c k hc => by rw [hp] at hc; cases hc
  | .call c k => decidable_of_iff (C a.1 (cfg.threads a.1).seen c a.2 cfg.store)
      ⟨fun h c' k' hc => by rw [hp] at hc; cases hc; exact h, fun h => h c k hp⟩

/-- Every step of the schedule meets the condition where it is taken. -/
def Meets (C : ι → List (Obs I) → I.Call → φ → σ → Prop) :
    Config ι I α σ → List (ι × φ) → Prop
  | _, [] => True
  | cfg, a :: sched => cfg.StepMeets C a ∧ (cfg.step h a).Meets C sched

instance decidableMeets (C : ι → List (Obs I) → I.Call → φ → σ → Prop)
    [∀ i seen c f s, Decidable (C i seen c f s)] :
    (cfg : Config ι I α σ) → (sched : List (ι × φ)) → Decidable (cfg.Meets h C sched)
  | _, [] => isTrue trivial
  | cfg, a :: sched =>
    have := decidableMeets C (cfg.step h a) sched
    inferInstanceAs (Decidable (_ ∧ _))

variable {h}

theorem meets_append {s t : List (ι × φ)} :
    cfg.Meets h C (s ++ t) ↔ cfg.Meets h C s ∧ (cfg.run h s).Meets h C t := by
  induction s generalizing cfg with
  | nil => simp [Meets]
  | cons a s ih => simp only [cons_append, Meets, ih, run_cons, and_assoc]

theorem meets_true {s : List (ι × φ)} : cfg.Meets h (fun _ _ _ _ _ => True) s := by
  induction s generalizing cfg with
  | nil => trivial
  | cons a s ih => exact ⟨fun _ _ _ => trivial, ih⟩

/-- A schedule meets a condition if every one of its steps does where it is taken. -/
theorem meets_of_forall (hstep : ∀ p a, p ++ [a] <+: sched → (cfg.run h p).StepMeets C a) :
    cfg.Meets h C sched := by
  induction sched generalizing cfg with
  | nil => trivial
  | cons a sched ih =>
    refine ⟨hstep [] a ⟨sched, rfl⟩, ih fun p b hp => ?_⟩
    exact hstep (a :: p) b ((prefix_cons_inj a).mpr hp)

theorem Meets.mono {D : ι → List (Obs I) → I.Call → φ → σ → Prop}
    (hCD : ∀ i seen c f s, C i seen c f s → D i seen c f s) (hm : cfg.Meets h C sched) :
    cfg.Meets h D sched := by
  induction sched generalizing cfg with
  | nil => trivial
  | cons a sched ih =>
    exact ⟨fun c k hc => hCD _ _ _ _ _ (hm.1 c k hc), ih hm.2⟩

theorem Meets.and {D : ι → List (Obs I) → I.Call → φ → σ → Prop} (hC : cfg.Meets h C sched)
    (hD : cfg.Meets h D sched) :
    cfg.Meets h (fun i seen c f s => C i seen c f s ∧ D i seen c f s) sched := by
  induction sched generalizing cfg with
  | nil => trivial
  | cons a sched ih =>
    exact ⟨fun c k hc => ⟨hC.1 c k hc, hD.1 c k hc⟩, ih hC.2 hD.2⟩

/-- The run rule: what every step meeting the condition preserves, every schedule meeting
the condition preserves. -/
theorem run_induction {P : Config ι I α σ → Prop}
    (hstep : ∀ cfg a, P cfg → cfg.StepMeets C a → P (cfg.step h a)) (h0 : P cfg)
    (hm : cfg.Meets h C sched) : P (cfg.run h sched) := by
  induction sched generalizing cfg with
  | nil => exact h0
  | cons a sched ih => exact ih (hstep cfg a h0 hm.1) hm.2

end Config

end Interleaving
