import Letopis.Interleaving.Pool

/-!
# What a program does, said once

`Along P Q p seen` is a specification of a program by itself, without any store: whatever
replies its calls get, every call it makes is one that `P` allows after what the program has
seen so far, and what it returns is as `Q` says. It is proved once for a program; every
invariant of a pool of such programs is then proved from `P` alone, never from the program
text.

The invariants come as an `Account`: a predicate on the store, and for each thread a relation
between what it has seen and the store. A `Ledger` is an account made of *facts*, one for each
observation a thread has made. Facts are about the store as it is now, so they have to survive
the steps of the other threads; in exchange a thread may use the facts of everything it has seen
when it makes a call. `Account.Holds.run` and `Ledger.Holds.run` are the resulting rules: one
obligation for a single call, and the account is right after every schedule.
-/

namespace Interleaving

variable {I : Interface} {ι α β σ φ : Type}

/-- Whatever its calls are answered, the program makes only calls allowed by `P` and returns
only values allowed by `Q`, given what it has seen. -/
def Along (P : List (Obs I) → I.Call → Prop) (Q : α → List (Obs I) → Prop) :
    Prog I α → List (Obs I) → Prop
  | .ret a, seen => Q a seen
  | .call c k, seen => P seen c ∧ ∀ r, Along P Q (k r) (⟨c, r⟩ :: seen)

namespace Along

variable {P : List (Obs I) → I.Call → Prop} {Q : α → List (Obs I) → Prop}
  {seen : List (Obs I)}

@[simp] theorem ret_iff {a : α} : Along P Q (.ret a) seen ↔ Q a seen := Iff.rfl

theorem ask_bind_iff {c : I.Call} {f : I.Reply c → Prog I α} :
    Along P Q (Prog.ask c >>= f) seen ↔ P seen c ∧ ∀ r, Along P Q (f r) (⟨c, r⟩ :: seen) :=
  Iff.rfl

theorem bind_iff {p : Prog I α} {q : α → Prog I β} {R : β → List (Obs I) → Prop} :
    Along P R (p >>= q) seen ↔ Along P (fun a seen => Along P R (q a) seen) p seen := by
  induction p generalizing seen with
  | ret a => rfl
  | call c k ih => exact and_congr_right fun _ => forall_congr' fun r => ih r

theorem imp {P' : List (Obs I) → I.Call → Prop} {Q' : α → List (Obs I) → Prop}
    {p : Prog I α} (hp : Along P Q p seen) (hP : ∀ seen c, P seen c → P' seen c)
    (hQ : ∀ a seen, Q a seen → Q' a seen) : Along P' Q' p seen := by
  induction p generalizing seen with
  | ret a => exact hQ _ _ hp
  | call c k ih => exact ⟨hP _ _ hp.1, fun r => ih r (hp.2 r)⟩

theorem mono {Q' : α → List (Obs I) → Prop} {p : Prog I α} (hp : Along P Q p seen)
    (hQ : ∀ a seen, Q a seen → Q' a seen) : Along P Q' p seen :=
  hp.imp (fun _ _ hc => hc) hQ

theorem trivial {p : Prog I α} : Along (fun _ _ => True) (fun _ _ => True) p seen := by
  induction p generalizing seen with
  | ret a => exact True.intro
  | call c k ih => exact ⟨True.intro, fun r => ih r⟩

end Along

/-! ### Pools of specified programs -/

namespace Config

variable {P : ι → List (Obs I) → I.Call → Prop} {Q : ι → α → List (Obs I) → Prop}
  {cfg : Config ι I α σ}

/-- Every thread of the configuration follows its specification from here on. -/
def Follows (P : ι → List (Obs I) → I.Call → Prop) (Q : ι → α → List (Obs I) → Prop)
    (cfg : Config ι I α σ) : Prop :=
  ∀ i, Along (P i) (Q i) (cfg.threads i).prog (cfg.threads i).seen

theorem Follows.post (hf : cfg.Follows P Q) {i : ι} {a : α} (ha : cfg.Returned i a) :
    Q i a (cfg.threads i).seen := by
  have hi := hf i
  rw [Returned] at ha
  rwa [ha] at hi

variable [DecidableEq ι] {h : Handler I φ σ}

/-- What a step does to a configuration whose threads follow their specifications: nothing, or
one allowed call, recorded by the thread that makes it. -/
theorem Follows.step_cases (hf : cfg.Follows P Q) (a : ι × φ) :
    cfg.step h a = cfg ∨ ∃ c k, (cfg.threads a.1).prog = .call c k ∧
      P a.1 (cfg.threads a.1).seen c ∧ (cfg.step h a).store = (h c a.2 cfg.store).2 ∧
      ∀ i, ((cfg.step h a).threads i).seen =
        if i = a.1 then ⟨c, (h c a.2 cfg.store).1⟩ :: (cfg.threads a.1).seen
        else (cfg.threads i).seen := by
  rcases hp : (cfg.threads a.1).prog with b | ⟨c, k⟩
  · exact .inl (step_of_ret h hp)
  · have hi := hf a.1
    rw [hp] at hi
    refine .inr ⟨c, k, rfl, hi.1, by rw [step_of_call h hp], fun i => ?_⟩
    rw [step_of_call h hp]
    by_cases hia : i = a.1
    · subst hia
      simp
    · simp [hia]

theorem Follows.step (hf : cfg.Follows P Q) (a : ι × φ) : (cfg.step h a).Follows P Q := by
  rcases hp : (cfg.threads a.1).prog with b | ⟨c, k⟩
  · rwa [step_of_ret h hp]
  · have hi := hf a.1
    rw [hp] at hi
    rw [step_of_call h hp]
    intro i
    by_cases hia : i = a.1
    · subst hia
      simpa using hi.2 _
    · simpa [Function.update_of_ne hia] using hf i

/-- Threads go on following their specifications along every schedule. -/
theorem Follows.run (hf : cfg.Follows P Q) (sched : List (ι × φ)) :
    (cfg.run h sched).Follows P Q := by
  induction sched generalizing cfg with
  | nil => exact hf
  | cons a sched ih => exact ih (hf.step a)

end Config

/-! ### Accounts -/

/-- What is known of a store that threads work on: an invariant, and for each thread how what it
has seen relates to the store. -/
structure Account (ι : Type) (I : Interface) (σ : Type) where
  /-- What holds of the store in every state. -/
  inv : σ → Prop
  /-- What a thread that has made these observations knows of the store. -/
  rel : ι → List (Obs I) → σ → Prop

namespace Account

variable (A : Account ι I σ) (h : Handler I φ σ)

/-- One allowed call under the condition `C` keeps the account of the thread that makes it and of
all others. -/
def Sound (P : ι → List (Obs I) → I.Call → Prop)
    (C : ι → List (Obs I) → I.Call → φ → σ → Prop) : Prop :=
  ∀ i seen c f s, P i seen c → C i seen c f s → A.inv s → A.rel i seen s →
    A.inv (h c f s).2 ∧ A.rel i (⟨c, (h c f s).1⟩ :: seen) (h c f s).2 ∧
      ∀ j, j ≠ i → ∀ seen', A.rel j seen' s → A.rel j seen' (h c f s).2

/-- The account is right in a configuration. -/
structure Holds (cfg : Config ι I α σ) : Prop where
  /-- The invariant holds of the store. -/
  inv : A.inv cfg.store
  /-- So does what the threads know. -/
  rel : ∀ i, A.rel i (cfg.threads i).seen cfg.store

variable {A h} [DecidableEq ι] {P : ι → List (Obs I) → I.Call → Prop}
  {Q : ι → α → List (Obs I) → Prop} {C : ι → List (Obs I) → I.Call → φ → σ → Prop}
  {cfg : Config ι I α σ}

theorem Holds.step (hS : A.Sound h P C) (hf : cfg.Follows P Q) (hA : A.Holds cfg) {a : ι × φ}
    (ha : cfg.StepMeets C a) : A.Holds (cfg.step h a) := by
  rcases hf.step_cases (h := h) a with heq | ⟨c, k, hp, hP, hstore, hseen⟩
  · rwa [heq]
  · obtain ⟨hinv, hown, hothers⟩ := hS a.1 _ c a.2 cfg.store hP (ha c k hp) hA.inv (hA.rel a.1)
    refine ⟨by rwa [hstore], fun i => ?_⟩
    rw [hstore, hseen]
    by_cases hia : i = a.1
    · subst hia
      rwa [if_pos rfl]
    · rw [if_neg hia]
      exact hothers i hia _ (hA.rel i)

/-- **The account rule.** An account that every allowed call keeps is right after every schedule
that meets the condition. -/
theorem Holds.run (hS : A.Sound h P C) (hf : cfg.Follows P Q) (hA : A.Holds cfg)
    {sched : List (ι × φ)} (hm : cfg.Meets h C sched) : A.Holds (cfg.run h sched) := by
  have hP := Config.run_induction (h := h) (C := C)
    (P := fun cfg : Config ι I α σ => cfg.Follows P Q ∧ A.Holds cfg)
    (fun cfg a hcfg ha => ⟨hcfg.1.step a, hcfg.2.step hS hcfg.1 ha⟩) ⟨hf, hA⟩ hm
  exact hP.2

end Account

/-! ### Ledgers -/

/-- What is known of a store that threads work on: an invariant, and a fact for each
observation of each thread. -/
structure Ledger (ι : Type) (I : Interface) (σ : Type) where
  /-- What holds of the store in every state. -/
  inv : σ → Prop
  /-- What an observation of a thread says about the store from then on. -/
  fact : ι → Obs I → σ → Prop

namespace Ledger

variable (L : Ledger ι I σ) (h : Handler I φ σ)

/-- One allowed call under the condition `C` keeps the ledger: the invariant and all facts
survive, and the new observation is a fact. -/
def Sound (P : ι → List (Obs I) → I.Call → Prop)
    (C : ι → List (Obs I) → I.Call → φ → σ → Prop) : Prop :=
  ∀ i seen c f s, P i seen c → C i seen c f s → L.inv s → (∀ o ∈ seen, L.fact i o s) →
    L.inv (h c f s).2 ∧ L.fact i ⟨c, (h c f s).1⟩ (h c f s).2 ∧
      ∀ j o, L.fact j o s → L.fact j o (h c f s).2

/-- One allowed call keeps the ledger as long as another one, `K`, holds as well. -/
def SoundOver (K : Ledger ι I σ) (P : ι → List (Obs I) → I.Call → Prop)
    (C : ι → List (Obs I) → I.Call → φ → σ → Prop) : Prop :=
  ∀ i seen c f s, P i seen c → C i seen c f s → K.inv s → (∀ o ∈ seen, K.fact i o s) →
    L.inv s → (∀ o ∈ seen, L.fact i o s) →
    L.inv (h c f s).2 ∧ L.fact i ⟨c, (h c f s).1⟩ (h c f s).2 ∧
      ∀ j o, L.fact j o s → L.fact j o (h c f s).2

/-- Two ledgers at once. -/
protected def and (K : Ledger ι I σ) : Ledger ι I σ where
  inv s := K.inv s ∧ L.inv s
  fact i o s := K.fact i o s ∧ L.fact i o s

variable {L h} in
theorem Sound.and {K : Ledger ι I σ} {P : ι → List (Obs I) → I.Call → Prop}
    {C : ι → List (Obs I) → I.Call → φ → σ → Prop} (hK : K.Sound h P C)
    (hL : L.SoundOver h K P C) : (L.and K).Sound h P C := by
  intro i seen c f s hP hC hinv hfact
  obtain ⟨hK₁, hK₂, hK₃⟩ := hK i seen c f s hP hC hinv.1 fun o ho => (hfact o ho).1
  obtain ⟨hL₁, hL₂, hL₃⟩ := hL i seen c f s hP hC hinv.1 (fun o ho => (hfact o ho).1) hinv.2
    fun o ho => (hfact o ho).2
  exact ⟨⟨hK₁, hL₁⟩, ⟨hK₂, hL₂⟩, fun j o ho => ⟨hK₃ j o ho.1, hL₃ j o ho.2⟩⟩

variable {L h} in
/-- Fewer calls and stronger conditions are easier to keep. -/
theorem Sound.imp {P P' : ι → List (Obs I) → I.Call → Prop}
    {C C' : ι → List (Obs I) → I.Call → φ → σ → Prop} (hL : L.Sound h P C)
    (hP : ∀ i seen c, P' i seen c → P i seen c)
    (hC : ∀ i seen c f s, C' i seen c f s → C i seen c f s) : L.Sound h P' C' :=
  fun i seen c f s hPc hCc => hL i seen c f s (hP _ _ _ hPc) (hC _ _ _ _ _ hCc)

/-- The account that a ledger makes. -/
def account : Account ι I σ := ⟨L.inv, fun i seen s => ∀ o ∈ seen, L.fact i o s⟩

/-- The ledger holds in a configuration: the invariant holds of the store, and the observations of
the threads are facts. -/
abbrev Holds (cfg : Config ι I α σ) : Prop := L.account.Holds cfg

theorem Holds.fact {L : Ledger ι I σ} {cfg : Config ι I α σ} (hL : L.Holds cfg) (i : ι) :
    ∀ o ∈ (cfg.threads i).seen, L.fact i o cfg.store :=
  hL.rel i

variable {L h} [DecidableEq ι] {P : ι → List (Obs I) → I.Call → Prop}
  {Q : ι → α → List (Obs I) → Prop} {C : ι → List (Obs I) → I.Call → φ → σ → Prop}
  {cfg : Config ι I α σ}

omit [DecidableEq ι] in
theorem Sound.account (hS : L.Sound h P C) : L.account.Sound h P C := by
  intro i seen c f s hP hC hinv hfact
  obtain ⟨hinv', hnew, hold⟩ := hS i seen c f s hP hC hinv hfact
  exact ⟨hinv', List.forall_mem_cons.mpr ⟨hnew, fun o ho => hold i o (hfact o ho)⟩,
    fun j _ seen' hfact' o ho => hold j o (hfact' o ho)⟩

theorem Holds.step (hS : L.Sound h P C) (hf : cfg.Follows P Q) (hL : L.Holds cfg) {a : ι × φ}
    (ha : cfg.StepMeets C a) : L.Holds (cfg.step h a) :=
  Account.Holds.step hS.account hf hL ha

/-- **The ledger rule.** A ledger that every allowed call keeps holds after every schedule
that meets the condition. -/
theorem Holds.run (hS : L.Sound h P C) (hf : cfg.Follows P Q) (hL : L.Holds cfg)
    {sched : List (ι × φ)} (hm : cfg.Meets h C sched) : L.Holds (cfg.run h sched) :=
  Account.Holds.run hS.account hf hL hm

omit [DecidableEq ι] in
/-- **The ledger rule for a program alone.** A program that runs to its end by itself keeps the
invariant of a ledger that every allowed call keeps. -/
theorem Sound.exec (hS : L.Sound h P fun _ _ _ _ _ => True) {i : ι} {p : Prog I α}
    {R : α → List (Obs I) → Prop} {seen : List (Obs I)} (hp : Along (P i) R p seen) {s : σ}
    (hinv : L.inv s) (hfact : ∀ o ∈ seen, L.fact i o s) (oracle : List (Obs I) → I.Call → φ) :
    L.inv (p.exec h oracle seen s).store := by
  induction p generalizing seen s with
  | ret a => exact hinv
  | call c k ih =>
    obtain ⟨hinv', hnew, hold⟩ := hS i seen c (oracle seen c) s hp.1 trivial hinv hfact
    exact ih _ (hp.2 _) hinv' (List.forall_mem_cons.mpr ⟨hnew, fun o ho => hold i o (hfact o ho)⟩)

omit [DecidableEq ι] in
/-- At the start nothing has been observed, so only the invariant is at stake. -/
theorem holds_initial {s : σ} (hs : L.inv s) (p : ι → Prog I α) :
    L.Holds (Config.initial s p) :=
  ⟨hs, fun _ _ ho => absurd ho List.not_mem_nil⟩

end Ledger

theorem Config.Follows.made [DecidableEq ι] {h : Handler I φ σ} {s : σ} {p : ι → Prog I α}
    {P : ι → List (Obs I) → I.Call → Prop} {Q : ι → α → List (Obs I) → Prop}
    (hf : (Config.initial s p).Follows P Q) {sched : List (ι × φ)} {i : ι} {o : Obs I}
    (ho : o ∈ (((Config.initial s p).run h sched).threads i).seen) : ∃ seen, P i seen o.1 := by
  have hsound : (Ledger.mk (fun _ : σ => True) fun (i : ι) (o : Obs I) _ =>
      ∃ seen, P i seen o.1).Sound h P (fun _ _ _ _ _ => True) :=
    fun i seen c f s hP _ _ _ => ⟨trivial, ⟨seen, hP⟩, fun _ _ ho => ho⟩
  exact ((Ledger.holds_initial trivial p).run hsound hf Config.meets_true).fact i o ho

end Interleaving
