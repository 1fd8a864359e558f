import Mathlib.Data.List.Infix
import Letopis.Interleaving.Trace

/-!
# Reading through a cache

Threads read the value of a repository through a cache: a reader takes the value from the cache if
there is one, and otherwise reads it from the repository and puts it into the cache. A writer
changes the repository and then drops what is in the cache. All of these are separate calls.

A reader that has read the repository before the change and puts the value into the cache after the
drop defeats it. That is the only way: if no such value is put, a reader that starts after the drop
is told or finds a value that the repository has held since the change
(`ReadThrough.Change.held_of_no_late_puts`).
-/

namespace Interleaving

open List

variable {I : Interface} {ι α σ φ V : Type}

/-- A repository with a cache in front of it, as the calls of an interface use them. -/
structure ReadThrough (I : Interface) (σ V : Type) where
  /-- The value in the repository. -/
  repo : σ → Option V
  cache : σ → Option V
  /-- The value was read from the repository. -/
  Told : Obs I → V → Prop
  /-- The value was found in the cache. -/
  Hit : Obs I → V → Prop
  /-- The call puts the value into the cache. -/
  Puts : I.Call → V → Prop
  /-- The call drops what is in the cache. -/
  Drops : I.Call → Prop
  /-- The repository was changed. -/
  Made : Obs I → Prop

namespace ReadThrough

/-- The calls do what they are taken for. -/
structure Lawful (R : ReadThrough I σ V) (h : Handler I φ σ) : Prop where
  /-- What is read is in the repository. -/
  told {c : I.Call} {f : φ} {s : σ} {v : V} : R.Told ⟨c, (h c f s).1⟩ v → R.repo s = some v
  /-- What is found is in the cache. -/
  hit {c : I.Call} {f : φ} {s : σ} {v : V} : R.Hit ⟨c, (h c f s).1⟩ v → R.cache s = some v
  /-- What is in the cache has been put there. -/
  cache {c : I.Call} {f : φ} {s : σ} {v : V} :
    R.cache (h c f s).2 = some v → R.cache s = some v ∨ R.Puts c v
  /-- After a drop nothing is in the cache. -/
  drop {c : I.Call} {f : φ} {s : σ} : R.Drops c → R.cache (h c f s).2 = none

variable (R : ReadThrough I σ V)

/-- What is put is a value that was read. -/
def PutsTold (seen : List (Obs I)) (c : I.Call) : Prop := ∀ v, R.Puts c v → ∃ o ∈ seen, R.Told o v

/-- The value was read or found. -/
def Knows (seen : List (Obs I)) (v : V) : Prop := ∃ o ∈ seen, R.Told o v ∨ R.Hit o v

/-- Whatever the thread has observed since says that the value is one of `W`. -/
def Since (T : Obs I → V → Prop) (W : V → Prop) (old seen : List (Obs I)) : Prop :=
  ∃ new, seen = new ++ old ∧ ∀ o ∈ new, ∀ v, T o v → W v

theorem Since.refl {T : Obs I → V → Prop} {W : V → Prop} (seen : List (Obs I)) :
    Since T W seen seen :=
  ⟨[], rfl, fun _ ho => absurd ho not_mem_nil⟩

theorem Since.cons {T : Obs I → V → Prop} {W : V → Prop} {old seen : List (Obs I)} {o : Obs I}
    (h : Since T W old seen) (ho : ∀ v, T o v → W v) : Since T W old (o :: seen) := by
  obtain ⟨new, rfl, hnew⟩ := h
  exact ⟨o :: new, rfl, forall_mem_cons.mpr ⟨ho, hnew⟩⟩

/-- What a thread that had observed nothing has observed since. -/
theorem Since.of_nil {T : Obs I → V → Prop} {W : V → Prop} {seen : List (Obs I)}
    (h : Since T W [] seen) {o : Obs I} (ho : o ∈ seen) {v : V} (hov : T o v) : W v := by
  obtain ⟨new, rfl, hnew⟩ := h
  exact hnew o (by rwa [append_nil] at ho) v hov

variable [DecidableEq ι] (h : Handler I φ σ)

/-- The repository has held the value in the course of the schedule. -/
def HeldSince (cfg : Config ι I α σ) (sched : List (ι × φ)) (v : V) : Prop :=
  ∃ p, p <+: sched ∧ R.repo (cfg.run h p).store = some v

/-- The step is not late: if its thread had read the value that the step puts when `cfg` was
reached, the value is one of `W`. -/
def NotLate (cfg : Config ι I α σ) (W : V → Prop) (k : ι) (_ : List (Obs I)) (c : I.Call) (_ : φ)
    (_ : σ) : Prop :=
  ∀ v, R.Puts c v → (∃ o ∈ (cfg.threads k).seen, R.Told o v) → W v

variable {R h}

theorem heldSince_iff {cfg : Config ι I α σ} {sched : List (ι × φ)} {v : V} :
    R.HeldSince h cfg sched v ↔ ∃ p ∈ sched.inits, R.repo (cfg.run h p).store = some v := by
  simp only [HeldSince, mem_inits]

theorem HeldSince.mono {cfg : Config ι I α σ} {p s : List (ι × φ)} {v : V}
    (hv : R.HeldSince h cfg p v) (hp : p <+: s) : R.HeldSince h cfg s v := by
  obtain ⟨q, hq, hrepo⟩ := hv
  exact ⟨q, hq.trans hp, hrepo⟩

/-- Every step of a part of the schedule finds the repository with a value that has been held. -/
theorem meets_held {cfg : Config ι I α σ} {p q s : List (ι × φ)} (hpq : p ++ q <+: s) :
    (cfg.run h p).Meets h
      (fun _ _ _ _ st => ∀ v, R.repo st = some v → R.HeldSince h cfg s v) q := by
  refine Config.meets_of_forall fun q' a hq' c k hc v hv => ⟨p ++ q', ?_, ?_⟩
  · refine List.IsPrefix.trans ?_ hpq
    exact (prefix_append_right_inj p).mpr ((prefix_append q' [a]).trans hq')
  · rwa [Config.run_append]

variable {cfg : Config ι I α σ} {Q : ι → α → List (Obs I) → Prop}

theorem Lawful.told_since (hl : R.Lawful h) (hf : cfg.Follows (fun _ => R.PutsTold) Q)
    {p s : List (ι × φ)} (hp : p <+: s) (k : ι) :
    Since R.Told (R.HeldSince h cfg s) (cfg.threads k).seen ((cfg.run h p).threads k).seen := by
  let A : Account ι I σ := ⟨fun _ => True, fun k seen _ =>
    Since R.Told (R.HeldSince h cfg s) (cfg.threads k).seen seen⟩
  have hsound : A.Sound h (fun _ => R.PutsTold)
      fun _ _ _ _ st => ∀ v, R.repo st = some v → R.HeldSince h cfg s v := by
    intro k seen c f st _ hC _ hrel
    exact ⟨trivial, hrel.cons fun v hv => hC v (hl.told hv), fun _ _ _ hrel' => hrel'⟩
  have hholds : A.Holds cfg := ⟨trivial, fun k => Since.refl _⟩
  exact (hholds.run hsound hf (meets_held (p := []) hp)).rel k

/-! ### Changes -/

variable (R h cfg) in
/-- In the run of a schedule a thread changes the repository in the step `x` and drops what is in
the cache in the step `y`. -/
structure Change where
  /-- The steps before. -/
  before : List (ι × φ)
  /-- The step that changes the repository. -/
  x : ι × φ
  /-- The steps between. -/
  mid : List (ι × φ)
  /-- The step that drops what is in the cache. -/
  y : ι × φ
  /-- The change is made. -/
  made : ∃ c k, ((cfg.run h before).threads x.1).prog = .call c k ∧
    R.Made ⟨c, (h c x.2 (cfg.run h before).store).1⟩
  /-- It is the same thread. -/
  same : y.1 = x.1
  /-- The drop is made. -/
  drop : ∃ c k, ((cfg.run h (before ++ [x] ++ mid)).threads y.1).prog = .call c k ∧ R.Drops c

namespace Change

variable (u : R.Change h cfg)

/-- Where the repository has just been changed. -/
def changed : Config ι I α σ := cfg.run h (u.before ++ [u.x])

/-- Where the drop has just been made. -/
def dropped : Config ι I α σ := u.changed.run h (u.mid ++ [u.y])

/-- The repository has held the value at some moment from the change on. -/
def Held (rest : List (ι × φ)) (v : V) : Prop := R.HeldSince h u.changed (u.mid ++ [u.y] ++ rest) v

/-- After `rest`, the step `a` puts a value into the cache that its thread had read before the
change and that the repository has not held since. -/
def LatePut (rest : List (ι × φ)) (a : ι × φ) (v : V) : Prop :=
  ∃ c k, ((u.dropped.run h rest).threads a.1).prog = .call c k ∧ R.Puts c v ∧
    (∃ o ∈ (u.changed.threads a.1).seen, R.Told o v) ∧ ¬u.Held rest v

/-- No step after the drop is such a put. -/
def NoLatePuts (rest : List (ι × φ)) : Prop := ∀ p a, p ++ [a] <+: rest → ∀ v, ¬u.LatePut p a v

theorem run_dropped (rest : List (ι × φ)) :
    u.dropped.run h rest = cfg.run h (u.before ++ [u.x] ++ (u.mid ++ [u.y] ++ rest)) := by
  rw [dropped, changed, ← Config.run_append, ← Config.run_append]

variable {u}

theorem Held.mono {p s : List (ι × φ)} {v : V} (hv : u.Held p v) (hp : p <+: s) : u.Held s v :=
  HeldSince.mono hv ((prefix_append_right_inj _).mpr hp)

variable {rest : List (ι × φ)}

/-- Two steps that leave the repository alone add nothing to what it has held. -/
theorem Held.of_pair {a b : ι × φ} {v : V} (hv : u.Held (rest ++ [a, b]) v)
    (ha : R.repo ((u.dropped.run h rest).step h a).store = R.repo (u.dropped.run h rest).store)
    (hb : R.repo ((u.dropped.run h rest).run h [a, b]).store =
      R.repo (u.dropped.run h rest).store) : u.Held rest v := by
  obtain ⟨p, hp, hheld⟩ := hv
  have hlast : R.repo (u.dropped.run h rest).store = some v → u.Held rest v := fun h =>
    ⟨_, prefix_refl _, by rwa [Config.run_append, ← dropped]⟩
  rw [show u.mid ++ [u.y] ++ (rest ++ [a, b]) = u.mid ++ [u.y] ++ rest ++ [a] ++ [b] by simp,
    prefix_concat_iff, prefix_concat_iff] at hp
  rcases hp with rfl | rfl | hp
  · rw [Config.run_append, Config.run_append, Config.run_append, ← dropped] at hheld
    exact hlast (hb.symm.trans hheld)
  · rw [Config.run_append, Config.run_append, ← dropped] at hheld
    exact hlast (ha.symm.trans hheld)
  · exact ⟨p, hp, hheld⟩

/-- After a late put, a thread whose first call finds the value and which returns then, returns with
a value that the repository has not held since the change. -/
theorem LatePut.returned {s₀ : σ} {p : ι → Prog I α} {u : R.Change h (.initial s₀ p)} {a b : ι × φ}
    {v : V} (hlate : u.LatePut rest a v) (hstart : ((u.dropped.run h rest).threads b.1).seen = [])
    {look : I.Call} {l : I.Reply look → Prog I α} {res : α} (hfirst : p b.1 = .call look l)
    (hputs : ∀ c, R.Puts c v → c ≠ look ∧ ∀ f s, R.repo (h c f s).2 = R.repo s)
    (hquiet : ∀ f s, R.repo (h look f s).2 = R.repo s)
    (hret : l (h look b.2 ((u.dropped.run h rest).step h a).store).1 = .ret res) :
    (u.dropped.run h (rest ++ [a, b])).Returned b.1 res ∧ ¬u.Held (rest ++ [a, b]) v := by
  obtain ⟨c, k, ha, hput, -, hnot⟩ := hlate
  obtain ⟨hcne, hkept⟩ := hputs c hput
  have hlook : ((u.dropped.run h rest).threads b.1).prog = .call look l := by
    rw [u.run_dropped] at hstart ⊢
    exact (Config.prog_of_seen_eq_nil _ hstart).trans hfirst
  have hne : b.1 ≠ a.1 := by
    intro heq
    rw [heq, ha] at hlook
    cases hlook
    exact hcne rfl
  obtain ⟨hput', hlook', hres⟩ := Config.run_pair h hne ha hlook
  have hstep : R.repo ((u.dropped.run h rest).step h a).store =
      R.repo (u.dropped.run h rest).store := by
    rw [hput', hkept]
  refine ⟨?_, fun hheld => hnot (hheld.of_pair hstep ?_)⟩
  · rw [Config.run_append, Config.Returned, hres, hret]
  · rw [hlook', hquiet, hstep]

/-- **Freshness.** If no step after a drop is late, what a thread that starts after it reads or
finds has been held since the change. -/
theorem held_of_no_late_puts (hl : R.Lawful h) (hf : cfg.Follows (fun _ => R.PutsTold) Q)
    (hlate : u.NoLatePuts rest) {j : ι} (hj : (u.dropped.threads j).seen = []) {o : Obs I}
    (ho : o ∈ ((u.dropped.run h rest).threads j).seen) {v : V} (hov : R.Told o v ∨ R.Hit o v) :
    u.Held rest v := by
  let A : Account ι I σ := ⟨fun st => ∀ v, R.cache st = some v → u.Held rest v, fun k seen _ =>
    Since R.Told (u.Held rest) (u.changed.threads k).seen seen ∧
      Since R.Hit (u.Held rest) (u.dropped.threads k).seen seen⟩
  have hsound : A.Sound h (fun _ => R.PutsTold) fun k seen c f st =>
      (∀ v, R.repo st = some v → u.Held rest v) ∧
        R.NotLate u.changed (u.Held rest) k seen c f st := by
    rintro k seen c f st hputs ⟨hheld, hnot⟩ hinv ⟨htold, hhit⟩
    refine ⟨fun v hv => ?_, ⟨htold.cons fun v hv => hheld v (hl.told hv),
      hhit.cons fun v hv => hinv v (hl.hit hv)⟩, fun _ _ _ hrel => hrel⟩
    rcases hl.cache hv with hcache | hput
    · exact hinv v hcache
    · -- the value that is put was read, since the change or before
      obtain ⟨o, ho, hread⟩ := hputs v hput
      obtain ⟨new, rfl, hnew⟩ := htold
      rcases mem_append.mp ho with ho | ho
      · exact hnew o ho v hread
      · exact hnot v hput ⟨o, ho, hread⟩
  have hfollows : u.changed.Follows (fun _ => R.PutsTold) Q := hf.run _
  have htold : ∀ k, Since R.Told (u.Held rest) (u.changed.threads k).seen
      (u.dropped.threads k).seen :=
    hl.told_since hfollows (prefix_append _ _)
  have hholds : A.Holds u.dropped := by
    refine ⟨fun v hv => ?_, fun k => ⟨htold k, Since.refl _⟩⟩
    obtain ⟨c, k, hcall, hdrop⟩ := u.drop
    rw [Config.run_append, ← changed] at hcall
    rw [dropped, Config.run_append, Config.run_cons, Config.run_nil, Config.step_of_call h hcall,
      hl.drop hdrop] at hv
    cases hv
  have hnot : u.dropped.Meets h (R.NotLate u.changed (u.Held rest)) rest := by
    refine Config.meets_of_forall fun p a hp c k hc v hput hread => ?_
    have hheld : u.Held p v := by
      by_contra hnot
      exact hlate p a hp v ⟨c, k, hc, hput, hread, hnot⟩
    exact hheld.mono ((prefix_append p [a]).trans hp)
  have hmeets := (meets_held (R := R) (prefix_refl _)).and hnot
  have hrel := (hholds.run hsound (hfollows.run _) hmeets).rel j
  have hold : (u.changed.threads j).seen = [] := by
    obtain ⟨new, hnew, -⟩ := htold j
    exact (append_eq_nil_iff.mp (hnew.symm.trans hj)).2
  rcases hov with hread | hfound
  · exact (hold ▸ hrel.1).of_nil ho hread
  · exact Since.of_nil (hj ▸ hrel.2) ho hfound

/-- The values that a thread which starts after the drop makes use of have been held since the
change. -/
theorem held_of_returned {Used : ι → α → V → Prop} (hl : R.Lawful h)
    (hf : cfg.Follows (fun _ => R.PutsTold) fun i res seen => ∀ v, Used i res v → R.Knows seen v)
    (hlate : u.NoLatePuts rest) {j : ι} (hj : (u.dropped.threads j).seen = []) {res : α}
    (hret : (u.dropped.run h rest).Returned j res) {v : V} (hv : Used j res v) :
    u.Held rest v := by
  have hdropped := (hf.run (h := h) (u.before ++ [u.x])).run (h := h) (u.mid ++ [u.y])
  obtain ⟨o, ho, hov⟩ := (hdropped.run rest).post hret v hv
  exact held_of_no_late_puts hl hf hlate hj ho hov

end Change

end ReadThrough

end Interleaving
