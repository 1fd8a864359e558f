import Mathlib.Logic.Function.Basic

/-!
# Programs over an interface of calls

`Prog I α` is the type of programs that talk to the outside world only through the calls of
an interface `I`: a program has either returned, or it makes one call and continues from the
reply. Programs are finite trees, so every function on them below is structural, and every
loop of the program has to be bounded before it can be written down.

A `Handler` answers the calls of one program against a shared store. Each answer takes a
*fault* as an extra argument; what a fault means is left to the handler. `Prog.exec` runs a
program to its end without interference, the faults being chosen by an oracle that sees
everything the program has observed so far: quantifying over oracles is quantifying over all
patterns of failure. `Wp` is the weakest precondition of such runs, computed by recursion on
the program, so that a proof of it executes the program symbolically.
-/

namespace Interleaving

/-- The calls a component can make, each with the type of its reply. -/
structure Interface where
  /-- The calls themselves, arguments included. -/
  Call : Type
  /-- What comes back from a call. -/
  Reply : Call → Type

/-- A program over `I`: it has returned, or it makes one call and continues from the
reply. -/
inductive Prog (I : Interface) (α : Type) : Type where
  | ret (a : α) : Prog I α
  | call (c : I.Call) (k : I.Reply c → Prog I α) : Prog I α

variable {I : Interface} {α β γ : Type} {σ φ : Type}

namespace Prog

/-- Sequencing: graft the continuation onto every return. -/
protected def bind : Prog I α → (α → Prog I β) → Prog I β
  | .ret a, f => f a
  | .call c k, f => .call c fun r => (k r).bind f

instance : Monad (Prog I) where
  pure := .ret
  bind := Prog.bind

/-- The program that makes one call and returns its reply. -/
def ask (c : I.Call) : Prog I (I.Reply c) := .call c .ret

@[simp] theorem pure_eq (a : α) : (pure a : Prog I α) = .ret a := rfl

@[simp] theorem ret_bind (a : α) (f : α → Prog I β) : (Prog.ret a >>= f) = f a := rfl

@[simp] theorem call_bind (c : I.Call) (k : I.Reply c → Prog I α) (f : α → Prog I β) :
    (Prog.call c k >>= f) = .call c fun r => k r >>= f := rfl

@[simp] theorem ask_bind (c : I.Call) (f : I.Reply c → Prog I β) :
    (ask c >>= f) = .call c f := rfl

theorem bind_assoc (p : Prog I α) (f : α → Prog I β) (g : β → Prog I γ) :
    ((p >>= f) >>= g) = p >>= fun a => f a >>= g := by
  induction p with
  | ret a => rfl
  | call c k ih =>
    simp only [call_bind]
    exact congrArg (Prog.call c) (funext ih)

end Prog

/-! ### Handlers and observations -/

/-- A handler answers one call under a fault, against the shared store. -/
abbrev Handler (I : Interface) (φ σ : Type) : Type :=
  (c : I.Call) → φ → σ → I.Reply c × σ

/-- One call together with the reply it got. -/
abbrev Obs (I : Interface) : Type := (c : I.Call) × I.Reply c

/-- Where a finished run of a program leaves things: the value returned, the observations
made (most recent first) and the store. -/
structure Outcome (I : Interface) (α σ : Type) where
  /-- The value the program returned. -/
  value : α
  /-- Everything the program observed, most recent first. -/
  seen : List (Obs I)
  /-- The store it left behind. -/
  store : σ

/-- Run a program to its end, alone. The oracle picks the fault of each call from the
observations made so far. -/
def Prog.exec (h : Handler I φ σ) (oracle : List (Obs I) → I.Call → φ) :
    Prog I α → List (Obs I) → σ → Outcome I α σ
  | .ret a, seen, s => ⟨a, seen, s⟩
  | .call c k, seen, s =>
    let reply := h c (oracle seen c) s
    (k reply.1).exec h oracle (⟨c, reply.1⟩ :: seen) reply.2

/-- The second program goes on from where the first one has ended. -/
theorem Prog.exec_bind (h : Handler I φ σ) (oracle : List (Obs I) → I.Call → φ) (p : Prog I α)
    (q : α → Prog I β) (seen : List (Obs I)) (s : σ) :
    (p >>= q).exec h oracle seen s =
      (q (p.exec h oracle seen s).value).exec h oracle (p.exec h oracle seen s).seen
        (p.exec h oracle seen s).store := by
  induction p generalizing seen s with
  | ret a => rfl
  | call c k ih => exact ih _ _ _

/-- A run only adds to what has been observed before. -/
theorem Prog.seen_suffix_exec (h : Handler I φ σ) (oracle : List (Obs I) → I.Call → φ)
    (p : Prog I α) (seen : List (Obs I)) (s : σ) : seen <:+ (p.exec h oracle seen s).seen := by
  induction p generalizing seen s with
  | ret a => exact List.suffix_rfl
  | call c k ih => exact (List.suffix_cons _ _).trans (ih _ _ _)

/-! ### Weakest preconditions of runs without interference -/

/-- Whatever faults within `C` its calls meet, the program ends in `Q`. -/
def Wp (h : Handler I φ σ) (C : I.Call → φ → Prop) (Q : α → List (Obs I) → σ → Prop) :
    Prog I α → List (Obs I) → σ → Prop
  | .ret a, seen, s => Q a seen s
  | .call c k, seen, s => ∀ f, C c f →
      Wp h C Q (k (h c f s).1) (⟨c, (h c f s).1⟩ :: seen) (h c f s).2

namespace Wp

variable {h : Handler I φ σ} {C : I.Call → φ → Prop} {Q Q' : α → List (Obs I) → σ → Prop}
  {seen : List (Obs I)} {s : σ}

@[simp] theorem ret_iff {a : α} : Wp h C Q (.ret a) seen s ↔ Q a seen s := Iff.rfl

theorem ask_bind_iff {c : I.Call} {k : I.Reply c → Prog I α} :
    Wp h C Q (Prog.ask c >>= k) seen s ↔ ∀ f, C c f →
      Wp h C Q (k (h c f s).1) (⟨c, (h c f s).1⟩ :: seen) (h c f s).2 := Iff.rfl

/-- The rule for sequencing: what the first program ends in starts the second. -/
theorem bind_iff {p : Prog I α} {q : α → Prog I β} {R : β → List (Obs I) → σ → Prop} :
    Wp h C R (p >>= q) seen s ↔
      Wp h C (fun a seen s => Wp h C R (q a) seen s) p seen s := by
  induction p generalizing seen s with
  | ret a => rfl
  | call c k ih => exact forall_congr' fun f => imp_congr_right fun _ => ih _

theorem mono {p : Prog I α} (hp : Wp h C Q p seen s)
    (hQ : ∀ a seen s, Q a seen s → Q' a seen s) : Wp h C Q' p seen s := by
  induction p generalizing seen s with
  | ret a => exact hQ _ _ _ hp
  | call c k ih => exact fun f hf => ih _ (hp f hf)

/-- A run whose oracle stays within `C` ends in the postcondition. -/
theorem exec {p : Prog I α} {oracle : List (Obs I) → I.Call → φ}
    (hO : ∀ seen c, C c (oracle seen c)) (hp : Wp h C Q p seen s) :
    Q (p.exec h oracle seen s).value (p.exec h oracle seen s).seen
      (p.exec h oracle seen s).store := by
  induction p generalizing seen s with
  | ret a => exact hp
  | call c k ih => exact ih _ (hp _ (hO seen c))

end Wp

/-! ### Programs one after the other -/

/-- What the programs run so far have observed, most recent first, and the store they have
left. -/
structure Session (I : Interface) (σ : Type) where
  /-- Everything observed. -/
  log : List (Obs I)
  store : σ

namespace Session

/-- Run one more program to its end, under the faults that the oracle picks. -/
def exec (h : Handler I φ σ) (s : Session I σ) (a : Prog I α × (List (Obs I) → I.Call → φ)) :
    Session I σ :=
  let o := a.1.exec h a.2 [] s.store
  ⟨o.seen ++ s.log, o.store⟩

/-- Run programs one after the other. -/
def run (h : Handler I φ σ) (s : Session I σ)
    (as : List (Prog I α × (List (Obs I) → I.Call → φ))) : Session I σ :=
  as.foldl (exec h) s

/-- The condition holds whenever a program of the list begins. -/
def Meets (h : Handler I φ σ) (C : Session I σ → Prop) :
    Session I σ → List (Prog I α × (List (Obs I) → I.Call → φ)) → Prop
  | _, [] => True
  | s, a :: as => C s ∧ (s.exec h a).Meets h C as

variable {as : List (Prog I α × (List (Obs I) → I.Call → φ))}

theorem meets_append {h : Handler I φ σ} {C : Session I σ → Prop} {s : Session I σ}
    {bs : List (Prog I α × (List (Obs I) → I.Call → φ))} :
    s.Meets h C (as ++ bs) ↔ s.Meets h C as ∧ (s.run h as).Meets h C bs := by
  induction as generalizing s with
  | nil => exact (iff_of_eq (true_and _)).symm
  | cons a as ih => exact (and_congr_right fun _ => ih).trans and_assoc.symm

/-- What every program of a list preserves where it begins, running them one after the other
preserves. -/
theorem run_induction {h : Handler I φ σ} {C P : Session I σ → Prop}
    (hstep : ∀ s, ∀ a ∈ as, C s → P s → P (s.exec h a)) {s : Session I σ} (hmeets : s.Meets h C as)
    (hs : P s) : P (s.run h as) := by
  induction as generalizing s with
  | nil => exact hs
  | cons a as ih =>
    exact ih (fun s b hb => hstep s b (List.mem_cons_of_mem _ hb)) hmeets.2
      (hstep s a List.mem_cons_self hmeets.1 hs)

theorem meets_true {h : Handler I φ σ} {s : Session I σ} : s.Meets h (fun _ => True) as := by
  induction as generalizing s with
  | nil => trivial
  | cons a as ih => exact ⟨trivial, ih⟩

end Session

end Interleaving
