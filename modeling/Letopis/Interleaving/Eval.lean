import Letopis.Interleaving.Trace

/-!
# Programs alone and without faults

With nobody else at the store and no faults a program is a function of the store (`Prog.eval`).

A store that is a family of parts may have a handler that answers each call from one part only.
A program all of whose calls are for the same part then runs on that part alone
(`Prog.eval_local`): it neither sees nor touches the others.
-/

namespace Interleaving

variable {I : Interface} {α β σ φ : Type}

/-- The value a program returns and the store it leaves, where the calls are answered by `h`. -/
def Prog.eval (h : (c : I.Call) → σ → I.Reply c × σ) : Prog I α → σ → α × σ
  | .ret a, s => (a, s)
  | .call c k, s => (k (h c s).1).eval h (h c s).2

namespace Prog

variable {h : (c : I.Call) → σ → I.Reply c × σ} {s : σ}

@[simp] theorem eval_ret {a : α} : (Prog.ret a : Prog I α).eval h s = (a, s) := rfl

@[simp] theorem eval_pure {a : α} : (pure a : Prog I α).eval h s = (a, s) := rfl

@[simp] theorem eval_ask {c : I.Call} : (Prog.ask c).eval h s = h c s := rfl

variable {p : Prog I α} {q : α → Prog I β} {Q : α → Prop} {P : I.Call → Prop}

@[simp] theorem eval_bind : (p >>= q).eval h s = (q (p.eval h s).1).eval h (p.eval h s).2 := by
  induction p generalizing s with
  | ret a => rfl
  | call c k ih => exact ih _

theorem exec_const {h : Handler I φ σ} {f : φ} {seen : List (Obs I)} :
    (p.exec h (fun _ _ => f) seen s).value = (p.eval (fun c => h c f) s).1 ∧
      (p.exec h (fun _ _ => f) seen s).store = (p.eval (fun c => h c f) s).2 := by
  induction p generalizing seen s with
  | ret a => exact ⟨rfl, rfl⟩
  | call c k ih => exact ih _

/-! ### Programs that are part of a larger one -/

/-- The program, making the calls of another interface that its own calls stand for. -/
def via {J : Interface} (f : I.Call → J.Call) (back : (c : I.Call) → J.Reply (f c) → I.Reply c) :
    Prog I α → Prog J α
  | .ret a => .ret a
  | .call c k => .call (f c) fun r => (k (back c r)).via f back

theorem via_bind {J : Interface} (f : I.Call → J.Call)
    (back : (c : I.Call) → J.Reply (f c) → I.Reply c) :
    (p >>= q).via f back = p.via f back >>= fun a => (q a).via f back := by
  induction p with
  | ret a => rfl
  | call c k ih => exact congrArg (Prog.call _) (funext fun r => ih _)

/-- A program whose calls are answered from one component of a larger store: it runs on that
component and leaves the rest alone. -/
theorem eval_via {J : Interface} {τ : Type} {f : I.Call → J.Call}
    {back : (c : I.Call) → J.Reply (f c) → I.Reply c} {g : (c : J.Call) → τ → J.Reply c × τ}
    (get : τ → σ) (set : τ → σ → τ) (hget : ∀ t s, get (set t s) = s)
    (hset : ∀ t s s', set (set t s) s' = set t s') (hself : ∀ t, set t (get t) = t)
    (hg : ∀ c t, back c (g (f c) t).1 = (h c (get t)).1 ∧ (g (f c) t).2 = set t (h c (get t)).2)
    (p : Prog I α) (t : τ) :
    (p.via f back).eval g t = ((p.eval h (get t)).1, set t (p.eval h (get t)).2) := by
  induction p generalizing t with
  | ret a => simp [via, hself]
  | call c k ih =>
    obtain ⟨hreply, hstore⟩ := hg c t
    rw [via, eval, eval, hreply, hstore, ih, hget, hset]

/-! ### What a program can return -/

/-- Whatever the replies, the program returns a value in `Q`. -/
def Yields (Q : α → Prop) : Prog I α → Prop
  | .ret a => Q a
  | .call _ k => ∀ r, (k r).Yields Q

theorem yields_bind {R : β → Prop} (hp : p.Yields Q) (hq : ∀ a, Q a → (q a).Yields R) :
    (p >>= q).Yields R := by
  induction p with
  | ret a => exact hq a hp
  | call c k ih => exact fun r => ih r (hp r)

theorem Yields.mono {R : α → Prop} (hp : p.Yields Q) (hQ : ∀ a, Q a → R a) : p.Yields R := by
  induction p with
  | ret a => exact hQ a hp
  | call c k ih => exact fun r => ih r (hp r)

theorem yields_true (p : Prog I α) : p.Yields fun _ => True := by
  induction p with
  | ret a => trivial
  | call c k ih => exact ih

theorem Yields.via {J : Interface} (hp : p.Yields Q) (f : I.Call → J.Call)
    (back : (c : I.Call) → J.Reply (f c) → I.Reply c) : (p.via f back).Yields Q := by
  induction p with
  | ret a => exact hp
  | call c k ih => exact fun r => ih _ (hp _)

theorem Yields.exec (hp : p.Yields Q) (h : Handler I φ σ) (oracle : List (Obs I) → I.Call → φ)
    (seen : List (Obs I)) (s : σ) : Q (p.exec h oracle seen s).value := by
  induction p generalizing seen s with
  | ret a => exact hp
  | call c k ih => exact ih _ (hp _) _ _

/-- Programs that go on in the same way from every value that can be returned. -/
theorem Yields.bind_congr (hp : p.Yields Q) {q' : α → Prog I β} (hq : ∀ a, Q a → q a = q' a) :
    (p >>= q) = (p >>= q') := by
  induction p with
  | ret a => exact hq a hp
  | call c k ih => exact congrArg (Prog.call c) (funext fun r => ih r (hp r))

/-! ### Programs for one part of the store -/

/-- Every call that the program may make is one that `P` allows. -/
def Calls (P : I.Call → Prop) : Prog I α → Prop
  | .ret _ => True
  | .call c k => P c ∧ ∀ r, (k r).Calls P

theorem calls_bind (hp : p.Calls P) (hq : ∀ a, (q a).Calls P) : (p >>= q).Calls P := by
  induction p with
  | ret a => exact hq a
  | call c k ih => exact ⟨hp.1, fun r => ih r (hp.2 r)⟩

theorem calls_ask_bind {c : I.Call} {q : I.Reply c → Prog I β} (hc : P c)
    (hq : ∀ r, (q r).Calls P) : (Prog.ask c >>= q).Calls P :=
  ⟨hc, hq⟩

theorem calls_via {J : Interface} {P : J.Call → Prop} {f : I.Call → J.Call}
    (hf : ∀ c, P (f c)) (back : (c : I.Call) → J.Reply (f c) → I.Reply c) (p : Prog I α) :
    (p.via f back).Calls P := by
  induction p with
  | ret a => trivial
  | call c k ih => exact ⟨hf c, fun r => ih _⟩

/-- Where replies are changed on the way to the program, it stays the same if they are not replies
to calls that it makes. -/
theorem Calls.via_id {back : (c : I.Call) → I.Reply c → I.Reply c}
    (hp : p.Calls fun c => ∀ r, back c r = r) : p.via id back = p := by
  induction p with
  | ret a => rfl
  | call c k ih =>
    refine congrArg (Prog.call c) (funext fun r => ?_)
    rw [hp.1 r]
    exact ih r (hp.2 r)

theorem Calls.along (hp : p.Calls P) (seen : List (Obs I)) :
    Along (fun _ c => P c) (fun _ _ => True) p seen := by
  induction p generalizing seen with
  | ret a => trivial
  | call c k ih => exact ⟨hp.1, fun r => ih r (hp.2 r) _⟩

/-- The program makes these calls in this order, whatever they are answered. -/
def Makes : Prog I α → List I.Call → Prop
  | .ret _, cs => cs = []
  | .call c k, cs => ∃ rest, cs = c :: rest ∧ ∀ r, (k r).Makes rest

theorem makes_bind {cs ds : List I.Call} (hp : p.Makes cs) (hq : ∀ a, (q a).Makes ds) :
    (p >>= q).Makes (cs ++ ds) := by
  induction p generalizing cs with
  | ret a =>
    obtain rfl : cs = [] := hp
    exact hq a
  | call c k ih =>
    obtain ⟨rest, rfl, hk⟩ := hp
    exact ⟨rest ++ ds, rfl, fun r => ih r (hk r)⟩

/-- Handlers that agree on the calls that a program may make. -/
theorem eval_congr (hp : p.Calls P) {g : (c : I.Call) → σ → I.Reply c × σ}
    (hg : ∀ c s, P c → g c s = h c s) : p.eval g s = p.eval h s := by
  induction p generalizing s with
  | ret a => rfl
  | call c k ih => rw [eval, eval, hg c s hp.1, ih _ (hp.2 _)]

/-- What every allowed call keeps, whatever fault within `C` it meets, holds when the program has
ended. -/
theorem Calls.wp (hp : p.Calls P) {h : Handler I φ σ} {C : I.Call → φ → Prop}
    {J : List (Obs I) → σ → Prop}
    (hstep : ∀ c f seen s, P c → C c f → J seen s → J (⟨c, (h c f s).1⟩ :: seen) (h c f s).2)
    {seen : List (Obs I)} (hJ : J seen s) : Wp h C (fun _ => J) p seen s := by
  induction p generalizing seen s with
  | ret a => exact hJ
  | call c k ih => exact fun f hf => ih _ (hp.2 _) (hstep c f seen s hp.1 hf hJ)

variable {κ S : Type} [DecidableEq κ]

/-- **A program for one part** runs on that part alone. -/
theorem eval_local {h : (c : I.Call) → (κ → S) → I.Reply c × (κ → S)} {part : I.Call → κ}
    {g : (c : I.Call) → S → I.Reply c × S} (hlocal : ∀ c s, h c s = ((g c (s (part c))).1,
      Function.update s (part c) (g c (s (part c))).2)) {x : κ} (hp : p.Calls fun c => part c = x)
    (s : κ → S) : p.eval h s = ((p.eval g (s x)).1, Function.update s x (p.eval g (s x)).2) := by
  induction p generalizing s with
  | ret a => simp
  | call c k ih =>
    obtain ⟨rfl, hk⟩ := hp
    rw [eval, eval, hlocal, ih _ (hk _)]
    simp

end Prog

end Interleaving
