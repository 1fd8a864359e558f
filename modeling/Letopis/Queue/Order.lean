import Letopis.Queue.Consumer
import Mathlib.Order.Nat

/-!
# The order in which deliveries are started on

Nothing keeps a consumer from starting on a delivery while an earlier one with the same key is still
pending: one that could not be handled is left pending, and the goroutine moves on. A run is
*cautious* if this never happens. In a cautious run the deliveries with one key are started on in
the order of their publication, however often each of them is started on: a step keeps that what was
started on is not later than anything with its key that may still come (`InStep`).

The subscription makes this harder than it looks: it holds a delivery that is pending already, so
the goroutine may get it twice, by reclaiming it and by receiving it. It holds only one, though, and
nothing behind it in the buffer is pending yet.
-/

namespace Letopis

open Interleaving List Function

namespace Lane

variable {I : Interface} {μ : Type}

/-- A lane and its goroutine are in order: what the subscription holds and what is buffered come in
the order of their ids and after what is pending; everything is of this shard and older than the
next id; what was reclaimed is pending until it is handled. -/
structure Ok (home : μ → Prop) (seq : Nat) (l : Lane μ) (g : Loop I μ) : Prop where
  /-- What the subscription holds is not younger than what is buffered. -/
  hand_lt : ∀ d, l.hand = some d → ∀ x ∈ l.buffered, d.id < x.id
  buffered : l.buffered.Pairwise fun d x => d.id < x.id
  /-- What is pending is not younger than what the subscription holds. -/
  pending_le : ∀ d ∈ l.pending, ∀ x, l.hand = some x → d.id ≤ x.id
  pending_lt : ∀ d ∈ l.pending, ∀ x ∈ l.buffered, d.id < x.id
  lt_seq : ∀ d, d ∈ l.live ∨ g.current = some d → d.id < seq
  home : ∀ d, d ∈ l.live ∨ g.current = some d → home d.message
  rest : ∀ d ∈ g.rest, d ∈ l.pending
  /-- The goroutine handles each delivery that was reclaimed once. -/
  nodup : ((g.current.toList ++ g.rest).map Delivery.id).Nodup

namespace Ok

variable {home : μ → Prop} {seq : Nat} {l : Lane μ} {g : Loop I μ}

theorem mono (h : l.Ok home seq g) {seq' : Nat} (hle : seq ≤ seq') : l.Ok home seq' g :=
  { h with lt_seq := fun d hd => (h.lt_seq d hd).trans_le hle }

theorem publish (h : l.Ok home seq g) {m : μ} (hm : home m) :
    (l.publish ⟨seq, m⟩).Ok home (seq + 1) g := by
  have hlive : ∀ d, d ∈ (l.publish ⟨seq, m⟩).live ∨ g.current = some d →
      (d ∈ l.live ∨ g.current = some d) ∨ d = ⟨seq, m⟩ := by
    rintro d (hd | hd)
    · exact (mem_live_publish.mp hd).imp_left .inl
    · exact .inl (.inr hd)
  have hnew : ∀ d, d ∈ l.live → ∀ x ∈ (l.publish ⟨seq, m⟩).buffered,
      (x ∈ l.buffered → d.id < x.id) → d.id < x.id := by
    intro d hd x hx hold
    rcases mem_append.mp hx with hx | hx
    · exact hold hx
    · rw [mem_singleton.mp hx]
      exact h.lt_seq d (.inl hd)
  -- everything in the lane has an id below the new one, which goes to the end of the buffer
  refine ⟨fun d hd x hx => ?_, ?_, h.pending_le, fun d hd x hx => ?_, fun d hd => ?_,
    fun d hd => ?_, h.rest, h.nodup⟩
  · exact hnew d (mem_live.mpr (.inr (.inl hd))) x hx (h.hand_lt d hd x)
  · refine pairwise_append.mpr ⟨h.buffered, pairwise_singleton .., fun d hd x hx => ?_⟩
    rw [mem_singleton.mp hx]
    exact h.lt_seq d (.inl (mem_live.mpr (.inr (.inr hd))))
  · exact hnew d (mem_live.mpr (.inl hd)) x hx (h.pending_lt d hd x)
  · rcases hlive d hd with hd | rfl
    · exact (h.lt_seq d hd).trans (Nat.lt_succ_self _)
    · exact Nat.lt_succ_self _
  · rcases hlive d hd with hd | rfl
    · exact h.home d hd
    · exact hm

variable {d : Delivery μ} {rest : List (Delivery μ)} {t : Thread I Bool}

theorem pump (h : l.Ok home seq g) (hbuf : l.buffered = d :: rest) :
    Lane.Ok home seq ⟨rest, some d, l.pending ++ [d]⟩ g := by
  have hd : d ∈ l.buffered := hbuf ▸ mem_cons_self
  have hrest : ∀ x ∈ rest, x ∈ l.buffered := fun x hx => hbuf ▸ mem_cons_of_mem _ hx
  have hsorted := h.buffered
  rw [hbuf, pairwise_cons] at hsorted
  have hlive : ∀ x, x ∈ Lane.live ⟨rest, some d, l.pending ++ [d]⟩ ∨ g.current = some x →
      x ∈ l.live ∨ g.current = some x := fun x hx => hx.imp_left (live_pump hbuf)
  refine ⟨?_, hsorted.2, ?_, ?_, fun x hx => h.lt_seq x (hlive x hx),
    fun x hx => h.home x (hlive x hx), fun x hx => mem_append_left _ (h.rest x hx), h.nodup⟩
  · rintro _ ⟨⟩
    exact hsorted.1
  · rintro x hx _ ⟨⟩
    rcases mem_append.mp hx with hx | hx
    · exact (h.pending_lt x hx d hd).le
    · exact (congrArg Delivery.id (mem_singleton.mp hx)).le
  · intro x hx y hy
    rcases mem_append.mp hx with hx | hx
    · exact h.pending_lt x hx y (hrest y hy)
    · rw [mem_singleton.mp hx]
      exact hsorted.1 y hy

theorem receive (h : l.Ok home seq g) (hhand : l.hand = some d) :
    Lane.Ok home seq { l with hand := none } (.handling d t []) := by
  have hlive : ∀ x, x ∈ Lane.live { l with hand := none } ∨
      (Loop.handling d t []).current = some x → x ∈ l.live := by
    rintro x (hx | ⟨⟨⟩⟩)
    · exact live_receive hx
    · exact mem_live.mpr (.inr (.inl hhand))
  exact ⟨fun x hx => (nomatch hx), h.buffered, fun x _ y hy => (nomatch hy), h.pending_lt,
    fun x hx => h.lt_seq x (.inl (hlive x hx)), fun x hx => h.home x (.inl (hlive x hx)),
    fun x hx => (nomatch hx), nodup_singleton _⟩

theorem reclaim (h : l.Ok home seq g) {ds : List (Delivery μ)}
    (hnodup : (ds.map Delivery.id).Nodup) (hmem : ∀ d ∈ ds, d ∈ l.pending) :
    l.Ok home seq (.waiting ds : Loop I μ) :=
  { h with
    lt_seq := fun d hd => h.lt_seq d (.inl (hd.resolve_right fun hd => nomatch hd))
    home := fun d hd => h.home d (.inl (hd.resolve_right fun hd => nomatch hd))
    rest := hmem
    nodup := hnodup }

theorem next (h : l.Ok home seq (.waiting (d :: rest) : Loop I μ)) :
    l.Ok home seq (.handling d t rest) := by
  have hd : d ∈ l.live := mem_live.mpr (.inl (h.rest d mem_cons_self))
  have hlive : ∀ x, x ∈ l.live ∨ (Loop.handling d t rest).current = some x → x ∈ l.live := by
    rintro x (hx | ⟨⟨⟩⟩)
    · exact hx
    · exact hd
  exact { h with
    lt_seq := fun x hx => h.lt_seq x (.inl (hlive x hx))
    home := fun x hx => h.home x (.inl (hlive x hx))
    rest := fun x hx => h.rest x (mem_cons_of_mem _ hx)
    nodup := h.nodup }

theorem ack (h : l.Ok home seq (.handling d t rest)) :
    (l.ack d).Ok home seq (.handling d t rest) := by
  have hlive : ∀ x, x ∈ (l.ack d).live ∨ (Loop.handling d t rest).current = some x →
      x ∈ l.live ∨ (Loop.handling d t rest).current = some x := fun x hx => hx.imp_left live_ack
  have hne : ∀ x ∈ rest, x.id ≠ d.id := by
    have hnodup : d.id ∉ rest.map Delivery.id := (nodup_cons.mp h.nodup).1
    exact fun x hx heq => hnodup (heq ▸ mem_map_of_mem hx)
  exact ⟨h.hand_lt, h.buffered, fun x hx => h.pending_le x (mem_pending_ack.mp hx).1,
    fun x hx => h.pending_lt x (mem_pending_ack.mp hx).1, fun x hx => h.lt_seq x (hlive x hx),
    fun x hx => h.home x (hlive x hx),
    fun x hx => mem_pending_ack.mpr ⟨h.rest x hx, hne x hx⟩, h.nodup⟩

theorem done (h : l.Ok home seq (.handling d t rest)) : l.Ok home seq (.waiting rest : Loop I μ) :=
  h.reclaim (nodup_cons.mp h.nodup).2 h.rest

theorem call {t' : Thread I Bool} (h : l.Ok home seq (.handling d t rest)) :
    l.Ok home seq (.handling d t' rest) :=
  ⟨h.hand_lt, h.buffered, h.pending_le, h.pending_lt, h.lt_seq, h.home, h.rest, h.nodup⟩

end Ok

end Lane

namespace Consumer

variable {I : Interface} {φ μ τ σ κ : Type} (k : Consumer I φ μ τ σ)

/-- The delivery that a step starts on, with its shard. -/
def starts (w : State I μ σ) : Label φ μ τ → Option (Nat × Delivery μ)
  | .receive s _ =>
    match w.loops s, (w.lanes s).hand with
    | .waiting [], some d => some (s, d)
    | _, _ => none
  | .next s _ =>
    match w.loops s with
    | .waiting (d :: _) => some (s, d)
    | _ => none
  | .publish _ | .pump _ | .reclaim _ _ | .call _ _ | .finish _ _ => none

/-- The step does not start on a delivery while an earlier one with its key is pending. -/
def Careful (key : μ → κ) (w : State I μ σ) (l : Label φ μ τ) : Prop :=
  ∀ p ∈ starts w l, ∀ x ∈ (w.lanes p.1).pending, key x.message = key p.2.message → p.2.id ≤ x.id

instance [DecidableEq κ] (key : μ → κ) (w : State I μ σ) (l : Label φ μ τ) :
    Decidable (Careful key w l) :=
  inferInstanceAs (Decidable (∀ p ∈ starts w l, ∀ x ∈ (w.lanes p.1).pending, _ → _))

/-- No step of the run starts on a delivery too early. -/
def Cautious [DecidableEq μ] (key : μ → κ) : State I μ σ → List (Label φ μ τ) → Prop
  | _, [] => True
  | w, l :: ls => Careful key w l ∧ Cautious key (k.step w l) ls

instance decidableCautious [DecidableEq μ] [DecidableEq κ] (key : μ → κ) :
    (w : State I μ σ) → (ls : List (Label φ μ τ)) → Decidable (k.Cautious key w ls)
  | _, [] => isTrue trivial
  | w, l :: ls =>
    have := decidableCautious key (k.step w l) ls
    inferInstanceAs (Decidable (_ ∧ _))

/-- Everything is in order: the lanes are, and what was started on is not later than anything with
its key that is still to come. -/
structure InStep (key : μ → κ) (w : State I μ σ) : Prop where
  lane : ∀ s, (w.lanes s).Ok (fun m => k.shardOf m = s) w.seq (w.loops s)
  /-- What was started on has an id that was given out. -/
  lt_seq : ∀ d ∈ w.started, d.id < w.seq
  current : ∀ s d, (w.loops s).current = some d → d ∈ w.started
  /-- What was started on is not later than what is to come. -/
  le : ∀ d ∈ w.started, ∀ s x, x ∈ (w.lanes s).live ∨ (w.loops s).current = some x →
    key d.message = key x.message → d.id ≤ x.id

variable {k} {key : μ → κ} {w : State I μ σ}

theorem inStep_initial (st : σ) : k.InStep key { store := st } where
  lane s := ⟨fun d hd => (nomatch hd), List.Pairwise.nil, fun d hd => (nomatch hd),
    fun d hd => (nomatch hd), fun d hd => by simp [Lane.live, Loop.current] at hd,
    fun d hd => by simp [Lane.live, Loop.current] at hd, fun d hd => (nomatch hd), nodup_nil⟩
  lt_seq d hd := nomatch hd
  current s d hd := nomatch hd
  le d hd := nomatch hd

namespace InStep

variable {w' : State I μ σ} {s : Nat} {l : Lane μ} {g : Loop I μ}

/-- The lane and the goroutine of one shard are replaced by some that are in order. -/
theorem lane_set (h : k.InStep key w) (hl : l.Ok (fun m => k.shardOf m = s) w'.seq g)
    (hseq : w.seq ≤ w'.seq) (hlanes : w'.lanes = update w.lanes s l)
    (hloops : w'.loops = update w.loops s g) (s' : Nat) :
    (w'.lanes s').Ok (fun m => k.shardOf m = s') w'.seq (w'.loops s') := by
  rw [hlanes, hloops]
  by_cases hs : s' = s
  · subst hs
    simpa using hl
  · simpa [hs] using (h.lane s').mono hseq

theorem set (h : k.InStep key w) (hl : l.Ok (fun m => k.shardOf m = s) w.seq g)
    (hcurrent : ∀ d, g.current = some d → (w.loops s).current = some d)
    (hlive : ∀ d ∈ l.live, d ∈ (w.lanes s).live) (hseq : w'.seq = w.seq)
    (hlanes : w'.lanes = update w.lanes s l)
    (hloops : w'.loops = update w.loops s g) (hstarted : w'.started = w.started) :
    k.InStep key w' where
  lane := h.lane_set (hseq ▸ hl) hseq.ge hlanes hloops
  lt_seq := by
    rw [hseq, hstarted]
    exact h.lt_seq
  current s' d := by
    rw [hloops, hstarted]
    by_cases hs : s' = s
    · subst hs
      rw [update_self]
      exact fun hd => h.current s' d (hcurrent d hd)
    · rw [update_of_ne hs]
      exact h.current s' d
  le d hd s' x := by
    rw [hlanes, hloops]
    rw [hstarted] at hd
    by_cases hs : s' = s
    · subst hs
      rw [update_self, update_self]
      exact fun hx => h.le d hd s' x (hx.imp (hlive x) (hcurrent x))
    · rw [update_of_ne hs, update_of_ne hs]
      exact h.le d hd s' x

theorem publish (h : k.InStep key w) (m : μ) :
    k.InStep key { w.setLane (k.shardOf m) ((w.lanes (k.shardOf m)).publish ⟨w.seq, m⟩) with
      seq := w.seq + 1 } where
  lane := h.lane_set ((h.lane (k.shardOf m)).publish rfl) (Nat.le_succ _) rfl
    (update_eq_self ..).symm
  lt_seq d hd := (h.lt_seq d hd).trans (Nat.lt_succ_self _)
  current := h.current
  le d hd s x hx hkey := by
    have hold : (x ∈ (w.lanes s).live ∨ (w.loops s).current = some x) ∨ x = ⟨w.seq, m⟩ := by
      simp only [State.setLane] at hx
      by_cases hs : s = k.shardOf m
      · subst hs
        rw [update_self] at hx
        rcases hx with hx | hx
        · exact (Lane.mem_live_publish.mp hx).imp_left .inl
        · exact .inl (.inr hx)
      · rw [update_of_ne hs] at hx
        exact .inl hx
    rcases hold with hx | rfl
    · exact h.le d hd s x hx hkey
    · exact (h.lt_seq d hd).le

/-- A delivery is started on that is not later than anything of its key that the lane still has. -/
theorem start (h : k.InStep key w) (hshard : ∀ m m', key m = key m' → k.shardOf m = k.shardOf m')
    {d : Delivery μ} {t : Thread I Bool} {rest : List (Delivery μ)}
    (hl : l.Ok (fun m => k.shardOf m = s) w.seq (.handling d t rest))
    (hlive : ∀ x ∈ l.live, x ∈ (w.lanes s).live) (hd : d ∈ (w.lanes s).live)
    (hfirst : ∀ x ∈ l.live, key x.message = key d.message → d.id ≤ x.id) (hseq : w'.seq = w.seq)
    (hlanes : w'.lanes = update w.lanes s l)
    (hloops : w'.loops = update w.loops s (.handling d t rest))
    (hstarted : w'.started = w.started ++ [d]) : k.InStep key w' where
  lane := h.lane_set (hseq ▸ hl) hseq.ge hlanes hloops
  lt_seq x hx := by
    rw [hstarted, mem_append, mem_singleton] at hx
    rw [hseq]
    rcases hx with hx | rfl
    · exact h.lt_seq x hx
    · exact (h.lane s).lt_seq x (.inl hd)
  current s' x hx := by
    rw [hloops] at hx
    rw [hstarted, mem_append, mem_singleton]
    by_cases hs : s' = s
    · subst hs
      rw [update_self] at hx
      exact .inr (Option.some.inj hx).symm
    · rw [update_of_ne hs] at hx
      exact .inl (h.current s' x hx)
  le y hy s' x hx hkey := by
    rw [hlanes, hloops] at hx
    rw [hstarted, mem_append, mem_singleton] at hy
    by_cases hs : s' = s
    · subst hs
      rw [update_self, update_self] at hx
      have hx' : x ∈ l.live ∨ x = d := hx.imp_right fun hx => (Option.some.inj hx).symm
      -- what was started on before is compared with what was live before, the new one with what
      -- is left
      rcases hy with hy | rfl
      · refine h.le y hy s' x (.inl ?_) hkey
        exact hx'.elim (hlive x) fun hx => hx ▸ hd
      · exact hx'.elim (fun hx => hfirst x hx hkey.symm) fun hx => hx ▸ le_refl _
    · rw [update_of_ne hs, update_of_ne hs] at hx
      rcases hy with hy | rfl
      · exact h.le y hy s' x hx hkey
      · -- messages with one key are in one lane
        have hhome : k.shardOf x.message = s' := (h.lane s').home x hx
        have hhome' : k.shardOf y.message = s := hl.home y (.inr rfl)
        exact absurd (hhome.symm.trans ((hshard _ _ hkey).symm.trans hhome')) hs

variable [DecidableEq μ] {lab : Label φ μ τ}

/-- One step, if it is careful, keeps everything in order. -/
theorem step (h : k.InStep key w) (hshard : ∀ m m', key m = key m' → k.shardOf m = k.shardOf m')
    (hc : Careful key w lab) : k.InStep key (k.step w lab) := by
  rcases step_cases (k := k) w lab with heq | hmove
  · rwa [heq]
  generalize k.step w lab = w' at hmove
  cases hmove with
  | publish => exact h.publish _
  | @pump s d rest hand buffered =>
    exact h.set ((h.lane s).pump buffered) (fun _ hd => hd) (fun _ => Lane.live_pump buffered) rfl
      rfl (update_eq_self ..).symm rfl
  | @receive s now d idle hand =>
    have hfirst := hc (s, d) (by simp [starts, idle, hand])
    refine h.start hshard ((h.lane s).receive hand) (fun _ => Lane.live_receive)
      (Lane.mem_live.mpr (.inr (.inl hand))) (fun x hx hkey => ?_) rfl rfl rfl rfl
    -- against pending ones the step is careful, and the buffer comes after what is in hand
    rcases Lane.mem_live.mp hx with hx | hx | hx
    · exact hfirst x hx hkey
    · cases hx
    · exact ((h.lane s).hand_lt d hand x hx).le
  | @reclaim s ds idle nodup mem =>
    exact h.set ((h.lane s).reclaim nodup mem) (fun _ hd => (nomatch hd)) (fun _ hx => hx) rfl
      (update_eq_self ..).symm rfl rfl
  | @next s now d rest loop =>
    have hl := h.lane s
    rw [loop] at hl
    -- what was reclaimed is still pending
    have hd := hl.rest d mem_cons_self
    have hfirst := hc (s, d) (by simp [starts, loop])
    refine h.start hshard hl.next (fun _ hx => hx) (Lane.mem_live.mpr (.inl hd))
      (fun x hx hkey => ?_) rfl (update_eq_self ..).symm rfl rfl
    rcases Lane.mem_live.mp hx with hx | hx | hx
    · exact hfirst x hx hkey
    · exact hl.pending_le d hd x hx
    · exact (hl.pending_lt d hd x hx).le
  | @call s f d c cont seen rest loop =>
    have hl := h.lane s
    rw [loop] at hl
    exact h.set hl.call (fun x hx => by rw [loop]; exact hx) (fun _ hx => hx) rfl
      (update_eq_self ..).symm rfl rfl
  | @finish s acked settled d seen rest loop =>
    have hl := h.lane s
    rw [loop] at hl
    cases settled && acked with
    | false =>
      exact h.set hl.done (fun _ hx => (nomatch hx)) (fun _ hx => hx) rfl rfl rfl rfl
    | true =>
      exact h.set hl.ack.done (fun _ hx => (nomatch hx)) (fun _ => Lane.live_ack) rfl rfl rfl rfl

end InStep

end Consumer

end Letopis
