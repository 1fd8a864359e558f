import Letopis.Encoding.Text
import Letopis.Interleaving.Pool
import Mathlib.Data.List.Nodup
import Mathlib.Tactic.Tauto

/-!
# Sharded consumers

A queue has a lane for each shard, and a consumer has a goroutine for each lane. Messages are
buffered in the order in which they are published. The subscription of a lane takes the next one out
of the buffer, records it as pending and holds it until the goroutine is ready to receive it. The
goroutine handles one delivery at a time; now and then it reclaims pending deliveries and handles
these, one after the other. A delivery is pending until it is acknowledged.

What it means to handle a message is a parameter here (`Consumer.process`): a program that makes
calls, each of which may go wrong, and says in the end whether the delivery is to be acknowledged.
The calls of different goroutines interleave.
-/

namespace Letopis

open Interleaving List Function

/-! ### Lanes -/

/-- `hash/fnv`, 32 bits, variant 1a. -/
def fnv32a (data : List UInt8) : UInt32 :=
  data.foldl (fun h b => (h ^^^ b.toUInt32) * 16777619) 2166136261

/-- The shard of a key. -/
def shard (key : String) (n : Nat) : Nat := if n ≤ 1 then 0 else (fnv32a (Text.bytes key)).toNat % n

/-- A message with the id that the queue has given it. -/
structure Delivery (μ : Type) where
  /-- The id. Ids are given out in the order of publication. -/
  id : Nat
  message : μ
  deriving DecidableEq

/-- The queue of one shard, with what is pending. -/
structure Lane (μ : Type) where
  /-- What has not been delivered yet, in order. -/
  buffered : List (Delivery μ) := []
  /-- What the subscription holds out to the goroutine. -/
  hand : Option (Delivery μ) := none
  /-- What has been delivered and not been acknowledged. -/
  pending : List (Delivery μ) := []

namespace Lane

variable {μ : Type}

/-- Append a delivery to the buffer. -/
def publish (l : Lane μ) (d : Delivery μ) : Lane μ := { l with buffered := l.buffered ++ [d] }

/-- The subscription takes the next delivery, unless it still holds one. It is pending from then
on. -/
def pump (l : Lane μ) : Lane μ :=
  match l.hand, l.buffered with
  | none, d :: rest => ⟨rest, some d, l.pending ++ [d]⟩
  | _, _ => l

/-- Remove a delivery from the pending ones. -/
def ack (l : Lane μ) (d : Delivery μ) : Lane μ :=
  { l with pending := l.pending.filter fun d' => d'.id ≠ d.id }

/-- Everything that the goroutine may still get from the lane. -/
def live (l : Lane μ) : List (Delivery μ) := l.pending ++ l.hand.toList ++ l.buffered

variable {l : Lane μ} {d x : Delivery μ}

theorem mem_live : d ∈ l.live ↔ d ∈ l.pending ∨ l.hand = some d ∨ d ∈ l.buffered := by
  simp [live, Option.mem_toList]

theorem mem_live_publish : x ∈ (l.publish d).live ↔ x ∈ l.live ∨ x = d := by
  simp [live, publish, or_assoc]

theorem live_pump {rest : List (Delivery μ)} (hbuf : l.buffered = d :: rest)
    (hx : x ∈ live ⟨rest, some d, l.pending ++ [d]⟩) : x ∈ l.live := by
  simp only [mem_live, mem_append, Option.some.injEq, hbuf, mem_cons] at hx ⊢
  tauto

theorem live_receive (hx : x ∈ live { l with hand := none }) : x ∈ l.live := by
  simp only [mem_live, reduceCtorEq, false_or] at hx ⊢
  exact hx.imp_right .inr

theorem mem_pending_ack : x ∈ (l.ack d).pending ↔ x ∈ l.pending ∧ x.id ≠ d.id := by
  simp [ack]

theorem live_ack (hx : x ∈ (l.ack d).live) : x ∈ l.live := by
  simp only [mem_live, mem_pending_ack] at hx ⊢
  exact hx.imp_left And.left

end Lane

/-! ### Goroutines -/

/-- The goroutine of a shard. -/
inductive Loop (I : Interface) (μ : Type) where
  /-- It has nothing to do, or some reclaimed deliveries still to handle. -/
  | waiting (rest : List (Delivery μ))
  | handling (d : Delivery μ) (t : Thread I Bool) (rest : List (Delivery μ))

namespace Loop

variable {I : Interface} {μ : Type}

/-- The reclaimed deliveries that are still to be handled. -/
def rest : Loop I μ → List (Delivery μ)
  | .waiting rest | .handling _ _ rest => rest

/-- The delivery that is being handled. -/
def current : Loop I μ → Option (Delivery μ)
  | .waiting _ => none
  | .handling d _ _ => some d

/-- The call that the goroutine is about to make. -/
def asks : Loop I μ → Option I.Call
  | .handling _ ⟨.call c _, _⟩ _ => some c
  | _ => none

end Loop

/-! ### Consumers -/

/-- A consumer: how messages are sharded and handled, and what answers the calls that are made for
a delivery. -/
structure Consumer (I : Interface) (φ μ τ σ : Type) where
  shardOf : μ → Nat
  /-- Handle a message, given the clock: whether it is to be acknowledged. -/
  process : μ → τ → Prog I Bool
  handler : Delivery μ → Handler I φ σ

namespace Consumer

variable {I : Interface} {φ μ τ σ : Type}

/-- A queue with its consumer. -/
structure State (I : Interface) (μ σ : Type) where
  seq : Nat := 0
  lanes : Nat → Lane μ := fun _ => {}
  loops : Nat → Loop I μ := fun _ => .waiting []
  store : σ
  /-- For the record: the deliveries that were started on, in order. -/
  started : List (Delivery μ) := []

/-- The steps of the queue and of the goroutines. -/
inductive Label (φ μ τ : Type) where
  | publish (m : μ)
  | pump (s : Nat)
  | receive (s : Nat) (now : τ)
  /-- Which of the pending deliveries are old enough is up to the clock, and the order is up to the
  queue. -/
  | reclaim (s : Nat) (ds : List (Delivery μ))
  | next (s : Nat) (now : τ)
  | call (s : Nat) (f : φ)
  | finish (s : Nat) (acked : Bool)

namespace State

/-- Replace a lane. -/
def setLane (w : State I μ σ) (s : Nat) (l : Lane μ) : State I μ σ :=
  { w with lanes := update w.lanes s l }

/-- Replace a goroutine. -/
def setLoop (w : State I μ σ) (s : Nat) (g : Loop I μ) : State I μ σ :=
  { w with loops := update w.loops s g }

end State

variable (k : Consumer I φ μ τ σ)

/-- Start on a delivery. -/
def start (w : State I μ σ) (s : Nat) (d : Delivery μ) (rest : List (Delivery μ)) (now : τ) :
    State I μ σ :=
  { w.setLoop s (.handling d (.fresh (k.process d.message now)) rest) with
    started := w.started ++ [d] }

/-- One step. What cannot happen changes nothing. -/
def step [DecidableEq μ] (w : State I μ σ) : Label φ μ τ → State I μ σ
  | .publish m =>
    let s := k.shardOf m
    { w.setLane s ((w.lanes s).publish ⟨w.seq, m⟩) with seq := w.seq + 1 }
  | .pump s => w.setLane s (w.lanes s).pump
  | .receive s now =>
    -- the goroutine takes from the subscription only when its reclaimed deliveries are done
    match w.loops s, (w.lanes s).hand with
    | .waiting [], some d => k.start (w.setLane s { w.lanes s with hand := none }) s d [] now
    | _, _ => w
  | .reclaim s ds =>
    match w.loops s with
    | .waiting [] =>
      if (ds.map Delivery.id).Nodup ∧ ∀ d ∈ ds, d ∈ (w.lanes s).pending then
        w.setLoop s (.waiting ds)
      else w
    | _ => w
  | .next s now =>
    match w.loops s with
    | .waiting (d :: rest) => k.start w s d rest now
    | _ => w
  | .call s f =>
    match w.loops s with
    | .handling d ⟨.call c cont, seen⟩ rest =>
      -- the reply is on record, so that what was read can be told later
      let reply := k.handler d c f w.store
      { w.setLoop s (.handling d ⟨cont reply.1, ⟨c, reply.1⟩ :: seen⟩ rest) with
        store := reply.2 }
    | _ => w
  | .finish s acked =>
    match w.loops s with
    | .handling d ⟨.ret settled, _⟩ rest =>
      -- without an acknowledgment the delivery stays pending and may be reclaimed
      (w.setLane s (if settled && acked then (w.lanes s).ack d else w.lanes s)).setLoop s
        (.waiting rest)
    | _ => w

/-- Run a list of steps from left to right. -/
def run [DecidableEq μ] (w : State I μ σ) (ls : List (Label φ μ τ)) : State I μ σ :=
  ls.foldl k.step w

/-! ### What a step does -/

/-- The steps that can happen. -/
inductive Move (w : State I μ σ) : Label φ μ τ → State I μ σ → Prop
  | publish {m : μ} : Move w (.publish m)
      { w.setLane (k.shardOf m) ((w.lanes (k.shardOf m)).publish ⟨w.seq, m⟩) with
        seq := w.seq + 1 }
  | pump {s : Nat} {d : Delivery μ} {rest : List (Delivery μ)} (hand : (w.lanes s).hand = none)
      (buffered : (w.lanes s).buffered = d :: rest) :
      Move w (.pump s) (w.setLane s ⟨rest, some d, (w.lanes s).pending ++ [d]⟩)
  | receive {s : Nat} {now : τ} {d : Delivery μ} (idle : w.loops s = .waiting [])
      (hand : (w.lanes s).hand = some d) :
      Move w (.receive s now) (k.start (w.setLane s { w.lanes s with hand := none }) s d [] now)
  | reclaim {s : Nat} {ds : List (Delivery μ)} (idle : w.loops s = .waiting [])
      (nodup : (ds.map Delivery.id).Nodup) (mem : ∀ d ∈ ds, d ∈ (w.lanes s).pending) :
      Move w (.reclaim s ds) (w.setLoop s (.waiting ds))
  | next {s : Nat} {now : τ} {d : Delivery μ} {rest : List (Delivery μ)}
      (loop : w.loops s = .waiting (d :: rest)) : Move w (.next s now) (k.start w s d rest now)
  | call {s : Nat} {f : φ} {d : Delivery μ} {c : I.Call} {cont : I.Reply c → Prog I Bool}
      {seen : List (Obs I)} {rest : List (Delivery μ)}
      (loop : w.loops s = .handling d ⟨.call c cont, seen⟩ rest) :
      Move w (.call s f)
        { w.setLoop s (.handling d ⟨cont (k.handler d c f w.store).1,
            ⟨c, (k.handler d c f w.store).1⟩ :: seen⟩ rest) with
          store := (k.handler d c f w.store).2 }
  | finish {s : Nat} {acked settled : Bool} {d : Delivery μ} {seen : List (Obs I)}
      {rest : List (Delivery μ)} (loop : w.loops s = .handling d ⟨.ret settled, seen⟩ rest) :
      Move w (.finish s acked)
        ((w.setLane s (if settled && acked then (w.lanes s).ack d else w.lanes s)).setLoop s
          (.waiting rest))

variable {k} [DecidableEq μ]

/-- A label that does not apply changes nothing. -/
theorem step_cases (w : State I μ σ) (l : Label φ μ τ) :
    k.step w l = w ∨ k.Move w l (k.step w l) := by
  cases l with
  | publish m => exact .inr .publish
  | pump s =>
    -- with nothing buffered, or a delivery in hand, pumping a lane gives it back
    rcases hhand : (w.lanes s).hand with _ | d
    · rcases hbuf : (w.lanes s).buffered with _ | ⟨d, rest⟩
      · refine .inl ?_
        simp [step, Lane.pump, hhand, hbuf, State.setLane]
      · have hpump : (w.lanes s).pump = ⟨rest, some d, (w.lanes s).pending ++ [d]⟩ := by
          simp [Lane.pump, hhand, hbuf]
        rw [step, hpump]
        exact .inr (.pump hhand hbuf)
    · refine .inl ?_
      simp [step, Lane.pump, hhand, State.setLane]
  | receive s now =>
    rw [step]
    split
    · next d hloop hhand => exact .inr (.receive hloop hhand)
    · exact .inl rfl
  | reclaim s ds =>
    rw [step]
    split
    · next hloop =>
      split_ifs with hds
      · exact .inr (.reclaim hloop hds.1 hds.2)
      · exact .inl rfl
    · exact .inl rfl
  | next s now =>
    rw [step]
    split
    · next d rest hloop => exact .inr (.next hloop)
    · exact .inl rfl
  | call s f =>
    rw [step]
    split
    · next d c cont seen rest hloop => exact .inr (.call hloop)
    · exact .inl rfl
  | finish s acked =>
    rw [step]
    split
    · next d settled seen rest hloop => exact .inr (.finish hloop)
    · exact .inl rfl

/-- What is handled after a step was handled before it, was just started on, or has just made a
call. -/
theorem handling_step {w : State I μ σ} {l : Label φ μ τ} {s : Nat} {d : Delivery μ}
    {t : Thread I Bool} {rest : List (Delivery μ)}
    (h : (k.step w l).loops s = .handling d t rest) :
    w.loops s = .handling d t rest ∨ (∃ now, t = .fresh (k.process d.message now)) ∨
      ∃ f c cont seen, l = .call s f ∧ w.loops s = .handling d ⟨.call c cont, seen⟩ rest ∧
        t = ⟨cont (k.handler d c f w.store).1, ⟨c, (k.handler d c f w.store).1⟩ :: seen⟩ ∧
        (k.step w l).store = (k.handler d c f w.store).2 := by
  rcases step_cases (k := k) w l with heq | hmove
  · exact .inl (heq ▸ h)
  generalize k.step w l = w' at hmove h
  cases hmove with
  | publish | pump => exact .inl h
  | @receive s' | @next s' =>
    by_cases hs : s = s'
    · subst hs
      simp only [start, State.setLoop, update_self, Loop.handling.injEq] at h
      obtain ⟨rfl, rfl, -⟩ := h
      exact .inr (.inl ⟨_, rfl⟩)
    · simp only [start, State.setLoop, update_of_ne hs] at h
      exact .inl h
  | @reclaim s' | @finish s' =>
    -- the goroutine of the step waits afterwards
    by_cases hs : s = s'
    · simp [State.setLoop, hs] at h
    · simp only [State.setLoop, update_of_ne hs] at h
      exact .inl h
  | @call s' f d' c cont seen rest' loop =>
    by_cases hs : s = s'
    · subst hs
      simp only [State.setLoop, update_self, Loop.handling.injEq] at h
      obtain ⟨rfl, rfl, rfl⟩ := h
      exact .inr (.inr ⟨f, c, cont, seen, rfl, loop, rfl, rfl⟩)
    · simp only [State.setLoop, update_of_ne hs] at h
      exact .inl h

/-! ### Ids -/

/-- The consumer knows the delivery: it may get it from a lane, has reclaimed it or handles it. -/
def State.Knows (w : State I μ σ) (d : Delivery μ) : Prop :=
  ∃ s, d ∈ (w.lanes s).live ∨ d ∈ (w.loops s).rest ∨ (w.loops s).current = some d

/-- Deliveries have ids of their own, from those that were given out. -/
structure State.Numbered (w : State I μ σ) : Prop where
  lt_seq : ∀ d, w.Knows d → d.id < w.seq
  unique : ∀ d x, w.Knows d → w.Knows x → d.id = x.id → d = x

namespace State

variable {w w' : State I μ σ}

omit [DecidableEq μ] in
theorem Numbered.of_knows (h : w.Numbered) (hseq : w'.seq = w.seq)
    (hknows : ∀ d, w'.Knows d → w.Knows d) : w'.Numbered :=
  ⟨fun d hd => hseq ▸ h.lt_seq d (hknows d hd),
    fun d x hd hx => h.unique d x (hknows d hd) (hknows x hx)⟩

variable {d : Delivery μ}

omit [DecidableEq μ] in
theorem Knows.of_set {s : Nat} {l : Lane μ} {g : Loop I μ} (hd : w'.Knows d)
    (hlanes : w'.lanes = update w.lanes s l)
    (hloops : w'.loops = update w.loops s g) :
    w.Knows d ∨ d ∈ l.live ∨ d ∈ g.rest ∨ g.current = some d := by
  obtain ⟨s', hd⟩ := hd
  rw [hlanes, hloops] at hd
  by_cases hs : s' = s
  · subst hs
    rw [update_self, update_self] at hd
    exact .inr hd
  · rw [update_of_ne hs, update_of_ne hs] at hd
    exact .inl ⟨s', hd⟩

omit [DecidableEq μ] in
theorem Numbered.set (h : w.Numbered) {s : Nat} {l : Lane μ} {g : Loop I μ}
    (hseq : w'.seq = w.seq) (hlanes : w'.lanes = update w.lanes s l)
    (hloops : w'.loops = update w.loops s g)
    (hlive : ∀ d ∈ l.live, d ∈ (w.lanes s).live)
    (hloop : ∀ d, d ∈ g.rest ∨ g.current = some d → w.Knows d) : w'.Numbered :=
  h.of_knows hseq fun d hd => (hd.of_set hlanes hloops).elim id
    fun hd => hd.elim (fun hd => ⟨s, .inl (hlive d hd)⟩) (hloop d)

omit [DecidableEq μ] in
theorem Numbered.publish (h : w.Numbered) (m : μ) (s : Nat) :
    State.Numbered { w.setLane s ((w.lanes s).publish ⟨w.seq, m⟩) with seq := w.seq + 1 } := by
  -- the new delivery is the only one that was not known before
  have hnew : ∀ d, State.Knows { w.setLane s ((w.lanes s).publish ⟨w.seq, m⟩) with
      seq := w.seq + 1 } d → w.Knows d ∨ d = ⟨w.seq, m⟩ := by
    intro d hd
    have hloops : w.loops = update w.loops s (w.loops s) :=
      (update_eq_self ..).symm
    rcases Knows.of_set (w := w) hd rfl hloops with hd | hd | hd
    · exact .inl hd
    · exact (Lane.mem_live_publish.mp hd).imp_left fun hd => ⟨s, .inl hd⟩
    · exact .inl ⟨s, .inr hd⟩
  refine ⟨fun d hd => ?_, fun d x hd hx hid => ?_⟩
  · rcases hnew d hd with hd | rfl
    · exact Nat.lt_succ_of_lt (h.lt_seq d hd)
    · exact Nat.lt_succ_self _
  · -- the new id is above all the others
    rcases hnew d hd with hd | rfl <;> rcases hnew x hx with hx | rfl
    · exact h.unique d x hd hx hid
    · exact absurd hid (Nat.ne_of_lt (h.lt_seq d hd))
    · exact absurd hid.symm (Nat.ne_of_lt (h.lt_seq x hx))
    · rfl

theorem Numbered.step (h : w.Numbered) (l : Label φ μ τ) : (k.step w l).Numbered := by
  rcases step_cases (k := k) w l with heq | hmove
  · rwa [heq]
  generalize k.step w l = w' at hmove
  cases hmove with
  | publish => exact h.publish ..
  | @pump s d rest hand buffered =>
    exact h.set rfl rfl (update_eq_self ..).symm (fun _ => Lane.live_pump buffered)
      fun _ hx => ⟨s, .inr hx⟩
  | @receive s now d idle hand =>
    refine h.set rfl rfl rfl (fun _ => Lane.live_receive) fun x hx => ?_
    have hx : some d = some x := hx.resolve_left not_mem_nil
    exact ⟨s, .inl (Lane.mem_live.mpr (.inr (.inl (hand.trans hx))))⟩
  | @reclaim s ds idle nodup mem =>
    refine h.set rfl (update_eq_self ..).symm rfl (fun _ hx => hx) fun x hx => ?_
    have hx : x ∈ ds := hx.resolve_right fun hx => nomatch hx
    exact ⟨s, .inl (Lane.mem_live.mpr (.inl (mem x hx)))⟩
  | @next s now d rest loop =>
    refine h.set rfl (update_eq_self ..).symm rfl (fun _ hx => hx) fun x hx => ?_
    refine ⟨s, .inr (.inl ?_)⟩
    rw [loop]
    exact mem_cons.mpr (hx.symm.imp_left fun hx => (Option.some.inj hx).symm)
  | @call s f d c cont seen rest loop =>
    refine h.set rfl (update_eq_self ..).symm rfl (fun _ hx => hx) fun x hx => ?_
    exact ⟨s, .inr (by rw [loop]; exact hx)⟩
  | @finish s acked settled d seen rest loop =>
    refine h.set rfl rfl rfl (fun x hx => ?_) fun x hx => ?_
    · split_ifs at hx
      · exact Lane.live_ack hx
      · exact hx
    · have hx : x ∈ rest := hx.resolve_right fun hx => nomatch hx
      exact ⟨s, .inr (.inl (by rw [loop]; exact hx))⟩

/-! ### What is on the queue -/

/-- The delivery is buffered or pending. -/
def Holds (w : State I μ σ) (d : Delivery μ) : Prop :=
  ∃ s, d ∈ (w.lanes s).pending ∨ d ∈ (w.lanes s).buffered

omit [DecidableEq μ] in
theorem Holds.knows (hd : w.Holds d) : w.Knows d := by
  obtain ⟨s, hd | hd⟩ := hd
  · exact ⟨s, .inl (Lane.mem_live.mpr (.inl hd))⟩
  · exact ⟨s, .inl (Lane.mem_live.mpr (.inr (.inr hd)))⟩

omit [DecidableEq μ] in
theorem Holds.set (hd : w.Holds d) {s : Nat} {l : Lane μ}
    (hlanes : w'.lanes = update w.lanes s l)
    (hl : d ∈ (w.lanes s).pending ∨ d ∈ (w.lanes s).buffered → d ∈ l.pending ∨ d ∈ l.buffered) :
    w'.Holds d := by
  obtain ⟨s', hd⟩ := hd
  refine ⟨s', ?_⟩
  rw [hlanes]
  by_cases hs : s' = s
  · subst hs
    rw [update_self]
    exact hl hd
  · rwa [update_of_ne hs]

/-- A delivery stays on the queue until the goroutine that has handled it acknowledges it. -/
theorem Holds.step (hd : w.Holds d) (lab : Label φ μ τ) :
    (k.step w lab).Holds d ∨ ∃ s acked x seen rest, lab = .finish s acked ∧
      w.loops s = .handling x ⟨.ret true, seen⟩ rest ∧ d.id = x.id := by
  rcases step_cases (k := k) w lab with heq | hmove
  · rw [heq]
    exact .inl hd
  generalize k.step w lab = w' at hmove
  cases hmove with
  | publish =>
    exact .inl (hd.set rfl fun hd => hd.imp_right (mem_append_left _))
  | @pump s x rest hand buffered =>
    refine .inl (hd.set rfl fun hd => ?_)
    rw [buffered, mem_cons] at hd
    -- the first of the buffer becomes pending
    rcases hd with hd | rfl | hd
    · exact .inl (mem_append_left _ hd)
    · exact .inl (mem_append_right _ mem_cons_self)
    · exact .inr hd
  | receive => exact .inl (hd.set rfl id)
  | reclaim | next | call => exact .inl hd
  | @finish s acked settled x seen rest loop =>
    by_cases hid : d.id = x.id ∧ settled = true
    · obtain ⟨hid, rfl⟩ := hid
      exact .inr ⟨s, acked, x, seen, rest, rfl, loop, hid⟩
    · refine .inl (hd.set rfl fun hd => ?_)
      split_ifs with hack
      · have hne : d.id ≠ x.id := fun heq => hid ⟨heq, (Bool.and_eq_true_iff.mp hack).1⟩
        exact hd.imp_left fun hd => Lane.mem_pending_ack.mpr ⟨hd, hne⟩
      · exact hd

end State

end Consumer

end Letopis
