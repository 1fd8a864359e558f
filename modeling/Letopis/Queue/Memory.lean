import Letopis.Queue.Consumer
import Mathlib.Data.Set.Card

/-!
# The memory queue

A shard of the memory queue is a buffered channel and a map of pending deliveries. `Publish` draws
an id from a counter and sends the delivery to the channel of its shard. The subscription of a shard
is a goroutine that takes the next delivery out of the channel, records it as pending, and only then
hands it out; it stops when its context is done. `Ack` removes a pending delivery, and `Reclaim`
hands out again the pending deliveries that are old enough. The channel, the variable of the
goroutine and the map are used in separate steps, and the steps of different calls interleave.

A message that was published is at every moment in exactly one place: buffered in its shard, taken
by the subscription and not recorded yet, pending, or acknowledged. What has been acknowledged is
not reclaimed any more, the first deliveries of a shard come in the order of its channel, and
`Depth` counts what is buffered or pending (`memory_queue_partition`).

A shard has one subscription at a time. Another one may follow when it has stopped, but it does not
wait for what the first one has left behind: the order of first deliveries is that of a shard with
one subscription.

The counter has 64 bits in the source and is not bounded here, and the queue is not closed. `Depth`
is that of one moment: the call holds the lock, but there is none for the channels, and a call that
overlaps with others adds up lengths of different moments.
-/

namespace Letopis

open List Function

/-! ### Shards -/

/-- A delivery as the memory queue hands it out. -/
structure MemDelivery (μ : Type) extends Delivery μ where
  shard : Nat
  deliveries : Nat := 1
  deriving DecidableEq

/-- A delivery that was recorded and not acknowledged. -/
structure PendingDelivery (μ : Type) where
  d : MemDelivery μ
  since : Int

/-- The goroutine of a subscription. -/
inductive MemPump (μ : Type) where
  | absent
  | waiting
  | taken (d : MemDelivery μ)
  /-- It has recorded the delivery and offers it to the consumer. -/
  | handing (d : MemDelivery μ)
  | stopped

/-- The delivery that was taken and not recorded yet. -/
def MemPump.unrecorded {μ : Type} : MemPump μ → List (MemDelivery μ)
  | .taken d => [d]
  | _ => []

/-- One shard of the queue. -/
structure MemLane (μ : Type) where
  chan : List (MemDelivery μ) := []
  pump : MemPump μ := .absent
  /-- The map of pending deliveries; the keys are their ids. -/
  pending : List (PendingDelivery μ) := []
  /-- For the record: what was sent to the channel, in order. -/
  log : List (Delivery μ) := []
  /-- For the record: it was subscribed to again, after a subscription had stopped. -/
  restarted : Bool := false

namespace MemLane

variable {μ : Type}

/-- Send a delivery to the channel. -/
def send (l : MemLane μ) (d : MemDelivery μ) : MemLane μ :=
  { l with chan := l.chan ++ [d], log := l.log ++ [d.toDelivery] }

/-- Remove the entry of an id. -/
def remove (l : MemLane μ) (id : Nat) : MemLane μ :=
  { l with pending := l.pending.filter fun p => p.d.id ≠ id }

/-- Set the entry of an id. -/
def put (l : MemLane μ) (p : PendingDelivery μ) : MemLane μ :=
  { l with pending := (l.remove p.d.id).pending ++ [p] }

/-- The delivery is old enough to be handed out again. -/
def isIdle (now minIdle : Int) (p : PendingDelivery μ) : Bool := minIdle ≤ now - p.since

/-- Hand out a pending delivery again. -/
def touch (now : Int) (p : PendingDelivery μ) : PendingDelivery μ :=
  ⟨{ p.d with deliveries := p.d.deliveries + 1 }, now⟩

/-- Hand out again what is old enough. -/
def reclaim (l : MemLane μ) (now minIdle : Int) : MemLane μ :=
  { l with pending := l.pending.map fun p => if isIdle now minIdle p then touch now p else p }

/-- What is handed out again. The map is iterated over in any order. -/
def reclaimed (l : MemLane μ) (now minIdle : Int) : List (MemDelivery μ) :=
  (l.pending.filter (isIdle now minIdle)).map fun p => (touch now p).d

/-- What was published and has not been acknowledged. -/
def live (l : MemLane μ) : List (Delivery μ) :=
  (l.chan ++ l.pump.unrecorded ++ l.pending.map PendingDelivery.d).map MemDelivery.toDelivery

end MemLane

/-! ### Steps -/

/-- The in-memory queue and its history. -/
structure MemQueue (μ : Type) where
  shards : Nat
  seq : Nat := 0
  /-- What calls of `Publish` that have not returned are about to send. -/
  offered : List (MemDelivery μ) := []
  lanes : Nat → MemLane μ := fun _ => {}
  /-- For the record: what was handed out, by subscriptions and by `Reclaim`, in order. -/
  delivered : List (MemDelivery μ) := []
  /-- For the record: the ids of the deliveries for which `Ack` has returned. -/
  acked : List Nat := []

/-- The steps of the calls of the queue. -/
inductive MemLabel (μ : Type) where
  | draw (m : μ)
  /-- `Publish` sends the delivery and returns. -/
  | send (d : MemDelivery μ)
  | cancel (d : MemDelivery μ)
  | subscribe (s : Nat)
  /-- The goroutine takes the next delivery. -/
  | take (s : Nat)
  | record (s : Nat) (now : Int)
  | hand (s : Nat)
  /-- The context of the subscription is done. -/
  | stop (s : Nat)
  /-- `Ack` of a delivery that was handed out. -/
  | ack (d : MemDelivery μ)
  /-- `Reclaim` hands out the deliveries, in some order. -/
  | reclaim (s : Nat) (now minIdle : Int) (out : List (MemDelivery μ))

namespace MemQueue

variable {μ : Type}

/-- A new queue, with one shard at least. -/
def new (shards : Nat) : MemQueue μ := { shards := max shards 1 }

/-- Replace a shard. -/
def setLane (w : MemQueue μ) (s : Nat) (l : MemLane μ) : MemQueue μ :=
  { w with lanes := update w.lanes s l }

/-- One step, if it can be made. -/
def step [DecidableEq μ] (key : μ → String) (w : MemQueue μ) : MemLabel μ → Option (MemQueue μ)
  | .draw m =>
    let d : MemDelivery μ := { id := w.seq + 1, message := m, shard := shard (key m) w.shards }
    some { w with seq := w.seq + 1, offered := w.offered ++ [d] }
  | .send d =>
    -- the channel has room for so many
    if d ∈ w.offered ∧ (w.lanes d.shard).chan.length < 1024 then
      some { w.setLane d.shard ((w.lanes d.shard).send d) with offered := w.offered.erase d }
    else none
  | .cancel d => if d ∈ w.offered then some { w with offered := w.offered.erase d } else none
  | .subscribe s =>
    if s < w.shards then
      match (w.lanes s).pump with
      | .absent => some (w.setLane s { w.lanes s with pump := .waiting })
      | .stopped => some (w.setLane s { w.lanes s with pump := .waiting, restarted := true })
      | _ => none
    else none
  | .take s =>
    match (w.lanes s).pump, (w.lanes s).chan with
    | .waiting, d :: rest => some (w.setLane s { w.lanes s with chan := rest, pump := .taken d })
    | _, _ => none
  | .record s now =>
    match (w.lanes s).pump with
    | .taken d => some (w.setLane s { (w.lanes s).put ⟨d, now⟩ with pump := .handing d })
    | _ => none
  | .hand s =>
    match (w.lanes s).pump with
    | .handing d => some { w.setLane s { w.lanes s with pump := .waiting } with
        delivered := w.delivered ++ [d] }
    | _ => none
  | .stop s =>
    match (w.lanes s).pump with
    | .waiting | .handing _ => some (w.setLane s { w.lanes s with pump := .stopped })
    | _ => none
  | .ack d =>
    if d ∈ w.delivered then
      some { w.setLane d.shard ((w.lanes d.shard).remove d.id) with acked := w.acked ++ [d.id] }
    else none
  | .reclaim s now minIdle out =>
    if s < w.shards ∧ out.Perm ((w.lanes s).reclaimed now minIdle) then
      some { w.setLane s ((w.lanes s).reclaim now minIdle) with delivered := w.delivered ++ out }
    else none

/-- Run some steps from left to right. -/
def run [DecidableEq μ] (key : μ → String) (w : MemQueue μ) (ls : List (MemLabel μ)) :
    Option (MemQueue μ) :=
  ls.foldlM (step key) w

/-- What is buffered or pending, over all shards. -/
def depth (w : MemQueue μ) : Nat :=
  ((List.range w.shards).map fun s =>
    (w.lanes s).chan.length + (w.lanes s).pending.length).sum

/-! ### What is claimed -/

/-- Add an id to a list of ids, unless it is there. -/
def note (ids : List Nat) (id : Nat) : List Nat := if id ∈ ids then ids else ids ++ [id]

/-- The first deliveries from a shard, in order. -/
def firsts (w : MemQueue μ) (s : Nat) : List Nat :=
  ((w.delivered.filter fun d => d.shard = s).map fun d => d.id).foldl note []

/-- Where a message can be. -/
inductive Place where
  | buffered
  | taken
  | pending
  | acked

/-- The message is at the place. -/
def At (key : μ → String) (w : MemQueue μ) (x : Delivery μ) : Place → Prop
  | .buffered => ∃ d ∈ (w.lanes (shard (key x.message) w.shards)).chan, d.toDelivery = x
  | .taken => ∃ s d, (w.lanes s).pump = .taken d ∧ d.toDelivery = x
  | .pending => ∃ s, ∃ p ∈ (w.lanes s).pending, p.d.toDelivery = x
  | .acked => x.id ∈ w.acked

end MemQueue

/-! ### One shard -/

section Lane

variable {μ : Type}

/-- The delivery that the subscription is at. -/
def MemPump.held : MemPump μ → List (MemDelivery μ)
  | .taken d | .handing d => [d]
  | _ => []

/-- What has come out of the channel has been handed out, or the subscription is at it. If the
subscription has stopped, one delivery may be left that it was at. -/
def MemPump.Gap (firsts : List Nat) (gap : Option Nat) : MemPump μ → Prop
  | .absent | .waiting => gap = none
  | .taken d => gap = some d.id
  | .handing d => gap = none ∧ d.id ∈ firsts ∨ gap = some d.id
  | .stopped => True

namespace MemLane

/-- The ids of what is in the channel. -/
def chanIds (l : MemLane μ) : List Nat := l.chan.map fun d => d.id

/-- The ids of what is pending. -/
def pendingIds (l : MemLane μ) : List Nat := l.pending.map fun p => p.d.id

/-- The ids of what was sent to the channel. -/
def logIds (l : MemLane μ) : List Nat := l.log.map fun x => x.id

/-- The delivery was recorded: it is pending or acknowledged. -/
def Recorded (l : MemLane μ) (acked : List Nat) (d : MemDelivery μ) : Prop :=
  d.toDelivery ∈ l.log ∧ (d.id ∈ l.pendingIds ∨ d.id ∈ acked)

/-- The messages of a shard that are at a place. -/
def idsAt (l : MemLane μ) (acked : List Nat) : MemQueue.Place → List Nat
  | .buffered => l.chanIds
  | .taken => l.pump.unrecorded.map fun d => d.id
  | .pending => l.pendingIds
  | .acked => acked

theorem Recorded.mono {l l' : MemLane μ} {acked acked' : List Nat} {d : MemDelivery μ}
    (h : l.Recorded acked d) (hlog : l.log ⊆ l'.log)
    (hpending : ∀ i ∈ l.pendingIds, i ∈ l'.pendingIds ∨ i ∈ acked') (hacked : acked ⊆ acked') :
    l'.Recorded acked' d :=
  ⟨hlog h.1, h.2.elim (hpending d.id) fun hd => .inr (hacked hd)⟩

/-- What holds of a shard, given what was acknowledged and what was handed out. -/
structure Inv (s : Nat) (acked firsts : List Nat) (l : MemLane μ) : Prop where
  nodup : l.logIds.Nodup
  /-- What was published is somewhere once, until it is acknowledged. -/
  live : l.live.Perm (l.log.filter fun x => x.id ∉ acked)
  shard : ∀ d ∈ l.chan ++ l.pump.held ++ l.pending.map PendingDelivery.d, d.shard = s
  handing : ∀ d, l.pump = .handing d → l.Recorded acked d
  /-- What was handed out came out of the channel first. -/
  order : l.restarted = false →
    ∃ gap : Option Nat, l.logIds = firsts ++ gap.toList ++ l.chanIds ∧ l.pump.Gap firsts gap

variable {s : Nat} {acked firsts : List Nat} {l : MemLane μ} {d : MemDelivery μ}

private theorem pendingIds_remove (l : MemLane μ) (id : Nat) :
    ∀ i ∈ l.pendingIds, i ∈ (l.remove id).pendingIds ∨ i ∈ acked ++ [id] := by
  intro i hi
  obtain ⟨p, hp, rfl⟩ := mem_map.mp hi
  by_cases heq : p.d.id = id
  · exact .inr (mem_append_right _ (mem_singleton.mpr heq))
  · exact .inl (mem_map.mpr ⟨p, mem_filter.mpr ⟨hp, decide_eq_true heq⟩, rfl⟩)

private theorem pendingIds_put (l : MemLane μ) (p : PendingDelivery μ) :
    l.pendingIds ⊆ (l.put p).pendingIds := by
  intro i hi
  rw [pendingIds, put, map_append, mem_append]
  exact @pendingIds_remove μ [] l p.d.id i hi

private theorem live_eq (l : MemLane μ) : l.live =
    (l.chan ++ l.pump.unrecorded).map MemDelivery.toDelivery ++
      l.pending.map fun p => p.d.toDelivery := by
  rw [live, map_append, map_map]
  rfl

private theorem mem_live_iff {l : MemLane μ} {x : Delivery μ} : x ∈ l.live ↔
    (∃ d ∈ l.chan, d.toDelivery = x) ∨ (∃ d, l.pump = .taken d ∧ d.toDelivery = x) ∨
      ∃ p ∈ l.pending, p.d.toDelivery = x := by
  have hunrecorded : (∃ d ∈ l.pump.unrecorded, d.toDelivery = x) ↔
      ∃ d, l.pump = .taken d ∧ d.toDelivery = x := by
    cases l.pump <;> simp [MemPump.unrecorded]
  rw [live_eq, mem_append, map_append, mem_append, mem_map, mem_map,
    hunrecorded, mem_map, or_assoc]

private theorem map_id_live (l : MemLane μ) : l.live.map (fun x => x.id) =
    l.chanIds ++ l.pump.unrecorded.map (fun d => d.id) ++ l.pendingIds := by
  simp [live, chanIds, pendingIds, comp_def]

namespace Inv

variable (h : l.Inv s acked firsts)

include h

theorem nodup_live :
    (l.chanIds ++ l.pump.unrecorded.map (fun d => d.id) ++ l.pendingIds).Nodup := by
  rw [← map_id_live]
  have hsub : ((l.log.filter fun x => x.id ∉ acked).map fun x => x.id).Sublist l.logIds :=
    filter_sublist.map _
  exact (h.live.map _).nodup_iff.mpr (h.nodup.sublist hsub)

theorem mem_log_of_mem_live {x : Delivery μ} (hx : x ∈ l.live) : x ∈ l.log ∧ x.id ∉ acked := by
  simpa using h.live.mem_iff.mp hx

theorem id_not_acked {i : Nat}
    (hi : i ∈ l.chanIds ++ l.pump.unrecorded.map (fun d => d.id) ++ l.pendingIds) : i ∉ acked := by
  rw [← map_id_live] at hi
  obtain ⟨x, hx, rfl⟩ := mem_map.mp hi
  exact (h.mem_log_of_mem_live hx).2

theorem place_unique {i : Nat} {p q : MemQueue.Place} (hp : i ∈ l.idsAt acked p)
    (hq : i ∈ l.idsAt acked q) : p = q := by
  have hpending := disjoint_of_nodup_append h.nodup_live
  have htaken := disjoint_of_nodup_append h.nodup_live.of_append_left
  have hacked : i ∈ l.chanIds ++ l.pump.unrecorded.map (fun d => d.id) ++ l.pendingIds →
      i ∉ acked :=
    h.id_not_acked
  simp only [disjoint_left, mem_append] at hpending htaken hacked
  cases p <;> cases q <;> simp only [idsAt] at hp hq <;> first | rfl | grind

theorem send (hd : d.shard = s) (hnew : d.id ∉ l.logIds) (hacked : d.id ∉ acked) :
    (l.send d).Inv s acked firsts where
  nodup := by
    rw [logIds, MemLane.send, map_append, map_singleton, ← concat_eq_append]
    exact h.nodup.concat hnew
  live := by
    have hfilter : ((l.send d).log.filter fun x => x.id ∉ acked) =
        (l.log.filter fun x => x.id ∉ acked) ++ [d.toDelivery] := by
      simp [MemLane.send, hacked]
    rw [hfilter]
    refine List.Perm.trans ?_ (h.live.append_right [d.toDelivery])
    simp only [MemLane.live, MemLane.send, map_append, map_singleton, append_assoc]
    exact (perm_append_comm.append_left _).trans (by simp)
  shard := by
    simp only [MemLane.send, mem_append, mem_singleton]
    rintro e (((he | rfl) | he) | he)
    · exact h.shard e (by simp [he])
    · exact hd
    · exact h.shard e (by simp [he])
    · exact h.shard e (mem_append_right _ he)
  handing e he := (h.handing e he).mono (subset_append_left _ _) (fun i hi => .inl hi)
    (List.Subset.refl _)
  order hone := by
    obtain ⟨gap, hlog, hgap⟩ := h.order hone
    refine ⟨gap, ?_, hgap⟩
    simp only [logIds, chanIds, MemLane.send, map_append, map_singleton] at hlog ⊢
    rw [hlog, append_assoc _ _ [d.id]]

/-- The subscription is at nothing, after it was at nothing that is not recorded. -/
theorem setPump {pump : MemPump μ} {restarted : Bool} {firsts' : List Nat}
    (hunrecorded : l.pump.unrecorded = []) (hheld : pump.held = [])
    (horder : restarted = false → ∃ gap : Option Nat,
      l.logIds = firsts' ++ gap.toList ++ l.chanIds ∧ pump.Gap firsts' gap) :
    Inv s acked firsts' { l with pump, restarted } where
  nodup := h.nodup
  live := by
    have hunrecorded' : pump.unrecorded = [] := by
      cases pump <;> first | rfl | cases hheld
    simpa only [MemLane.live, hunrecorded, hunrecorded'] using h.live
  shard e he := h.shard e (by
    simp only [hheld, append_nil, mem_append] at he ⊢
    tauto)
  handing e he := by
    cases he
    cases hheld
  order := horder

theorem subscribe (hpump : l.pump = .absent) : Inv s acked firsts { l with pump := .waiting } := by
  refine h.setPump (by rw [hpump]; rfl) rfl fun hone => ?_
  obtain ⟨gap, hlog, hgap⟩ := h.order hone
  rw [hpump] at hgap
  exact ⟨gap, hlog, hgap⟩

theorem resubscribe (hpump : l.pump = .stopped) :
    Inv s acked firsts { l with pump := .waiting, restarted := true } :=
  h.setPump (by rw [hpump]; rfl) rfl nofun

theorem take (hpump : l.pump = .waiting) {rest : List (MemDelivery μ)}
    (hchan : l.chan = d :: rest) :
    Inv s acked firsts { l with chan := rest, pump := .taken d } where
  nodup := h.nodup
  live := by
    refine List.Perm.trans ?_ h.live
    simp only [MemLane.live, hpump, hchan, MemPump.unrecorded, append_nil, cons_append]
    exact ((perm_append_singleton d rest).append_right _).map _
  shard := by
    have hshard := h.shard
    simp only [hpump, hchan, MemPump.held, append_nil] at hshard ⊢
    intro e he
    refine hshard e ?_
    simp only [mem_append, mem_cons, not_mem_nil, or_false] at he ⊢
    tauto
  handing := nofun
  order hone := by
    obtain ⟨gap, hlog, hgap⟩ := h.order hone
    rw [hpump] at hgap
    refine ⟨some d.id, ?_, rfl⟩
    rw [logIds] at hlog ⊢
    rw [hlog, hgap, chanIds, hchan]
    simp [chanIds]

theorem record (hpump : l.pump = .taken d) (now : Int) :
    Inv s acked firsts { l.put ⟨d, now⟩ with pump := .handing d } := by
  have hnodup := h.nodup_live
  have hlive := h.live
  simp only [hpump, MemPump.unrecorded] at hnodup
  -- nothing is written over
  have hpending : (l.remove d.id).pending = l.pending := by
    refine filter_eq_self.mpr fun p hp => decide_eq_true fun heq => ?_
    have hmem : d.id ∈ l.pendingIds := mem_map.mpr ⟨p, hp, heq⟩
    exact disjoint_of_nodup_append hnodup (by simp) hmem
  have hmem : d.toDelivery ∈ l.live := by
    simp only [MemLane.live, hpump, MemPump.unrecorded, map_append, mem_append]
    simp
  refine ⟨h.nodup, ?_, ?_, ?_, ?_⟩
  · refine List.Perm.trans ?_ hlive
    simp only [MemLane.live, hpump, MemPump.unrecorded, put, hpending, append_nil,
      map_append, append_assoc]
    exact (perm_append_comm).append_left _
  · have hshard := h.shard
    simp only [hpump, MemPump.held, put, hpending] at hshard ⊢
    intro e he
    refine hshard e ?_
    simp only [mem_append, map_append, map_singleton, mem_singleton] at he ⊢
    tauto
  · rintro e he
    cases he
    refine ⟨(h.mem_log_of_mem_live hmem).1, .inl ?_⟩
    simp [pendingIds, put]
  · intro hone
    obtain ⟨gap, hlog, hgap⟩ := h.order hone
    rw [hpump] at hgap
    exact ⟨gap, hlog, .inr hgap⟩

theorem stop (hpump : l.pump = .waiting ∨ ∃ d, l.pump = .handing d) :
    Inv s acked firsts { l with pump := .stopped } := by
  refine h.setPump ?_ rfl fun hone => ?_
  · obtain hpump | ⟨d, hpump⟩ := hpump <;> rw [hpump] <;> rfl
  · obtain ⟨gap, hlog, -⟩ := h.order hone
    exact ⟨gap, hlog, trivial⟩

/-- What the subscription hands out is the next delivery, unless it was reclaimed before. -/
theorem hand (hpump : l.pump = .handing d) :
    Inv s acked (MemQueue.note firsts d.id) { l with pump := .waiting } := by
  refine h.setPump (by rw [hpump]; rfl) rfl fun hone => ?_
  obtain ⟨gap, hlog, hgap⟩ := h.order hone
  rw [hpump] at hgap
  refine ⟨none, hlog.trans ?_, rfl⟩
  obtain ⟨rfl, hmem⟩ | rfl := hgap
  · rw [MemQueue.note, if_pos hmem]
  · have hnodup := h.nodup
    rw [hlog] at hnodup
    have hnew : d.id ∉ firsts := fun hmem =>
      disjoint_of_nodup_append hnodup.of_append_left hmem (by simp)
    rw [MemQueue.note, if_neg hnew]
    simp

theorem id_not_mem_of_recorded (hd : l.Recorded acked d) :
    d.id ∉ l.chanIds ++ l.pump.unrecorded.map (fun d => d.id) := by
  intro hmem
  obtain hpending | hacked := hd.2
  · exact disjoint_of_nodup_append h.nodup_live hmem hpending
  · exact h.id_not_acked (mem_append_left _ hmem) hacked

theorem live_remove (hd : l.Recorded acked d) :
    (l.remove d.id).live = l.live.filter fun x => x.id ≠ d.id := by
  have hnot := h.id_not_mem_of_recorded hd
  have hkeep : ((l.chan ++ l.pump.unrecorded).map MemDelivery.toDelivery).filter
      (fun x => x.id ≠ d.id) = (l.chan ++ l.pump.unrecorded).map MemDelivery.toDelivery := by
    refine filter_eq_self.mpr fun x hx => decide_eq_true fun heq => hnot ?_
    obtain ⟨e, he, rfl⟩ := mem_map.mp hx
    rw [chanIds, ← map_append]
    exact mem_map.mpr ⟨e, he, heq⟩
  rw [live_eq, live_eq, filter_append, hkeep, filter_map]
  rfl

theorem ack (hd : l.Recorded acked d) : (l.remove d.id).Inv s (acked ++ [d.id]) firsts where
  nodup := h.nodup
  live := by
    have hlog : ((l.remove d.id).log.filter fun x => x.id ∉ acked ++ [d.id]) =
        (l.log.filter fun x => x.id ∉ acked).filter fun x => x.id ≠ d.id := by
      rw [filter_filter]
      refine filter_congr fun x _ => ?_
      simp [and_comm]
    rw [h.live_remove hd, hlog]
    exact h.live.filter _
  shard e he := h.shard e (by
    have hsub : (l.remove d.id).pending.map PendingDelivery.d ⊆ l.pending.map PendingDelivery.d :=
      (filter_sublist.map _).subset
    obtain he | he := mem_append.mp he
    · exact mem_append_left _ he
    · exact mem_append_right _ (hsub he))
  handing e he := (h.handing e he).mono (List.Subset.refl _) (pendingIds_remove l d.id)
    (subset_append_left _ _)
  order := h.order

theorem ack_other {i : Nat} (hi : i ∉ l.logIds) : l.Inv s (acked ++ [i]) firsts where
  nodup := h.nodup
  live := by
    refine h.live.trans (.of_eq (filter_congr fun x hx => ?_))
    have hne : x.id ≠ i := fun heq => hi (mem_map.mpr ⟨x, hx, heq⟩)
    simp [hne]
  shard := h.shard
  handing e he := (h.handing e he).mono (List.Subset.refl _) (fun i hi => .inl hi)
    (subset_append_left _ _)
  order := h.order

theorem mem_firsts_or_gap {gap : Option Nat} (hlog : l.logIds = firsts ++ gap.toList ++ l.chanIds)
    {i : Nat} (hi : i ∈ l.pendingIds) : i ∈ firsts ∨ gap = some i := by
  obtain ⟨p, hp, rfl⟩ := mem_map.mp hi
  have hlive : p.d.toDelivery ∈ l.live :=
    mem_map_of_mem (mem_append_right _ (mem_map_of_mem hp))
  have hmem : p.d.id ∈ l.logIds := mem_map_of_mem (h.mem_log_of_mem_live hlive).1
  rw [hlog, mem_append, mem_append, Option.mem_toList] at hmem
  obtain hmem | hchan := hmem
  · exact hmem
  · exact absurd hi fun hi =>
      disjoint_of_nodup_append h.nodup_live (mem_append_left _ hchan) hi

end Inv

private theorem pendingIds_reclaim (l : MemLane μ) (now minIdle : Int) :
    (l.reclaim now minIdle).pendingIds = l.pendingIds := by
  rw [pendingIds, reclaim, map_map]
  refine map_congr_left fun p _ => ?_
  rw [comp_apply]
  split_ifs <;> rfl

private theorem live_reclaim (l : MemLane μ) (now minIdle : Int) :
    (l.reclaim now minIdle).live = l.live := by
  rw [live_eq, live_eq, reclaim, map_map]
  refine congrArg _ (map_congr_left fun p _ => ?_)
  rw [comp_apply]
  split_ifs <;> rfl

private theorem foldl_note_of_forall_mem {ids : List Nat} (h : ∀ i ∈ ids, i ∈ firsts) :
    ids.foldl MemQueue.note firsts = firsts := by
  induction ids with
  | nil => rfl
  | cons i ids ih =>
    obtain ⟨hi, hids⟩ := forall_mem_cons.mp h
    rw [foldl_cons, MemQueue.note, if_pos hi, ih hids]

/-- The first deliveries among some ids that have been handed out, or are the next one. -/
theorem foldl_note {ids : List Nat} {gap : Option Nat}
    (h : ∀ i ∈ ids, i ∈ firsts ∨ gap = some i) :
    ids.foldl MemQueue.note firsts = firsts ∨
      ∃ i ∈ ids, gap = some i ∧ ids.foldl MemQueue.note firsts = firsts ++ [i] := by
  induction ids with
  | nil => exact .inl rfl
  | cons i ids ih =>
    obtain ⟨hi, hids⟩ := forall_mem_cons.mp h
    rw [foldl_cons, MemQueue.note]
    split_ifs with hmem
    · exact (ih hids).imp_right fun ⟨j, hj, hgap⟩ => ⟨j, mem_cons_of_mem i hj, hgap⟩
    · have hgap := hi.resolve_left hmem
      refine .inr ⟨i, mem_cons_self, hgap, foldl_note_of_forall_mem fun j hj => ?_⟩
      obtain hj | hj := hids j hj
      · exact mem_append_left _ hj
      · cases hgap.symm.trans hj
        exact mem_append_right _ (mem_singleton_self i)

namespace Inv

/-- Pending deliveries are handed out again. Of these, the one that the subscription is at may not
have been handed out before. -/
theorem reclaim (h : l.Inv s acked firsts) (now minIdle : Int) {ids : List Nat}
    (hids : ids ⊆ l.pendingIds) :
    (l.reclaim now minIdle).Inv s acked (ids.foldl MemQueue.note firsts) where
  nodup := h.nodup
  live := by
    rw [live_reclaim]
    exact h.live
  shard e he := by
    obtain he | he := mem_append.mp he
    · exact h.shard e (mem_append_left _ he)
    · rw [MemLane.reclaim, map_map] at he
      obtain ⟨p, hp, rfl⟩ := mem_map.mp he
      have hshard := h.shard p.d (mem_append_right _ (mem_map_of_mem hp))
      rw [comp_apply]
      split_ifs <;> exact hshard
  handing e he := (h.handing e he).mono (List.Subset.refl _)
    (fun i hi => .inl (pendingIds_reclaim l now minIdle ▸ hi)) (List.Subset.refl _)
  order hone := by
    obtain ⟨gap, hlog, hgap⟩ := h.order hone
    have hcases (i : Nat) (hi : i ∈ ids) : i ∈ firsts ∨ gap = some i :=
      h.mem_firsts_or_gap hlog (hids hi)
    obtain hfirsts | ⟨i, hi, rfl, hfirsts⟩ := foldl_note hcases
    · rw [hfirsts]
      exact ⟨gap, hlog, hgap⟩
    · rw [hfirsts]
      refine ⟨none, hlog.trans (by simp [chanIds, MemLane.reclaim]), ?_⟩
      have hpump : (l.reclaim now minIdle).pump = l.pump := rfl
      rw [hpump]
      cases hp : l.pump with
      | absent | waiting =>
        rw [hp] at hgap
        cases hgap
      | taken d =>
        -- what was not recorded is not pending
        rw [hp] at hgap
        cases hgap
        have hnodup := h.nodup_live
        rw [hp] at hnodup
        have hmem : d.id ∈ l.chanIds ++ (MemPump.taken d).unrecorded.map fun d => d.id := by
          simp [MemPump.unrecorded]
        exact absurd (hids hi) fun hi => disjoint_of_nodup_append hnodup hmem hi
      | handing d =>
        rw [hp] at hgap
        obtain ⟨hnone, -⟩ | hsome := hgap
        · cases hnone
        · cases hsome
          exact .inl ⟨rfl, mem_append_right _ (mem_singleton_self _)⟩
      | stopped => trivial

theorem of_mem_reclaimed (h : l.Inv s acked firsts) {now minIdle : Int}
    (hd : d ∈ l.reclaimed now minIdle) :
    d.shard = s ∧ d.toDelivery ∈ l.log ∧ d.id ∈ l.pendingIds := by
  obtain ⟨p, hp, rfl⟩ := mem_map.mp hd
  have hp : p ∈ l.pending := (mem_filter.mp hp).1
  have hmem : p.d ∈ l.pending.map PendingDelivery.d := mem_map_of_mem hp
  refine ⟨h.shard p.d (mem_append_right _ hmem), ?_, mem_map.mpr ⟨p, hp, rfl⟩⟩
  exact (h.mem_log_of_mem_live (mem_map_of_mem (mem_append_right _ hmem))).1

end Inv

end MemLane

end Lane

/-! ### The queue -/

namespace MemQueue

variable {μ : Type} {key : μ → String} {w w' : MemQueue μ}

/-- The invariant of the queue. -/
structure Inv (key : μ → String) (w : MemQueue μ) : Prop where
  shards : 0 < w.shards
  lane : ∀ s, (w.lanes s).Inv s w.acked (w.firsts s)
  logged : ∀ s, ∀ x ∈ (w.lanes s).log, x.id ≤ w.seq ∧ shard (key x.message) w.shards = s
  distinct : ∀ s t, ∀ i ∈ (w.lanes s).logIds, i ∈ (w.lanes t).logIds → s = t
  offered : ∀ d ∈ w.offered, d.id ≤ w.seq ∧ d.shard = shard (key d.message) w.shards ∧
    d.id ∉ w.acked ∧ ∀ s, d.id ∉ (w.lanes s).logIds
  nodup : (w.offered.map fun d => d.id).Nodup
  acked : ∀ i ∈ w.acked, i ≤ w.seq
  delivered : ∀ d ∈ w.delivered, (w.lanes d.shard).Recorded w.acked d

private theorem inv_new (n : Nat) : (new n : MemQueue μ).Inv key where
  shards := Nat.lt_of_lt_of_le Nat.zero_lt_one (Nat.le_max_right n 1)
  lane _ := ⟨nodup_nil, .nil, forall_mem_nil _, nofun, fun _ => ⟨none, rfl, rfl⟩⟩
  logged _ := forall_mem_nil _
  distinct _ _ _ hi := absurd hi not_mem_nil
  offered := forall_mem_nil _
  nodup := nodup_nil
  acked := forall_mem_nil _
  delivered := forall_mem_nil _

private theorem filter_shard_eq_self {out : List (MemDelivery μ)} {s : Nat}
    (hout : ∀ d ∈ out, d.shard = s) : out.filter (fun d => d.shard = s) = out :=
  filter_eq_self.mpr fun d hd => decide_eq_true (hout d hd)

private theorem shard_lt (k : String) {n : Nat} (hn : 0 < n) : shard k n < n := by
  rw [shard]
  split_ifs
  · exact hn
  · exact Nat.mod_lt _ hn

private theorem firsts_append {out : List (MemDelivery μ)} {s : Nat}
    (hw : w'.delivered = w.delivered ++ out) (hout : ∀ d ∈ out, d.shard = s) (t : Nat) :
    w'.firsts t =
      if t = s then (out.map fun d => d.id).foldl note (w.firsts s) else w.firsts t := by
  rw [firsts, hw, filter_append, map_append, foldl_append]
  split_ifs with ht
  · rw [ht, filter_shard_eq_self hout]
    rfl
  · have hnil : out.filter (fun d => d.shard = t) = [] :=
      filter_eq_nil_iff.mpr fun d hd heq => ht (of_decide_eq_true heq ▸ hout d hd)
    rw [hnil]
    rfl

section Update

variable {s : Nat} {l : MemLane μ} (hlog : l.log = (w.lanes s).log) (t : Nat)

include hlog

private theorem log_update : (update w.lanes s l t).log = (w.lanes t).log := by
  rw [update_apply]
  split_ifs with ht
  · rw [hlog, ht]
  · rfl

private theorem logIds_update : (update w.lanes s l t).logIds = (w.lanes t).logIds := by
  rw [MemLane.logIds, log_update hlog, MemLane.logIds]

end Update

namespace Inv

variable {s : Nat} {l : MemLane μ} {d : MemDelivery μ}

variable (h : w.Inv key)

include h

theorem recorded_update {acked : List Nat} (hlog : (w.lanes s).log ⊆ l.log)
    (hpending : ∀ i ∈ (w.lanes s).pendingIds, i ∈ l.pendingIds ∨ i ∈ acked)
    (hacked : w.acked ⊆ acked) (hd : d ∈ w.delivered) :
    (update w.lanes s l d.shard).Recorded acked d := by
  rw [update_apply]
  split_ifs with hs
  · subst hs
    exact (h.delivered d hd).mono hlog hpending hacked
  · exact (h.delivered d hd).mono (List.Subset.refl _) (fun i hi => .inl hi) hacked

theorem deliver {out : List (MemDelivery μ)} (hlog : l.log = (w.lanes s).log)
    (hpending : (w.lanes s).pendingIds ⊆ l.pendingIds)
    (hout : ∀ d ∈ out, d.shard = s ∧ l.Recorded w.acked d)
    (hl : l.Inv s w.acked ((out.map fun d => d.id).foldl note (w.firsts s))) :
    Inv key { w.setLane s l with delivered := w.delivered ++ out } := by
  refine ⟨h.shards, fun t => ?_, fun t => ?_, fun t u => ?_, fun d hd => ?_, h.nodup, h.acked,
    fun d hd => ?_⟩
  · rw [firsts_append rfl fun d hd => (hout d hd).1]
    by_cases ht : t = s
    · subst ht
      simpa [setLane] using hl
    · simpa [setLane, ht] using h.lane t
  · simpa only [setLane, log_update hlog] using h.logged t
  · simpa only [setLane, logIds_update hlog] using h.distinct t u
  · simpa only [setLane, logIds_update hlog] using h.offered d hd
  · obtain hd | hd := mem_append.mp hd
    · exact h.recorded_update (hlog ▸ List.Subset.refl _) (fun i hi => .inl (hpending hi))
        (List.Subset.refl _) hd
    · obtain ⟨rfl, hrecorded⟩ := hout d hd
      simpa only [setLane, update_self] using hrecorded

theorem setLane (hlog : l.log = (w.lanes s).log) (hpending : (w.lanes s).pendingIds ⊆ l.pendingIds)
    (hl : l.Inv s w.acked (w.firsts s)) : (w.setLane s l).Inv key := by
  have hinv : Inv key { w.setLane s l with delivered := w.delivered ++ [] } :=
    h.deliver hlog hpending (forall_mem_nil _) hl
  rwa [append_nil] at hinv

theorem id_le_of_mem_logIds {i : Nat} (hi : i ∈ (w.lanes s).logIds) : i ≤ w.seq := by
  obtain ⟨x, hx, rfl⟩ := mem_map.mp hi
  exact (h.logged s x hx).1

theorem draw (m : μ) : Inv key { w with
    seq := w.seq + 1
    offered := w.offered ++
      [{ id := w.seq + 1, message := m, shard := shard (key m) w.shards }] } where
  shards := h.shards
  lane := h.lane
  logged s x hx := (h.logged s x hx).imp_left Nat.le_succ_of_le
  distinct := h.distinct
  offered d hd := by
    obtain hd | hd := mem_append.mp hd
    · exact (h.offered d hd).imp_left Nat.le_succ_of_le
    · rw [mem_singleton.mp hd]
      exact ⟨Nat.le_refl _, rfl, fun hacked => Nat.not_succ_le_self _ (h.acked _ hacked),
        fun s hlog => Nat.not_succ_le_self _ (h.id_le_of_mem_logIds hlog)⟩
  nodup := by
    rw [map_append, map_singleton, ← concat_eq_append]
    refine h.nodup.concat fun hmem => ?_
    obtain ⟨d, hd, heq⟩ := mem_map.mp hmem
    exact Nat.not_succ_le_self _ (heq ▸ (h.offered d hd).1)
  acked i hi := Nat.le_succ_of_le (h.acked i hi)
  delivered := h.delivered

theorem nodup_erase [DecidableEq μ] (hd : d ∈ w.offered) :
    d.id ∉ (w.offered.erase d).map (fun e => e.id) ∧
      ((w.offered.erase d).map fun e => e.id).Nodup :=
  nodup_cons.mp (((perm_cons_erase hd).map _).nodup_iff.mp h.nodup)

theorem cancel [DecidableEq μ] (hd : d ∈ w.offered) :
    Inv key { w with offered := w.offered.erase d } :=
  { h with
    offered := fun e he => h.offered e (mem_of_mem_erase he)
    nodup := (h.nodup_erase hd).2 }

theorem send [DecidableEq μ] (hd : d ∈ w.offered) :
    Inv key { w.setLane d.shard ((w.lanes d.shard).send d) with offered := w.offered.erase d } := by
  obtain ⟨hseq, hshard, hacked, hnew⟩ := h.offered d hd
  have hlogs (t : Nat) (x : Delivery μ)
      (hx : x ∈ (update w.lanes d.shard ((w.lanes d.shard).send d) t).log) :
      x ∈ (w.lanes t).log ∨ t = d.shard ∧ x = d.toDelivery := by
    rw [update_apply] at hx
    split_ifs at hx with ht
    · subst ht
      simpa [MemLane.send] using hx
    · exact .inl hx
  have hids (t i : Nat)
      (hi : i ∈ (update w.lanes d.shard ((w.lanes d.shard).send d) t).logIds) :
      i ∈ (w.lanes t).logIds ∨ t = d.shard ∧ i = d.id := by
    obtain ⟨x, hx, rfl⟩ := mem_map.mp hi
    obtain hx | ⟨ht, rfl⟩ := hlogs t x hx
    · exact .inl (mem_map_of_mem hx)
    · exact .inr ⟨ht, rfl⟩
  refine ⟨h.shards, fun t => ?_, fun t x hx => ?_, fun t u i ht hu => ?_, fun e he => ?_,
    (h.nodup_erase hd).2, h.acked, fun e he => ?_⟩
  · change (update w.lanes d.shard _ t).Inv t w.acked (w.firsts t)
    rw [update_apply]
    split_ifs with ht
    · subst ht
      exact (h.lane _).send rfl (hnew _) hacked
    · exact h.lane t
  · obtain hx | ⟨rfl, rfl⟩ := hlogs t x hx
    · exact h.logged t x hx
    · exact ⟨hseq, hshard.symm⟩
  · obtain ht | ⟨rfl, rfl⟩ := hids t i ht <;> obtain hu | ⟨rfl, hi⟩ := hids u _ hu
    · exact h.distinct t u i ht hu
    · exact absurd (hi ▸ ht) (hnew t)
    · exact absurd hu (hnew u)
    · rfl
  · obtain ⟨hle, heshard, heacked, henew⟩ := h.offered e (mem_of_mem_erase he)
    refine ⟨hle, heshard, heacked, fun t ht => ?_⟩
    obtain ht | ⟨-, heq⟩ := hids t e.id ht
    · exact henew t ht
    · exact (h.nodup_erase hd).1 (heq ▸ mem_map_of_mem he)
  · exact h.recorded_update (subset_append_left _ _) (fun i hi => .inl hi)
      (List.Subset.refl _) he

theorem ack (hd : d ∈ w.delivered) : Inv key
    { w.setLane d.shard ((w.lanes d.shard).remove d.id) with acked := w.acked ++ [d.id] } := by
  have hrecorded := h.delivered d hd
  have hmem : d.id ∈ (w.lanes d.shard).logIds := mem_map_of_mem hrecorded.1
  have hsame : ((w.lanes d.shard).remove d.id).log = (w.lanes d.shard).log := rfl
  refine ⟨h.shards, fun t => ?_, fun t => ?_, fun t u => ?_, fun e he => ?_, h.nodup,
    fun i hi => ?_, fun e he => ?_⟩
  · change (update w.lanes d.shard _ t).Inv t (w.acked ++ [d.id]) (w.firsts t)
    rw [update_apply]
    split_ifs with ht
    · subst ht
      exact (h.lane _).ack hrecorded
    · exact (h.lane t).ack_other fun hi => ht (h.distinct _ _ _ hi hmem)
  · simpa only [MemQueue.setLane, log_update hsame] using h.logged t
  · simpa only [MemQueue.setLane, logIds_update hsame] using h.distinct t u
  · obtain ⟨hle, heshard, heacked, henew⟩ := h.offered e he
    refine ⟨hle, heshard, fun hi => ?_, fun t => ?_⟩
    · obtain hi | hi := mem_append.mp hi
      · exact heacked hi
      · exact henew _ (mem_singleton.mp hi ▸ hmem)
    · simpa only [MemQueue.setLane, logIds_update hsame] using henew t
  · obtain hi | hi := mem_append.mp hi
    · exact h.acked i hi
    · rw [mem_singleton.mp hi]
      exact h.id_le_of_mem_logIds hmem
  · exact h.recorded_update (List.Subset.refl _) (MemLane.pendingIds_remove _ d.id)
      (subset_append_left _ _) he

theorem hand (hpump : (w.lanes s).pump = .handing d) : Inv key
    { w.setLane s { w.lanes s with pump := .waiting } with delivered := w.delivered ++ [d] } := by
  refine h.deliver rfl (List.Subset.refl _) (forall_mem_singleton.mpr ?_)
    ((h.lane s).hand hpump)
  have hshard := (h.lane s).shard
  rw [hpump] at hshard
  exact ⟨hshard d (by simp [MemPump.held]), (h.lane s).handing d hpump⟩

theorem reclaim {now minIdle : Int} {out : List (MemDelivery μ)}
    (hout : out.Perm ((w.lanes s).reclaimed now minIdle)) : Inv key
    { w.setLane s ((w.lanes s).reclaim now minIdle) with delivered := w.delivered ++ out } := by
  have hids := MemLane.pendingIds_reclaim (w.lanes s) now minIdle
  have hof (d : MemDelivery μ) (hd : d ∈ out) := (h.lane s).of_mem_reclaimed (hout.mem_iff.mp hd)
  refine h.deliver rfl (hids ▸ List.Subset.refl _) (fun d hd => ?_)
    ((h.lane s).reclaim now minIdle fun i hi => ?_)
  · obtain ⟨hshard, hlog, hpending⟩ := hof d hd
    exact ⟨hshard, hlog, .inl (hids ▸ hpending)⟩
  · obtain ⟨d, hd, rfl⟩ := mem_map.mp hi
    exact (hof d hd).2.2

/-- Every step keeps the invariant. -/
theorem step [DecidableEq μ] {lbl : MemLabel μ} (hstep : MemQueue.step key w lbl = some w') :
    w'.Inv key := by
  cases lbl with
  | draw m =>
    cases hstep
    exact h.draw m
  | send d =>
    rw [MemQueue.step] at hstep
    split_ifs at hstep with hd
    cases hstep
    exact h.send hd.1
  | cancel d =>
    rw [MemQueue.step] at hstep
    split_ifs at hstep with hd
    cases hstep
    exact h.cancel hd
  | subscribe s =>
    rw [MemQueue.step] at hstep
    split_ifs at hstep with hs
    split at hstep
    · next hpump =>
      cases hstep
      exact h.setLane rfl (List.Subset.refl _) ((h.lane s).subscribe hpump)
    · next hpump =>
      cases hstep
      exact h.setLane rfl (List.Subset.refl _) ((h.lane s).resubscribe hpump)
    · cases hstep
  | take s =>
    rw [MemQueue.step] at hstep
    split at hstep
    · next d rest hpump hchan =>
      cases hstep
      exact h.setLane rfl (List.Subset.refl _) ((h.lane s).take hpump hchan)
    · cases hstep
  | record s now =>
    rw [MemQueue.step] at hstep
    split at hstep
    · next d hpump =>
      cases hstep
      exact h.setLane rfl (MemLane.pendingIds_put _ ⟨d, now⟩) ((h.lane s).record hpump now)
    · cases hstep
  | hand s =>
    rw [MemQueue.step] at hstep
    split at hstep
    · next d hpump =>
      cases hstep
      exact h.hand hpump
    · cases hstep
  | stop s =>
    rw [MemQueue.step] at hstep
    split at hstep
    · next hpump =>
      cases hstep
      exact h.setLane rfl (List.Subset.refl _) ((h.lane s).stop (.inl hpump))
    · next d hpump =>
      cases hstep
      exact h.setLane rfl (List.Subset.refl _) ((h.lane s).stop (.inr ⟨d, hpump⟩))
    · cases hstep
  | ack d =>
    rw [MemQueue.step] at hstep
    split_ifs at hstep with hd
    cases hstep
    exact h.ack hd
  | reclaim s now minIdle out =>
    rw [MemQueue.step] at hstep
    split_ifs at hstep with hout
    cases hstep
    exact h.reclaim hout.2

/-- So does every run. -/
theorem run [DecidableEq μ] {ls : List (MemLabel μ)} (hrun : MemQueue.run key w ls = some w') :
    w'.Inv key := by
  induction ls generalizing w with
  | nil =>
    cases hrun
    exact h
  | cons lbl ls ih =>
    rw [MemQueue.run, foldlM_cons] at hrun
    obtain ⟨w₁, hstep, hrun⟩ := Option.bind_eq_some_iff.mp hrun
    exact ih (h.step hstep) hrun

/-! ### Places -/

variable {x : Delivery μ}

theorem shard_of_mem_live (hx : x ∈ (w.lanes s).live) : shard (key x.message) w.shards = s :=
  (h.logged s x ((h.lane s).mem_log_of_mem_live hx).1).2

theorem lane_eq {t : Nat} (hx : x ∈ (w.lanes s).log) (ht : x ∈ (w.lanes t).live) : t = s :=
  (h.shard_of_mem_live ht).symm.trans (h.logged s x hx).2

theorem id_mem_idsAt (hx : x ∈ (w.lanes s).log) {place : Place} (hat : w.At key x place) :
    x.id ∈ (w.lanes s).idsAt w.acked place := by
  cases place with
  | buffered =>
    obtain ⟨d, hd, rfl⟩ := hat
    rw [(h.logged s _ hx).2] at hd
    exact mem_map.mpr ⟨d, hd, rfl⟩
  | taken =>
    obtain ⟨t, d, hd, rfl⟩ := hat
    obtain rfl := h.lane_eq hx (MemLane.mem_live_iff.mpr (.inr (.inl ⟨d, hd, rfl⟩)))
    rw [MemLane.idsAt, hd]
    exact mem_singleton_self _
  | pending =>
    obtain ⟨t, p, hp, rfl⟩ := hat
    obtain rfl := h.lane_eq hx (MemLane.mem_live_iff.mpr (.inr (.inr ⟨p, hp, rfl⟩)))
    exact mem_map.mpr ⟨p, hp, rfl⟩
  | acked => exact hat

theorem exists_at (hx : x ∈ (w.lanes s).log) : ∃ place, w.At key x place := by
  by_cases hacked : x.id ∈ w.acked
  · exact ⟨.acked, hacked⟩
  · have hlive : x ∈ (w.lanes s).live :=
      (h.lane s).live.mem_iff.mpr (mem_filter.mpr ⟨hx, decide_eq_true hacked⟩)
    obtain hchan | ⟨d, hd⟩ | hpending := MemLane.mem_live_iff.mp hlive
    · refine ⟨.buffered, ?_⟩
      rwa [At, (h.logged s x hx).2]
    · exact ⟨.taken, s, d, hd⟩
    · exact ⟨.pending, s, hpending⟩

theorem existsUnique_at (hx : x ∈ (w.lanes s).log) : ∃! place, w.At key x place := by
  obtain ⟨place, hat⟩ := h.exists_at hx
  exact ⟨place, hat, fun other hother =>
    (h.lane s).place_unique (h.id_mem_idsAt hx hother) (h.id_mem_idsAt hx hat)⟩

/-! ### The backlog -/

theorem nodup_live (s : Nat) : (w.lanes s).live.Nodup := by
  have hnodup := (h.lane s).nodup_live
  rw [← MemLane.map_id_live] at hnodup
  exact hnodup.of_map _

theorem ncard_places {f : Nat → List (Delivery μ)} (hf : ∀ s, (f s).Sublist (w.lanes s).live) :
    {x | ∃ s, x ∈ f s}.ncard = ((List.range w.shards).map fun s => (f s).length).sum := by
  classical
  have hshard (s : Nat) (x : Delivery μ) (hx : x ∈ f s) : shard (key x.message) w.shards = s :=
    h.shard_of_mem_live ((hf s).subset hx)
  have hset : {x | ∃ s, x ∈ f s} = ((List.range w.shards).flatMap f).toFinset := by
    ext x
    simp only [Set.mem_ofPred_eq, coe_toFinset, mem_flatMap, mem_range]
    exact exists_congr fun s => ⟨fun hx => ⟨hshard s x hx ▸ shard_lt _ h.shards, hx⟩, And.right⟩
  have hnodup : ((List.range w.shards).flatMap f).Nodup := by
    refine nodup_flatMap.mpr ⟨fun s _ => (h.nodup_live s).sublist (hf s), ?_⟩
    refine nodup_range.imp fun hne x hx hx' => hne ?_
    rw [← hshard _ x hx, hshard _ x hx']
  rw [hset, Set.ncard_coe_finset, toFinset_card_of_nodup hnodup, length_flatMap]

theorem depth_eq :
    w.depth = {x | w.At key x .buffered}.ncard + {x | w.At key x .pending}.ncard := by
  have hchan (s : Nat) :
      ((w.lanes s).chan.map MemDelivery.toDelivery).Sublist (w.lanes s).live := by
    rw [MemLane.live_eq, map_append, append_assoc]
    exact sublist_append_left _ _
  have hpend (s : Nat) : ((w.lanes s).pending.map fun p => p.d.toDelivery).Sublist
      (w.lanes s).live := by
    rw [MemLane.live_eq]
    exact sublist_append_right _ _
  have hbuffered : {x | w.At key x .buffered} =
      {x | ∃ s, x ∈ (w.lanes s).chan.map MemDelivery.toDelivery} := by
    ext x
    refine ⟨fun hat => ⟨_, mem_map.mpr hat⟩, fun ⟨s, hx⟩ => ?_⟩
    have hs := h.shard_of_mem_live ((hchan s).subset hx)
    rw [Set.mem_ofPred_eq, At, hs]
    exact mem_map.mp hx
  have hpending : {x | w.At key x .pending} =
      {x | ∃ s, x ∈ (w.lanes s).pending.map fun p => p.d.toDelivery} :=
    Set.ext fun x => exists_congr fun s => mem_map.symm
  rw [hbuffered, hpending, h.ncard_places hchan, h.ncard_places hpend, ← sum_map_add, depth]
  simp only [length_map]

end Inv

/-- Run the steps of `Publish`, `Subscribe`, `Ack` and `Reclaim` in any order. What has been
published is in one place, and there only once; what is reclaimed has not been acknowledged; a shard
that was subscribed to once hands out its messages for the first time in the order in which they
were buffered; and the depth is the number of messages that are buffered or pending. -/
theorem memory_queue_partition [DecidableEq μ] {n : Nat} {ls : List (MemLabel μ)}
    (h : run key (new n) ls = some w) :
    (∀ s, ∀ x ∈ (w.lanes s).log, ∃! place, w.At key x place) ∧
    (∀ s, (w.lanes s).live.Nodup) ∧
    (∀ s now minIdle out w', step key w (.reclaim s now minIdle out) = some w' →
      ∀ d ∈ out, d.id ∉ w.acked) ∧
    (∀ s, (w.lanes s).restarted = false → w.firsts s <+: (w.lanes s).log.map fun x => x.id) ∧
    w.depth = {x | w.At key x .buffered}.ncard + {x | w.At key x .pending}.ncard := by
  have hinv := (inv_new n).run h
  refine ⟨fun s x hx => hinv.existsUnique_at hx, hinv.nodup_live,
    fun s now minIdle out w' hstep d hd => ?_, fun s hone => ?_, hinv.depth_eq⟩
  · rw [step] at hstep
    split_ifs at hstep with hout
    have hmem := (hinv.lane s).of_mem_reclaimed (hout.2.mem_iff.mp hd)
    exact (hinv.lane s).id_not_acked (mem_append_right _ hmem.2.2)
  · obtain ⟨gap, hlog, -⟩ := (hinv.lane s).order hone
    exact ⟨gap.toList ++ (w.lanes s).chanIds, by rw [← append_assoc]; exact hlog.symm⟩

/-- Of two messages, the first one is reclaimed before it is handed out, and acknowledged; the
second one is taken out of the channel. -/
def reclaimFirst : List (MemLabel String) :=
  [.draw "a", .draw "b", .send ⟨⟨1, "a"⟩, 0, 1⟩, .send ⟨⟨2, "b"⟩, 0, 1⟩, .subscribe 0, .take 0,
    .record 0 5, .reclaim 0 9 2 [⟨⟨1, "a"⟩, 0, 2⟩], .hand 0, .take 0, .ack ⟨⟨1, "a"⟩, 0, 2⟩]

/-- A run that ends with a delivery taken and not recorded. -/
theorem memory_queue_partition_taken : ∃ w : MemQueue String,
    run id (new 1) reclaimFirst = some w ∧
      (∃! place, w.At id ⟨2, "b"⟩ place) ∧ w.firsts 0 <+: [1, 2] := by
  refine ⟨_, rfl, ?_⟩
  have h := @memory_queue_partition String id _ _ 1 reclaimFirst rfl
  exact ⟨h.1 0 ⟨2, "b"⟩ (by decide), h.2.2.2.1 0 rfl⟩

-- A subscription that stops leaves a message behind, and the next one does not wait for it.
example : (run id (new 1) [.draw "a", .draw "b", .send ⟨⟨1, "a"⟩, 0, 1⟩, .send ⟨⟨2, "b"⟩, 0, 1⟩,
    .subscribe 0, .take 0, .record 0 5, .stop 0, .subscribe 0, .take 0, .record 0 6, .hand 0,
    .reclaim 0 9 4 [⟨⟨1, "a"⟩, 0, 2⟩]]).map (fun w => w.firsts 0) = some [2, 1] := by
  decide

end MemQueue

end Letopis
