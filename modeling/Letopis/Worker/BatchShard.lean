import Letopis.Queue.Consumer

/-!
# The batch worker on a shard

Two goroutines take part. The one that `Subscribe` has started takes the deliveries of a shard out
of the queue and hands them on; when the context is cancelled or the queue is closed it returns, and
closes the channel that it hands them on by. The other one, `runShard`, collects what it is handed
and passes it to `flush` when there is enough of it, when the linger timer fires, and when the
context is cancelled. It waits for whichever of these comes first; if several are ready, any one of
them may be picked.

When the channel of the deliveries is closed, `runShard` returns at once. What it has collected by
then is dropped, although it was received. The channel is closed for the same reason for which the
context is cancelled, so both are ready then (`shutdown_drops_buffer`). That a run ends in this way
is the only reason for which something is lost (`flushed_once_iff`).
-/

namespace Letopis

open List

/-! ### The two goroutines -/

/-- How many deliveries a shard of the memory queue buffers. -/
def shardCapacity : Nat := 1024

/-- The number of deliveries that make up a batch if the options name none. -/
def defaultBatchSize : Int := 500

/-- `withDefaults`: the batch size in use. -/
def batchSize (size : Int) : Int := if size ≤ 0 then defaultBatchSize else size

/-- The goroutine of `Subscribe`. -/
inductive Pump (μ : Type) where
  | waiting
  /-- In the second one, with a delivery to hand on. -/
  | holding (d : Delivery μ)
  | exited

/-- The delivery that the subscription holds. -/
def Pump.hand {μ : Type} : Pump μ → List (Delivery μ)
  | .holding d => [d]
  | _ => []

/-- The state of the flush timer. -/
inductive Timer where
  | stopped
  | running
  | fired
  deriving DecidableEq

namespace BatchShard

variable {μ : Type}

/-- A shard of the queue with the goroutines that empty it. -/
structure State (μ : Type) where
  seq : Nat := 0
  /-- What has been published and not been taken. -/
  buffered : List (Delivery μ) := []
  /-- What has been taken and not been acknowledged. -/
  pending : List (Delivery μ) := []
  cancelled : Bool := false
  closed : Bool := false
  pump : Pump μ := .waiting
  timer : Timer := .stopped
  buf : List (Delivery μ) := []
  returned : Bool := false
  /-- For the record: the deliveries that `runShard` has received, in order. -/
  received : List (Delivery μ) := []
  /-- For the record: the batches that were passed to `flush`, in order. -/
  flushed : List (List (Delivery μ)) := []

/-- The steps of the shard and of what is around it. -/
inductive Label (μ : Type) where
  | publish (m : μ)
  | cancel
  | close
  | expire
  /-- A tick from before the timer was stopped or set anew may come late. -/
  | lateTick
  /-- The subscription takes the next delivery. -/
  | take
  /-- The subscription sees that the context is cancelled or the queue is closed. -/
  | quit
  | receive
  /-- `runShard` sees that the channel of the deliveries is closed. -/
  | seeClosed
  /-- `runShard` sees that the context is cancelled. -/
  | seeDone
  /-- `runShard` sees the tick of the timer. -/
  | seeTick

namespace State

/-- Pass what has been collected to `flush`, which acknowledges all of it. The timer is stopped and
its tick thrown away. -/
def flush (s : State μ) : State μ :=
  if s.buf.isEmpty then s
  else
    { s with
      flushed := s.flushed ++ [s.buf]
      pending := s.pending.filter fun d => d.id ∉ s.buf.map Delivery.id
      buf := []
      timer := .stopped }

/-- Collect a delivery. The first one sets the timer, and the last one of a batch flushes it. -/
def collect (size : Int) (s : State μ) (d : Delivery μ) : State μ :=
  let s' :=
    { s with
      timer := if s.buf.isEmpty then .running else s.timer
      buf := s.buf ++ [d]
      received := s.received ++ [d] }
  if size ≤ s'.buf.length then s'.flush else s'

/-- A case of the `select` of `runShard`. -/
def select (size : Int) (s : State μ) : Label μ → State μ
  | .receive =>
    match s.pump with
    | .holding d => ({ s with pump := .waiting } : State μ).collect size d
    | _ => s
  | .seeClosed =>
    match s.pump with
    -- the source returns here without a flush
    | .exited => { s with returned := true }
    | _ => s
  | .seeDone => if s.cancelled then { s.flush with returned := true } else s
  | .seeTick =>
    match s.timer with
    | .fired => ({ s with timer := .stopped } : State μ).flush
    | _ => s
  | _ => s

end State

/-- One step. What cannot happen changes nothing. -/
def step (size : Int) (s : State μ) : Label μ → State μ
  | .publish m =>
    -- a publisher that has found the queue open may still send after it was closed
    if s.buffered.length < shardCapacity then
      { s with seq := s.seq + 1, buffered := s.buffered ++ [⟨s.seq, m⟩] }
    else s
  | .cancel => { s with cancelled := true }
  | .close => { s with closed := true }
  | .expire => if s.timer = .running then { s with timer := .fired } else s
  | .lateTick => { s with timer := .fired }
  | .take =>
    match s.pump, s.buffered with
    | .waiting, d :: rest =>
      { s with
        pump := .holding d
        buffered := rest
        pending := if s.closed then s.pending else s.pending ++ [d] }
    | _, _ => s
  | .quit => if s.cancelled || s.closed then { s with pump := .exited } else s
  | l => if s.returned then s else s.select size l

/-- Run a list of steps from left to right. -/
def run (size : Int) (s : State μ) (ls : List (Label μ)) : State μ := ls.foldl (step size) s

/-- Every delivery that `runShard` has received was passed to `flush` exactly once. -/
def State.FlushedOnce (s : State μ) : Prop :=
  ∀ d ∈ s.received, (s.flushed.flatten.map Delivery.id).count d.id = 1

instance (s : State μ) : Decidable s.FlushedOnce :=
  inferInstanceAs (Decidable (∀ d ∈ s.received, _))

/-- `runShard` returns because the channel is closed, with deliveries collected. -/
def Drops (s : State μ) (l : Label μ) : Prop :=
  l = .seeClosed ∧ s.returned = false ∧ s.pump = .exited ∧ s.buf ≠ []

/-- No step of a run drops deliveries. -/
def Keeps (size : Int) : State μ → List (Label μ) → Prop
  | _, [] => True
  | s, l :: ls => ¬Drops s l ∧ Keeps size (step size s l) ls

/-! ### Flushing and collecting -/

namespace State

variable (size : Int) (s : State μ) (d : Delivery μ)

@[simp] theorem flush_seq : s.flush.seq = s.seq := by rw [flush]; split <;> rfl

@[simp] theorem flush_buffered : s.flush.buffered = s.buffered := by rw [flush]; split <;> rfl

@[simp] theorem flush_pump : s.flush.pump = s.pump := by rw [flush]; split <;> rfl

@[simp] theorem flush_returned : s.flush.returned = s.returned := by rw [flush]; split <;> rfl

@[simp] theorem flush_received : s.flush.received = s.received := by rw [flush]; split <;> rfl

@[simp]
private theorem flush_buf : s.flush.buf = [] := by
  rw [flush]
  split_ifs with h
  · exact List.isEmpty_iff.1 h
  · rfl

@[simp]
private theorem flatten_flush : s.flush.flushed.flatten = s.flushed.flatten ++ s.buf := by
  rw [flush]
  split_ifs with h
  · simp [List.isEmpty_iff.1 h]
  · simp

@[simp] theorem collect_seq : (s.collect size d).seq = s.seq := by
  rw [collect]; dsimp only; split <;> simp

@[simp] theorem collect_buffered : (s.collect size d).buffered = s.buffered := by
  rw [collect]; dsimp only; split <;> simp

@[simp] theorem collect_pump : (s.collect size d).pump = s.pump := by
  rw [collect]; dsimp only; split <;> simp

@[simp] theorem collect_returned : (s.collect size d).returned = s.returned := by
  rw [collect]; dsimp only; split <;> simp

@[simp] theorem collect_received : (s.collect size d).received = s.received ++ [d] := by
  rw [collect]; dsimp only; split <;> simp

private theorem flatten_collect :
    (s.collect size d).flushed.flatten ++ (s.collect size d).buf =
      s.flushed.flatten ++ s.buf ++ [d] := by
  rw [collect]; dsimp only; split <;> simp

end State

/-! ### Deliveries are neither lost nor doubled while the worker runs -/

/-- All deliveries that were received or may be, in the order of publication. -/
def State.line (s : State μ) : List (Delivery μ) := s.received ++ s.pump.hand ++ s.buffered

private theorem line_step (size : Int) (s : State μ) (l : Label μ) :
    ((step size s l).line.Sublist s.line ∧ (step size s l).seq = s.seq) ∨
      ∃ m, (step size s l).line = s.line ++ [⟨s.seq, m⟩] ∧ (step size s l).seq = s.seq + 1 := by
  cases l with
  | publish m =>
    rw [step]
    split_ifs
    · exact .inr ⟨m, by simp [State.line], rfl⟩
    · exact .inl ⟨List.Sublist.refl _, rfl⟩
  | cancel | close | lateTick => exact .inl ⟨List.Sublist.refl _, rfl⟩
  | expire =>
    refine .inl ?_
    rw [step]
    split_ifs <;> exact ⟨List.Sublist.refl _, rfl⟩
  | take =>
    refine .inl ?_
    rw [step]
    split
    · next d rest hpump hbuffered => simp [State.line, hpump, hbuffered, Pump.hand]
    · exact ⟨List.Sublist.refl _, rfl⟩
  | quit =>
    refine .inl ?_
    rw [step]
    split_ifs
    · -- a delivery in hand is let go of
      refine ⟨?_, rfl⟩
      simp only [State.line, Pump.hand, append_nil]
      exact (sublist_append_left s.received s.pump.hand).append_right s.buffered
    · exact ⟨List.Sublist.refl _, rfl⟩
  | receive =>
    refine .inl ?_
    simp only [step, State.select]
    split_ifs
    · exact ⟨List.Sublist.refl _, rfl⟩
    split
    · next d hpump => simp [State.line, hpump, Pump.hand]
    · exact ⟨List.Sublist.refl _, rfl⟩
  | seeClosed | seeDone | seeTick =>
    refine .inl ?_
    simp only [step, State.select]
    split_ifs <;> try split
    all_goals simp [State.line]

/-- What holds of a shard at any time. -/
structure Accounted (s : State μ) : Prop where
  /-- What was received is flushed or still collected. -/
  flatten_append_buf : s.flushed.flatten ++ s.buf = s.received
  ascending : (s.line.map Delivery.id).Pairwise (· < ·)
  lt_seq : ∀ d ∈ s.line, d.id < s.seq

private theorem accounted_start : Accounted ({} : State μ) :=
  ⟨rfl, List.Pairwise.nil, fun _ hd => absurd hd not_mem_nil⟩

variable {s : State μ}

private theorem flatten_append_buf_step (size : Int) (l : Label μ)
    (h : s.flushed.flatten ++ s.buf = s.received) :
    (step size s l).flushed.flatten ++ (step size s l).buf = (step size s l).received := by
  cases l with
  | publish | expire | take | quit =>
    rw [step]
    split <;> exact h
  | cancel | close | lateTick => exact h
  | receive =>
    simp only [step, State.select]
    split_ifs
    · exact h
    split
    · rw [State.flatten_collect, State.collect_received, ← h]
    · exact h
  | seeClosed | seeDone | seeTick =>
    simp only [step, State.select]
    split_ifs <;> try split
    all_goals simp [h]

theorem Accounted.step (h : Accounted s) (size : Int) (l : Label μ) :
    Accounted (step size s l) := by
  refine ⟨flatten_append_buf_step size l h.flatten_append_buf, ?_, ?_⟩
  · rcases line_step size s l with ⟨hline, -⟩ | ⟨m, hline, -⟩
    · exact h.ascending.sublist (hline.map _)
    · rw [hline, map_append, pairwise_append]
      refine ⟨h.ascending, pairwise_singleton _ _, fun i hi j hj => ?_⟩
      obtain ⟨d, hd, rfl⟩ := mem_map.1 hi
      rw [map_singleton, mem_singleton] at hj
      exact hj ▸ h.lt_seq d hd
  · intro d hd
    rcases line_step size s l with ⟨hline, hseq⟩ | ⟨m, hline, hseq⟩
    · exact hseq ▸ h.lt_seq d (hline.subset hd)
    · rw [hline, mem_append, mem_singleton] at hd
      rw [hseq]
      rcases hd with hd | rfl
      · exact Nat.lt_succ_of_lt (h.lt_seq d hd)
      · exact Nat.lt_succ_self _

/-- Every delivery that was received is flushed once, exactly if none is left in the buffer. -/
theorem Accounted.flushedOnce_iff (h : Accounted s) : s.FlushedOnce ↔ s.buf = [] := by
  have hids : (s.received.map Delivery.id).Nodup := by
    refine List.Pairwise.imp Nat.ne_of_lt (h.ascending.sublist (List.Sublist.map _ ?_))
    rw [State.line, append_assoc]
    exact sublist_append_left _ _
  constructor
  · intro honce
    -- a delivery in the buffer would have its id a second time among the flushed ones
    rw [eq_nil_iff_forall_not_mem]
    intro d hd
    have hmem : d.id ∈ s.flushed.flatten.map Delivery.id := by
      refine count_pos_iff.1 ?_
      rw [honce d (h.flatten_append_buf ▸ mem_append_right _ hd)]
      exact Nat.one_pos
    rw [← h.flatten_append_buf, map_append] at hids
    exact disjoint_of_nodup_append hids hmem (mem_map_of_mem hd)
  · intro hbuf d hd
    have hflat : s.flushed.flatten = s.received := by
      rw [← h.flatten_append_buf, hbuf, append_nil]
    rw [hflat]
    exact count_eq_one_of_mem hids (mem_map_of_mem hd)

/-! ### Returning -/

private theorem step_of_returned (size : Int) (l : Label μ) (h : s.returned = true) :
    (step size s l).returned = true ∧ (step size s l).buf = s.buf := by
  cases l with
  | publish | expire | take | quit =>
    rw [step]
    split <;> exact ⟨h, rfl⟩
  | cancel | close | lateTick => exact ⟨h, rfl⟩
  | receive | seeClosed | seeDone | seeTick => simp [step, h]

/-- `runShard` returns with an empty buffer, unless it drops what it has collected. -/
theorem returned_step (size : Int) (l : Label μ) (h : s.returned = false)
    (hret : (step size s l).returned = true) : Drops s l ∨ (step size s l).buf = [] := by
  cases l with
  | publish | expire | take | quit =>
    rw [step] at hret
    split at hret <;> exact absurd (h.symm.trans hret) Bool.false_ne_true
  | cancel | close | lateTick => exact absurd (h.symm.trans hret) Bool.false_ne_true
  | receive =>
    simp only [step, State.select, h, Bool.false_eq_true, if_false] at hret
    split at hret <;> simp [h] at hret
  | seeClosed =>
    simp only [step, State.select, h, Bool.false_eq_true, if_false] at hret ⊢
    rcases hpump : s.pump with _ | d | _
    · simp [hpump, h] at hret
    · simp [hpump, h] at hret
    · by_cases hbuf : s.buf = []
      · exact .inr hbuf
      · exact .inl ⟨rfl, h, hpump, hbuf⟩
  | seeDone =>
    simp only [step, State.select, h, Bool.false_eq_true, if_false] at hret ⊢
    split_ifs at hret ⊢ with hcancelled
    · exact .inr s.flush_buf
    · exact absurd (h.symm.trans hret) Bool.false_ne_true
  | seeTick =>
    simp only [step, State.select, h, Bool.false_eq_true, if_false] at hret
    split at hret <;> simp [h] at hret

theorem Drops.step {l : Label μ} (size : Int) (h : Drops s l) :
    (step size s l).returned = true ∧ (step size s l).buf ≠ [] := by
  obtain ⟨rfl, hret, hpump, hbuf⟩ := h
  simp only [BatchShard.step, State.select, hret, hpump]
  exact ⟨rfl, hbuf⟩

/-! ### Whole runs -/

private theorem accounted_run (size : Int) (ls : List (Label μ)) (h : Accounted s) :
    Accounted (run size s ls) := by
  induction ls generalizing s with
  | nil => exact h
  | cons l ls ih => exact ih (h.step size l)

private theorem run_of_returned (size : Int) (ls : List (Label μ)) (h : s.returned = true) :
    (run size s ls).returned = true ∧ (run size s ls).buf = s.buf := by
  induction ls generalizing s with
  | nil => exact ⟨h, rfl⟩
  | cons l ls ih =>
    obtain ⟨hret, hbuf⟩ := step_of_returned size l h
    obtain ⟨hret', hbuf'⟩ := ih hret
    exact ⟨hret', hbuf'.trans hbuf⟩

/-- A run that starts before the return ends with deliveries in the buffer of a worker that has
returned, exactly if one of its steps drops them. -/
theorem keeps_iff (size : Int) (ls : List (Label μ)) (h : s.returned = true → s.buf = []) :
    Keeps size s ls ↔ ((run size s ls).returned = true → (run size s ls).buf = []) := by
  induction ls generalizing s with
  | nil => exact ⟨fun _ => h, fun _ => trivial⟩
  | cons l ls ih =>
    rw [Keeps]
    by_cases hdrop : Drops s l
    · -- the buffer stays as it was dropped
      obtain ⟨hret, hbuf⟩ := hdrop.step size
      obtain ⟨hret', hbuf'⟩ := run_of_returned size ls hret
      exact ⟨fun hk => absurd hdrop hk.1, fun hend => absurd (hbuf'.symm.trans (hend hret')) hbuf⟩
    · have hstep : (step size s l).returned = true → (step size s l).buf = [] := by
        intro hret
        rcases hs : s.returned with _ | _
        · exact (returned_step size l hs hret).resolve_left hdrop
        · rw [(step_of_returned size l hs).2, h hs]
      rw [ih hstep]
      exact ⟨fun hk => hk.2, fun hend => ⟨hdrop, hend⟩⟩

end BatchShard

open BatchShard

/-- In a run of the two goroutines on a shard, everything that `runShard` has received before it
returns is passed to `flush` exactly once, if and only if `runShard` does not see that the channel
of the deliveries is closed while it has deliveries collected. -/
theorem flushed_once_iff {μ : Type} (size : Int) (ls : List (Label μ)) :
    ((run (batchSize size) {} ls).returned = true → (run (batchSize size) {} ls).FlushedOnce) ↔
      Keeps (batchSize size) {} ls := by
  rw [keeps_iff (batchSize size) ls (fun _ => rfl),
    (accounted_run (batchSize size) ls accounted_start).flushedOnce_iff]

/-- A delivery is received, and the context is cancelled before the batch is full. The subscription
sees this first; of the two cases that are ready then, the worker picks the closed channel. It
returns and the delivery is not flushed. -/
theorem shutdown_drops_buffer :
    let s := run (batchSize 0) ({} : State String)
      [.publish "deals/42", .take, .receive, .cancel, .quit, .seeClosed]
    s.returned = true ∧ s.received = [⟨0, "deals/42"⟩] ∧ s.flushed = [] ∧ ¬s.FlushedOnce := by
  decide

end Letopis
